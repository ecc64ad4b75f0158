import ObsidianMcp.Library.Text

/-! # Structured values

JSON and YAML values as the serialization crates expose them. The YAML reader and writer
themselves are not part of the repository: they are the fields of `SerdeYaml`, and what
the code relies on is named below. -/

namespace ObsidianMcp

inductive Number where
  | posInt (value : ℕ)
  | negInt (value : ℤ)
  | float (bits : UInt64)
  deriving DecidableEq

/-- A JSON value. Object fields are in key order, one field a key. -/
inductive Json where
  | null
  | bool (value : Bool)
  | number (value : Number)
  | string (value : Text)
  | array (items : List Json)
  | object (fields : List (Text × Json))

/-- A YAML value. Mappings keep insertion order and have string keys; `tagged` carries an
application tag, which JSON cannot express. -/
inductive Yaml where
  | null
  | bool (value : Bool)
  | number (value : Number)
  | string (value : Text)
  | sequence (items : List Yaml)
  | mapping (entries : List (Text × Yaml))
  | tagged (tag : Text) (value : Yaml)

/-! ## Objects -/

abbrev Fields := List (Text × Json)

namespace Fields

def get (key : Text) (fields : Fields) : Option Json :=
  fields.lookup key

def insert (key : Text) (value : Json) : Fields → Fields
  | [] => [(key, value)]
  | (k, v) :: rest =>
      if key = k then (key, value) :: rest
      else if key < k then (key, value) :: (k, v) :: rest
      else (k, v) :: insert key value rest

def remove (key : Text) (fields : Fields) : Fields :=
  fields.filter fun field => field.1 ≠ key

def containsKey (key : Text) (fields : Fields) : Bool :=
  (get key fields).isSome

theorem insert_ne_nil (key : Text) (value : Json) (fields : Fields) :
    insert key value fields ≠ [] := by
  cases fields with
  | nil => simp [insert]
  | cons field rest =>
      rw [insert]
      split
      · simp
      · split <;> simp

@[simp] theorem get_insert_self (key : Text) (value : Json) (fields : Fields) :
    get key (insert key value fields) = some value := by
  induction fields with
  | nil => simp [get, insert]
  | cons field rest ih =>
      obtain ⟨k, v⟩ := field
      rw [insert]
      split
      · simp [get]
      · split
        · simp [get]
        · rename_i hk _
          simpa [get, List.lookup_cons, beq_eq_false_iff_ne.mpr hk] using ih

@[simp] theorem get_remove_self (key : Text) (fields : Fields) :
    get key (remove key fields) = none := by
  induction fields with
  | nil => simp [get, remove]
  | cons field rest ih =>
      obtain ⟨k, v⟩ := field
      by_cases hk : k = key
      · simpa [get, remove, hk] using ih
      · simpa [get, remove, hk, List.lookup_cons, beq_eq_false_iff_ne.mpr (Ne.symm hk)] using ih

theorem get_remove_of_ne {key other : Text} (h : other ≠ key) (fields : Fields) :
    get other (remove key fields) = get other fields := by
  induction fields with
  | nil => simp [get, remove]
  | cons field rest ih =>
      obtain ⟨k, v⟩ := field
      by_cases hk : k = key
      · simpa [get, remove, hk, List.lookup_cons, beq_eq_false_iff_ne.mpr h] using ih
      · by_cases ho : other = k
        · simp [get, remove, hk, ho]
        · simpa [get, remove, hk, List.lookup_cons, beq_eq_false_iff_ne.mpr ho] using ih

theorem remove_of_containsKey_eq_false {key : Text} {fields : Fields}
    (h : containsKey key fields = false) : remove key fields = fields := by
  have hget : get key fields = none := by simpa [containsKey] using h
  refine List.filter_eq_self.mpr fun field hfield => ?_
  have hne := List.lookup_eq_none_iff.mp hget field hfield
  exact decide_eq_true (Ne.symm (bne_iff_ne.mp hne))

end Fields

/-! ## Mappings -/

/-- A YAML mapping: entries in insertion order, one for a key. -/
structure Mapping where
  entries : List (Text × Yaml)
  nodup : (entries.map Prod.fst).Nodup

namespace Mapping

def empty : Mapping := ⟨[], by simp⟩

def get (key : Text) (m : Mapping) : Option Yaml :=
  m.entries.lookup key

/-- An existing entry keeps its place; a new one goes to the end. -/
def insertEntry (key : Text) (value : Yaml) : List (Text × Yaml) → List (Text × Yaml)
  | [] => [(key, value)]
  | (k, v) :: rest =>
      if k = key then (key, value) :: rest else (k, v) :: insertEntry key value rest

theorem mem_keys_insertEntry {key k : Text} {value : Yaml} {entries : List (Text × Yaml)} :
    k ∈ (insertEntry key value entries).map Prod.fst ↔
      k = key ∨ k ∈ entries.map Prod.fst := by
  induction entries with
  | nil => simp [insertEntry]
  | cons e rest ih =>
      obtain ⟨k', v⟩ := e
      rw [insertEntry]
      split
      · rename_i hk
        simp [hk]
      · simp only [List.map_cons, List.mem_cons, ih]
        tauto

def insert (key : Text) (value : Yaml) (m : Mapping) : Mapping where
  entries := insertEntry key value m.entries
  nodup := by
    obtain ⟨entries, nodup⟩ := m
    simp only
    induction entries with
    | nil => simp [insertEntry]
    | cons e rest ih =>
        obtain ⟨k, v⟩ := e
        simp only [List.map_cons, List.nodup_cons] at nodup
        rw [insertEntry]
        split
        · rename_i hk
          subst hk
          simpa using nodup
        · rename_i hk
          rw [List.map_cons, List.nodup_cons, mem_keys_insertEntry]
          exact ⟨fun h => h.elim hk nodup.1, ih nodup.2⟩

/-- The entries without a key. The last entry takes the place of a removed one. -/
def swapRemoveEntry (key : Text) : List (Text × Yaml) → List (Text × Yaml)
  | [] => []
  | (k, v) :: rest =>
      if k = key then
        match rest.getLast? with
        | none => []
        | some last => last :: rest.dropLast
      else (k, v) :: swapRemoveEntry key rest

theorem perm_swapRemoveEntry (key : Text) (entries : List (Text × Yaml)) :
    (swapRemoveEntry key entries).Perm (entries.eraseP fun e => e.1 = key) := by
  induction entries with
  | nil => simp [swapRemoveEntry]
  | cons e rest ih =>
      obtain ⟨k, v⟩ := e
      rw [swapRemoveEntry]
      split
      · rename_i hk
        rw [List.eraseP_cons_of_pos (by simpa using hk)]
        cases hlast : rest.getLast? with
        | none => simp [List.getLast?_eq_none_iff.mp hlast]
        | some last =>
            obtain ⟨init, rfl⟩ := List.getLast?_eq_some_iff.mp hlast
            simpa using (List.perm_append_singleton last init).symm
      · rename_i hk
        rw [List.eraseP_cons_of_neg (by simpa using hk)]
        exact ih.cons _

def swapRemove (key : Text) (m : Mapping) : Mapping where
  entries := swapRemoveEntry key m.entries
  nodup := by
    refine ((perm_swapRemoveEntry key m.entries).map Prod.fst).nodup_iff.mpr ?_
    exact m.nodup.sublist ((List.eraseP_sublist).map Prod.fst)

/-! ### Lookups -/

@[simp] theorem get_insert_self (key : Text) (value : Yaml) (m : Mapping) :
    (m.insert key value).get key = some value := by
  obtain ⟨entries, nodup⟩ := m
  simp only [get, insert]
  clear nodup
  induction entries with
  | nil => simp [insertEntry]
  | cons e rest ih =>
      obtain ⟨k, v⟩ := e
      rw [insertEntry]
      split
      · simp
      · rename_i hk
        simpa [List.lookup_cons, beq_eq_false_iff_ne.mpr (Ne.symm hk)] using ih

end Mapping

/-! ## YAML read as JSON -/

/-- JSON has no infinities and no NaN: they are read as `null`. -/
def Number.toJson : Number → Json
  | .float bits =>
      if bits.toNat / 2 ^ 52 % 2 ^ 11 = 2 ^ 11 - 1 then .null else .number (.float bits)
  | n => .number n

mutual

/-- The JSON form of a YAML value, if it has one. -/
def Yaml.toJson : Yaml → Option Json
  | .null => some .null
  | .bool b => some (.bool b)
  | .number n => some n.toJson
  | .string s => some (.string s)
  | .sequence items => (itemsToJson items).map .array
  | .mapping entries => (entriesToJson entries).map .object
  | .tagged _ _ => none

def itemsToJson : List Yaml → Option (List Json)
  | [] => some []
  | v :: rest =>
      match v.toJson, itemsToJson rest with
      | some item, some items => some (item :: items)
      | _, _ => none

def entriesToJson : List (Text × Yaml) → Option Fields
  | [] => some []
  | (k, v) :: rest =>
      match v.toJson, entriesToJson rest with
      | some value, some fields => some (Fields.insert k value fields)
      | _, _ => none

end

def Mapping.toJson (m : Mapping) : Option Fields :=
  entriesToJson m.entries

namespace Mapping

end Mapping

/-! ## The YAML library -/

/-- The readers and writers of the YAML crate, at each type the code uses them. Errors are
their display texts. -/
structure SerdeYaml where
  fromStrJson : Text → Except Text Json
  fromStrMapping : Text → Except Text Mapping
  fromStrValue : Text → Except Text Yaml
  toStringJson : Json → Except Text Text
  toStringMapping : Mapping → Except Text Text
  toStringValue : Yaml → Except Text Text
  displayNumber : Number → Text

end ObsidianMcp
