import ObsidianMcp.Verification.Sftp.Listings

/-! # Looking up names in directories

A lookup depends on the entries of a listing, not on their order. The listing of a batch and a new
listing with the same entries therefore give the same result. -/

namespace ObsidianMcp.Sftp

open Text

variable {σ : Type} {u : Unicode} {server : Server σ} {parent name : Text} {native : Bool}
  {listing : List (Text × FileAttrs)}

/-! ## What a lookup should find -/

/-- A name that may stand for another one. -/
def Equivalent (u : Unicode) (name : Text) (native : Bool) (other : Text) : Prop :=
  u.nfc other = u.nfc name ∨
    native = true ∧ u.toLowercase (u.nfc other) = u.toLowercase (u.nfc name)

instance : DecidablePred (Equivalent u name native) :=
  fun _ => inferInstanceAs (Decidable (_ ∨ _ ∧ _))

def ambiguousError : VaultError :=
  .invalidPath "ambiguous Unicode-equivalent remote path".toList

def unidentifiedError : VaultError :=
  .invalidPath "cannot identify the exact spelling of the native remote match".toList

/-- The result of looking up a name among some entries. -/
inductive Found (u : Unicode) (name : Text) (native : Bool) (listing : List (Text × FileAttrs)) :
    Except VaultError (Option (Text × FileAttrs)) → Prop where
  | exact {attrs : FileAttrs} (h : (name, attrs) ∈ listing) :
      Found u name native listing (.ok (some (name, attrs)))
  | unique {entry : Text × FileAttrs} (hname : ∀ other ∈ listing, other.1 ≠ name)
      (hentry : entry ∈ listing) (hequivalent : Equivalent u name native entry.1)
      (hunique : ∀ other ∈ listing, Equivalent u name native other.1 → other = entry) :
      Found u name native listing (.ok (some entry))
  | ambiguous {first second : Text × FileAttrs} (hname : ∀ other ∈ listing, other.1 ≠ name)
      (hfirst : first ∈ listing) (hsecond : second ∈ listing) (hne : first ≠ second)
      (hequivalent : Equivalent u name native first.1)
      (hequivalent' : Equivalent u name native second.1) :
      Found u name native listing (.error ambiguousError)
  | refused (hname : ∀ other ∈ listing, other.1 ≠ name) (hnative : native = true)
      (hnone : ∀ other ∈ listing, ¬Equivalent u name native other.1) :
      Found u name native listing (.error unidentifiedError)
  | missing (hname : ∀ other ∈ listing, other.1 ≠ name) (hnative : native = false)
      (hnone : ∀ other ∈ listing, ¬Equivalent u name native other.1) :
      Found u name native listing (.ok none)

/-- Only the entries of a listing matter. -/
theorem Found.congr {other : List (Text × FileAttrs)}
    {result : Except VaultError (Option (Text × FileAttrs))}
    (h : Found u name native listing result) (heq : ∀ entry, entry ∈ listing ↔ entry ∈ other) :
    Found u name native other result := by
  cases h with
  | exact h => exact .exact ((heq _).mp h)
  | unique hname hentry hequivalent hunique =>
      exact .unique (fun e he => hname e ((heq e).mpr he)) ((heq _).mp hentry) hequivalent
        fun e he => hunique e ((heq e).mpr he)
  | ambiguous hname hfirst hsecond hne hequivalent hequivalent' =>
      exact .ambiguous (fun e he => hname e ((heq e).mpr he)) ((heq _).mp hfirst)
        ((heq _).mp hsecond) hne hequivalent hequivalent'
  | refused hname hnative hnone =>
      exact .refused (fun e he => hname e ((heq e).mpr he)) hnative
        fun e he => hnone e ((heq e).mpr he)
  | missing hname hnative hnone =>
      exact .missing (fun e he => hname e ((heq e).mpr he)) hnative
        fun e he => hnone e ((heq e).mpr he)

theorem eq_of_nodup (hnodup : (listing.map Prod.fst).Nodup) {attrs attrs' : FileAttrs}
    (h : (name, attrs) ∈ listing) (h' : (name, attrs') ∈ listing) : attrs = attrs' := by
  have heq := List.inj_on_of_nodup_map hnodup h h' rfl
  exact (Prod.mk.inj heq).2

/-- A name is found in one way only. -/
theorem Found.eq (hnodup : (listing.map Prod.fst).Nodup)
    {result result' : Except VaultError (Option (Text × FileAttrs))}
    (h : Found u name native listing result) (h' : Found u name native listing result') :
    result = result' := by
  cases h with
  | exact h =>
      cases h' with
      | exact h' => rw [eq_of_nodup hnodup h h']
      | unique hname => exact absurd rfl (hname _ h)
      | ambiguous hname => exact absurd rfl (hname _ h)
      | refused hname => exact absurd rfl (hname _ h)
      | missing hname => exact absurd rfl (hname _ h)
  | unique hname hentry hequivalent hunique =>
      cases h' with
      | exact h' => exact absurd rfl (hname _ h')
      | unique _ hentry' hequivalent' _ => rw [hunique _ hentry' hequivalent']
      | ambiguous _ hfirst hsecond hne hequivalent hequivalent' =>
          exact absurd ((hunique _ hfirst hequivalent).trans (hunique _ hsecond hequivalent').symm)
            hne
      | refused _ _ hnone => exact absurd hequivalent (hnone _ hentry)
      | missing _ _ hnone => exact absurd hequivalent (hnone _ hentry)
  | ambiguous hname hfirst hsecond hne hequivalent hequivalent' =>
      cases h' with
      | exact h' => exact absurd rfl (hname _ h')
      | unique _ _ _ hunique =>
          exact absurd ((hunique _ hfirst hequivalent).trans (hunique _ hsecond hequivalent').symm)
            hne
      | ambiguous => rfl
      | refused _ _ hnone => exact absurd hequivalent (hnone _ hfirst)
      | missing _ _ hnone => exact absurd hequivalent (hnone _ hfirst)
  | refused hname hnative hnone =>
      cases h' with
      | exact h' => exact absurd rfl (hname _ h')
      | unique _ hentry hequivalent _ => exact absurd hequivalent (hnone _ hentry)
      | ambiguous _ hfirst _ _ hequivalent _ => exact absurd hequivalent (hnone _ hfirst)
      | refused => rfl
      | missing _ hnative' _ => simp [hnative] at hnative'
  | missing hname hnative hnone =>
      cases h' with
      | exact h' => exact absurd rfl (hname _ h')
      | unique _ hentry hequivalent _ => exact absurd hequivalent (hnone _ hentry)
      | ambiguous _ hfirst _ _ hequivalent _ => exact absurd hequivalent (hnone _ hfirst)
      | refused _ hnative' _ => simp [hnative] at hnative'
      | missing => rfl

/-! ## The matcher -/

/-- The entries that a matcher remembers beside the exact one. -/
def candidates (u : Unicode) (name : Text) (native : Bool) (listing : List (Text × FileAttrs)) :
    List (Text × FileAttrs) :=
  listing.filter fun entry => entry.1 ≠ name ∧ Equivalent u name native entry.1

theorem mem_candidates {entry : Text × FileAttrs} :
    entry ∈ candidates u name native listing ↔
      entry ∈ listing ∧ entry.1 ≠ name ∧ Equivalent u name native entry.1 := by
  simp [candidates]

theorem candidates_concat (entry : Text × FileAttrs) :
    candidates u name native (listing ++ [entry]) = candidates u name native listing ++
      if entry.1 ≠ name ∧ Equivalent u name native entry.1 then [entry] else [] := by
  by_cases h : entry.1 ≠ name ∧ Equivalent u name native entry.1
  · simp [candidates, h]
  · have hnil : [entry].filter (fun entry => entry.1 ≠ name ∧
        Equivalent u name native entry.1) = [] := by simpa using h
    rw [if_neg h, candidates, List.filter_append, hnil, candidates]

/-- The matcher after a listing. -/
def observeAll (u : Unicode) (name : Text) (native : Bool) (listing : List (Text × FileAttrs)) :
    EntryMatcher :=
  listing.foldl (fun matcher entry => matcher.observe u entry.1 entry.2)
    (EntryMatcher.new u name native)

/-- What a matcher knows of the entries that it has observed. -/
theorem observeAll_eq (listing : List (Text × FileAttrs)) :
    observeAll u name native listing =
      ⟨name, u.nfc name, u.toLowercase (u.nfc name), native,
        (listing.filter fun entry => entry.1 = name).getLast?,
        (candidates u name native listing).getLast?,
        decide (2 ≤ (candidates u name native listing).length)⟩ := by
  induction listing using List.reverseRecOn with
  | nil => rfl
  | append_singleton listing entry ih =>
      rw [observeAll, List.foldl_append, ← observeAll, ih, candidates_concat, List.filter_append]
      generalize candidates u name native listing = known
      simp only [List.foldl_cons, List.foldl_nil, EntryMatcher.observe]
      by_cases hname : entry.1 = name
      · simp [hname]
        rw [← hname]
      · have hequivalent : (u.nfc entry.1 = u.nfc name ∨
            native = true ∧ u.toLowercase (u.nfc entry.1) = u.toLowercase (u.nfc name)) ↔
              Equivalent u name native entry.1 := Iff.rfl
        by_cases h : Equivalent u name native entry.1
        · simp only [hname, hequivalent, h, if_true, if_false, ne_eq, not_false_eq_true, and_self]
          cases known with
          | nil => simp [hname]
          | cons first rest => simp [hname, List.getLast?_cons]
        · simp [hname, hequivalent, h]

theorem finish_observeAll (hnodup : (listing.map Prod.fst).Nodup) :
    Found u name native listing (observeAll u name native listing).finish := by
  rw [observeAll_eq, EntryMatcher.finish]
  simp only
  cases hexact : (listing.filter fun entry => entry.1 = name).getLast? with
  | some entry =>
      have hmem := List.mem_filter.mp (List.mem_of_getLast? hexact)
      obtain ⟨other, attrs⟩ := entry
      obtain rfl : other = name := by simpa using hmem.2
      exact .exact hmem.1
  | none =>
      have hname : ∀ other ∈ listing, other.1 ≠ name := by
        simpa [List.filter_eq_nil_iff] using hexact
      cases hcandidates : candidates u name native listing with
      | nil =>
          have hnone : ∀ other ∈ listing, ¬Equivalent u name native other.1 := by
            intro other hother hequivalent
            have hmem := mem_candidates.mpr ⟨hother, hname other hother, hequivalent⟩
            simp [hcandidates] at hmem
          cases hnative : native with
          | true => exact .refused hname rfl (hnative ▸ hnone)
          | false => exact .missing hname rfl (hnative ▸ hnone)
      | cons first rest =>
          have hfirst := mem_candidates.mp (hcandidates ▸ List.mem_cons_self)
          cases rest with
          | nil =>
              simp only [Option.isSome_none, Bool.false_eq_true, if_false, List.length_singleton,
                List.getLast?_singleton, reduceCtorEq, and_false, Nat.not_ofNat_le_one, decide_false]
              refine .unique hname hfirst.1 hfirst.2.2 fun other hother hequivalent => ?_
              have hmem := mem_candidates.mpr ⟨hother, hname other hother, hequivalent⟩
              simpa [hcandidates] using hmem
          | cons second rest =>
              have hsecond := mem_candidates.mp
                (hcandidates ▸ List.mem_cons_of_mem first List.mem_cons_self)
              have hdistinct : (candidates u name native listing).Nodup :=
                (List.Nodup.of_map _ hnodup).filter _
              rw [hcandidates, List.nodup_cons] at hdistinct
              refine .ambiguous hname hfirst.1 hsecond.1 ?_ hfirst.2.2 hsecond.2.2
              rintro rfl
              exact hdistinct.1 List.mem_cons_self

/-! ## The direct lookup -/

/-- A direct lookup finds the name among the entries that the server lists now. -/
theorem findEntry_eq {s t v : σ} (hnative : nativeMatch server (absolute parent name) s = .ok native t)
    (hlist : listDirectory server parent t = .ok listing v) :
    findEntry u server parent name s = raise (observeAll u name native listing).finish v := by
  have hvisit := visitDirectory_ok.mpr ⟨listing, listDirectory_ok.mp hlist,
    @visitAll_total _ (fun matcher name attrs => EntryMatcher.observe u matcher name attrs)
      listing (EntryMatcher.new u name native)⟩
  rw [findEntry, estateM_bind, hnative]
  simp only
  rw [estateM_bind, hvisit]
  rfl

/-! ## Listings of a batch -/

/-- A batch's listing has these entries. -/
def Lists (names : Table Text FileAttrs) (listing : List (Text × FileAttrs)) : Prop :=
  ∀ name attrs, names.lookup name = some attrs ↔ (name, attrs) ∈ listing

/-- The bytes of the names of a listing. -/
def listingBytes (listing : List (Text × FileAttrs)) : ℕ :=
  (listing.map fun entry => byteLen entry.1).sum

theorem namesBytes_eq (names : Table Text FileAttrs) :
    namesBytes names = listingBytes names.toPairs := by
  rw [namesBytes, Table.total, listingBytes, Table.toPairs, List.map_map]
  rfl

theorem Lists.perm {names : Table Text FileAttrs} (h : Lists names listing)
    (hnodup : listing.Nodup) : names.toPairs.Perm listing := by
  rw [List.perm_ext_iff_of_nodup names.nodup_toPairs hnodup]
  rintro ⟨name, attrs⟩
  rw [Table.mem_toPairs, h]

theorem selectEntry_eq {names : Table Text FileAttrs} (h : Lists names listing)
    (hnodup : (listing.map Prod.fst).Nodup) :
    ReadBatch.selectEntry u name native (some names) =
      (observeAll u name native listing).finish := by
  refine Found.eq hnodup ?_ (finish_observeAll hnodup)
  rw [ReadBatch.selectEntry]
  cases hlookup : names.lookup name with
  | some attrs => exact .exact ((h name attrs).mp hlookup)
  | none =>
      have hperm := h.perm (List.Nodup.of_map _ hnodup)
      have hpairs : (names.toPairs.map Prod.fst).Nodup :=
        (hperm.map Prod.fst).nodup_iff.mpr hnodup
      exact (finish_observeAll hpairs).congr fun entry => hperm.mem_iff

/-- The entries of a listing put into a map one after the other. -/
def insertAll (listing : List (Text × FileAttrs)) (names : Table Text FileAttrs) :
    Table Text FileAttrs :=
  listing.foldl (fun names entry => names.insert entry.1 entry.2) names

theorem lookup_insertAll (names : Table Text FileAttrs) (hnodup : (listing.map Prod.fst).Nodup)
    (name : Text) (attrs : FileAttrs) :
    (insertAll listing names).lookup name = some attrs ↔
      (name, attrs) ∈ listing ∨ name ∉ listing.map Prod.fst ∧ names.lookup name = some attrs := by
  induction listing generalizing names with
  | nil => simp [insertAll]
  | cons entry listing ih =>
      rw [List.map_cons, List.nodup_cons] at hnodup
      rw [insertAll, List.foldl_cons, ← insertAll, ih _ hnodup.2]
      by_cases hname : name = entry.1
      · subst hname
        have hrest : (entry.1, attrs) ∉ listing := fun hmem =>
          hnodup.1 (List.mem_map.mpr ⟨_, hmem, rfl⟩)
        rw [AList.lookup_insert]
        simp [hrest, hnodup.1, Prod.ext_iff, eq_comm]
      · rw [AList.lookup_insert_ne hname]
        simp [hname, Prod.ext_iff]

theorem lists_insertAll (hnodup : (listing.map Prod.fst).Nodup) :
    Lists (insertAll listing ∅) listing := by
  intro name attrs
  rw [lookup_insertAll _ hnodup]
  simp

/-- What an observation has gathered when the entries of a listing fit its bounds. -/
theorem visitAll_observeEntry {observation result : ReadBatch.Observation} :
    visitAll (ReadBatch.observeEntry parent) listing observation = .ok result ↔
      (listing ≠ [] → observation.nameBytes + listingBytes listing ≤ maxReadBytes ∧
        observation.entryCount + listing.length ≤ maxEntries) ∧
      result = ⟨observation.nameBytes + listingBytes listing,
        observation.entryCount + listing.length, insertAll listing observation.names⟩ := by
  induction listing generalizing observation with
  | nil => simp [visitAll, listingBytes, insertAll, eq_comm]
  | cons entry listing ih =>
      have hbytes : listingBytes (entry :: listing) = byteLen entry.1 + listingBytes listing := by
        simp [listingBytes]
      rw [visitAll, ReadBatch.observeEntry]
      by_cases hover : maxReadBytes < observation.nameBytes + byteLen entry.1 ∨
          maxEntries < observation.entryCount + 1
      · simp only [hover, if_true, reduceCtorEq, false_iff, not_and]
        intro hfit
        have := hfit (by simp)
        rw [hbytes, List.length_cons] at this
        omega
      · simp only [hover, if_false]
        rw [ih, hbytes, List.length_cons]
        simp only [insertAll, List.foldl_cons, ← Nat.add_assoc]
        rw [Nat.add_right_comm _ 1 listing.length]
        refine and_congr_left fun _ => ?_
        constructor
        · intro hfit _
          cases listing with
          | nil => simp [listingBytes] at hover ⊢; omega
          | cons next listing => have := hfit (by simp); omega
        · intro hfit _
          have := hfit (by simp)
          omega

/-! ## Observations -/

namespace ReadBatch

variable {batch : ReadBatch}

/-- The counts of a batch are those of its listings, and within the bounds. -/
structure Accounted (batch : ReadBatch) : Prop where
  bytes : batch.nameBytes =
    Table.total (fun parent names => byteLen parent + namesBytes names) batch.directories
  entries : batch.entryCount = Table.total (fun _ names => Table.len names) batch.directories
  bytes_le : batch.nameBytes ≤ maxReadBytes
  entries_le : batch.entryCount ≤ maxEntries

/-- The batches that observations produce, whether they succeed or fail. -/
inductive Reached (server : Server σ) : ReadBatch → Prop where
  | empty : Reached server {}
  | observed {batch next : ReadBatch} {parent : Text} {s t : σ} (h : Reached server batch)
      (hrun : observeDirectory server parent (s, batch) = .ok () (t, next)) : Reached server next
  | failed {batch next : ReadBatch} {parent : Text} {error : VaultError} {s t : σ}
      (h : Reached server batch)
      (hrun : observeDirectory server parent (s, batch) = .error error (t, next)) :
      Reached server next

theorem observeDirectory_eq (s : σ) : observeDirectory server parent (s, batch) =
    match visitDirectory server parent (observeEntry parent)
      ⟨(batch.forget parent).nameBytes + byteLen parent, (batch.forget parent).entryCount, ∅⟩ s with
    | .ok o t =>
        if maxReadBytes < o.nameBytes then
          .error (observationBudgetError parent) (t, batch.forget parent)
        else .ok () (t, ⟨(batch.forget parent).directories.insert parent o.names, o.nameBytes,
          o.entryCount⟩)
    | .error error t => .error error (t, batch.forget parent) := by
  change (onServer _ >>= _) (s, batch.forget parent) = _
  rw [estateM_bind, onServer]
  cases visitDirectory server parent (observeEntry parent)
      ⟨(batch.forget parent).nameBytes + byteLen parent, (batch.forget parent).entryCount, ∅⟩ s with
  | error error t => rfl
  | ok o t =>
      simp only
      split_ifs
      · rfl
      · rfl

theorem observeDirectory_error {error : VaultError} {next : ReadBatch} {s t : σ}
    (h : observeDirectory server parent (s, batch) = .error error (t, next)) :
    next = batch.forget parent := by
  rw [observeDirectory_eq] at h
  split at h
  · split_ifs at h
    simp only [EStateM.Result.error.injEq, Prod.mk.injEq] at h
    exact h.2.2.symm
  · simp only [EStateM.Result.error.injEq, Prod.mk.injEq] at h
    exact h.2.2.symm

/-- A successful observation keeps what the server lists. -/
theorem observeDirectory_ok {next : ReadBatch} {s t : σ} :
    observeDirectory server parent (s, batch) = .ok () (t, next) ↔
      ∃ listing, listDirectory server parent s = .ok listing t ∧
        (batch.forget parent).nameBytes + byteLen parent + listingBytes listing ≤ maxReadBytes ∧
        (listing ≠ [] → (batch.forget parent).entryCount + listing.length ≤ maxEntries) ∧
        next = ⟨(batch.forget parent).directories.insert parent (insertAll listing ∅),
          (batch.forget parent).nameBytes + byteLen parent + listingBytes listing,
          (batch.forget parent).entryCount + listing.length⟩ := by
  rw [observeDirectory_eq]
  constructor
  · intro h
    split at h
    · rename_i o v hvisit
      obtain ⟨listing, hlisted, hobserved⟩ := visitDirectory_ok.mp hvisit
      obtain ⟨hfit, rfl⟩ := visitAll_observeEntry.mp hobserved
      split_ifs at h with hover
      obtain ⟨rfl, rfl⟩ : v = t ∧ _ = next := by simpa using h
      exact ⟨listing, listDirectory_ok.mpr hlisted, not_lt.mp hover, fun hne => (hfit hne).2, rfl⟩
    · simp at h
  · rintro ⟨listing, hlist, hbytes, hcount, rfl⟩
    have hobserved : visitAll (observeEntry parent) listing
        ⟨(batch.forget parent).nameBytes + byteLen parent, (batch.forget parent).entryCount, ∅⟩ =
          .ok _ := visitAll_observeEntry.mpr ⟨fun hne => ⟨hbytes, hcount hne⟩, rfl⟩
    rw [visitDirectory_ok.mpr ⟨listing, listDirectory_ok.mp hlist, hobserved⟩]
    simp only
    rw [if_neg (not_lt.mpr hbytes)]

theorem Accounted.forget (h : batch.Accounted) (parent : Text) :
    (batch.forget parent).Accounted := by
  rw [ReadBatch.forget]
  cases hlookup : batch.directories.lookup parent with
  | none => exact h
  | some previous =>
      have hbytes := Table.total_erase_add
        (fun parent names => byteLen parent + namesBytes names) hlookup
      have hentries := Table.total_erase_add
        (fun (_ : Text) (names : Table Text FileAttrs) => Table.len names) hlookup
      refine ⟨?_, ?_, ?_, ?_⟩
      · simp only [h.bytes]
        omega
      · simp only [h.entries]
        omega
      · exact (Nat.sub_le _ _).trans h.bytes_le
      · exact (Nat.sub_le _ _).trans h.entries_le

theorem forget_lookup (batch : ReadBatch) (parent : Text) :
    (batch.forget parent).directories.lookup parent = none := by
  rw [ReadBatch.forget]
  cases hlookup : batch.directories.lookup parent with
  | none => exact hlookup
  | some previous => exact AList.lookup_erase _ _

theorem Lists.namesBytes_eq {names : Table Text FileAttrs} (h : Lists names listing)
    (hnodup : listing.Nodup) : namesBytes names = listingBytes listing := by
  rw [Sftp.namesBytes_eq]
  exact ((h.perm hnodup).map _).sum_eq

theorem Lists.len_eq {names : Table Text FileAttrs} (h : Lists names listing)
    (hnodup : listing.Nodup) : Table.len names = listing.length := by
  rw [← (h.perm hnodup).length_eq, Table.toPairs, List.length_map, Table.len]

/-- Every batch accounts for its listings. -/
theorem Reached.accounted (h : Reached server batch) : batch.Accounted := by
  induction h with
  | empty => exact ⟨rfl, rfl, Nat.zero_le _, Nat.zero_le _⟩
  | failed h hrun ih => exact observeDirectory_error hrun ▸ ih.forget _
  | observed h hrun ih =>
      obtain ⟨listing, hlist, hbytes, hcount, rfl⟩ := observeDirectory_ok.mp hrun
      rename_i batch parent s t
      have hforget := ih.forget parent
      have hnodup := (listDirectory_ok.mp hlist).wellListed.nodup
      have hlists := lists_insertAll hnodup
      have hplain : listing.Nodup := List.Nodup.of_map _ hnodup
      have herase := Table.erase_of_lookup_eq_none (forget_lookup batch parent)
      refine ⟨?_, ?_, hbytes, ?_⟩
      · dsimp only
        rw [Table.total_insert, herase, ← hforget.bytes, Lists.namesBytes_eq hlists hplain]
        omega
      · dsimp only
        rw [Table.total_insert, herase, ← hforget.entries, Lists.len_eq hlists hplain]
        omega
      · cases listing with
        | nil => simpa using hforget.entries_le
        | cons entry listing => exact hcount (by simp)

/-- A directory that still lists the same entries is observed again within the bounds. -/
theorem observe_again {names : Table Text FileAttrs} {s t : σ} (h : batch.Accounted)
    (hcached : batch.directories.lookup parent = some names) (hlists : Lists names listing)
    (hlist : listDirectory server parent s = .ok listing t) :
    ∃ next, observeDirectory server parent (s, batch) = .ok () (t, next) := by
  have hplain : listing.Nodup :=
    List.Nodup.of_map _ (listDirectory_ok.mp hlist).wellListed.nodup
  have hbytes := Table.total_erase_add
    (fun parent names => byteLen parent + namesBytes names) hcached
  have hentries := Table.total_erase_add
    (fun (_ : Text) (names : Table Text FileAttrs) => Table.len names) hcached
  have hbytes_le := h.bytes_le
  have hentries_le := h.entries_le
  rw [← h.bytes, Lists.namesBytes_eq hlists hplain] at hbytes
  rw [← h.entries, Lists.len_eq hlists hplain] at hentries
  refine ⟨_, observeDirectory_ok.mpr ⟨listing, hlist, ?_, fun _ => ?_, rfl⟩⟩
  · rw [ReadBatch.forget, hcached]
    dsimp only
    rw [Lists.namesBytes_eq hlists hplain]
    omega
  · rw [ReadBatch.forget, hcached]
    dsimp only
    rw [Lists.len_eq hlists hplain]
    omega

theorem findEntry_run {s t : σ}
    (hnative : nativeMatch server (absolute parent name) s = .ok native t) :
    findEntry u server parent name (s, batch) =
      (if refreshes native name (batch.directories.lookup parent) then
        observeDirectory server parent >>= fun _ => get >>= fun state =>
          raise (selectEntry u name native (state.2.directories.lookup parent))
      else raise (selectEntry u name native (batch.directories.lookup parent)) :
        BatchM σ (Option (Text × FileAttrs))) (t, batch) := by
  rw [findEntry, estateM_bind, onServer, hnative]
  rfl

/-- A lookup that needs no refresh. -/
theorem findEntry_cached {s t : σ}
    (hnative : nativeMatch server (absolute parent name) s = .ok native t)
    (hfresh : refreshes native name (batch.directories.lookup parent) = false) :
    findEntry u server parent name (s, batch) =
      raise (selectEntry u name native (batch.directories.lookup parent)) (t, batch) := by
  rw [findEntry_run hnative, hfresh]
  rfl

/-- A lookup that refreshes the listing first. -/
theorem findEntry_refreshed {s t : σ}
    (hnative : nativeMatch server (absolute parent name) s = .ok native t)
    (hstale : refreshes native name (batch.directories.lookup parent) = true) :
    findEntry u server parent name (s, batch) =
      match observeDirectory server parent (t, batch) with
      | .ok () (v, next) =>
          raise (selectEntry u name native (next.directories.lookup parent)) (v, next)
      | .error error state => .error error state := by
  rw [findEntry_run hnative, hstale, if_pos rfl, estateM_bind]
  cases observeDirectory server parent (t, batch) with
  | ok done state => rfl
  | error error state => rfl

/-- After an observation the batch has the listing of the server. -/
theorem observed_lists {next : ReadBatch} {s t : σ}
    (h : observeDirectory server parent (s, batch) = .ok () (t, next)) :
    ∃ listing names, listDirectory server parent s = .ok listing t ∧
      next.directories.lookup parent = some names ∧ Lists names listing := by
  obtain ⟨listing, hlist, -, -, rfl⟩ := observeDirectory_ok.mp h
  exact ⟨listing, _, hlist, AList.lookup_insert _,
    lists_insertAll (listDirectory_ok.mp hlist).wellListed.nodup⟩

end ReadBatch

/-! ## Agreement -/

/-- A lookup in a batch that holds a directory's listing gives what the direct lookup gives. The
result depends on the entries only, not on their order, and a batch without the name does not
answer a native match before it has listed the directory again. -/
theorem cached_lookup_agrees (u : Unicode) (server : Server σ) (parent name : Text) :
    (∀ (batch : ReadBatch) (names : Table Text FileAttrs) (native : Bool)
        (listing : List (Text × FileAttrs)) (s t v : σ), ReadBatch.Reached server batch →
      nativeMatch server (absolute parent name) s = .ok native t →
      listDirectory server parent t = .ok listing v →
      batch.directories.lookup parent = some names → Lists names listing →
      ∃ result state, Found u name native listing result ∧
        findEntry u server parent name s = raise result v ∧
        ReadBatch.findEntry u server parent name (s, batch) = raise result state) ∧
    (∀ (native : Bool) (listing listing' : List (Text × FileAttrs))
        (result result' : Except VaultError (Option (Text × FileAttrs))),
      (listing.map Prod.fst).Nodup → listing.Perm listing' →
      Found u name native listing result → Found u name native listing' result' →
      result = result') ∧
    (∀ (batch next : ReadBatch) (names : Table Text FileAttrs)
        (found : Option (Text × FileAttrs)) (s t v : σ),
      nativeMatch server (absolute parent name) s = .ok true t →
      batch.directories.lookup parent = some names → names.lookup name = none →
      ReadBatch.findEntry u server parent name (s, batch) = .ok found (v, next) →
      ∃ fresh names', listDirectory server parent t = .ok fresh v ∧
        next.directories.lookup parent = some names' ∧ Lists names' fresh ∧
        Found u name true fresh (.ok found)) := by
  refine ⟨?_, ?_, ?_⟩
  · intro batch names native listing s t v hreached hnative hlist hcached hlists
    have hnodup := (listDirectory_ok.mp hlist).wellListed.nodup
    have hdirect := findEntry_eq (u := u) hnative hlist
    cases hstale : ReadBatch.refreshes native name (batch.directories.lookup parent) with
    | false =>
        refine ⟨_, (t, batch), finish_observeAll hnodup, hdirect, ?_⟩
        rw [ReadBatch.findEntry_cached hnative hstale, hcached, selectEntry_eq hlists hnodup]
    | true =>
        obtain ⟨next, hobserve⟩ :=
          ReadBatch.observe_again hreached.accounted hcached hlists hlist
        obtain ⟨again, names', hagain, hcached', hlists'⟩ := ReadBatch.observed_lists hobserve
        rw [hlist, EStateM.Result.ok.injEq] at hagain
        obtain ⟨rfl, -⟩ := hagain
        refine ⟨_, (v, next), finish_observeAll hnodup, hdirect, ?_⟩
        rw [ReadBatch.findEntry_refreshed hnative hstale, hobserve]
        simp only
        rw [hcached', selectEntry_eq hlists' hnodup]
  · intro native listing listing' result result' hnodup hperm h h'
    exact h.eq hnodup (h'.congr fun entry => hperm.symm.mem_iff)
  · intro batch next names found s t v hnative hcached hname hfind
    have hstale : ReadBatch.refreshes true name (batch.directories.lookup parent) = true := by
      simp [ReadBatch.refreshes, hcached, hname]
    rw [ReadBatch.findEntry_refreshed hnative hstale] at hfind
    split at hfind
    · rename_i w kept hobserve
      obtain ⟨hselect, hstate⟩ := raise_eq_ok.mp hfind
      obtain ⟨rfl, rfl⟩ := Prod.mk.inj hstate
      obtain ⟨fresh, names', hfresh, hcached', hlists'⟩ := ReadBatch.observed_lists hobserve
      have hnodup := (listDirectory_ok.mp hfresh).wellListed.nodup
      rw [hcached', selectEntry_eq hlists' hnodup] at hselect
      exact ⟨fresh, names', hfresh, hcached', hlists', hselect ▸ finish_observeAll hnodup⟩
    · simp at hfind

/-- A server with one note, whose names are not told apart by case. The state says whether the page
of the opened directory has been read. -/
def noteServer : Server Bool where
  lstat _ := fun s => .ok ⟨some .regularFile, some 4, none⟩ s
  realpath path := fun s => .ok (utf8Bytes path) s
  opendir _ := fun _ => .ok [] false
  readdir _ := fun
    | false => .ok ⟨[⟨utf8Bytes "Note.md".toList, ⟨some .regularFile, some 4, none⟩⟩], 0, 0⟩ true
    | true => .ok ⟨[], 0, 0⟩ true
  close _ := fun s => .ok () s

def noteListing : List (Text × FileAttrs) :=
  [("Note.md".toList, ⟨some .regularFile, some 4, none⟩)]

theorem admitName_note : admitName "/v".toList {}
    ⟨utf8Bytes "Note.md".toList, ⟨some .regularFile, some 4, none⟩⟩ =
      .ok (⟨["Note.md".toList], 7, 1⟩, some "Note.md".toList) := by
  rw [admitName]
  simp only [OsString.toStr, fromUtf8_utf8Bytes]
  rfl

theorem listDirectory_noteServer (s : Bool) :
    listDirectory noteServer "/v".toList s = .ok noteListing true := by
  rw [listDirectory_ok]
  refine ⟨[], false, true, rfl, ?_, rfl⟩
  have hpage : Session.readdir noteServer [] false =
      .ok ⟨[⟨utf8Bytes "Note.md".toList, ⟨some .regularFile, some 4, none⟩⟩], 0, 0⟩ true := rfl
  have hlast : Session.readdir noteServer [] true = .ok ⟨[], 0, 0⟩ true := rfl
  have hstop : PagesListed noteServer "/v".toList [] ⟨["Note.md".toList], 7, 1⟩ true [] true :=
    .stop hlast (by decide) ⟨rfl, rfl⟩
  exact .page hpage (by decide) (by simp) (.visit admitName_note rfl .nil) hstop

theorem observe_noteServer : ∃ batch,
    ReadBatch.observeDirectory noteServer "/v".toList (false, {}) = .ok () (true, batch) :=
  ⟨_, ReadBatch.observeDirectory_ok.mpr ⟨noteListing, listDirectory_noteServer false, by decide,
    fun _ => by decide, rfl⟩⟩

theorem renamed_note_agrees :
    ∃ batch result state, ReadBatch.Reached noteServer batch ∧
      result = .ok (some ("Note.md".toList, ⟨some .regularFile, some 4, none⟩)) ∧
      findEntry .basic noteServer "/v".toList "note.md".toList false = raise result true ∧
      ReadBatch.findEntry .basic noteServer "/v".toList "note.md".toList (false, batch) =
        raise result state := by
  have hnative : nativeMatch noteServer (absolute "/v".toList "note.md".toList) false =
      .ok true false := rfl
  have hlist := listDirectory_noteServer false
  obtain ⟨batch, hobserve⟩ := observe_noteServer
  have hreached : ReadBatch.Reached noteServer batch := .observed .empty hobserve
  obtain ⟨again, names, hagain, hcached, hlists⟩ := ReadBatch.observed_lists hobserve
  rw [hlist, EStateM.Result.ok.injEq] at hagain
  obtain ⟨rfl, -⟩ := hagain
  obtain ⟨result, state, hfound, hdirect, hbatch⟩ :=
    (cached_lookup_agrees .basic noteServer "/v".toList "note.md".toList).1 batch names true
      noteListing false false true hreached hnative hlist hcached hlists
  refine ⟨batch, result, state, hreached, ?_, hdirect, hbatch⟩
  refine hfound.eq (by decide) (.unique ?_ List.mem_cons_self ?_ ?_)
  · simp [noteListing]
  · exact .inr ⟨rfl, by decide⟩
  · simp [noteListing]

end ObsidianMcp.Sftp
