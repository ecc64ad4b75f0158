import ObsidianMcp.Library.Results
import ObsidianMcp.Library.Selection
import ObsidianMcp.Model.Exclude
import ObsidianMcp.Verification.Links.Suffix

/-! # Exclusion policies

A policy depends on the set of its normalized rules only, and a scope id tells these sets apart. -/

namespace ObsidianMcp.Exclude

open Text

/-! ## Normal rules -/

/-- A text without spaces at its ends stays as it is. -/
theorem trim_eq_self {t : Text} (hhead : ∀ c, t.head? = some c → isWhitespace c = false)
    (hlast : ∀ c, t.getLast? = some c → isWhitespace c = false) : trim t = t := by
  have hfront : t.dropWhile isWhitespace = t := by
    cases t with
    | nil => rfl
    | cons c t => exact List.dropWhile_cons_of_neg (by simp [hhead c rfl])
  rw [trim, hfront, List.rdropWhile_eq_self_iff]
  intro hne
  simp [hlast _ (List.getLast?_eq_some_getLast hne)]

theorem head?_trim {t : Text} {c : Char} (h : (trim t).head? = some c) :
    isWhitespace c = false := by
  obtain ⟨rest, htrim⟩ := List.head?_eq_some_iff.mp h
  obtain ⟨tail, hprefix⟩ := List.rdropWhile_prefix isWhitespace (t.dropWhile isWhitespace)
  have hdrop : (t.dropWhile isWhitespace).head? = some c := by
    rw [← hprefix, show (t.dropWhile isWhitespace).rdropWhile isWhitespace = c :: rest from htrim]
    rfl
  have hnot := List.head?_dropWhile_not isWhitespace t
  rwa [hdrop] at hnot

theorem getLast?_trim {t : Text} {c : Char} (h : (trim t).getLast? = some c) :
    isWhitespace c = false := by
  have hne : trim t ≠ [] := by
    intro hnil
    simp [hnil] at h
  have hlast := List.rdropWhile_last_not isWhitespace (t.dropWhile isWhitespace) hne
  rw [List.getLast?_eq_some_getLast hne, Option.some.injEq] at h
  rw [← h]
  exact Bool.eq_false_of_not_eq_true hlast

theorem eq_of_stripSuffix {s t r : Text} (h : stripSuffix s t = some r) : t = r ++ s := by
  rw [stripSuffix] at h
  split_ifs at h with hsuffix
  rw [← Option.some.inj h]
  exact (List.suffix_iff_eq_append.mp (List.isSuffixOf_iff_suffix.mp hsuffix)).symm

theorem normalizeRule_of_ne_nil {raw : Text} (h : trim raw ≠ []) :
    normalizeRule raw = some (expandFolder (trim raw)) := by
  rw [normalizeRule, if_neg h]

theorem normalizeRule_eq_none {raw : Text} : normalizeRule raw = none ↔ trim raw = [] := by
  simp [normalizeRule]

/-- Rules that differ in the spaces around them are normalized to one pattern. -/
theorem normalizeRule_congr {raw other : Text} (h : trim raw = trim other) :
    normalizeRule raw = normalizeRule other := by
  rw [normalizeRule, normalizeRule, h]

/-- A text without spaces around it and without a slash at its end is normal. -/
theorem normalizeRule_fixed {pattern : Text} (htrim : trim pattern = pattern) (hne : pattern ≠ [])
    (hslash : ∀ r, pattern ≠ r ++ ['/']) : normalizeRule pattern = some pattern := by
  rw [normalizeRule_of_ne_nil (htrim.symm ▸ hne), htrim, expandFolder,
    LinkResolver.stripSuffix_of_not hslash]

/-- Normalizing twice is normalizing once. -/
theorem normalizeRule_normalized {raw normalized : Text} (h : normalizeRule raw = some normalized) :
    normalizeRule normalized = some normalized := by
  have hne : trim raw ≠ [] := by
    intro hnil
    simp [normalizeRule_eq_none.mpr hnil] at h
  rw [normalizeRule_of_ne_nil hne, Option.some.injEq] at h
  subst h
  cases hstrip : stripSuffix ['/'] (trim raw) with
  | none =>
      have hsame : expandFolder (trim raw) = trim raw := by rw [expandFolder, hstrip]
      rw [hsame]
      refine normalizeRule_fixed (trim_eq_self (fun c => head?_trim) (fun c => getLast?_trim)) hne ?_
      intro r heq
      rw [heq, LinkResolver.stripSuffix_append] at hstrip
      contradiction
  | some front =>
      have hfolder : expandFolder (trim raw) = front ++ "/**".toList := by rw [expandFolder, hstrip]
      have htrim := eq_of_stripSuffix hstrip
      have hlast : (front ++ "/**".toList).getLast? = some '*' := by simp
      rw [hfolder]
      refine normalizeRule_fixed (trim_eq_self ?_ ?_) (by simp) ?_
      · intro c hc
        cases front with
        | nil =>
            obtain rfl : '/' = c := by simpa using hc
            rfl
        | cons d front =>
            apply @head?_trim raw
            rw [htrim]
            simpa using hc
      · intro c hc
        rw [hlast, Option.some.injEq] at hc
        rw [← hc]
        rfl
      · intro r heq
        rw [heq] at hlast
        simp at hlast

/-! ## The accepted patterns -/

section

variable {globs : GlobLibrary}

/-- The patterns after one more rule: each one once, in the order of the rules. -/
def accept (patterns : List Text) (raw : Text) : List Text :=
  match normalizeRule raw with
  | none => patterns
  | some normalized => if normalized ∈ patterns then patterns else patterns ++ [normalized]

theorem mem_accept {patterns : List Text} {raw pattern : Text} :
    pattern ∈ accept patterns raw ↔ pattern ∈ patterns ∨ normalizeRule raw = some pattern := by
  rw [accept]
  cases hraw : normalizeRule raw with
  | none => simp
  | some normalized =>
      simp only [Option.some.injEq]
      split_ifs with hmem
      · constructor
        · exact .inl
        · rintro (h | rfl)
          · exact h
          · exact hmem
      · simp [eq_comm]

theorem nodup_accept {patterns : List Text} (h : patterns.Nodup) (raw : Text) :
    (accept patterns raw).Nodup := by
  rw [accept]
  cases hraw : normalizeRule raw with
  | none => exact h
  | some normalized =>
      simp only
      split_ifs with hmem
      · exact h
      · simpa using h.concat hmem

theorem mem_foldl_accept {rules patterns : List Text} {pattern : Text} :
    pattern ∈ rules.foldl accept patterns ↔
      pattern ∈ patterns ∨ ∃ raw ∈ rules, normalizeRule raw = some pattern := by
  induction rules generalizing patterns with
  | nil => simp
  | cons raw rules ih => simp [ih, mem_accept, or_assoc]

theorem nodup_foldl_accept {rules patterns : List Text} (h : patterns.Nodup) :
    (rules.foldl accept patterns).Nodup := by
  induction rules generalizing patterns with
  | nil => exact h
  | cons raw rules ih => exact ih (nodup_accept h raw)

/-- The globs of some patterns. -/
abbrev Compiled (globs : GlobLibrary) (patterns : List Text) (compiled : List globs.Glob) : Prop :=
  List.Forall₂ (fun pattern glob => globs.newGlob pattern = .ok glob) patterns compiled

theorem compiled_unique {patterns : List Text} {compiled compiled' : List globs.Glob}
    (h : Compiled globs patterns compiled) (h' : Compiled globs patterns compiled') :
    compiled = compiled' := by
  induction h generalizing compiled' with
  | nil => exact (List.forall₂_nil_left_iff.mp h').symm
  | cons hglob _ ih =>
      obtain ⟨glob', rest, hglob', hrest, rfl⟩ := List.forall₂_cons_left_iff.mp h'
      rw [Except.ok.inj (hglob.symm.trans hglob'), ih hrest]

/-- One rule more. -/
theorem acceptRule_ok {accepted next : Accepted globs} {entry : Text × ℕ × Text}
    (h : Compiled globs accepted.1 accepted.2) (hnext : acceptRule globs accepted entry = .ok next) :
    next.1 = accept accepted.1 entry.2.2 ∧ Compiled globs next.1 next.2 := by
  rw [acceptRule] at hnext
  rw [accept]
  cases hraw : normalizeRule entry.2.2 with
  | none =>
      rw [hraw, Except.ok.injEq] at hnext
      exact hnext ▸ ⟨rfl, h⟩
  | some normalized =>
      rw [hraw] at hnext
      simp only at hnext ⊢
      split_ifs at hnext ⊢ with hmem
      · rw [Except.ok.injEq] at hnext
        exact hnext ▸ ⟨rfl, h⟩
      · cases hglob : globs.newGlob normalized with
        | error kind =>
            rw [hglob] at hnext
            contradiction
        | ok glob =>
            rw [hglob, Except.ok.injEq] at hnext
            exact hnext ▸ ⟨rfl, List.rel_append h (List.Forall₂.cons hglob List.Forall₂.nil)⟩

/-- What the loop over the rules accepts. -/
theorem foldlM_acceptRule_ok {entries : List (Text × ℕ × Text)} {accepted final : Accepted globs}
    (h : Compiled globs accepted.1 accepted.2)
    (hfinal : entries.foldlM (acceptRule globs) accepted = .ok final) :
    final.1 = (entries.map fun entry => entry.2.2).foldl accept accepted.1 ∧
      Compiled globs final.1 final.2 := by
  induction entries generalizing accepted with
  | nil =>
      rw [List.foldlM_nil] at hfinal
      exact Except.ok.inj hfinal ▸ ⟨rfl, h⟩
  | cons entry entries ih =>
      rw [List.foldlM_cons, bind_ok_iff] at hfinal
      obtain ⟨next, hnext, hfinal⟩ := hfinal
      obtain ⟨hpatterns, hcompiled⟩ := acceptRule_ok h hnext
      rw [List.map_cons, List.foldl_cons, ← hpatterns]
      exact ih hcompiled hfinal

/-- The loop accepts rules whose patterns compile. -/
theorem exists_foldlM_acceptRule {entries : List (Text × ℕ × Text)} (accepted : Accepted globs)
    (h : ∀ entry ∈ entries, ∀ pattern, normalizeRule entry.2.2 = some pattern →
      ∃ glob, globs.newGlob pattern = .ok glob) :
    ∃ final, entries.foldlM (acceptRule globs) accepted = .ok final := by
  induction entries generalizing accepted with
  | nil => exact ⟨accepted, rfl⟩
  | cons entry entries ih =>
      obtain ⟨hentry, hentries⟩ := List.forall_mem_cons.mp h
      have hstep : ∃ next, acceptRule globs accepted entry = .ok next := by
        rw [acceptRule]
        cases hraw : normalizeRule entry.2.2 with
        | none => exact ⟨_, rfl⟩
        | some normalized =>
            obtain ⟨glob, hglob⟩ := hentry normalized hraw
            simp only [hglob]
            split_ifs
            · exact ⟨_, rfl⟩
            · exact ⟨_, rfl⟩
      obtain ⟨next, hnext⟩ := hstep
      obtain ⟨final, hfinal⟩ := ih next hentries
      exact ⟨final, by rw [List.foldlM_cons, hnext]; exact hfinal⟩

/-! ## A policy -/

/-- The patterns of some rules. -/
def patternsOf (rules : List Text) : Set Text :=
  {pattern | ∃ raw ∈ rules, normalizeRule raw = some pattern}

/-- The patterns of some rules compile, also in a set. -/
def Compiles (globs : GlobLibrary) (rules : List Text) : Prop :=
  ∀ patterns : List Text, patterns.Nodup → (∀ pattern ∈ patterns, pattern ∈ patternsOf rules) →
    ∃ compiled set, Compiled globs patterns compiled ∧ globs.buildSet compiled = .ok set

/-- A pattern excludes a path. -/
def Excludes (globs : GlobLibrary) (path : OsString) (pattern : Text) : Prop :=
  ∃ glob, globs.newGlob pattern = .ok glob ∧ globs.globMatch glob path = true

/-- The sorted patterns of some rules, with the paths that they exclude. -/
structure PolicyOf (privateMemory : Bool) (rules : List Text) (exclude : ExcludeSet globs) :
    Prop where
  nodup : exclude.patterns.Nodup
  sorted : exclude.patterns.Pairwise fun a b => a ≤ b
  mem : ∀ pattern, pattern ∈ exclude.patterns ↔ pattern ∈ patternsOf rules
  excluded : ∀ path, exclude.isExcluded path = true ↔
    ∃ pattern ∈ exclude.patterns, Excludes globs path pattern
  privateMemory_eq : exclude.privateMemory = privateMemory

/-- A glob set matches when one of its patterns does. -/
theorem any_globMatch {patterns : List Text} {compiled : List globs.Glob}
    (h : Compiled globs patterns compiled) (path : OsString) :
    (compiled.any fun glob => globs.globMatch glob path) = true ↔
      ∃ pattern ∈ patterns, Excludes globs path pattern := by
  induction h with
  | nil => simp
  | @cons pattern glob patterns compiled hglob _ ih =>
      have hhead : Excludes globs path pattern ↔ globs.globMatch glob path = true := by
        constructor
        · rintro ⟨glob', hglob', hmatch⟩
          rw [hglob, Except.ok.injEq] at hglob'
          exact hglob' ▸ hmatch
        · intro hmatch
          exact ⟨glob, hglob, hmatch⟩
      simp [ih, hhead]

theorem entries_rules (rules : List Text) :
    (rules.zipIdx.map fun entry : Text × ℕ =>
      ("exclusion policy".toList, entry.2 + 1, entry.1)).map (fun entry => entry.2.2) = rules := by
  rw [List.map_map, show (fun entry : Text × ℕ × Text => entry.2.2) ∘ (fun entry : Text × ℕ =>
    ("exclusion policy".toList, entry.2 + 1, entry.1)) = Prod.fst from rfl, List.zipIdx_map_fst]

theorem build_ok {privateMemory : Bool} {rules : List Text} {exclude : ExcludeSet globs}
    (h : build globs privateMemory rules = .ok exclude) : PolicyOf privateMemory rules exclude := by
  rw [build, fromSources, bind_ok_iff] at h
  obtain ⟨accepted, hfold, h⟩ := h
  obtain ⟨hpatterns, hcompiled⟩ := foldlM_acceptRule_ok List.Forall₂.nil hfold
  rw [entries_rules] at hpatterns
  cases hset : globs.buildSet accepted.2 with
  | error error =>
      rw [hset] at h
      contradiction
  | ok set =>
      rw [hset, Except.ok.injEq] at h
      subst h
      have hperm := List.mergeSort_perm accepted.1 fun a b => decide (a ≤ b)
      have hsorted := List.pairwise_mergeSort (@sortOrder_le Text _).trans
        (@sortOrder_le Text _).total accepted.1
      constructor
      · rw [hperm.nodup_iff, hpatterns]
        exact nodup_foldl_accept List.nodup_nil
      · exact hsorted.imp fun hab => of_decide_eq_true hab
      · intro pattern
        rw [hperm.mem_iff, hpatterns, mem_foldl_accept]
        simp [patternsOf]
      · intro path
        have hmatch := any_globMatch hcompiled path
        rw [← globs.isMatch_eq _ _ hset path] at hmatch
        simp only [hperm.mem_iff]
        rw [← hmatch, ExcludeSet.isExcluded, ExcludeSet.isEmpty]
        split_ifs with hempty
        · -- a set without globs matches nothing
          rw [List.isEmpty_iff] at hempty
          have hnil : accepted.1 = [] := (List.Perm.nil_eq (hempty ▸ hperm)).symm
          rw [hmatch, hnil]
          simp
        · rfl
      · rfl

theorem exists_build {rules : List Text} (h : Compiles globs rules) (privateMemory : Bool) :
    ∃ exclude, build globs privateMemory rules = .ok exclude := by
  have hloop : ∃ final, (rules.zipIdx.map fun entry : Text × ℕ =>
      ("exclusion policy".toList, entry.2 + 1, entry.1)).foldlM (acceptRule globs) ([], []) =
        .ok final := by
    refine exists_foldlM_acceptRule ([], []) fun entry hmem pattern hpattern => ?_
    have hraw : entry.2.2 ∈ rules := by
      rw [← entries_rules rules]
      exact List.mem_map_of_mem hmem
    obtain ⟨compiled, set, hcompiled, -⟩ := h [pattern] (List.nodup_singleton _) fun other hother =>
      ⟨entry.2.2, hraw, by rw [hpattern, List.mem_singleton.mp hother]⟩
    obtain ⟨glob, -, hglob, -, -⟩ := List.forall₂_cons_left_iff.mp hcompiled
    exact ⟨glob, hglob⟩
  obtain ⟨final, hfinal⟩ := hloop
  obtain ⟨hpatterns, hcompiled⟩ := foldlM_acceptRule_ok List.Forall₂.nil hfinal
  rw [entries_rules] at hpatterns
  obtain ⟨compiled, set, hcompiled', hset⟩ := h final.1
    (hpatterns ▸ nodup_foldl_accept List.nodup_nil) fun pattern hmem => by
      rw [hpatterns, mem_foldl_accept] at hmem
      simpa [patternsOf] using hmem
  obtain rfl := compiled_unique hcompiled hcompiled'
  refine ⟨⟨set, final.1.mergeSort fun a b => a ≤ b, privateMemory⟩,
    bind_ok_iff.mpr ⟨final, hfinal, ?_⟩⟩
  rw [hset]

/-! ## Policies of the same rules -/

/-- Two policies that a client and the daemon cannot tell apart. -/
structure Same (exclude other : ExcludeSet globs) : Prop where
  patterns : exclude.patterns = other.patterns
  scopeId : ∀ sha256 canonicalRoot,
    exclude.scopeId sha256 canonicalRoot = other.scopeId sha256 canonicalRoot
  excluded : ∀ path, exclude.isExcluded path = other.isExcluded path

/-- Sorted lists with the same elements are equal. -/
theorem PolicyOf.patterns_eq {privateMemory other : Bool} {rules rules' : List Text}
    {exclude exclude' : ExcludeSet globs} (h : PolicyOf privateMemory rules exclude)
    (h' : PolicyOf other rules' exclude') :
    exclude.patterns = exclude'.patterns ↔ patternsOf rules = patternsOf rules' := by
  constructor
  · intro heq
    ext pattern
    rw [← h.mem, ← h'.mem, heq]
  · intro heq
    have hperm : exclude.patterns.Perm exclude'.patterns := by
      rw [List.perm_ext_iff_of_nodup h.nodup h'.nodup]
      intro pattern
      rw [h.mem, h'.mem, heq]
    exact hperm.eq_of_pairwise (fun _ _ _ _ => le_antisymm) h.sorted h'.sorted

/-- A policy depends on the patterns of its rules only. -/
theorem PolicyOf.same {privateMemory : Bool} {rules rules' : List Text}
    {exclude exclude' : ExcludeSet globs} (h : PolicyOf privateMemory rules exclude)
    (h' : PolicyOf privateMemory rules' exclude') (heq : patternsOf rules = patternsOf rules') :
    Same exclude exclude' := by
  have hpatterns := (h.patterns_eq h').mpr heq
  refine ⟨hpatterns, ?_, ?_⟩
  · intro sha256 canonicalRoot
    rw [ExcludeSet.scopeId, ExcludeSet.scopeId, hpatterns, h.privateMemory_eq, h'.privateMemory_eq]
  · intro path
    rw [Bool.eq_iff_iff, h.excluded, h'.excluded, hpatterns]

/-- The patterns of patterns are themselves. -/
theorem PolicyOf.patternsOf_patterns {privateMemory : Bool} {rules : List Text}
    {exclude : ExcludeSet globs} (h : PolicyOf privateMemory rules exclude) :
    patternsOf exclude.patterns = patternsOf rules := by
  ext pattern
  constructor
  · rintro ⟨raw, hraw, hpattern⟩
    obtain ⟨rule, hrule, hnormal⟩ := (h.mem raw).mp hraw
    rw [normalizeRule_normalized hnormal] at hpattern
    exact Option.some.inj hpattern ▸ ⟨rule, hrule, hnormal⟩
  · intro hpattern
    obtain ⟨rule, hrule, hnormal⟩ := hpattern
    exact ⟨pattern, (h.mem pattern).mpr ⟨rule, hrule, hnormal⟩, normalizeRule_normalized hnormal⟩

theorem patternsOf_append (rules extra : List Text) :
    patternsOf (rules ++ extra) = patternsOf rules ∪ patternsOf extra := by
  ext pattern
  simp [patternsOf, or_and_right, exists_or]

/-- A merged policy excludes what the floor or the extra rules exclude. -/
theorem PolicyOf.merged {privateMemory : Bool} {rules extra : List Text}
    {floor client both : ExcludeSet globs} (h : PolicyOf privateMemory rules floor)
    (hclient : PolicyOf privateMemory extra client)
    (hboth : PolicyOf privateMemory (floor.patterns ++ extra) both) (path : OsString) :
    both.isExcluded path = (floor.isExcluded path || client.isExcluded path) := by
  have hmem : ∀ pattern, pattern ∈ both.patterns ↔
      pattern ∈ floor.patterns ∨ pattern ∈ client.patterns := by
    intro pattern
    rw [hboth.mem, patternsOf_append, h.patternsOf_patterns, Set.mem_union, h.mem, hclient.mem]
  rw [Bool.eq_iff_iff, Bool.or_eq_true, hboth.excluded, h.excluded, hclient.excluded]
  simp [hmem, or_and_right, exists_or]

/-! ## Scope ids -/

/-- Pieces that tell where they end are told apart, and so are lists of them. -/
theorem flatMap_inj {α β : Type} {f : α → List β} {p : α → Prop} (hne : ∀ a, f a ≠ [])
    (hf : ∀ a b s t, p a → p b → f a ++ s = f b ++ t → a = b) {xs ys : List α}
    (hxs : ∀ a ∈ xs, p a) (hys : ∀ a ∈ ys, p a) (h : xs.flatMap f = ys.flatMap f) : xs = ys := by
  induction xs generalizing ys with
  | nil =>
      cases ys with
      | nil => rfl
      | cons y ys => simp [hne y] at h
  | cons x xs ih =>
      cases ys with
      | nil => simp [hne x] at h
      | cons y ys =>
          obtain ⟨hx, hxs'⟩ := List.forall_mem_cons.mp hxs
          obtain ⟨hy, hys'⟩ := List.forall_mem_cons.mp hys
          rw [List.flatMap_cons, List.flatMap_cons] at h
          have hxy := hf x y _ _ hx hy h
          subst hxy
          have hrest := List.append_cancel_left h
          rw [ih hxs' hys' hrest]

theorem hexDigit_inj {m n : ℕ} (hm : m < 16) (hn : n < 16)
    (h : JsonText.hexDigit m = JsonText.hexDigit n) : m = n := by
  have hall : ∀ m < 16, ∀ n < 16, JsonText.hexDigit m = JsonText.hexDigit n → m = n := by decide
  exact hall m hm n hn h

/-- Hexadecimal digits tell hashes apart. -/
theorem digestHex_inj {hash hash' : Hash} : digestHex hash = digestHex hash' ↔ hash = hash' := by
  constructor
  · intro h
    refine Vector.toList_inj.mp (flatMap_inj (p := fun _ => True) ?_ ?_ ?_ ?_ h)
    · intro byte
      simp [hexPair]
    · intro a b s t _ _ h
      simp only [hexPair, List.cons_append, List.nil_append, List.cons.injEq] at h
      have ha := a.toNat_lt
      have hb := b.toNat_lt
      have hhigh := hexDigit_inj (by omega) (by omega) h.1
      have hlow := hexDigit_inj (by omega) (by omega) h.2.1
      exact UInt8.toNat_inj.mp (by omega)
    · simp
    · simp
  · rintro rfl
    rfl

/-- The length of a rule has a leading zero byte. -/
theorem head?_beBytes {n : ℕ} (h : n < 2 ^ 56) : (beBytes 8 n).head? = some 0 := by
  have hhigh : n / 256 / 256 / 256 / 256 / 256 / 256 / 256 = 0 := by omega
  simp [beBytes, leBytes, hhigh]

/-- The bytes of a rule behind its length. -/
theorem rule_inj {rule other : Text} {s t : List UInt8} (hrule : byteLen rule < 2 ^ 56)
    (hother : byteLen other < 2 ^ 56)
    (h : beBytes 8 (byteLen rule) ++ utf8Bytes rule ++ s =
      beBytes 8 (byteLen other) ++ utf8Bytes other ++ t) : rule = other := by
  rw [List.append_assoc, List.append_assoc] at h
  obtain ⟨hlength, h⟩ := List.append_inj h (by simp)
  have hlengths : byteLen rule = byteLen other := by
    rw [← beValue_beBytes (show byteLen rule < 256 ^ 8 by omega), hlength,
      beValue_beBytes (by omega)]
  have hbytes := List.append_inj_left h (by simp [hlengths])
  have htexts := congrArg fromUtf8 hbytes
  rw [fromUtf8_utf8Bytes, fromUtf8_utf8Bytes] at htexts
  exact Option.some.inj htexts

/-- The bytes of rules tell them apart. -/
theorem rules_inj {patterns patterns' : List Text}
    (hsize : ∀ pattern ∈ patterns, byteLen pattern < 2 ^ 56)
    (hsize' : ∀ pattern ∈ patterns', byteLen pattern < 2 ^ 56)
    (h : ruleBytes false patterns = ruleBytes false patterns') : patterns = patterns' := by
  refine flatMap_inj ?_ (fun rule rule' s t => rule_inj) hsize hsize' h
  intro rule hnil
  have hlength := congrArg List.length hnil
  simp at hlength

/-- The marker of private memory is not the start of a rule. -/
theorem ruleBytes_false_ne_true {patterns patterns' : List Text}
    (hsize : ∀ pattern ∈ patterns, byteLen pattern < 2 ^ 56) :
    ruleBytes false patterns ≠ ruleBytes true patterns' := by
  have hmarker : (ruleBytes true patterns').head? = some 0x70 := rfl
  intro h
  rw [← h] at hmarker
  cases patterns with
  | nil => contradiction
  | cons rule patterns =>
      have hzero := head?_beBytes (hsize rule List.mem_cons_self)
      have hfirst : (ruleBytes false (rule :: patterns)).head? = (beBytes 8 (byteLen rule)).head? := by
        obtain ⟨rest, hrest⟩ := List.head?_eq_some_iff.mp hzero
        simp [ruleBytes, hrest]
      rw [hfirst, hzero] at hmarker
      contradiction

/-- The bytes behind the root tell policies apart. -/
theorem ruleBytes_inj {privateMemory other : Bool} {patterns patterns' : List Text}
    (hsize : ∀ pattern ∈ patterns, byteLen pattern < 2 ^ 56)
    (hsize' : ∀ pattern ∈ patterns', byteLen pattern < 2 ^ 56)
    (h : ruleBytes privateMemory patterns = ruleBytes other patterns') :
    privateMemory = other ∧ patterns = patterns' := by
  cases privateMemory with
  | false =>
      cases other with
      | false => exact ⟨rfl, rules_inj hsize hsize' h⟩
      | true => exact absurd h (ruleBytes_false_ne_true hsize)
  | true =>
      cases other with
      | false => exact absurd h.symm (ruleBytes_false_ne_true hsize')
      | true => exact ⟨rfl, rules_inj hsize hsize' (List.append_cancel_left h)⟩

theorem scopeBytes_inj {sha256 : List UInt8 → Hash} {canonicalRoot : OsString}
    {privateMemory other : Bool} {patterns patterns' : List Text}
    (hsize : ∀ pattern ∈ patterns, byteLen pattern < 2 ^ 56)
    (hsize' : ∀ pattern ∈ patterns', byteLen pattern < 2 ^ 56)
    (h : scopeBytes sha256 canonicalRoot privateMemory patterns =
      scopeBytes sha256 canonicalRoot other patterns') :
    privateMemory = other ∧ patterns = patterns' :=
  ruleBytes_inj hsize hsize' (List.append_cancel_left h)

theorem byteLen_trim_le (t : Text) : byteLen (trim t) ≤ byteLen t := by
  obtain ⟨front, hfront⟩ := List.dropWhile_suffix isWhitespace (l := t)
  obtain ⟨tail, htail⟩ := List.rdropWhile_prefix isWhitespace (t.dropWhile isWhitespace)
  have hlength := congrArg byteLen hfront
  have hlength' := congrArg byteLen htail
  rw [byteLen_append] at hlength hlength'
  rw [trim]
  omega

/-- A pattern is at most two bytes longer than its rule. -/
theorem byteLen_normalizeRule {raw pattern : Text} (h : normalizeRule raw = some pattern) :
    byteLen pattern ≤ byteLen raw + 2 := by
  have hne : trim raw ≠ [] := by
    intro hnil
    simp [normalizeRule_eq_none.mpr hnil] at h
  rw [normalizeRule_of_ne_nil hne, Option.some.injEq] at h
  subst h
  have hle := byteLen_trim_le raw
  cases hstrip : stripSuffix ['/'] (trim raw) with
  | none =>
      have hsame : expandFolder (trim raw) = trim raw := by rw [expandFolder, hstrip]
      rw [hsame]
      omega
  | some front =>
      have hfolder : expandFolder (trim raw) = front ++ "/**".toList := by rw [expandFolder, hstrip]
      have hends : byteLen "/**".toList = byteLen ['/'] + 2 := by decide
      rw [eq_of_stripSuffix hstrip, byteLen_append] at hle
      rw [hfolder, byteLen_append]
      omega

/-- The patterns of rules of bounded size are short. -/
theorem PolicyOf.byteLen_lt {privateMemory : Bool} {rules : List Text} {exclude : ExcludeSet globs}
    (h : PolicyOf privateMemory rules exclude) (hsize : (rules.map byteLen).sum ≤ 256 * 1024) :
    ∀ pattern ∈ exclude.patterns, byteLen pattern < 2 ^ 56 := by
  intro pattern hmem
  obtain ⟨raw, hraw, hpattern⟩ := (h.mem pattern).mp hmem
  have hle : byteLen raw ≤ (rules.map byteLen).sum := List.le_sum_of_mem (List.mem_map_of_mem hraw)
  have hpatternLe := byteLen_normalizeRule hpattern
  omega

/-- Rules without their blank entries, their repetitions, their order and the spaces around them. -/
def words (rules : List Text) : Set Text :=
  {word | word ≠ [] ∧ ∃ raw ∈ rules, trim raw = word}

theorem patternsOf_congr {rules rules' : List Text} (h : words rules = words rules') :
    patternsOf rules = patternsOf rules' := by
  have hsub : ∀ {rules rules' : List Text}, words rules = words rules' →
      patternsOf rules ⊆ patternsOf rules' := by
    rintro rules rules' h pattern ⟨raw, hraw, hpattern⟩
    have hne : trim raw ≠ [] := by
      intro hnil
      simp [normalizeRule_eq_none.mpr hnil] at hpattern
    have hword : trim raw ∈ words rules' := h ▸ ⟨hne, raw, hraw, rfl⟩
    obtain ⟨-, raw', hraw', htrim⟩ := hword
    exact ⟨raw', hraw', by rw [normalizeRule_congr htrim, hpattern]⟩
  exact (hsub h).antisymm (hsub h.symm)

end

/-- A policy depends on the words of its rules only. Building it again from its patterns changes
nothing, merging excludes what either policy excludes, and the scope ids of one root are equal when
the normalized patterns are. -/
theorem exclusions_canonical (globs : GlobLibrary) (sha256 : List UInt8 → Hash)
    (canonicalRoot : OsString) (privateMemory : Bool) (rules extra : List Text)
    (hcompiles : Compiles globs (rules ++ extra))
    (hrules : (rules.map byteLen).sum ≤ 256 * 1024) (hextra : (extra.map byteLen).sum ≤ 256 * 1024) :
    ∃ floor client, build globs privateMemory rules = .ok floor ∧
      build globs privateMemory extra = .ok client ∧
      (∀ rules', words rules' = words rules →
        ∃ other, build globs privateMemory rules' = .ok other ∧ Same other floor) ∧
      (∃ again, build globs privateMemory (IndexScope.new floor.patterns).excludePatterns =
        .ok again ∧ Same again floor) ∧
      (∃ both, floor.merged privateMemory extra = .ok both ∧
        ∀ path, both.isExcluded path = (floor.isExcluded path || client.isExcluded path)) ∧
      (∀ marker marker', scopeBytes sha256 canonicalRoot marker floor.patterns =
        scopeBytes sha256 canonicalRoot marker' client.patterns →
          marker = marker' ∧ floor.patterns = client.patterns) ∧
      ((sha256 (scopeBytes sha256 canonicalRoot privateMemory floor.patterns) =
          sha256 (scopeBytes sha256 canonicalRoot privateMemory client.patterns) →
        scopeBytes sha256 canonicalRoot privateMemory floor.patterns =
          scopeBytes sha256 canonicalRoot privateMemory client.patterns) →
        (floor.scopeId sha256 canonicalRoot = client.scopeId sha256 canonicalRoot ↔
          patternsOf rules = patternsOf extra)) := by
  have hfloors : ∀ rules', patternsOf rules' ⊆ patternsOf (rules ++ extra) →
      Compiles globs rules' := by
    intro rules' hsub patterns hnodup hmem
    exact hcompiles patterns hnodup fun pattern hpattern => hsub (hmem pattern hpattern)
  have hunion := patternsOf_append rules extra
  obtain ⟨floor, hfloor⟩ := exists_build
    (hfloors rules (hunion ▸ Set.subset_union_left)) privateMemory
  obtain ⟨client, hclient⟩ := exists_build
    (hfloors extra (hunion ▸ Set.subset_union_right)) privateMemory
  have hpolicy := build_ok hfloor
  have hpolicy' := build_ok hclient
  have hsize := hpolicy.byteLen_lt hrules
  have hsize' := hpolicy'.byteLen_lt hextra
  refine ⟨floor, client, hfloor, hclient, ?_, ?_, ?_, ?_, ?_⟩
  · intro rules' hwords
    have hpatterns := patternsOf_congr hwords
    obtain ⟨other, hother⟩ := exists_build
      (hfloors rules' (hpatterns ▸ hunion ▸ Set.subset_union_left)) privateMemory
    exact ⟨other, hother, (build_ok hother).same hpolicy hpatterns⟩
  · have hpatterns := hpolicy.patternsOf_patterns
    obtain ⟨again, hagain⟩ := exists_build
      (hfloors floor.patterns (hpatterns ▸ hunion ▸ Set.subset_union_left)) privateMemory
    exact ⟨again, hagain, (build_ok hagain).same hpolicy hpatterns⟩
  · have hpatterns : patternsOf (floor.patterns ++ extra) = patternsOf (rules ++ extra) := by
      rw [patternsOf_append, patternsOf_append, hpolicy.patternsOf_patterns]
    obtain ⟨both, hboth⟩ := exists_build
      (hfloors (floor.patterns ++ extra) hpatterns.subset) privateMemory
    exact ⟨both, hboth, hpolicy.merged hpolicy' (build_ok hboth)⟩
  · intro marker marker' h
    exact scopeBytes_inj hsize hsize' h
  · intro hcollision
    rw [← hpolicy.patterns_eq hpolicy', ExcludeSet.scopeId, ExcludeSet.scopeId, digestHex_inj,
      hpolicy.privateMemory_eq, hpolicy'.privateMemory_eq]
    constructor
    · intro h
      exact (scopeBytes_inj hsize hsize' (hcollision h)).2
    · intro h
      rw [h]

/-- Patterns without special characters match themselves. -/
def literalGlobs : GlobLibrary where
  Glob := Text
  GlobSet := List Text
  newGlob := .ok
  buildSet := .ok
  globMatch glob path := utf8Bytes glob = path
  isMatch set path := set.any fun glob => utf8Bytes glob = path
  isMatch_eq := by
    intro globs set h path
    rw [Except.ok.inj h]

/-- A client that repeats a rule of the floor. -/
theorem exclusions_canonical_two :
    ∃ floor client, build literalGlobs false ["b.md".toList, " a.md ".toList] = .ok floor ∧
      build literalGlobs false ["a.md".toList] = .ok client ∧
      ∃ both, floor.merged false ["a.md".toList] = .ok both ∧
        ∀ path, both.isExcluded path = (floor.isExcluded path || client.isExcluded path) := by
  have hcompiles : Compiles literalGlobs (["b.md".toList, " a.md ".toList] ++ ["a.md".toList]) := by
    intro patterns _ _
    exact ⟨patterns, patterns, List.forall₂_same.mpr fun _ _ => rfl, rfl⟩
  obtain ⟨floor, client, hfloor, hclient, -, -, hmerged, -⟩ := exclusions_canonical literalGlobs
    (fun _ => .replicate 32 0) [] false ["b.md".toList, " a.md ".toList] ["a.md".toList] hcompiles
    (by decide) (by decide)
  exact ⟨floor, client, hfloor, hclient, hmerged⟩

end ObsidianMcp.Exclude
