import ObsidianMcp.Verification.Links.Resolver

/-! # The `.md` suffix of link targets

The suffix is stripped after lower-casing, and lower-casing looks at what follows a capital
sigma: `.md` turns the final sigma of a name into a medial one. -/

namespace ObsidianMcp.LinkResolver

open Text Unicode

variable {u : PathText}

/-! ## Lookup keys -/

theorem stripSuffix_append (s t : Text) : stripSuffix s (t ++ s) = some t := by
  rw [stripSuffix, if_pos (List.isSuffixOf_iff_suffix.mpr ⟨t, rfl⟩)]
  simp

theorem stripSuffix_of_not {s t : Text} (h : ∀ r, t ≠ r ++ s) : stripSuffix s t = none := by
  rw [stripSuffix, if_neg]
  intro hs
  rcases List.isSuffixOf_iff_suffix.mp hs with ⟨r, hr⟩
  exact h r hr.symm

/-- An ASCII character in front of a text's end is the lower case of that end. -/
theorem exists_of_lowerIn_concat {before after t s : Text} {x : Char}
    (hx : ∀ c, x ∈ u.lower c → u.lower c = [x]) (hsigma : x ≠ 'ς' ∧ x ≠ 'σ')
    (h : u.lowerIn before after t = s ++ [x]) :
    ∃ r c, t = r ++ [c] ∧ x ∈ u.lower c ∧ u.lowerIn before (c :: after) r = s := by
  rcases exists_concat_of_lowerIn h with ⟨r, c, rfl, hlast⟩
  have hc : c ≠ 'Σ' := by
    intro hc
    rw [if_pos hc] at hlast
    have hx' := (List.append_inj_right' hlast rfl)
    rw [List.cons.injEq, lowerSigma] at hx'
    split at hx'
    · exact hsigma.1 hx'.1.symm
    · exact hsigma.2 hx'.1.symm
  rw [if_neg hc] at hlast
  have hmem : x ∈ u.lower c := by
    have hlastx : (u.lowerIn before (c :: after) r ++ u.lower c).getLast? = some x := by
      rw [hlast, List.getLast?_concat]
    rw [List.getLast?_append_of_ne_nil _ (u.lower_ne_nil c)] at hlastx
    exact List.mem_of_getLast? hlastx
  rw [hx c hmem] at hlast
  exact ⟨r, c, rfl, hmem, List.append_cancel_right hlast⟩

theorem lower_eq_dot {c : Char} (h : '.' ∈ u.lower c) : u.lower c = ['.'] := by
  rw [u.eq_dot c h, u.lower_dot]

/-- Only a text that ends with `.md` has a lower case that does. -/
theorem endsWithMd_of_toLowercase {t s : Text} (h : u.toLowercase t = s ++ ".md".toList) :
    EndsWithMd t := by
  have hd : u.lowerIn [] [] t = (s ++ ['.', 'm']) ++ ['d'] := by
    rw [List.append_assoc]
    exact h
  rcases exists_of_lowerIn_concat (fun c hc => u.lower_d c (u.letter_d c hc)) (by decide) hd with
    ⟨r, d, rfl, hdmem, hm⟩
  have hm' : u.lowerIn [] [d] r = (s ++ ['.']) ++ ['m'] := by
    rw [List.append_assoc]
    exact hm
  rcases exists_of_lowerIn_concat (fun c hc => u.lower_m c (u.letter_m c hc)) (by decide) hm' with
    ⟨r, m, rfl, hmmem, hdot⟩
  rcases exists_of_lowerIn_concat (fun c hc => lower_eq_dot hc) (by decide) hdot with
    ⟨r, c, rfl, hdotmem, -⟩
  refine ⟨r, m, d, ?_, u.letter_m m hmmem, u.letter_d d hdmem⟩
  rw [u.eq_dot c hdotmem]
  simp

theorem toNat_lt_of_isLetter {small c : Char} (hsmall : small.toNat < 128)
    (hupper : small.toUpper.toNat < 128) (h : isLetter small c) : c.toNat < 128 := by
  rcases eq_or_eq_of_isLetter h with rfl | rfl
  · exact hsmall
  · exact hupper

/-- Composition leaves a suffix `.md` alone. -/
theorem nfc_md {m d : Char} (hm : isLetter 'm' m) (hd : isLetter 'd' d) (t : Text) :
    u.nfc (t ++ ['.', m, d]) = u.nfc t ++ ['.', m, d] := by
  have hsplit : ∀ x : Text, x ++ ['.', m, d] = ((x ++ ['.']) ++ [m]) ++ [d] := by simp
  rw [hsplit, hsplit, u.nfc_concat _ d (toNat_lt_of_isLetter (by decide) (by decide) hd),
    u.nfc_concat _ m (toNat_lt_of_isLetter (by decide) (by decide) hm),
    u.nfc_concat _ '.' (by decide)]

theorem endsWithMd_of_nfc {t : Text} (h : EndsWithMd (u.nfc t)) : EndsWithMd t := by
  rcases h with ⟨s, m, d, hs, hm, hd⟩
  have hsplit : u.nfc t = ((s ++ ['.']) ++ [m]) ++ [d] := by simpa using hs
  rcases u.nfc_last t _ d (.inr (.inr hd)) hsplit with ⟨r, rfl⟩
  rw [u.nfc_concat _ d (toNat_lt_of_isLetter (by decide) (by decide) hd)] at hsplit
  rcases u.nfc_last r _ m (.inr (.inl hm)) (List.append_cancel_right hsplit) with ⟨r, rfl⟩
  rw [u.nfc_concat _ m (toNat_lt_of_isLetter (by decide) (by decide) hm)] at hsplit
  rcases u.nfc_last r _ '.' (.inl rfl)
    (List.append_cancel_right (List.append_cancel_right hsplit)) with ⟨r, rfl⟩
  exact ⟨r, m, d, by simp, hm, hd⟩

theorem lookupKey_of_not_endsWithMd {t : Text} (ht : ¬EndsWithMd t) :
    lookupKeyWithoutMd u t = u.toLowercase (u.nfc t) := by
  rw [lookupKeyWithoutMd]
  have hnone : stripSuffix ".md".toList (u.toLowercase (u.nfc t)) = none := by
    apply stripSuffix_of_not
    intro r hr
    exact ht (endsWithMd_of_nfc (endsWithMd_of_toLowercase hr))
  rw [hnone, Option.getD_none]

theorem lookupKey_md {m d : Char} (hm : isLetter 'm' m) (hd : isLetter 'd' d) (t : Text) :
    lookupKeyWithoutMd u (t ++ ['.', m, d]) = u.lowerIn [] ['.', m, d] (u.nfc t) := by
  rw [lookupKeyWithoutMd, nfc_md hm hd, toLowercase, lowerIn_append, lowerIn_md hm hd,
    List.append_nil]
  have hstrip : stripSuffix ".md".toList
      (u.lowerIn [] ['.', m, d] (u.nfc t) ++ ['.', 'm', 'd']) =
        some (u.lowerIn [] ['.', m, d] (u.nfc t)) := stripSuffix_append _ _
  rw [hstrip, Option.getD_some]

theorem length_lowerIn (before after before' after' t : Text) :
    (u.lowerIn before after t).length = (u.lowerIn before' after' t).length := by
  induction t generalizing before before' with
  | nil => rfl
  | cons c t ih =>
      rw [lowerIn, lowerIn, List.length_append, List.length_append, ih (c :: before) (c :: before')]
      split <;> rfl

/-- A text and the text with `.md` have one key unless the text ends with `.md` itself or with a
final sigma. -/
theorem lookupKey_eq_iff {m d : Char} (hm : isLetter 'm' m) (hd : isLetter 'd' d) (t : Text) :
    lookupKeyWithoutMd u t = lookupKeyWithoutMd u (t ++ ['.', m, d]) ↔
      ¬EndsWithMd t ∧ ¬u.EndsWithFinalSigma (u.nfc t) := by
  by_cases ht : EndsWithMd t
  · refine iff_of_false ?_ fun h => h.1 ht
    intro h
    rcases ht with ⟨r, m', d', rfl, hm', hd'⟩
    have hlen := congrArg List.length h
    rw [lookupKey_md hm' hd', lookupKey_md hm hd, nfc_md hm' hd', lowerIn_append,
      List.length_append, length_lowerIn [] _ [] ['.', m', d']] at hlen
    have hpos : 0 < (u.lowerIn ((u.nfc r).reverse ++ []) ['.', m, d] ['.', m', d']).length := by
      rw [length_lowerIn _ _ [] [], lowerIn_md hm' hd']
      decide
    have hleft := length_lowerIn (u := u) [] ['.', m', d'] []
      (['.', m', d'] ++ ['.', m, d]) (u.nfc r)
    omega
  · rw [lookupKey_of_not_endsWithMd ht, lookupKey_md hm hd]
    have hwhole : u.toLowercase (u.nfc t ++ ['.', m, d]) =
        u.lowerIn [] ['.', m, d] (u.nfc t) ++ ['.', 'm', 'd'] := by
      rw [toLowercase, lowerIn_append, lowerIn_md hm hd, List.append_nil]
    by_cases hsigma : u.EndsWithFinalSigma (u.nfc t)
    · refine iff_of_false ?_ fun h => h.2 hsigma
      intro h
      rw [← h] at hwhole
      exact toLowercase_md_ne hm hsigma _ hwhole
    · refine iff_of_true ?_ ⟨ht, hsigma⟩
      rw [toLowercase_md hm hd hsigma] at hwhole
      exact List.append_cancel_right hwhole

/-! ## Folders -/

theorem toLowercase_eq_nil {t : Text} : u.toLowercase t = [] ↔ t = [] := by
  cases t with
  | nil => simp [toLowercase, lowerIn]
  | cons c t =>
      simp only [toLowercase, lowerIn, List.append_eq_nil_iff, reduceCtorEq, iff_false, not_and]
      intro h
      split at h
      · simp at h
      · exact absurd h (u.lower_ne_nil c)

theorem slash_mem_lowerIn {before after t : Text} (h : '/' ∈ u.lowerIn before after t) :
    '/' ∈ t := by
  induction t generalizing before with
  | nil => simp [lowerIn] at h
  | cons c t ih =>
      rw [lowerIn, List.mem_append] at h
      rcases h with h | h
      · split at h
        · rw [List.mem_singleton, lowerSigma] at h
          split at h <;> exact absurd h (by decide)
        · exact List.mem_cons.mpr (.inl (u.eq_slash c h).symm)
      · exact List.mem_cons_of_mem _ (ih h)

/-- Stripping the suffix of a path strips that of its last name. -/
theorem lookupKey_slash (s t : Text) :
    lookupKeyWithoutMd u (s ++ '/' :: t) =
      u.toLowercase (u.nfc s) ++ '/' :: lookupKeyWithoutMd u t := by
  rw [lookupKeyWithoutMd, lookupKeyWithoutMd, u.nfc_slash, toLowercase_slash]
  generalize u.toLowercase (u.nfc s) = folder
  generalize u.toLowercase (u.nfc t) = name
  by_cases h : ∃ r, name = r ++ ".md".toList
  · rcases h with ⟨r, rfl⟩
    have hassoc : folder ++ '/' :: (r ++ ".md".toList) = (folder ++ '/' :: r) ++ ".md".toList := by
      simp
    rw [hassoc, stripSuffix_append, stripSuffix_append]
    rfl
  · have hname : ∀ r, name ≠ r ++ ".md".toList := by simpa using h
    have hpath : ∀ r, folder ++ '/' :: name ≠ r ++ ".md".toList := by
      intro r hr
      -- the suffix has no slash, so it lies within the name
      rcases List.append_eq_append_iff.mp hr with ⟨a, ha, hb⟩ | ⟨a, ha, hb⟩
      · cases a with
        | nil => exact absurd hb (by simp)
        | cons c a =>
            rw [List.cons_append, List.cons.injEq] at hb
            exact hname a hb.2
      · have hslash : '/' ∈ ".md".toList := by
          rw [hb]
          simp
        exact absurd hslash (by decide)
    rw [stripSuffix_of_not hname, stripSuffix_of_not hpath]
    rfl

theorem mem_of_mem_stripSuffix {c : Char} {s t : Text} (h : c ∈ (stripSuffix s t).getD t) :
    c ∈ t := by
  rw [stripSuffix] at h
  split at h
  · exact List.mem_of_mem_take h
  · exact h

theorem slash_mem_lookupKey {t : Text} : '/' ∈ lookupKeyWithoutMd u t ↔ '/' ∈ t := by
  constructor
  · intro h
    exact u.slash_of_nfc t (slash_mem_lowerIn (mem_of_mem_stripSuffix h))
  · intro h
    rcases List.append_of_mem h with ⟨s, r, rfl⟩
    rw [lookupKey_slash]
    simp

/-! ## Notes -/

/-- The path of a note: a folder with its slash, or none, then a name and its extension. -/
structure NotePath where
  folder : Text
  stem : Text
  m : Char
  d : Char
  folder_eq : folder = [] ∨ ∃ f, folder = f ++ ['/']
  folder_plain : '\\' ∉ folder
  stem_ne : stem ≠ []
  stem_plain : '/' ∉ stem ∧ '\\' ∉ stem
  letter_m : isLetter 'm' m
  letter_d : isLetter 'd' d

namespace NotePath

def fileName (note : NotePath) : Text := note.stem ++ ['.', note.m, note.d]

def path (note : NotePath) : OsString := utf8Bytes (note.folder ++ note.fileName)

end NotePath

theorem portableSeparators_of_not_mem {t : Text} (h : '\\' ∉ t) : portableSeparators t = t := by
  rw [portableSeparators]
  calc
    _ = t.map id := by
      apply List.map_congr_left
      intro c hc
      have hne : c ≠ '\\' := fun heq => h (heq ▸ hc)
      simp [hne]
    _ = t := List.map_id t

theorem letter_plain {small c : Char} (h : isLetter small c)
    (hs : small = 'm' ∨ small = 'd') : c ≠ '/' ∧ c ≠ '\\' := by
  rcases hs with rfl | rfl <;> rcases eq_or_eq_of_isLetter h with rfl | rfl <;> decide

theorem NotePath.fileName_plain (note : NotePath) :
    '/' ∉ note.fileName ∧ '\\' ∉ note.fileName := by
  have hm := letter_plain note.letter_m (.inl rfl)
  have hd := letter_plain note.letter_d (.inr rfl)
  constructor
  · simp only [fileName, List.mem_append, List.mem_cons, List.not_mem_nil, or_false, not_or]
    exact ⟨note.stem_plain.1, by decide, hm.1.symm, hd.1.symm⟩
  · simp only [fileName, List.mem_append, List.mem_cons, List.not_mem_nil, or_false, not_or]
    exact ⟨note.stem_plain.2, by decide, hm.2.symm, hd.2.symm⟩

/-- The last piece of a text behind a separator. -/
theorem getLast?_splitOnP {p : Char → Bool} {folder name : Text}
    (hfolder : folder = [] ∨ ∃ f c, folder = f ++ [c] ∧ p c = true)
    (hname : ∀ c ∈ name, p c = false) :
    ((folder ++ name).splitOnP p).getLast? = some name := by
  have hsplit : name.splitOnP p = [name] := List.splitOnP_eq_singleton hname
  rcases hfolder with rfl | ⟨f, c, rfl, hc⟩
  · rw [List.nil_append, hsplit, List.getLast?_singleton]
  · rw [List.append_assoc, List.singleton_append, List.splitOnP_append_cons f name hc, hsplit,
      List.getLast?_concat]

/-- The last name of a folder's path. -/
theorem logicalFileName_append {folder name : Text}
    (hfolder : folder = [] ∨ ∃ f, folder = f ++ ['/']) (hname : name ≠ [])
    (hplain : '/' ∉ name ∧ '\\' ∉ name) :
    logicalFileName (utf8Bytes (folder ++ name)) = some name := by
  have hlast : ((folder ++ name).splitOnP (fun c => c = '/' || c = '\\')).getLast? = some name := by
    apply getLast?_splitOnP (hfolder.imp_right fun h => ⟨h.choose, '/', h.choose_spec, by decide⟩)
    intro c hc
    have hslash : c ≠ '/' := fun h => hplain.1 (h ▸ hc)
    have hback : c ≠ '\\' := fun h => hplain.2 (h ▸ hc)
    simp [hslash, hback]
  rw [logicalFileName, OsString.toStr, fromUtf8_utf8Bytes, Option.bind_some, hlast,
    Option.filter_some, if_pos]
  simpa using hname

theorem stemKey_path (note : NotePath) :
    stemKey u note.path = lookupKeyWithoutMd u note.fileName := by
  have hne : note.fileName ≠ [] := by simp [NotePath.fileName]
  rw [stemKey, NotePath.path, logicalFileName_append note.folder_eq hne note.fileName_plain]
  rfl

theorem pathKey_path (note : NotePath) :
    pathKey u note.path = lookupKeyWithoutMd u (note.folder ++ note.fileName) := by
  have hplain : '\\' ∉ note.folder ++ note.fileName := by
    rw [List.mem_append, not_or]
    exact ⟨note.folder_plain, note.fileName_plain.2⟩
  rw [pathKey, PathText.toStringLossy, NotePath.path, OsString.toStr, fromUtf8_utf8Bytes,
    Option.getD_some, portableSeparators_of_not_mem hplain]

theorem rtakeWhile_append_cons {p : Char → Bool} {c : Char} (s : Text) {t : Text} (hc : p c = false)
    (ht : ∀ d ∈ t, p d = true) : (s ++ c :: t).rtakeWhile p = t := by
  have hreverse : ∀ d ∈ t.reverse, p d = true := fun d hd => ht d (List.mem_reverse.mp hd)
  rw [List.rtakeWhile, List.reverse_append, List.reverse_cons, List.append_assoc,
    List.takeWhile_append_of_pos hreverse, List.singleton_append,
    List.takeWhile_cons_of_neg (by simp [hc]), List.append_nil, List.reverse_reverse]

/-- A text is a folder and a name without separators. -/
theorem exists_folder_name (p : Char → Bool) (text : Text) :
    ∃ folder name, text = folder ++ name ∧ (∀ c ∈ name, p c = false) ∧
      (folder = [] ∨ ∃ f c, folder = f ++ [c] ∧ p c = true) := by
  induction text using List.reverseRecOn with
  | nil => exact ⟨[], [], rfl, by simp, .inl rfl⟩
  | append_singleton text c ih =>
      by_cases hc : p c = true
      · exact ⟨text ++ [c], [], (List.append_nil _).symm, by simp, .inr ⟨text, c, rfl, hc⟩⟩
      · rcases ih with ⟨folder, name, rfl, hname, hfolder⟩
        refine ⟨folder, name ++ [c], List.append_assoc _ _ _, ?_, hfolder⟩
        intro d hd
        rcases List.mem_append.mp hd with hd | hd
        · exact hname d hd
        · rw [List.mem_singleton.mp hd]
          simpa using hc

/-- The stem key is the last name of the path key. -/
theorem stemKey_eq_rtakeWhile {path : OsString} {text : Text} (h : path.toStr = some text) :
    stemKey u path = (pathKey u path).rtakeWhile fun c => c ≠ '/' := by
  rcases exists_folder_name (fun c => c = '/' || c = '\\') text with
    ⟨folder, name, htext, hname, hfolder⟩
  have hslash : '/' ∉ name := fun hmem => absurd (hname _ hmem) (by decide)
  have hback : '\\' ∉ name := fun hmem => absurd (hname _ hmem) (by decide)
  have hkey : ∀ c ∈ lookupKeyWithoutMd u name, decide (c ≠ '/') = true := by
    intro c hc
    rw [decide_eq_true_eq]
    intro heq
    rw [heq] at hc
    exact hslash (slash_mem_lookupKey.mp hc)
  have hlast : (text.splitOnP fun c => c = '/' || c = '\\').getLast? = some name := by
    rw [htext]
    exact getLast?_splitOnP hfolder hname
  have hstem : (logicalFileName path).getD [] = name := by
    rw [logicalFileName, h, Option.bind_some, hlast]
    cases name <;> rfl
  rw [stemKey, hstem, pathKey, PathText.toStringLossy, h, Option.getD_some, htext,
    portableSeparators, List.map_append, ← portableSeparators, ← portableSeparators,
    portableSeparators_of_not_mem hback]
  rcases hfolder with rfl | ⟨f, c, rfl, hc⟩
  · exact (List.rtakeWhile_eq_self_iff.mpr hkey).symm
  · have hsep : portableSeparators (f ++ [c]) = portableSeparators f ++ ['/'] := by
      rw [portableSeparators, List.map_append, portableSeparators]
      rcases Bool.or_eq_true_iff.mp hc with hc | hc <;> simp_all
    rw [hsep, List.append_assoc, List.singleton_append, lookupKey_slash,
      rtakeWhile_append_cons _ (by decide) hkey]

/-- Paths with one path key have one stem key. -/
theorem stemKey_eq_of_pathKey_eq {a b : OsString} {s t : Text} (ha : a.toStr = some s)
    (hb : b.toStr = some t) (h : pathKey u a = pathKey u b) : stemKey u a = stemKey u b := by
  rw [stemKey_eq_rtakeWhile ha, stemKey_eq_rtakeWhile hb, h]

/-! ## Resolution among notes -/

theorem stemsOf_build {paths : List OsString} (h : paths.Nodup) :
    StemsOf u paths.toFinset (build u paths) := by
  have hrun := stemsOf_run (addsAbsent_added h) (u := u)
  rwa [netPaths_added, ← build_eq_run] at hrun

/-- Listings of one set answer a target alike when at most one of their paths has its key. -/
theorem build_sameAnswers {a b : List OsString} (ha : a.Nodup) (hb : b.Nodup)
    (hset : ∀ path, path ∈ a ↔ path ∈ b) {target : Text}
    (hunique : '/' ∈ normalizeTarget u target → ∀ p ∈ a, ∀ q ∈ a,
      pathKey u p = normalizeTarget u target → pathKey u q = normalizeTarget u target → p = q) :
    SameAnswers u target (build u a) (build u b) := by
  have hstems := stemsOf_build (u := u) hb
  rw [← List.toFinset_eq_of_perm _ _ ((List.perm_ext_iff_of_nodup ha hb).mpr hset)] at hstems
  apply (stemsOf_build ha).sameAnswers hstems
  intro hslash
  rw [lookup_byPath_listing, lookup_byPath_listing]
  generalize normalizeTarget u target = key at hslash hunique
  cases hfound : a.reverse.find? fun path => pathKey u path = key with
  | none =>
      rw [List.find?_eq_none] at hfound
      refine (List.find?_eq_none.mpr ?_).symm
      intro path hpath
      exact hfound path (List.mem_reverse.mpr ((hset path).mpr (List.mem_reverse.mp hpath)))
  | some p =>
      have hp := List.mem_reverse.mp (List.mem_of_find?_eq_some hfound)
      have hpkey : pathKey u p = key := by simpa using List.find?_some hfound
      cases hother : b.reverse.find? fun path => pathKey u path = key with
      | none =>
          have habsent := List.find?_eq_none.mp hother p
            (List.mem_reverse.mpr ((hset p).mp hp))
          exact absurd hpkey (by simpa using habsent)
      | some q =>
          have hq := (hset q).mpr (List.mem_reverse.mp (List.mem_of_find?_eq_some hother))
          have hqkey : pathKey u q = key := by simpa using List.find?_some hother
          rw [hunique hslash p hp q hq hpkey hqkey]

theorem lookup_byPath_build {paths : List OsString} {key : Text} {path : OsString}
    (h : (build u paths).byPath.lookup key = some path) :
    path ∈ paths ∧ pathKey u path = key := by
  rw [build_eq_run, lookup_byPath_run] at h
  cases hlast : lastWith u key (paths.map Event.added) with
  | none => simp [hlast] at h
  | some event =>
      cases event with
      | removed other => simp [hlast, Event.kept] at h
      | added other =>
          have hother : other = path := by simpa [hlast, Event.kept] using h
          have hmem := mem_netPaths_of_lastWith hlast
          rw [netPaths_added, List.mem_toFinset, hother] at hmem
          exact hmem

theorem lookup_byPath_build_of_unique {paths : List OsString} {path : OsString}
    (hmem : path ∈ paths)
    (hunique : ∀ other ∈ paths, pathKey u other = pathKey u path → other = path) :
    (build u paths).byPath.lookup (pathKey u path) = some path := by
  have hnet : path ∈ netPaths (paths.map Event.added) := by
    rw [netPaths_added]
    exact List.mem_toFinset.mpr hmem
  rcases exists_lastWith (u := u) hnet with ⟨event, hevent⟩
  have hadded : event ∈ paths.map Event.added :=
    List.mem_reverse.mp (List.mem_of_find?_eq_some hevent)
  rcases List.mem_map.mp hadded with ⟨other, hother, rfl⟩
  have hkey := (mem_netPaths_of_lastWith hevent).2
  rw [build_eq_run, lookup_byPath_run, hevent, ← hunique other hother hkey]
  rfl

/-- A target with a folder reaches the only note with a path key by that key. -/
theorem resolve_folder_iff {paths : List OsString} {path : OsString} {target : Text}
    (hslash : '/' ∈ normalizeTarget u target) (hmem : path ∈ paths)
    (hunique : ∀ other ∈ paths, pathKey u other = pathKey u path → other = path) :
    (build u paths).resolve u target = some path ↔
      normalizeTarget u target = pathKey u path := by
  have hne : (normalizeTarget u target).isEmpty = false := by
    cases hkey : normalizeTarget u target with
    | nil => simp [hkey] at hslash
    | cons => rfl
  have hresolve : (build u paths).resolve u target =
      (build u paths).byPath.lookup (normalizeTarget u target) := by
    simp only [resolve, hne, Bool.false_eq_true, if_false, if_pos hslash]
  rw [hresolve]
  constructor
  · intro h
    exact (lookup_byPath_build h).2.symm
  · intro h
    rw [h]
    exact lookup_byPath_build_of_unique hmem hunique

/-- A target without a folder reaches the only note with a stem key by that key. -/
theorem resolve_stem_iff {paths : List OsString} {path : OsString} {target : Text}
    (hslash : '/' ∉ normalizeTarget u target) (hne : normalizeTarget u target ≠ [])
    (hnodup : paths.Nodup) (hmem : path ∈ paths)
    (hunique : ∀ other ∈ paths, stemKey u other = stemKey u path → other = path) :
    (build u paths).resolve u target = some path ↔
      normalizeTarget u target = stemKey u path := by
  have hstems := stemsOf_build (u := u) hnodup
  have hresolve : (build u paths).resolve u target =
      single (((build u paths).byStem.lookup (normalizeTarget u target)).getD []) := by
    rw [← bind_single]
    simp only [resolve, List.isEmpty_iff, hne, if_false, if_neg hslash]
  rw [hresolve]
  constructor
  · intro h
    have hsingle : path ∈ ((build u paths).byStem.lookup (normalizeTarget u target)).getD [] := by
      revert h
      generalize ((build u paths).byStem.lookup (normalizeTarget u target)).getD [] = candidates
      intro h
      cases candidates with
      | nil => simp [single] at h
      | cons other rest =>
          cases rest with
          | nil =>
              rw [single, Option.some.injEq] at h
              rw [h]
              exact List.mem_singleton_self path
          | cons next rest => simp [single] at h
    exact ((hstems.mem _ _).mp hsingle).2.symm
  · intro h
    rw [h]
    have hperm : (((build u paths).byStem.lookup (stemKey u path)).getD []).Perm [path] := by
      apply (List.perm_ext_iff_of_nodup (hstems.nodup _) (List.nodup_singleton _)).mpr
      intro other
      rw [hstems.mem, List.mem_toFinset, List.mem_singleton]
      constructor
      · intro hother
        exact hunique other hother.1 hother.2
      · intro hother
        rw [hother]
        exact ⟨hmem, rfl⟩
    rw [single_perm hperm, single]

/-- Only the key of a target matters. -/
theorem resolve_congr {s t : Text} (h : normalizeTarget u s = normalizeTarget u t)
    (resolver : LinkResolver) : resolver.resolve u s = resolver.resolve u t := by
  rw [resolve, resolve, h]

theorem lookupKey_ne_nil {t : Text} (h : t ≠ []) (ht : ¬EndsWithMd t) :
    lookupKeyWithoutMd u t ≠ [] := by
  rw [lookupKey_of_not_endsWithMd ht, Ne, toLowercase_eq_nil, u.nfc_eq_nil]
  exact h

/-- The notes of a listing. -/
def listing (notes : List NotePath) : List OsString :=
  notes.map NotePath.path

/-- A note whose name without the suffix is a given text. -/
theorem exists_notePath {t : Text} (hback : '\\' ∉ t) (hne : t ≠ [])
    (hlast : t.getLast? ≠ some '/') :
    ∃ note : NotePath, note.folder ++ note.stem = t ∧ note.m = 'm' ∧ note.d = 'd' := by
  have hparts : ∃ folder stem, (folder = [] ∨ ∃ f, folder = f ++ ['/']) ∧ '/' ∉ stem ∧
      folder ++ stem = t := by
    by_cases hslash : '/' ∈ t
    · rcases List.eq_append_cons_of_mem (List.mem_reverse.mpr hslash) with ⟨s, r, hs, hr⟩
      refine ⟨r.reverse ++ ['/'], s.reverse, .inr ⟨r.reverse, rfl⟩, by simpa using hr, ?_⟩
      have ht := congrArg List.reverse hs
      rw [List.reverse_reverse] at ht
      rw [ht]
      simp
    · exact ⟨[], t, .inl rfl, hslash, rfl⟩
  rcases hparts with ⟨folder, stem, hfolder, hstem, rfl⟩
  rw [List.mem_append, not_or] at hback
  have hstemne : stem ≠ [] := by
    intro hnil
    rw [hnil, List.append_nil] at hne hlast
    rcases hfolder with h | ⟨f, hf⟩
    · exact hne h
    · rw [hf, List.getLast?_concat] at hlast
      exact hlast rfl
  exact ⟨⟨folder, stem, 'm', 'd', hfolder, hback.1, hstemne, ⟨hstem, hback.2⟩, by decide,
    by decide⟩, rfl, rfl, rfl⟩

theorem portableSeparators_append (s t : Text) :
    portableSeparators (s ++ t) = portableSeparators s ++ portableSeparators t :=
  List.map_append

theorem backslash_not_mem_portableSeparators (t : Text) : '\\' ∉ portableSeparators t := by
  intro h
  rcases List.mem_map.mp h with ⟨c, -, hc⟩
  by_cases hback : c = '\\'
  · rw [if_pos hback] at hc
    exact absurd hc (by decide)
  · rw [if_neg hback] at hc
    exact hback hc

theorem endsWithMd_portableSeparators {t : Text} (h : EndsWithMd (portableSeparators t)) :
    EndsWithMd t := by
  rcases h with ⟨r, m, d, h, hm, hd⟩
  have hm' := letter_plain hm (.inl rfl)
  have hd' := letter_plain hd (.inr rfl)
  have hback : ∀ c x : Char, (if c = '\\' then '/' else c) = x → x ≠ '/' → c = x := by
    intro c x hcx hx
    by_cases hc : c = '\\'
    · rw [if_pos hc] at hcx
      exact absurd hcx.symm hx
    · rwa [if_neg hc] at hcx
  rcases List.map_eq_append_iff.mp h with ⟨s, e, rfl, -, he⟩
  match e with
  | [a, b, c] =>
      simp only [List.map_cons, List.map_nil, List.cons.injEq, and_true] at he
      refine ⟨s, m, d, ?_, hm, hd⟩
      rw [hback a '.' he.1 (by decide), hback b m he.2.1 hm'.1, hback c d he.2.2 hd'.1]
  | [] => simp at he
  | [_] => simp at he
  | [_, _] => simp at he
  | _ :: _ :: _ :: _ :: _ => simp at he

theorem normalizeTarget_md (t : Text) :
    normalizeTarget u (t ++ ".md".toList) =
      lookupKeyWithoutMd u (portableSeparators t ++ ['.', 'm', 'd']) := by
  rw [normalizeTarget, portableSeparators_append]
  rfl

/-- A text with a final sigma has a last name. -/
theorem getLast?_of_endsWithFinalSigma {t : Text} (h : u.EndsWithFinalSigma (u.nfc t)) :
    t ≠ [] ∧ t.getLast? ≠ some '/' := by
  rcases h with ⟨s, r, ht, hr, -⟩
  constructor
  · intro hnil
    rw [(u.nfc_eq_nil t).mpr hnil] at ht
    simp at ht
  · intro hlast
    rcases List.getLast?_eq_some_iff.mp hlast with ⟨f, rfl⟩
    rw [u.nfc_slash, (u.nfc_eq_nil []).mpr rfl] at ht
    have hend := congrArg List.getLast? ht
    rw [List.getLast?_concat] at hend
    cases hrev : r.getLast? with
    | none =>
        rw [List.getLast?_eq_none_iff.mp hrev, List.getLast?_concat] at hend
        exact absurd hend (by decide)
    | some c =>
        have hlastr : (s ++ 'Σ' :: r).getLast? = some c := by
          have hne : r ≠ [] := by
            intro hnil
            simp [hnil] at hrev
          rw [← hrev, List.append_cons, List.getLast?_append_of_ne_nil _ hne]
        rw [hlastr] at hend
        have hc := hr c (List.mem_of_getLast? hrev)
        rw [← Option.some.inj hend, u.ignorable_slash] at hc
        contradiction

/-- A note whose name ends with a final sigma is found with its suffix only. -/
theorem resolve_md_ne {t : Text} (ht : ¬EndsWithMd t)
    (hsigma : u.EndsWithFinalSigma (u.nfc (portableSeparators t))) :
    ∃ note : NotePath, (build u [note.path]).resolve u t ≠
      (build u [note.path]).resolve u (t ++ ".md".toList) := by
  have hlast := getLast?_of_endsWithFinalSigma hsigma
  have hmd : ¬EndsWithMd (portableSeparators t) := fun h => ht (endsWithMd_portableSeparators h)
  rcases exists_notePath (backslash_not_mem_portableSeparators t) hlast.1 hlast.2 with
    ⟨note, hnote, hm, hd⟩
  have hfull : note.folder ++ note.fileName = portableSeparators t ++ ['.', 'm', 'd'] := by
    rw [NotePath.fileName, ← List.append_assoc, hnote, hm, hd]
  have hpath : normalizeTarget u (t ++ ".md".toList) = pathKey u note.path := by
    rw [normalizeTarget_md, pathKey_path, hfull]
  have hne : normalizeTarget u t ≠ normalizeTarget u (t ++ ".md".toList) := by
    rw [normalizeTarget_md, normalizeTarget]
    intro h
    exact ((lookupKey_eq_iff (by decide) (by decide) _).mp h).2 hsigma
  have hunique : ∀ key : OsString → Text, ∀ other ∈ [note.path],
      key other = key note.path → other = note.path := by
    intro key other hother _
    exact List.mem_singleton.mp hother
  have hmem : note.path ∈ [note.path] := List.mem_singleton_self _
  have hwith : '/' ∈ normalizeTarget u (t ++ ".md".toList) ↔ '/' ∈ normalizeTarget u t := by
    rw [normalizeTarget_md, normalizeTarget, slash_mem_lookupKey, slash_mem_lookupKey]
    simp
  refine ⟨note, fun heq => hne ?_⟩
  by_cases hslash : '/' ∈ normalizeTarget u t
  · rw [(resolve_folder_iff (hwith.mpr hslash) hmem (hunique _)).mpr hpath] at heq
    rw [(resolve_folder_iff hslash hmem (hunique _)).mp heq, hpath]
  · have hstem : stemKey u note.path = pathKey u note.path := by
      have hnofolder : note.folder = [] := by
        rcases note.folder_eq with h | ⟨f, hf⟩
        · exact h
        · exfalso
          apply hslash
          rw [normalizeTarget, slash_mem_lookupKey, ← hnote, hf]
          simp
      rw [stemKey_path, pathKey_path, hnofolder, List.nil_append]
    have hnewith : normalizeTarget u (t ++ ".md".toList) ≠ [] := by
      rw [normalizeTarget_md, lookupKey_md (by decide) (by decide)]
      intro hnil
      have hlen := congrArg List.length hnil
      rw [length_lowerIn _ _ [] []] at hlen
      exact hlast.1 ((u.nfc_eq_nil _).mp (toLowercase_eq_nil.mp (List.length_eq_zero_iff.mp hlen)))
    have hnewithout : normalizeTarget u t ≠ [] := lookupKey_ne_nil hlast.1 hmd
    rw [(resolve_stem_iff (fun h => hslash (hwith.mp h)) hnewith (List.nodup_singleton _) hmem
      (hunique _)).mpr (by rw [hstem, hpath])] at heq
    rw [(resolve_stem_iff hslash hnewithout (List.nodup_singleton _) hmem (hunique _)).mp heq,
      hstem, hpath]

/-- A note's stem, with its folder or without, has the key of its file name unless the stem ends
with `.md` or a final sigma. -/
theorem lookupKey_folder_iff (note : NotePath) {folder : Text}
    (hfolder : folder = [] ∨ ∃ f, folder = f ++ ['/']) :
    lookupKeyWithoutMd u (folder ++ note.stem) = lookupKeyWithoutMd u (folder ++ note.fileName) ↔
      ¬EndsWithMd note.stem ∧ ¬u.EndsWithFinalSigma (u.nfc note.stem) := by
  rcases hfolder with rfl | ⟨f, rfl⟩
  · exact lookupKey_eq_iff note.letter_m note.letter_d note.stem
  · rw [List.append_assoc, List.append_assoc, List.singleton_append, List.singleton_append,
      lookupKey_slash, lookupKey_slash, List.append_cancel_left_eq, List.cons.injEq]
    rw [and_iff_right rfl]
    exact lookupKey_eq_iff note.letter_m note.letter_d note.stem

/-- The suffix of a target is optional unless the target ends with a final sigma; a note with a
stem key of its own is resolved by its stem unless that ends so, or with `.md` once more. -/
theorem md_optional_iff (u : PathText) :
    (∀ target, ¬EndsWithMd target →
      ((∀ notes : List NotePath, (listing notes).Nodup →
          (build u (listing notes)).resolve u target =
            (build u (listing notes)).resolve u (target ++ ".md".toList)) ↔
        ¬u.EndsWithFinalSigma (u.nfc (portableSeparators target)))) ∧
    ∀ notes : List NotePath, (listing notes).Nodup → ∀ note ∈ notes,
      (∀ other ∈ notes, stemKey u other.path = stemKey u note.path → other.path = note.path) →
      ((build u (listing notes)).resolve u note.stem = some note.path ↔
        ¬EndsWithMd note.stem ∧ ¬u.EndsWithFinalSigma (u.nfc note.stem)) ∧
      (note.folder ≠ [] →
        ((build u (listing notes)).resolve u (note.folder ++ note.stem) = some note.path ↔
          ¬EndsWithMd note.stem ∧ ¬u.EndsWithFinalSigma (u.nfc note.stem))) := by
  constructor
  · intro target ht
    constructor
    · intro h hsigma
      rcases resolve_md_ne ht hsigma with ⟨note, hnote⟩
      exact hnote (h [note] (List.nodup_singleton _))
    · intro hsigma notes _
      apply resolve_congr
      rw [normalizeTarget_md, normalizeTarget]
      exact (lookupKey_eq_iff (by decide) (by decide) _).mpr
        ⟨fun h => ht (endsWithMd_portableSeparators h), hsigma⟩
  · intro notes hnodup note hnote hunique
    have hmem : note.path ∈ listing notes := List.mem_map_of_mem hnote
    have hstemunique : ∀ other ∈ listing notes, stemKey u other = stemKey u note.path →
        other = note.path := by
      intro other hother
      rcases List.mem_map.mp hother with ⟨note', hnote', rfl⟩
      exact hunique note' hnote'
    have hpathunique : ∀ other ∈ listing notes, pathKey u other = pathKey u note.path →
        other = note.path := by
      intro other hother hkey
      rcases List.mem_map.mp hother with ⟨note', hnote', rfl⟩
      exact hunique note' hnote'
        (stemKey_eq_of_pathKey_eq (fromUtf8_utf8Bytes _) (fromUtf8_utf8Bytes _) hkey)
    constructor
    · have hnormal : normalizeTarget u note.stem = lookupKeyWithoutMd u note.stem := by
        rw [normalizeTarget, portableSeparators_of_not_mem note.stem_plain.2]
      have hslash : '/' ∉ normalizeTarget u note.stem := by
        rw [hnormal, slash_mem_lookupKey]
        exact note.stem_plain.1
      have hiff := lookupKey_folder_iff (u := u) note (.inl rfl)
      rw [List.nil_append, List.nil_append] at hiff
      by_cases hempty : normalizeTarget u note.stem = []
      · -- only a stem that is `.md` itself has no key
        have hmd : EndsWithMd note.stem := by
          by_contra hmd
          rw [hnormal] at hempty
          exact lookupKey_ne_nil note.stem_ne hmd hempty
        refine iff_of_false ?_ fun h => h.1 hmd
        rw [resolve, hempty]
        simp
      · rw [resolve_stem_iff hslash hempty hnodup hmem hstemunique, stemKey_path, hnormal]
        exact hiff
    · intro hfolder
      have hback : '\\' ∉ note.folder ++ note.stem := by
        rw [List.mem_append, not_or]
        exact ⟨note.folder_plain, note.stem_plain.2⟩
      have hnormal : normalizeTarget u (note.folder ++ note.stem) =
          lookupKeyWithoutMd u (note.folder ++ note.stem) := by
        rw [normalizeTarget, portableSeparators_of_not_mem hback]
      have hslash : '/' ∈ normalizeTarget u (note.folder ++ note.stem) := by
        rw [hnormal, slash_mem_lookupKey]
        rcases note.folder_eq with h | ⟨f, hf⟩
        · exact absurd h hfolder
        · rw [hf]
          simp
      rw [resolve_folder_iff hslash hmem hpathunique, pathKey_path, hnormal]
      exact lookupKey_folder_iff note note.folder_eq

/-- A note in capital Greek letters. -/
def sigmaNote : NotePath where
  folder := []
  stem := "ΟΔΟΣ".toList
  m := 'm'
  d := 'd'
  folder_eq := .inl rfl
  folder_plain := by decide
  stem_ne := by decide
  stem_plain := by decide
  letter_m := by decide
  letter_d := by decide

/-- It is found with the suffix and not without it. -/
theorem sigma_note_needs_suffix :
    ¬EndsWithMd sigmaNote.stem ∧
      (build basicText (listing [sigmaNote])).resolve basicText (sigmaNote.stem ++ ".md".toList) =
        some sigmaNote.path ∧
      (build basicText (listing [sigmaNote])).resolve basicText sigmaNote.stem = none := by
  refine ⟨?_, by decide +kernel, by decide +kernel⟩
  intro h
  rcases h with ⟨r, m, d, h, hm, hd⟩
  have hlast := congrArg List.getLast? h
  rw [show r ++ ['.', m, d] = (r ++ ['.', m]) ++ [d] by simp, List.getLast?_concat] at hlast
  rw [← Option.some.inj hlast] at hd
  exact absurd hd (by decide)

end ObsidianMcp.LinkResolver
