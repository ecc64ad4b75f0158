import ObsidianMcp.Verification.Embeddings.Codec

/-! # The store and its cache file

The totals of a store are those of its entries after every operation, so the limits checked
at insertion bound the file, and the file can be read back. -/

namespace ObsidianMcp

open Text

namespace EmbeddingStore

/-! ## Runs -/

/-- The stores that operations make from a new one, failed operations included. -/
inductive Reachable (json : IdentityJson) (identity : EmbeddingSpaceIdentity) :
    EmbeddingStore → Prop where
  | new : Reachable json identity (newWithIdentity identity)
  | insert {store} (h : Reachable json identity store) (path : OsString)
      (entry : NoteEmbeddingEntry) :
      Reachable json identity (store.insertNote json path entry).2
  | remove {store} (h : Reachable json identity store) (path : OsString) :
      Reachable json identity (store.remove path).2
  | retain {store} (h : Reachable json identity store) (keys : List OsString)
      (hkeys : keys.Perm store.embeddings.keys) (paths : OsString → Bool) :
      Reachable json identity (store.retainPaths keys paths).2
  | setFirstPassComplete {store} (h : Reachable json identity store) (complete : Bool) :
      Reachable json identity (store.setFirstPassComplete complete)

/-- The bytes of one entry of the file. -/
def recordBytes (path : OsString) (entry : NoteEmbeddingEntry) : List UInt8 :=
  numberBytes path.length ++ path ++ noteBytes entry

def recordSize (path : OsString) (entry : NoteEmbeddingEntry) : ℕ :=
  (recordBytes path entry).length

def chunkCount (_ : OsString) (entry : NoteEmbeddingEntry) : ℕ :=
  entry.chunks.length

/-- An entry that a cache file may hold. -/
structure ValidRecord (dim : ℕ) (path : OsString) (entry : NoteEmbeddingEntry) : Prop where
  path_valid : ∃ text, path.toStr = some text ∧ validateCachePath text = .ok path
  entry_valid : validateNoteEntry entry dim = .ok ()

theorem validateCachePath_eq_ok {text : Text} {path : OsString}
    (h : validateCachePath text = .ok path) :
    path = utf8Bytes text ∧ byteLen text ≤ maxCachePathBytes := by
  rw [validateCachePath, except_bind_eq_ok] at h
  obtain ⟨⟨⟩, hcheck, h⟩ := h
  simp only [ensure_eq_ok, Bool.not_eq_true', Bool.or_eq_false_iff, decide_eq_false_iff_not,
    Nat.not_lt, gt_iff_lt] at hcheck
  split at h
  · cases h
  · rw [except_bind_eq_ok] at h
    obtain ⟨⟨⟩, hnormal, hpath⟩ := h
    rw [ensure_eq_ok, decide_eq_true_eq] at hnormal
    rw [hnormal] at hpath
    exact ⟨(Except.ok.inj hpath).symm, hcheck.1.2⟩

/-- The text of a valid record's path, with its encoding. -/
theorem ValidRecord.exists_text {dim : ℕ} {path : OsString} {entry : NoteEmbeddingEntry}
    (h : ValidRecord dim path entry) : ∃ text, path = utf8Bytes text ∧
      path.toStr = some text ∧ validateCachePath text = .ok path ∧
      byteLen text ≤ maxCachePathBytes ∧ recordBytes path entry = entryBytes text entry := by
  obtain ⟨text, htext, hpath⟩ := h.path_valid
  obtain ⟨hbytes, hlength⟩ := validateCachePath_eq_ok hpath
  refine ⟨text, hbytes, htext, hpath, hlength, ?_⟩
  rw [recordBytes, entryBytes, stringBytes, hbytes, length_utf8Bytes]

theorem ValidRecord.encodedEntryLen_eq_ok {dim n : ℕ} {path : OsString}
    {entry : NoteEmbeddingEntry} (h : ValidRecord dim path entry)
    (hdim : dim ≤ maxCacheDimension) {text : Text} (htext : path.toStr = some text) :
    encodedEntryLen text entry = .ok n ↔ n = recordSize path entry ∧ n ≤ maxCacheBytes := by
  obtain ⟨text', -, htext', -, hlength, hrecord⟩ := h.exists_text
  obtain rfl : text' = text := Option.some.inj (htext'.symm.trans htext)
  rw [recordSize, hrecord]
  exact ObsidianMcp.encodedEntryLen_eq_ok hlength hdim
    (entryFits_of_validateNoteEntry h.entry_valid)

/-! ## Accounting -/

/-- A store whose totals are those of its entries and within the limits of the file. -/
structure Accounted (identity : EmbeddingSpaceIdentity) (header : List UInt8)
    (store : EmbeddingStore) : Prop where
  identity_eq : store.identity = some identity
  dim_eq : store.dim = identity.dimension
  records_valid : ∀ path entry, store.embeddings.lookup path = some entry →
    ValidRecord store.dim path entry
  chunks_eq : store.totalChunks = Table.total chunkCount store.embeddings
  bytes_eq : store.encodedEntriesBytes = Table.total recordSize store.embeddings
  chunks_le : store.totalChunks ≤ maxCacheEntries
  notes_le : store.len ≤ maxCacheEntries
  bytes_le : store.encodedEntriesBytes + (19 + header.length) ≤ maxCacheBytes

section Accounting

variable {json : IdentityJson} {identity : EmbeddingSpaceIdentity} {header : List UInt8}
  {store : EmbeddingStore}

theorem len_eq_total (store : EmbeddingStore) :
    store.len = Table.total (fun _ _ => 1) store.embeddings := by
  simp [len, Table.total]

/-- The size of the entry that a path has so far. -/
def oldSize (store : EmbeddingStore) (size : OsString → NoteEmbeddingEntry → ℕ)
    (path : OsString) : ℕ :=
  ((store.embeddings.lookup path).map (size path)).getD 0

/-- Stored entries are measured again without error. -/
theorem measure_old_eq_ok (hidentity : identity.dimension ≤ maxCacheDimension)
    (h : Accounted identity header store) {path : OsString} {text : Text}
    (htext : path.toStr = some text) :
    encodedOldLen text (store.embeddings.lookup path) =
      .ok (store.oldSize recordSize path) := by
  rw [oldSize]
  cases hold : store.embeddings.lookup path with
  | none => rfl
  | some old =>
      have hsize := Table.size_le_total recordSize hold
      have hbytes := h.bytes_le
      rw [h.bytes_eq] at hbytes
      refine ((h.records_valid path old hold).encodedEntryLen_eq_ok ?_ htext).mpr ⟨rfl, ?_⟩
      · rw [h.dim_eq]
        exact hidentity
      · exact hsize.trans (Nat.le_of_add_right_le hbytes)

theorem total_insert_eq_oldSize (size : OsString → NoteEmbeddingEntry → ℕ) (path : OsString)
    (entry : NoteEmbeddingEntry) :
    Table.total size (store.embeddings.insert path entry) =
      Table.total size store.embeddings - store.oldSize size path + size path entry :=
  Table.total_insert_eq size _ _ _

theorem saturatingAdd_le_iff {m n : ℕ} :
    saturatingAdd m n ≤ maxCacheBytes ↔ m + n ≤ maxCacheBytes := by
  have hword : maxCacheBytes < usizeMax := by decide
  rw [saturatingAdd]
  generalize usizeMax = word at hword ⊢
  omega

/-- The checks of an insertion are those of the record and of the limits that the totals
reach. -/
theorem planInsert_eq_ok (hidentity : identity.dimension ≤ maxCacheDimension)
    (hjson : json.toVec identity = .ok header) (hheader : header.length ≤ maxNoteMetadataBytes)
    (h : Accounted identity header store) {path : OsString} {entry : NoteEmbeddingEntry}
    {chunks bytes : ℕ} :
    store.planInsert json path entry = .ok (chunks, bytes) ↔
      ValidRecord store.dim path entry ∧
      chunks = Table.total chunkCount (store.embeddings.insert path entry) ∧
      bytes = Table.total recordSize (store.embeddings.insert path entry) ∧
      chunks ≤ maxCacheEntries ∧
      Table.total (fun _ _ => 1) (store.embeddings.insert path entry) ≤ maxCacheEntries ∧
      bytes + (19 + header.length) ≤ maxCacheBytes := by
  have hdim : store.dim ≤ maxCacheDimension := h.dim_eq.trans_le hidentity
  have hchunks : store.totalChunks - ((store.embeddings.lookup path).map fun old =>
      old.chunks.length).getD 0 + entry.chunks.length =
      Table.total chunkCount (store.embeddings.insert path entry) := by
    rw [h.chunks_eq, total_insert_eq_oldSize]
    rfl
  have hnotes : (store.len + if (store.embeddings.lookup path).isNone then 1 else 0) =
      Table.total (fun _ _ => 1) (store.embeddings.insert path entry) := by
    rw [total_insert_eq_oldSize, len_eq_total, oldSize]
    cases hold : store.embeddings.lookup path with
    | none => rfl
    | some old =>
        have := Table.size_le_total (fun _ _ => 1) hold
        simp only [Option.isNone_some, Option.map_some, Option.getD_some, Bool.false_eq_true,
          if_false]
        omega
  have hsize : store.headerSize json = .ok (19 + header.length) := by
    rw [headerSize, h.identity_eq]
    exact cacheHeaderLen_eq_ok hjson hheader
  constructor
  · intro hplan
    rw [planInsert] at hplan
    cases htext : path.toStr with
    | none =>
        rw [htext] at hplan
        cases hplan
    | some text =>
        simp only [htext, except_bind_eq_ok, measure_old_eq_ok hidentity h htext, hsize,
          hchunks, hnotes, Unique.exists_iff, PUnit.default_eq_unit, ensure_eq_ok,
          Except.ok.injEq, Bool.not_eq_true', Bool.or_eq_false_iff, decide_eq_false_iff_not,
          Nat.not_lt, gt_iff_lt, exists_eq_left'] at hplan
        obtain ⟨path', hpath, hentry, n, hn, -, -, hlimits, hbound, hresult⟩ := hplan
        obtain ⟨rfl, rfl⟩ := Prod.mk.inj (Except.ok.inj hresult)
        obtain rfl : path' = path :=
          (validateCachePath_eq_ok hpath).1.trans (fromUtf8_eq_some.mp htext).symm
        have hrecord : ValidRecord store.dim path' entry := ⟨⟨text, htext, hpath⟩, hentry⟩
        obtain ⟨rfl, -⟩ := (hrecord.encodedEntryLen_eq_ok hdim htext).mp hn
        have hbytes : store.encodedEntriesBytes - store.oldSize recordSize path' +
            recordSize path' entry =
            Table.total recordSize (store.embeddings.insert path' entry) := by
          rw [h.bytes_eq, total_insert_eq_oldSize]
        exact ⟨hrecord, rfl, hbytes, hlimits.1, hlimits.2, saturatingAdd_le_iff.mp hbound⟩
  · rintro ⟨hrecord, rfl, rfl, hcountLe, hnotesLe, hbytesLe⟩
    obtain ⟨text, -, htext, hpath, -, -⟩ := hrecord.exists_text
    have hlen : encodedEntryLen text entry = .ok (recordSize path entry) := by
      refine (hrecord.encodedEntryLen_eq_ok hdim htext).mpr ⟨rfl, ?_⟩
      rw [total_insert_eq_oldSize] at hbytesLe
      omega
    have hbytes : store.encodedEntriesBytes - store.oldSize recordSize path +
        recordSize path entry =
        Table.total recordSize (store.embeddings.insert path entry) := by
      rw [h.bytes_eq, total_insert_eq_oldSize]
    have hwords : maxCacheEntries ≤ usizeMax ∧ maxCacheBytes ≤ usizeMax := by decide
    rw [planInsert, htext]
    simp only [hpath, hrecord.entry_valid, hlen, measure_old_eq_ok hidentity h htext, hsize,
      hchunks, hnotes, hbytes, except_bind_eq_ok, Except.ok.injEq, exists_eq_left',
      Unique.exists_iff, PUnit.default_eq_unit, ensure_eq_ok, true_and, Bool.not_eq_true',
      Bool.or_eq_false_iff, decide_eq_false_iff_not, decide_eq_true_eq, Nat.not_lt, gt_iff_lt]
    exact ⟨hcountLe.trans hwords.1, (Nat.le_of_add_right_le hbytesLe).trans hwords.2,
      ⟨hcountLe, hnotesLe⟩, saturatingAdd_le_iff.mpr hbytesLe, rfl⟩

/-- A failed insertion changes nothing. -/
theorem insertNote_of_error {path : OsString} {entry : NoteEmbeddingEntry} {error : VaultError}
    (h : (store.insertNote json path entry).1 = .error error) :
    (store.insertNote json path entry).2 = store := by
  rw [insertNote] at h ⊢
  split at h
  · rename_i hplan
    rfl
  · cases h

theorem accounted_newWithIdentity (hheader : header.length ≤ maxNoteMetadataBytes) :
    Accounted identity header (newWithIdentity identity) where
  identity_eq := rfl
  dim_eq := rfl
  records_valid path entry h := by cases h
  chunks_eq := rfl
  bytes_eq := rfl
  chunks_le := Nat.zero_le _
  notes_le := Nat.zero_le _
  bytes_le := by
    have hroom : 19 + maxNoteMetadataBytes ≤ maxCacheBytes := by decide
    change 0 + (19 + header.length) ≤ maxCacheBytes
    omega

theorem Accounted.insertNote (hidentity : identity.dimension ≤ maxCacheDimension)
    (hjson : json.toVec identity = .ok header) (hheader : header.length ≤ maxNoteMetadataBytes)
    (h : Accounted identity header store) (path : OsString) (entry : NoteEmbeddingEntry) :
    Accounted identity header (store.insertNote json path entry).2 := by
  rw [EmbeddingStore.insertNote]
  cases hplan : store.planInsert json path entry with
  | error error => exact h
  | ok totals =>
      obtain ⟨chunks, bytes⟩ := totals
      obtain ⟨hrecord, rfl, rfl, hchunks, hnotes, hbytes⟩ :=
        (planInsert_eq_ok hidentity hjson hheader h).mp hplan
      exact
        { identity_eq := h.identity_eq
          dim_eq := h.dim_eq
          records_valid := by
            intro other e he
            by_cases hkey : other = path
            · subst hkey
              rw [AList.lookup_insert] at he
              exact Option.some.inj he ▸ hrecord
            · rw [AList.lookup_insert_ne hkey] at he
              exact h.records_valid other e he
          chunks_eq := rfl
          bytes_eq := rfl
          chunks_le := hchunks
          notes_le := (len_eq_total _).trans_le hnotes
          bytes_le := hbytes }

/-- Removal never fails on an accounted store. -/
theorem remove_eq (hidentity : identity.dimension ≤ maxCacheDimension)
    (h : Accounted identity header store) (path : OsString) :
    store.remove path = (.ok (store.embeddings.lookup path).isSome, { store with
      embeddings := store.embeddings.erase path
      encodedEntriesBytes := Table.total recordSize (store.embeddings.erase path)
      totalChunks := Table.total chunkCount (store.embeddings.erase path) }) := by
  have hdim : store.dim ≤ maxCacheDimension := h.dim_eq.trans_le hidentity
  cases hold : store.embeddings.lookup path with
  | none =>
      have herase : store.embeddings.erase path = store.embeddings :=
        AList.ext (List.kerase_of_notMem_keys (AList.lookup_eq_none.mp hold))
      rw [EmbeddingStore.remove, planRemove, hold, herase, ← h.chunks_eq, ← h.bytes_eq]
      rfl
  | some old =>
      have hrecord := h.records_valid path old hold
      obtain ⟨text, -, htext, -, -, -⟩ := hrecord.exists_text
      have hchunks := Table.total_erase_add chunkCount hold
      have hbytes := Table.total_erase_add recordSize hold
      have hlen : encodedEntryLen text old = .ok (recordSize path old) := by
        refine (hrecord.encodedEntryLen_eq_ok hdim htext).mpr ⟨rfl, ?_⟩
        have hlimit := h.bytes_le
        rw [h.bytes_eq] at hlimit
        omega
      have hplan : store.planRemove path = .ok (some
          (Table.total chunkCount (store.embeddings.erase path),
            Table.total recordSize (store.embeddings.erase path))) := by
        have hcount : old.chunks.length ≤ store.totalChunks := by
          rw [h.chunks_eq, ← hchunks]
          exact Nat.le_add_left _ _
        have hsize : recordSize path old ≤ store.encodedEntriesBytes := by
          rw [h.bytes_eq, ← hbytes]
          exact Nat.le_add_left _ _
        have hchunks' : store.totalChunks - old.chunks.length =
            Table.total chunkCount (store.embeddings.erase path) := by
          rw [h.chunks_eq, ← hchunks]
          exact Nat.add_sub_cancel _ _
        have hbytes' : store.encodedEntriesBytes - recordSize path old =
            Table.total recordSize (store.embeddings.erase path) := by
          rw [h.bytes_eq, ← hbytes]
          exact Nat.add_sub_cancel _ _
        rw [planRemove, hold]
        simp only [htext, hlen, except_bind_eq_ok, Except.ok.injEq, exists_eq_left',
          Unique.exists_iff, PUnit.default_eq_unit, ensure_eq_ok, decide_eq_true_eq, hchunks',
          hbytes']
        exact ⟨hcount, hsize, rfl⟩
      rw [EmbeddingStore.remove, hplan]
      rfl

theorem Accounted.remove (hidentity : identity.dimension ≤ maxCacheDimension)
    (h : Accounted identity header store) (path : OsString) :
    Accounted identity header (store.remove path).2 := by
  rw [remove_eq hidentity h]
  have herase : ∀ size : OsString → NoteEmbeddingEntry → ℕ,
      Table.total size (store.embeddings.erase path) ≤ Table.total size store.embeddings := by
    intro size
    cases hold : store.embeddings.lookup path with
    | none => exact (Table.total_erase_of_lookup_eq_none size hold).le
    | some old => exact (Nat.le_add_right _ _).trans_eq (Table.total_erase_add size hold)
  exact
    { identity_eq := h.identity_eq
      dim_eq := h.dim_eq
      records_valid := by
        intro other e he
        by_cases hkey : other = path
        · subst hkey
          rw [AList.lookup_erase] at he
          cases he
        · rw [AList.lookup_erase_ne hkey] at he
          exact h.records_valid other e he
      chunks_eq := rfl
      bytes_eq := rfl
      chunks_le := (herase chunkCount).trans (h.chunks_eq.symm.trans_le h.chunks_le)
      notes_le := by
        rw [len_eq_total]
        exact (herase _).trans ((len_eq_total store).symm.trans_le h.notes_le)
      bytes_le := by
        have hlimit := h.bytes_le
        rw [h.bytes_eq] at hlimit
        exact (Nat.add_le_add_right (herase recordSize) _).trans hlimit }

theorem Accounted.removeAll (hidentity : identity.dimension ≤ maxCacheDimension)
    (h : Accounted identity header store) (paths : List OsString) :
    Accounted identity header (store.removeAll paths).2 := by
  induction paths generalizing store with
  | nil => exact h
  | cons path rest ih =>
      have hstep := h.remove hidentity path
      rw [EmbeddingStore.removeAll]
      rw [remove_eq hidentity h] at hstep ⊢
      exact ih hstep

theorem Accounted.retainPaths (hidentity : identity.dimension ≤ maxCacheDimension)
    (h : Accounted identity header store) (keys : List OsString) (paths : OsString → Bool) :
    Accounted identity header (store.retainPaths keys paths).2 := by
  have hall := h.removeAll hidentity (keys.filter fun path => !paths path)
  rw [EmbeddingStore.retainPaths]
  split
  · rename_i heq
    rwa [heq] at hall
  · rename_i heq
    rwa [heq] at hall

/-- Every run keeps the totals. -/
theorem Reachable.accounted (hidentity : identity.dimension ≤ maxCacheDimension)
    (hjson : json.toVec identity = .ok header) (hheader : header.length ≤ maxNoteMetadataBytes)
    (h : Reachable json identity store) : Accounted identity header store := by
  induction h with
  | new => exact accounted_newWithIdentity hheader
  | insert _ path entry ih => exact ih.insertNote hidentity hjson hheader path entry
  | remove _ path ih => exact ih.remove hidentity path
  | retain _ keys _ paths ih => exact ih.retainPaths hidentity keys paths
  | setFirstPassComplete _ complete ih => exact { ih with }

end Accounting

/-! ## The file -/

section File

variable {json : IdentityJson} {identity : EmbeddingSpaceIdentity} {header : List UInt8}
  {store : EmbeddingStore}

def recordsBytes (records : List (OsString × NoteEmbeddingEntry)) : List UInt8 :=
  records.flatMap fun e => recordBytes e.1 e.2

theorem sortedEntries_perm (store : EmbeddingStore) :
    store.sortedEntries.Perm (store.embeddings.entries.map fun e => (e.1, e.2)) :=
  List.mergeSort_perm _ _

theorem mem_sortedEntries {path : OsString} {entry : NoteEmbeddingEntry} :
    (path, entry) ∈ store.sortedEntries ↔ store.embeddings.lookup path = some entry := by
  rw [(sortedEntries_perm store).mem_iff, ← Option.mem_def, AList.mem_lookup_iff]
  simp only [List.mem_map, Prod.mk.injEq]
  constructor
  · rintro ⟨e, he, rfl, rfl⟩
    exact he
  · intro he
    exact ⟨_, he, rfl, rfl⟩

theorem length_sortedEntries (store : EmbeddingStore) :
    store.sortedEntries.length = store.len := by
  rw [(sortedEntries_perm store).length_eq, List.length_map, len]

theorem sum_sortedEntries (size : OsString → NoteEmbeddingEntry → ℕ) :
    (store.sortedEntries.map fun e => size e.1 e.2).sum = Table.total size store.embeddings := by
  rw [((sortedEntries_perm store).map _).sum_eq, List.map_map]
  rfl

theorem length_recordsBytes (records : List (OsString × NoteEmbeddingEntry)) :
    (recordsBytes records).length = (records.map fun e => recordSize e.1 e.2).sum :=
  List.length_flatMap

theorem writes_record (hidentity : identity.dimension ≤ maxCacheDimension)
    (h : Accounted identity header store) {path : OsString} {entry : NoteEmbeddingEntry}
    (hmem : store.embeddings.lookup path = some entry) :
    Writes cacheSink (encodeEntry store.dim · (path, entry)) (recordBytes path entry) := by
  have hrecord := h.records_valid path entry hmem
  obtain ⟨text, -, htext, hpath, hlength, hbytes⟩ := hrecord.exists_text
  have hstep : (encodeEntry store.dim · (path, entry)) = (writeEntry · text entry) := by
    funext out
    simp only [encodeEntry, htext, hpath, hrecord.entry_valid]
    rfl
  rw [hstep, hbytes]
  exact writes_entry hlength (h.dim_eq.trans_le hidentity)
    (entryFits_of_validateNoteEntry hrecord.entry_valid)

/-- The file is the header followed by the records in path order. -/
theorem encodeCache_eq (hvalid : validateSpaceIdentity identity = .ok ())
    (hidentity : identity.dimension ≤ maxCacheDimension)
    (hjson : json.toVec identity = .ok header) (hheader : header.length ≤ maxNoteMetadataBytes)
    (h : Accounted identity header store) :
    store.encodeCache json = .ok (headerBytes header store.firstPassComplete store.len ++
      recordsBytes store.sortedEntries) := by
  have hentries : maxCacheEntries < 2 ^ 32 := by decide
  have hwrites : Writes cacheSink (fun out =>
      writeHeader json out cacheMagic cacheSchemaVersion identity store.firstPassComplete
        store.sortedEntries.length >>= fun out =>
      store.sortedEntries.foldlM (encodeEntry store.dim) out)
      (headerBytes header store.firstPassComplete store.len ++
        recordsBytes store.sortedEntries) := by
    rw [← length_sortedEntries]
    refine (writes_header hjson hheader _ ?_).bind (Writes.foldlM fun e he => ?_)
    · rw [length_sortedEntries]
      exact h.notes_le.trans_lt hentries
    · exact writes_record hidentity h (mem_sortedEntries.mp he)
  have hroom : cacheSink.used (CacheWriter.new false) +
      (headerBytes header store.firstPassComplete store.len ++
        recordsBytes store.sortedEntries).length ≤ cacheSink.limit := by
    have hlimit := h.bytes_le
    rw [h.bytes_eq] at hlimit
    rw [List.length_append, length_headerBytes, length_recordsBytes, sum_sortedEntries]
    change 0 + _ ≤ maxCacheBytes
    omega
  have hdim : ensure (identity.dimension = store.dim)
      (.embedding "embedding store identity has an invalid dimension".toList) = .ok () :=
    ensure_eq_ok.mpr (by simp [h.dim_eq])
  have hcounts : ensure (!(store.len > maxCacheEntries || store.totalChunks > maxCacheEntries))
      (.embedding "embedding cache contains too many entries or chunks".toList) = .ok () :=
    ensure_eq_ok.mpr (by simp [h.notes_le, h.chunks_le])
  have hok := hwrites.eq_ok hroom
  rw [except_bind_eq_ok] at hok
  obtain ⟨out, hout, hrest⟩ := hok
  rw [encodeCache, h.identity_eq]
  simp only [hvalid, hdim, hcounts, except_bind_eq_ok, Unique.exists_iff, true_and]
  exact ⟨out, hout, _, hrest, rfl⟩

open CacheReader

/-- Reading records inserts them into the store, as long as the limits hold at the end. -/
theorem exists_reads_records (hidentity : identity.dimension ≤ maxCacheDimension)
    (hjson : json.toVec identity = .ok header) (hheader : header.length ≤ maxNoteMetadataBytes)
    (records : List (OsString × NoteEmbeddingEntry)) (h : Accounted identity header store)
    (hvalid : ∀ e ∈ records, ValidRecord store.dim e.1 e.2)
    (hkeys : (records.map Prod.fst).Nodup)
    (hfresh : ∀ e ∈ records, store.embeddings.lookup e.1 = none)
    (hchunks : store.totalChunks + (records.map fun e => chunkCount e.1 e.2).sum ≤ maxCacheEntries)
    (hnotes : store.len + records.length ≤ maxCacheEntries)
    (hbytes : store.encodedEntriesBytes + (records.map fun e => recordSize e.1 e.2).sum +
      (19 + header.length) ≤ maxCacheBytes) :
    ∃ loaded, Reads holding (decodeEntries json records.length store) (recordsBytes records)
        loaded ∧
      Accounted identity header loaded ∧
      loaded.firstPassComplete = store.firstPassComplete ∧
      ∀ path entry, loaded.embeddings.lookup path = some entry ↔
        (path, entry) ∈ records ∨ store.embeddings.lookup path = some entry := by
  induction records generalizing store with
  | nil => exact ⟨store, Reads.pure store, h, rfl, by simp⟩
  | cons e records ih =>
      obtain ⟨path, entry⟩ := e
      have hrecord := hvalid _ List.mem_cons_self
      have hnew := hfresh _ List.mem_cons_self
      obtain ⟨text, hpathBytes, htext, hpath, hlength, hencoding⟩ := hrecord.exists_text
      simp only [List.map_cons, List.sum_cons] at hchunks hbytes
      rw [List.length_cons] at hnotes
      rw [List.map_cons, List.nodup_cons] at hkeys
      have hold : ∀ size, store.oldSize size path = 0 := fun size => by
        rw [oldSize, hnew, Option.map_none, Option.getD_none]
      have htotal : ∀ size : OsString → NoteEmbeddingEntry → ℕ,
          Table.total size (store.embeddings.insert path entry) =
            Table.total size store.embeddings + size path entry := fun size => by
        rw [total_insert_eq_oldSize, hold, Nat.sub_zero]
      have hplan : store.planInsert json path entry =
          .ok (Table.total chunkCount (store.embeddings.insert path entry),
            Table.total recordSize (store.embeddings.insert path entry)) := by
        refine (planInsert_eq_ok hidentity hjson hheader h).mpr ⟨hrecord, rfl, rfl, ?_, ?_, ?_⟩
        · rw [htotal, ← h.chunks_eq]
          omega
        · rw [htotal, ← len_eq_total]
          omega
        · rw [htotal, ← h.bytes_eq]
          omega
      obtain ⟨next, hnext, hlookup⟩ : ∃ next, store.insertNote json path entry = (.ok (), next) ∧
          next.embeddings = store.embeddings.insert path entry := by
        refine ⟨_, by rw [EmbeddingStore.insertNote, hplan], rfl⟩
      have haccounted := h.insertNote hidentity hjson hheader path entry
      rw [hnext] at haccounted
      have hdim : next.dim = store.dim := haccounted.dim_eq.trans h.dim_eq.symm
      have hflag : next.firstPassComplete = store.firstPassComplete := by
        have := congrArg (fun r => r.2.firstPassComplete) hnext
        rw [EmbeddingStore.insertNote, hplan] at this
        exact this.symm
      obtain ⟨loaded, hreads, hloaded, hcomplete, hentries⟩ := ih haccounted
        (fun e he => hdim ▸ hvalid e (List.mem_cons_of_mem _ he)) hkeys.2
        (fun e he => by
          have hne : e.1 ≠ path := fun heq => hkeys.1 (List.mem_map.mpr ⟨e, he, heq⟩)
          rw [hlookup, AList.lookup_insert_ne hne]
          exact hfresh e (List.mem_cons_of_mem _ he))
        (by
          rw [haccounted.chunks_eq, hlookup, htotal, ← h.chunks_eq]
          omega)
        (by
          rw [len_eq_total, hlookup, htotal, ← len_eq_total]
          omega)
        (by
          rw [haccounted.bytes_eq, hlookup, htotal, ← h.bytes_eq]
          omega)
      refine ⟨loaded, ?_, hloaded, hcomplete.trans hflag, fun other e => ?_⟩
      · have hpathWord : maxCachePathBytes < 2 ^ 32 := by decide
        have hcount : store.totalChunks + entry.chunks.length ≤ maxCacheEntries := by
          have := hchunks
          rw [chunkCount] at this
          omega
        have hrecordBytes : recordsBytes ((path, entry) :: records) =
            stringBytes text ++ (noteBytes entry ++ recordsBytes records) := by
          rw [recordsBytes, List.flatMap_cons, hencoding, entryBytes, List.append_assoc]
          rfl
        rw [hrecordBytes, List.length_cons, decodeEntries]
        refine (reads_string (by omega) hlength).bind ?_
        have hlift : Reads holding
            (liftM (validateCachePath text) : Input OsString) [] path := by
          intro rest
          rw [hpath]
          rfl
        refine hlift.bind (y := noteBytes entry ++ recordsBytes records) ?_
        rw [if_neg (by simp [hnew])]
        refine (reads_entry (h.dim_eq.trans_le hidentity)
          (entryFits_of_validateNoteEntry hrecord.entry_valid) hcount).bind ?_
        rw [hnext]
        exact hreads
      · rw [hentries, hlookup, List.mem_cons, Prod.mk.injEq]
        by_cases hkey : other = path
        · subst hkey
          have hnone : (other, e) ∉ records := fun hmem =>
            hkeys.1 (List.mem_map.mpr ⟨_, hmem, rfl⟩)
          rw [AList.lookup_insert, hnew]
          simp [hnone, eq_comm]
        · rw [AList.lookup_insert_ne hkey]
          simp [hkey]

/-- A whole file that is read is decoded. -/
theorem decodeFile_of_reads {expected : Option EmbeddingSpaceIdentity} {maxEntries : ℕ}
    {file : List UInt8} {loaded : EmbeddingStore}
    (h : Reads holding (decodeStore json expected maxEntries) file loaded)
    (hsize : file.length ≤ maxCacheBytes) :
    decodeFile json file expected maxEntries = .ok loaded := by
  have hrun := h []
  rw [List.append_nil] at hrun
  have htake : file.take (maxCacheBytes + 1) = file := List.take_of_length_le (by omega)
  have hstart : (⟨file, file.length⟩ : CacheReader) = holding file := rfl
  rw [decodeFile, if_neg (Nat.not_lt.mpr hsize), htake, hstart, hrun]
  rfl

/-- Decoding what an accounted store is encoded to gives a store with its entries. -/
theorem exists_reads_store (hvalid : validateSpaceIdentity identity = .ok ())
    (hidentity : identity.dimension ≤ maxCacheDimension)
    (hjson : json.toVec identity = .ok header) (hheader : header.length ≤ maxNoteMetadataBytes)
    (hback : json.fromSlice header = .ok identity) (h : Accounted identity header store)
    {maxEntries : ℕ} (hmax : store.len ≤ maxEntries) :
    ∃ loaded, Reads holding (decodeStore json (some identity) maxEntries)
        (headerBytes header store.firstPassComplete store.len ++
          recordsBytes store.sortedEntries) loaded ∧
      Accounted identity header loaded ∧
      loaded.firstPassComplete = store.firstPassComplete ∧
      ∀ path, loaded.embeddings.lookup path = store.embeddings.lookup path := by
  have hentries : maxCacheEntries < 2 ^ 32 := by decide
  have hmetadata : maxNoteMetadataBytes < 2 ^ 32 := by decide
  have hkeys : (store.sortedEntries.map Prod.fst).Nodup := by
    rw [((sortedEntries_perm store).map Prod.fst).nodup_iff, List.map_map]
    exact store.embeddings.keys_nodup
  have hempty : Accounted identity header
      { newWithIdentity identity with firstPassComplete := store.firstPassComplete } :=
    { accounted_newWithIdentity hheader with }
  obtain ⟨loaded, hreads, hloaded, hcomplete, hlookup⟩ :=
    exists_reads_records hidentity hjson hheader store.sortedEntries hempty
      (fun e he => by
        have hrecord := h.records_valid e.1 e.2 (mem_sortedEntries.mp he)
        rwa [h.dim_eq] at hrecord) hkeys
      (fun e _ => rfl)
      (by
        rw [sum_sortedEntries, ← h.chunks_eq]
        exact (Nat.zero_add _).trans_le h.chunks_le)
      (by
        rw [length_sortedEntries]
        exact (Nat.zero_add _).trans_le h.notes_le)
      (by
        rw [sum_sortedEntries, ← h.bytes_eq]
        have := h.bytes_le
        change 0 + _ + _ ≤ _
        omega)
  refine ⟨loaded, ?_, hloaded, hcomplete, fun path => Option.ext fun entry => ?_⟩
  · have hmagic : Reads holding (array 8) cacheMagic (⟨cacheMagic.toArray, rfl⟩ : Vector UInt8 8) :=
      reads_array (⟨cacheMagic.toArray, rfl⟩ : Vector UInt8 8)
    have hschema : Reads holding u16 (leBytes 2 cacheSchemaVersion) cacheSchemaVersion :=
      (reads_array (leVector 2 cacheSchemaVersion)).bind_end (Reads.pure cacheSchemaVersion)
    have hcheck : Reads holding (liftM (validateSpaceIdentity identity) : Input Unit) [] () := by
      intro rest
      rw [hvalid]
      rfl
    have hfile : headerBytes header store.firstPassComplete store.len ++
        recordsBytes store.sortedEntries = cacheMagic ++ (leBytes 2 cacheSchemaVersion ++
          ((numberBytes header.length ++ header) ++ (flagBytes store.firstPassComplete ++
            (numberBytes store.len ++ recordsBytes store.sortedEntries)))) := by
      simp only [headerBytes, List.append_assoc]
    rw [hfile, decodeStore]
    refine hmagic.bind ?_
    rw [if_neg (by simp [cacheMagic])]
    refine hschema.bind ?_
    rw [if_neg (by simp)]
    refine (reads_bytes (by omega) hheader).bind ?_
    simp only [hback]
    refine hcheck.bind (y := flagBytes store.firstPassComplete ++
      (numberBytes store.len ++ recordsBytes store.sortedEntries)) ?_
    rw [if_neg (by simp)]
    rw [length_sortedEntries] at hreads
    exact (reads_flag _).bind <| (reads_count _ (h.notes_le.trans_lt hentries) hmax).bind hreads
  · rw [hlookup, mem_sortedEntries]
    simp [newWithIdentity]

end File

/-! ## Round trip -/

/-- The chunks of all entries. -/
def recountChunks (store : EmbeddingStore) : ℕ :=
  (store.embeddings.entries.map fun e => e.2.chunks.length).sum

/-- The measured sizes of all entries. -/
def recountEntriesBytes (store : EmbeddingStore) : Except VaultError ℕ :=
  store.embeddings.entries.foldlM (fun total e => do
    match OsString.toStr e.1 with
    | none => cacheError "cache path is not UTF-8".toList
    | some path =>
        let entryBytes ← encodedEntryLen path e.2
        return total + entryBytes) 0

theorem Accounted.recountEntriesBytes {identity : EmbeddingSpaceIdentity} {header : List UInt8}
    {store : EmbeddingStore} (hidentity : identity.dimension ≤ maxCacheDimension)
    (h : Accounted identity header store) :
    store.recountEntriesBytes = .ok store.encodedEntriesBytes := by
  have hfold : ∀ (entries : List ((_ : OsString) × NoteEmbeddingEntry)) (total : ℕ),
      (∀ e ∈ entries, e ∈ store.embeddings.entries) →
      entries.foldlM (fun total e => do
        match OsString.toStr e.1 with
        | none => cacheError "cache path is not UTF-8".toList
        | some path =>
            let entryBytes ← encodedEntryLen path e.2
            return total + entryBytes) total =
        (.ok (total + (entries.map fun e => recordSize e.1 e.2).sum) : Except VaultError ℕ) := by
    intro entries
    induction entries with
    | nil => intro total _; rfl
    | cons e entries ih =>
        intro total hmem
        have hlookup : store.embeddings.lookup e.1 = some e.2 :=
          AList.mem_lookup_iff.mpr (hmem e List.mem_cons_self)
        have hrecord := h.records_valid e.1 e.2 hlookup
        obtain ⟨text, -, htext, -, -, -⟩ := hrecord.exists_text
        have hlen : encodedEntryLen text e.2 = .ok (recordSize e.1 e.2) := by
          refine (hrecord.encodedEntryLen_eq_ok (h.dim_eq.trans_le hidentity) htext).mpr
            ⟨rfl, ?_⟩
          have hsize := Table.size_le_total recordSize hlookup
          have hlimit := h.bytes_le
          rw [h.bytes_eq] at hlimit
          omega
        rw [List.foldlM_cons, htext]
        simp only [hlen]
        rw [List.map_cons, List.sum_cons, ← Nat.add_assoc]
        exact ih _ fun e' he' => hmem e' (List.mem_cons_of_mem _ he')
  rw [EmbeddingStore.recountEntriesBytes, hfold _ 0 fun e he => he, Nat.zero_add, h.bytes_eq]
  rfl

/-- For a store made by any run of operations, failed ones included, the totals are those of
its entries, encoding succeeds with the announced length, and decoding gives back the same
entries, identity, flag and totals. -/
theorem cache_round_trip (json : IdentityJson) (identity : EmbeddingSpaceIdentity)
    (header : List UInt8) (hvalid : validateSpaceIdentity identity = .ok ())
    (hjson : json.toVec identity = .ok header) (hheader : header.length ≤ maxNoteMetadataBytes)
    (hback : json.fromSlice header = .ok identity) (store : EmbeddingStore)
    (h : Reachable json identity store) :
    (∀ path entry error, (store.insertNote json path entry).1 = .error error →
      (store.insertNote json path entry).2 = store) ∧
    store.totalChunks = store.recountChunks ∧
    store.recountEntriesBytes = .ok store.encodedEntriesBytes ∧
    ∃ headerLen file, cacheHeaderLen json identity = .ok headerLen ∧
      store.encodeCache json = .ok file ∧
      file.length = headerLen + store.encodedEntriesBytes ∧ file.length ≤ maxCacheBytes ∧
      ∀ maxEntries, store.len ≤ maxEntries →
        ∃ loaded, decodeFile json file (some identity) maxEntries = .ok loaded ∧
          (∀ path, loaded.embeddings.lookup path = store.embeddings.lookup path) ∧
          loaded.len = store.len ∧ loaded.identity = store.identity ∧ loaded.dim = store.dim ∧
          loaded.firstPassComplete = store.firstPassComplete ∧
          loaded.totalChunks = store.totalChunks ∧
          loaded.encodedEntriesBytes = store.encodedEntriesBytes := by
  have hidentity : identity.dimension ≤ maxCacheDimension := by
    simp only [validateSpaceIdentity, except_bind_eq_ok, Unique.exists_iff, ensure_eq_ok,
      PUnit.default_eq_unit, Bool.not_eq_true', Bool.or_eq_false_iff, decide_eq_false_iff_not,
      Nat.not_lt, gt_iff_lt] at hvalid
    exact hvalid.1.2
  have haccounted := h.accounted hidentity hjson hheader
  have hlength : (headerBytes header store.firstPassComplete store.len ++
      recordsBytes store.sortedEntries).length =
      (19 + header.length) + store.encodedEntriesBytes := by
    rw [List.length_append, length_headerBytes, length_recordsBytes, sum_sortedEntries,
      haccounted.bytes_eq]
  have hsize := haccounted.bytes_le
  refine ⟨fun path entry error => insertNote_of_error, haccounted.chunks_eq,
    haccounted.recountEntriesBytes hidentity, 19 + header.length, _,
    cacheHeaderLen_eq_ok hjson hheader,
    encodeCache_eq hvalid hidentity hjson hheader haccounted, hlength, by omega, ?_⟩
  intro maxEntries hmax
  obtain ⟨loaded, hreads, hloaded, hcomplete, hlookup⟩ :=
    exists_reads_store hvalid hidentity hjson hheader hback haccounted hmax
  have hperm := Table.perm_of_lookup_eq hlookup
  refine ⟨loaded, decodeFile_of_reads hreads (by omega), hlookup, hperm.length_eq,
    hloaded.identity_eq.trans haccounted.identity_eq.symm,
    hloaded.dim_eq.trans haccounted.dim_eq.symm, hcomplete, ?_, ?_⟩
  · rw [hloaded.chunks_eq, haccounted.chunks_eq, Table.total_perm _ hperm]
  · rw [hloaded.bytes_eq, haccounted.bytes_eq, Table.total_perm _ hperm]

/-- A local model with vectors of one component. -/
private def smallIdentity : EmbeddingSpaceIdentity where
  backend := .local
  model := "m".toList
  endpointFingerprint := none
  dimension := 1
  inputVersion := 2
  tokenizerFingerprint := Vector.replicate 32 0
  maxInputTokens := 8
  chunkingVersion := 1

/-- Its JSON form. -/
private def smallHeader : List UInt8 :=
  utf8Bytes ("\x7b\"backend\":\"Local\",\"model\":\"m\",\"endpoint_fingerprint\":null,".toList ++
    "\"dimension\":1,\"input_version\":2,\"tokenizer_fingerprint\":[".toList ++
    List.intercalate [','] (List.replicate 32 ['0']) ++
    "],\"max_input_tokens\":8,\"chunking_version\":1\x7d".toList)

private def smallJson : IdentityJson where
  toVec identity := if identity = smallIdentity then .ok smallHeader else .error []
  fromSlice bytes := if bytes = smallHeader then .ok smallIdentity else .error []

/-- The whole note `x` as one chunk. -/
private def smallEntry : NoteEmbeddingEntry where
  sourceRevision := List.replicate 64 'a'
  sourceBytes := 1
  bodyRange := ⟨0, 1⟩
  title := "a".toList
  tags := []
  chunks := [⟨Vector.replicate 32 0, [0x3F800000], .note, ⟨0, 1⟩, none, [], none, none⟩]

/-- A store with one note, and a failed insertion after it. -/
private def smallStore : EmbeddingStore :=
  (((newWithIdentity smallIdentity).insertNote smallJson (utf8Bytes "a.md".toList)
    smallEntry).2.insertNote smallJson [0xFF] smallEntry).2

theorem round_trip_of_small_store :
    ∃ headerLen file, cacheHeaderLen smallJson smallIdentity = .ok headerLen ∧
      smallStore.encodeCache smallJson = .ok file ∧
      file.length = headerLen + smallStore.encodedEntriesBytes := by
  have hlength : smallHeader.length ≤ maxNoteMetadataBytes := by decide +kernel
  have hwrite : smallJson.toVec smallIdentity = .ok smallHeader := by simp [smallJson]
  have hread : smallJson.fromSlice smallHeader = .ok smallIdentity := by simp [smallJson]
  have hround := cache_round_trip smallJson smallIdentity smallHeader (by decide +kernel)
    hwrite hlength hread smallStore ((Reachable.new.insert _ _).insert _ _)
  obtain ⟨-, -, -, headerLen, file, hheader, hencode, hfile, -, -⟩ := hround
  exact ⟨headerLen, file, hheader, hencode, hfile⟩

end EmbeddingStore

end ObsidianMcp
