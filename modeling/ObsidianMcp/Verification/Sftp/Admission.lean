import ObsidianMcp.Verification.Sftp.Frames

/-! # Admitted SFTP responses

A response is passed on once for every request, and a directory response loses only the names that
are not UTF-8. -/

namespace ObsidianMcp.Sftp

open Text

/-! ## Directory responses -/

/-- The state of the filter after an entry. -/
def keep (state : Filtered) (record : NameRecord) : Filtered :=
  if record.isUtf8 then
    { state with bytes := state.bytes ++ record.bytes, accepted := state.accepted + 1 }
  else
    { state with
      metadata := { state.metadata with
        skippedCount := state.metadata.skippedCount + 1
        skippedBytes := state.metadata.skippedBytes + record.filename.length } }

theorem slice_middle {start middle rest : Bytes} {first last offset : ℕ}
    (hfirst : first = start.length) (hlast : last = start.length + middle.length) :
    (Cursor.slice (start ++ middle ++ rest) first last : Walk Bytes) offset =
      some (.ok (middle, offset)) := by
  have hmiddle : ((start ++ middle ++ rest).take last).drop first = middle := by
    rw [hlast, hfirst, ← List.length_append, List.take_left, List.drop_left]
  rw [Cursor.slice, if_pos, hmiddle]
  rw [hlast, hfirst, List.length_append, List.length_append]
  omega

/-- An entry is kept, skipped or refused for its name. -/
theorem filterEntry_record {start rest : Bytes} (record : NameRecord) (state : Filtered)
    (hlimit : (start ++ record.bytes ++ rest).length ≤ usizeMax) :
    (record.Admissible → filterEntry (start ++ record.bytes ++ rest) state start.length =
        some (.ok (keep state record, start.length + record.bytes.length))) ∧
      (¬record.Admissible → filterEntry (start ++ record.bytes ++ rest) state start.length =
        some (.error invalid)) := by
  have hname : (stringBytes record.filename).length = 4 + record.filename.length := by
    rw [stringBytes, List.length_append, length_beBytes]
  have hbytes : start ++ record.bytes ++ rest = start ++ stringBytes record.filename ++
      (stringBytes record.longname ++ (record.attributes ++ rest)) := by
    rw [NameRecord.bytes]
    simp
  have hbytes' : start ++ record.bytes ++ rest = (start ++ stringBytes record.filename) ++
      stringBytes record.longname ++ (record.attributes ++ rest) := by
    rw [NameRecord.bytes]
    simp
  have hbytes'' : start ++ record.bytes ++ rest = (start ++ stringBytes record.filename ++
      stringBytes record.longname) ++ record.attributes ++ rest := by
    rw [NameRecord.bytes]
    simp
  have hfirst : string (start ++ record.bytes ++ rest) start.length =
      some (.ok ((), start.length + (stringBytes record.filename).length)) := by
    rw [hbytes] at hlimit ⊢
    exact string_scans.complete ⟨record.filename, record.filename_lt, rfl⟩ hlimit
  have hfilename : ∀ offset, (Cursor.slice (start ++ record.bytes ++ rest) (start.length + 4)
      (start.length + (stringBytes record.filename).length) : Walk Bytes) offset =
        some (.ok (record.filename, offset)) := by
    intro offset
    have hsplit : start ++ record.bytes ++ rest =
        (start ++ beBytes 4 record.filename.length) ++ record.filename ++
          (stringBytes record.longname ++ (record.attributes ++ rest)) := by
      rw [hbytes]
      simp [stringBytes]
    rw [hsplit]
    apply slice_middle
    · rw [List.length_append, length_beBytes]
    · rw [List.length_append, length_beBytes, hname, Nat.add_assoc]
  have hsecond : string (start ++ record.bytes ++ rest)
      (start.length + (stringBytes record.filename).length) =
        some (.ok ((), (start ++ stringBytes record.filename ++
          stringBytes record.longname).length)) := by
    rw [← List.length_append]
    rw [hbytes'] at hlimit ⊢
    rw [@List.length_append _ (start ++ stringBytes record.filename)]
    exact string_scans.complete ⟨record.longname, record.longname_lt, rfl⟩ hlimit
  have hthird : attrs (start ++ record.bytes ++ rest)
      (start ++ stringBytes record.filename ++ stringBytes record.longname).length =
        some (.ok ((), start.length + record.bytes.length)) := by
    have hstop : start.length + record.bytes.length = (start ++ stringBytes record.filename ++
        stringBytes record.longname).length + record.attributes.length := by
      rw [NameRecord.bytes]
      simp only [List.length_append]
      omega
    rw [hstop]
    rw [hbytes''] at hlimit ⊢
    exact attrs_scans.complete record.attributes_ok hlimit
  have hentry : ∀ offset, (Cursor.slice (start ++ record.bytes ++ rest) start.length
      (start.length + record.bytes.length) : Walk Bytes) offset =
        some (.ok (record.bytes, offset)) :=
    fun offset => slice_middle rfl rfl
  rw [filterEntry, Cursor.position_bind, Cursor.bind_ok hfirst, Cursor.position_bind,
    Cursor.bind_ok (hfilename _)]
  constructor
  · intro hadmissible
    rw [if_neg hadmissible, Cursor.bind_ok hsecond, Cursor.bind_ok hthird, Cursor.position_bind,
      Cursor.bind_ok (hentry _), keep, NameRecord.isUtf8]
    by_cases hutf8 : (fromUtf8 record.filename).isSome = true
    · rw [if_pos hutf8, if_pos hutf8]
      rfl
    · rw [if_neg hutf8, if_neg hutf8]
      rfl
  · intro hrefused
    rw [NameRecord.Admissible, not_not] at hrefused
    rw [if_pos hrefused]
    rfl

theorem filterEntries_records {start rest : Bytes} (records : List NameRecord) (state : Filtered)
    (hlimit : (start ++ records.flatMap NameRecord.bytes ++ rest).length ≤ usizeMax) :
    ((∀ record ∈ records, record.Admissible) →
      filterEntries (start ++ records.flatMap NameRecord.bytes ++ rest) records.length state
        start.length = some (.ok (records.foldl keep state,
          start.length + (records.flatMap NameRecord.bytes).length))) ∧
      ((∃ record ∈ records, ¬record.Admissible) →
        filterEntries (start ++ records.flatMap NameRecord.bytes ++ rest) records.length state
          start.length = some (.error invalid)) := by
  induction records generalizing start state with
  | nil =>
      constructor
      · intro _
        rfl
      · intro h
        rcases h with ⟨record, hrecord, -⟩
        contradiction
  | cons record records ih =>
      have hbytes : start ++ (record :: records).flatMap NameRecord.bytes ++ rest =
          start ++ record.bytes ++ (records.flatMap NameRecord.bytes ++ rest) := by
        rw [List.flatMap_cons]
        simp
      have hbytes' : start ++ (record :: records).flatMap NameRecord.bytes ++ rest =
          (start ++ record.bytes) ++ records.flatMap NameRecord.bytes ++ rest := by
        rw [List.flatMap_cons]
        simp
      have hfirst := filterEntry_record record state (hbytes ▸ hlimit)
      have hlater := @ih (start ++ record.bytes) (keep state record) (hbytes' ▸ hlimit)
      rw [← hbytes] at hfirst
      rw [← hbytes', List.length_append] at hlater
      rw [List.length_cons, filterEntries]
      constructor
      · intro hall
        rw [List.forall_mem_cons] at hall
        rw [Cursor.bind_ok (hfirst.1 hall.1), hlater.1 hall.2, List.foldl_cons,
          List.flatMap_cons, List.length_append, Nat.add_assoc]
      · intro hsome
        by_cases hrecord : record.Admissible
        · rw [Cursor.bind_ok (hfirst.1 hrecord)]
          apply hlater.2
          rcases hsome with ⟨other, hother, hrefused⟩
          rcases List.mem_cons.mp hother with rfl | hother
          · exact absurd hrecord hrefused
          · exact ⟨other, hother, hrefused⟩
        · exact Cursor.bind_error (hfirst.2 hrecord)

/-- The filter keeps the entries whose names are UTF-8 and counts the others. -/
theorem foldl_keep (records : List NameRecord) (state : Filtered) :
    records.foldl keep state =
      { bytes := state.bytes ++ (records.filter NameRecord.isUtf8).flatMap NameRecord.bytes
        accepted := state.accepted + (records.filter NameRecord.isUtf8).length
        metadata := { state.metadata with
          skippedCount := state.metadata.skippedCount +
            (records.filter fun record => !record.isUtf8).length
          skippedBytes := state.metadata.skippedBytes +
            ((records.filter fun record => !record.isUtf8).map
              fun record => record.filename.length).sum } } := by
  induction records generalizing state with
  | nil => simp
  | cons record records ih =>
      rw [List.foldl_cons, ih, keep]
      cases hutf8 : record.isUtf8 with
      | true => simp [hutf8, Nat.add_assoc, Nat.add_comm 1]
      | false => simp [hutf8, Nat.add_assoc, Nat.add_comm 1]

/-! ## Words of a packet -/

theorem wordAt_middle {start word rest : Bytes} {index : ℕ} (hindex : index = start.length)
    (hword : word.length = 4) : wordAt (start ++ (word ++ rest)) index = some (beValue word) := by
  have hroom : index + 4 ≤ (start ++ (word ++ rest)).length := by
    rw [hindex, List.length_append, List.length_append, hword]
    omega
  have hslice : ((start ++ (word ++ rest)).drop index).take 4 = word := by
    rw [hindex, List.drop_left, ← hword, List.take_left]
  rw [wordAt, if_pos hroom, hslice]

theorem writeWord_middle {start word rest : Bytes} {index : ℕ} (value : ℕ)
    (hindex : index = start.length) (hword : word.length = 4) :
    writeWord (start ++ (word ++ rest)) index value =
      some (start ++ (beBytes 4 value ++ rest)) := by
  have hroom : index + 4 ≤ (start ++ (word ++ rest)).length := by
    rw [hindex, List.length_append, List.length_append, hword]
    omega
  have hafter : (start ++ (word ++ rest)).drop (index + 4) = rest := by
    rw [← List.append_assoc, hindex, ← hword, ← List.length_append, List.drop_left]
  rw [writeWord, if_pos hroom, hafter, hindex, List.take_left, List.append_assoc]

/-- A frame has a kind and the id of a request before its payload. -/
theorem Framed.exists_parts {packet : Bytes} (h : Framed packet) :
    ∃ kind id payload, packet = frame (kind :: id ++ payload) ∧ id.length = 4 := by
  have hlong := h.bounds.1
  have hheader := h.header
  generalize packet.drop 4 = body at hlong hheader
  cases body with
  | nil => contradiction
  | cons kind rest =>
      refine ⟨kind, rest.take 4, rest.drop 4, ?_, ?_⟩
      · rw [List.cons_append, List.take_append_drop]
        exact hheader
      · rw [List.length_cons] at hlong
        exact List.length_take_of_le (by omega)

theorem drop_frame (body : Bytes) : (frame body).drop 4 = body :=
  List.drop_left' (length_beBytes 4 body.length)

theorem framed_frame {body : Bytes} : Framed (frame body) ↔
    (5 ≤ body.length ∧ body.length ≤ maxPacket) ∧ validatePacket body = some (.ok ()) := by
  constructor
  · intro h
    have hbounds := h.bounds
    have haccepted := h.accepted
    rw [drop_frame] at hbounds haccepted
    exact ⟨hbounds, haccepted⟩
  · intro h
    constructor
    · rw [drop_frame, frame]
    · rw [drop_frame]
      exact h.1
    · rw [drop_frame]
      exact h.2

section Parts

variable {kind : UInt8} {id payload : Bytes}

theorem frame_kind : (frame (kind :: id ++ payload))[4]? = some kind := by
  rw [frame, List.getElem?_append_right (Nat.le_of_eq (length_beBytes _ _)), length_beBytes]
  rfl

theorem frame_id (hid : id.length = 4) :
    wordAt (frame (kind :: id ++ payload)) 5 = some (beValue id) := by
  have hparts : frame (kind :: id ++ payload) =
      (beBytes 4 (kind :: id ++ payload).length ++ [kind]) ++ (id ++ payload) := by
    rw [frame]
    simp
  rw [hparts]
  apply wordAt_middle _ hid
  rw [List.length_append, length_beBytes]
  rfl

/-- The payload of an accepted frame, unless it is an extended reply. -/
theorem framed_payload (h : Framed (frame (kind :: id ++ payload))) (hid : id.length = 4)
    (hkind : kind.toNat ≠ 201) : IsPayload kind.toNat payload := by
  have haccepted := (framed_frame.mp h).2
  rw [List.cons_append, validatePacket_ok hkind] at haccepted
  apply @containers_sound kind.toNat (kind :: id) payload
  · rw [List.length_cons, hid]
  · rwa [List.cons_append]

end Parts

/-! ## Responses -/

def unknownId : FrameError :=
  .invalidData "unknown or duplicate SFTP response ID".toList

section Responses

variable {kind : UInt8} {id payload : Bytes} {pending : Table ℕ ResponseMetadata}
  {metadata : ResponseMetadata}

theorem admitResponse_version (hkind : kind.toNat = 2) :
    admitResponse (frame (kind :: id ++ payload)) pending =
      some (.ok (frame (kind :: id ++ payload), none), pending) := by
  rw [admitResponse, frame_kind, Option.bind_eq_bind, Option.bind_some, if_pos hkind]
  rfl

theorem admitResponse_unknown (hid : id.length = 4) (hkind : kind.toNat ≠ 2)
    (hpending : pending.lookup (beValue id) = none) :
    admitResponse (frame (kind :: id ++ payload)) pending =
      some (.error unknownId, pending) := by
  rw [admitResponse, frame_kind, Option.bind_eq_bind, Option.bind_some, if_neg hkind,
    frame_id hid, Option.bind_eq_bind, Option.bind_some, hpending]
  rfl

theorem admitResponse_other (hid : id.length = 4) (hkind : kind.toNat ≠ 2)
    (hstatus : kind.toNat ≠ 101) (hnames : ¬(kind.toNat = 104 ∧ metadata.directory = true))
    (hpending : pending.lookup (beValue id) = some metadata) :
    admitResponse (frame (kind :: id ++ payload)) pending =
      some (.ok (frame (kind :: id ++ payload), some metadata), pending.erase (beValue id)) := by
  rw [admitResponse, frame_kind, Option.bind_eq_bind, Option.bind_some, if_neg hkind,
    frame_id hid, Option.bind_eq_bind, Option.bind_some, hpending]
  dsimp only
  rw [if_neg hstatus, if_neg hnames]
  rfl

/-- The status that the decoder sees. -/
def decoderStatus (code : Bytes) : Bytes :=
  if beValue code = 6 ∨ beValue code = 7 then beBytes 4 4 else code

theorem length_decoderStatus {code : Bytes} (hcode : code.length = 4) :
    (decoderStatus code).length = 4 := by
  rw [decoderStatus]
  split
  · exact length_beBytes 4 4
  · exact hcode

theorem admitResponse_status {code rest : Bytes} (hid : id.length = 4) (hcode : code.length = 4)
    (hkind : kind.toNat = 101) (hpending : pending.lookup (beValue id) = some metadata) :
    admitResponse (frame (kind :: id ++ (code ++ rest))) pending =
      some (.ok (frame (kind :: id ++ (decoderStatus code ++ rest)),
        some { metadata with status := some (beValue code) }), pending.erase (beValue id)) := by
  have hversion : kind.toNat ≠ 2 := by rw [hkind]; decide
  have hsame : (kind :: id ++ (code ++ rest)).length =
      (kind :: id ++ (decoderStatus code ++ rest)).length := by
    simp only [List.length_append, hcode, length_decoderStatus hcode]
  have hparts : ∀ code : Bytes, frame (kind :: id ++ (code ++ rest)) =
      (beBytes 4 (kind :: id ++ (code ++ rest)).length ++ (kind :: id)) ++ (code ++ rest) := by
    intro code
    rw [frame, List.append_assoc]
  have hindex : 9 = (beBytes 4 (kind :: id ++ (code ++ rest)).length ++ (kind :: id)).length := by
    rw [List.length_append, length_beBytes, List.length_cons, hid]
  have hwrite : ∀ value, writeWord (frame (kind :: id ++ (code ++ rest))) 9 value =
      some ((beBytes 4 (kind :: id ++ (code ++ rest)).length ++ (kind :: id)) ++
        (beBytes 4 value ++ rest)) := by
    intro value
    rw [hparts]
    exact writeWord_middle value hindex hcode
  have hstatus : admitStatus (frame (kind :: id ++ (code ++ rest))) metadata =
      some (frame (kind :: id ++ (decoderStatus code ++ rest)),
        { metadata with status := some (beValue code) }) := by
    have hword : wordAt (frame (kind :: id ++ (code ++ rest))) 9 = some (beValue code) := by
      rw [hparts]
      exact wordAt_middle hindex hcode
    rw [admitStatus, hword, Option.bind_eq_bind, Option.bind_some]
    dsimp only
    rw [hparts (decoderStatus code), ← hsame, decoderStatus]
    by_cases hlost : beValue code = 6 ∨ beValue code = 7
    · rw [if_pos hlost, if_pos hlost, hwrite]
      rfl
    · rw [if_neg hlost, if_neg hlost, ← hparts]
      rfl
  rw [admitResponse, frame_kind, Option.bind_eq_bind, Option.bind_some, if_neg hversion,
    frame_id hid, Option.bind_eq_bind, Option.bind_some, hpending]
  dsimp only
  rw [if_pos hkind, hstatus]
  rfl

end Responses

/-! ## Filtered listings -/

/-- The metadata of a request whose listing was filtered. -/
def skipped (metadata : ResponseMetadata) (records : List NameRecord) : ResponseMetadata :=
  { metadata with
    skippedCount := metadata.skippedCount + (records.filter fun record => !record.isUtf8).length
    skippedBytes := metadata.skippedBytes +
      ((records.filter fun record => !record.isUtf8).map
        fun record => record.filename.length).sum }

theorem length_filter_isUtf8 (records : List NameRecord) :
    (records.filter fun record => !record.isUtf8).length +
      (records.filter NameRecord.isUtf8).length = records.length := by
  rw [Nat.add_comm]
  exact (List.length_eq_length_filter_add NameRecord.isUtf8).symm

theorem length_flatMap_filter_le (records : List NameRecord) :
    ((records.filter NameRecord.isUtf8).flatMap NameRecord.bytes).length ≤
      (records.flatMap NameRecord.bytes).length := by
  induction records with
  | nil => exact Nat.le_refl 0
  | cons record records ih =>
      rw [List.filter_cons, List.flatMap_cons, List.length_append]
      split
      · rw [List.flatMap_cons, List.length_append]
        exact Nat.add_le_add_left ih _
      · exact ih.trans (Nat.le_add_left _ _)

section Listings

variable {kind : UInt8} {id : Bytes} {records : List NameRecord} {metadata : ResponseMetadata}

/-- The packet before the entries. -/
def opening (kind : UInt8) (id : Bytes) (size count : ℕ) : Bytes :=
  beBytes 4 size ++ (kind :: id ++ beBytes 4 count)

theorem length_opening {size count : ℕ} (hid : id.length = 4) :
    (opening kind id size count).length = 13 := by
  rw [opening, List.length_append, length_beBytes, List.length_append, length_beBytes,
    List.length_cons, hid]

theorem frame_listing : frame (kind :: id ++ listing records) =
    opening kind id (kind :: id ++ listing records).length records.length ++
      records.flatMap NameRecord.bytes := by
  rw [frame, opening, listing]
  simp

/-- What the filter leaves is the frame of the entries that it kept. -/
theorem refit_keep {size count skip bytes : ℕ} (kept : List NameRecord) (hid : id.length = 4)
    (hskip : skip ≠ 0) (hlimit : 13 + (kept.flatMap NameRecord.bytes).length < 2 ^ 32)
    (packet : Bytes) :
    refit packet ⟨opening kind id size count ++ kept.flatMap NameRecord.bytes, kept.length,
      { metadata with skippedCount := skip, skippedBytes := bytes }⟩ =
        some (frame (kind :: id ++ listing kept)) := by
  have hcount : writeWord (opening kind id size count ++ kept.flatMap NameRecord.bytes) 9
      kept.length = some (opening kind id size kept.length ++ kept.flatMap NameRecord.bytes) := by
    have hparts : ∀ count, opening kind id size count ++ kept.flatMap NameRecord.bytes =
        (beBytes 4 size ++ (kind :: id)) ++
          (beBytes 4 count ++ kept.flatMap NameRecord.bytes) := by
      intro count
      rw [opening]
      simp
    rw [hparts, hparts]
    apply writeWord_middle _ _ (length_beBytes 4 count)
    rw [List.length_append, length_beBytes, List.length_cons, hid]
  have hlength : (opening kind id size kept.length ++ kept.flatMap NameRecord.bytes).length =
      13 + (kept.flatMap NameRecord.bytes).length := by
    rw [List.length_append, length_opening hid]
  have hbody : (kind :: id ++ listing kept).length =
      13 + (kept.flatMap NameRecord.bytes).length - 4 := by
    rw [List.length_append, listing, List.length_append, length_beBytes, List.length_cons, hid]
    omega
  have hheader : writeWord (opening kind id size kept.length ++ kept.flatMap NameRecord.bytes) 0
      (13 + (kept.flatMap NameRecord.bytes).length - 4) =
        some (frame (kind :: id ++ listing kept)) := by
    have hwrite := @writeWord_middle [] (beBytes 4 size)
      ((kind :: id ++ beBytes 4 kept.length) ++ kept.flatMap NameRecord.bytes) 0
      (kind :: id ++ listing kept).length rfl (length_beBytes 4 size)
    rw [List.nil_append, List.nil_append, ← List.append_assoc, ← List.append_assoc] at hwrite
    rw [frame_listing, ← hbody]
    exact hwrite
  rw [refit, if_pos hskip, hcount, Option.bind_eq_bind, Option.bind_some, hlength]
  dsimp only
  rw [Nat.mod_eq_of_lt hlimit, if_neg (by omega), hheader]

/-- A listing whose names are admissible loses the names that are not UTF-8. -/
theorem filterDirectory_listing (hid : id.length = 4)
    (hcount : records.length < 2 ^ 32)
    (hlimit : (kind :: id ++ listing records).length ≤ maxPacket) :
    ((∀ record ∈ records, record.Admissible) →
      filterDirectory (frame (kind :: id ++ listing records)) metadata =
        some (.ok (frame (kind :: id ++ listing (records.filter NameRecord.isUtf8)),
          skipped metadata records))) ∧
      ((∃ record ∈ records, ¬record.Admissible) →
        filterDirectory (frame (kind :: id ++ listing records)) metadata =
          some (.error invalid)) := by
  have hstart : (kind :: id).length = 5 := by rw [List.length_cons, hid]
  have hsmall : maxPacket ≤ usizeMax := by decide
  have hbody : kind :: id ++ listing records =
      (kind :: id ++ beBytes 4 records.length) ++ records.flatMap NameRecord.bytes ++ [] := by
    rw [listing]
    simp
  have hfront : (kind :: id ++ beBytes 4 records.length).length = 9 := by
    rw [List.length_append, hstart, length_beBytes]
  have hword : u32At (kind :: id ++ listing records) 5 =
      some (.ok (records.length, 9)) := by
    have hscan := @u32At_scans.complete (kind :: id) (beBytes 4 records.length)
      (records.flatMap NameRecord.bytes) records.length
      ⟨length_beBytes 4 _, (beValue_beBytes hcount).symm⟩
      (by rw [← List.append_nil (_ ++ _), ← hbody]; exact hlimit.trans hsmall)
    rw [hstart, length_beBytes] at hscan
    rw [hbody, List.append_nil]
    exact hscan
  have htake : (frame (kind :: id ++ listing records)).take 13 =
      opening kind id (kind :: id ++ listing records).length records.length := by
    rw [frame_listing]
    exact List.take_left' (length_opening hid)
  have hlong : ¬(frame (kind :: id ++ listing records)).length < 13 := by
    rw [frame_listing, List.length_append, length_opening hid]
    omega
  have hentries := @filterEntries_records (kind :: id ++ beBytes 4 records.length) [] records
    ⟨opening kind id (kind :: id ++ listing records).length records.length, 0, metadata⟩
    (by rw [← hbody]; exact hlimit.trans hsmall)
  rw [← hbody, hfront] at hentries
  rw [filterDirectory]
  simp only [drop_frame, hword]
  rw [if_neg hlong, htake]
  constructor
  · intro hall
    rw [hentries.1 hall, foldl_keep]
    dsimp only
    rw [Nat.zero_add]
    have hkept := length_flatMap_filter_le records
    have hwhole : (kind :: id ++ listing records).length =
        9 + (records.flatMap NameRecord.bytes).length := by
      rw [hbody, List.append_nil, List.length_append, hfront]
    by_cases hskip : metadata.skippedCount +
        (records.filter fun record => !record.isUtf8).length = 0
    · -- Nothing was skipped, so the packet is passed on as it came.
      have hnone : (records.filter fun record => !record.isUtf8).length = 0 :=
        (Nat.add_eq_zero_iff.mp hskip).2
      have hsame : records.filter NameRecord.isUtf8 = records := by
        have hcounts := length_filter_isUtf8 records
        rw [hnone, Nat.zero_add] at hcounts
        exact List.filter_eq_self.mpr (List.length_filter_eq_length_iff.mp hcounts)
      rw [refit, if_neg (not_not.mpr hskip), hsame]
      rfl
    · rw [refit_keep _ hid hskip]
      · rfl
      · have hmax : maxPacket + 4 < 2 ^ 32 := by decide
        omega
  · intro hsome
    rw [hentries.2 hsome]

end Listings

/-! ## Admitted responses -/

/-- What the guard does with a response: `result` goes to the decoder, `later` are the requests
that are pending afterwards. -/
inductive Admitted (kind : UInt8) (id payload : Bytes) (pending : Table ℕ ResponseMetadata) :
    Except FrameError (Bytes × Option ResponseMetadata) → Table ℕ ResponseMetadata → Prop
  | version : kind.toNat = 2 →
      Admitted kind id payload pending (.ok (frame (kind :: id ++ payload), none)) pending
  | unknown : kind.toNat ≠ 2 → pending.lookup (beValue id) = none →
      Admitted kind id payload pending (.error unknownId) pending
  | status {metadata : ResponseMetadata} {code rest : Bytes} : kind.toNat = 101 →
      pending.lookup (beValue id) = some metadata → payload = code ++ rest → code.length = 4 →
      Admitted kind id payload pending
        (.ok (frame (kind :: id ++ (decoderStatus code ++ rest)),
          some { metadata with status := some (beValue code) })) (pending.erase (beValue id))
  | names {metadata : ResponseMetadata} {records : List NameRecord} : kind.toNat = 104 →
      pending.lookup (beValue id) = some metadata → metadata.directory = true →
      payload = listing records → (∀ record ∈ records, record.Admissible) →
      Framed (frame (kind :: id ++ listing (records.filter NameRecord.isUtf8))) →
      (skipped metadata records).skippedCount + (records.filter NameRecord.isUtf8).length =
        metadata.skippedCount + records.length →
      Admitted kind id payload pending
        (.ok (frame (kind :: id ++ listing (records.filter NameRecord.isUtf8)),
          some (skipped metadata records))) (pending.erase (beValue id))
  | refused {metadata : ResponseMetadata} {records : List NameRecord} : kind.toNat = 104 →
      pending.lookup (beValue id) = some metadata → metadata.directory = true →
      payload = listing records → (∃ record ∈ records, ¬record.Admissible) →
      Admitted kind id payload pending (.error invalid) (pending.erase (beValue id))
  | other {metadata : ResponseMetadata} : kind.toNat ≠ 2 → kind.toNat ≠ 101 →
      ¬(kind.toNat = 104 ∧ metadata.directory = true) →
      pending.lookup (beValue id) = some metadata →
      Admitted kind id payload pending
        (.ok (frame (kind :: id ++ payload), some metadata)) (pending.erase (beValue id))

/-- The filtered listing is accepted again. -/
theorem framed_filter {kind : UInt8} {id : Bytes} {records : List NameRecord}
    (hkind : kind.toNat = 104) (hid : id.length = 4) (hcount : records.length < 2 ^ 32)
    (hlimit : (kind :: id ++ listing records).length ≤ maxPacket) :
    Framed (frame (kind :: id ++ listing (records.filter NameRecord.isUtf8))) := by
  have hkept := length_flatMap_filter_le records
  have hfewer := List.length_filter_le NameRecord.isUtf8 records
  have hlength : ∀ records : List NameRecord, (kind :: id ++ listing records).length =
      9 + (records.flatMap NameRecord.bytes).length := by
    intro records
    rw [List.length_append, List.length_cons, hid, listing, List.length_append, length_beBytes]
    omega
  have hbound : (kind :: id ++ listing (records.filter NameRecord.isUtf8)).length ≤
      maxPacket := by
    rw [hlength] at hlimit ⊢
    omega
  have hsmall : maxPacket ≤ usizeMax := by decide
  rw [framed_frame]
  refine ⟨⟨?_, hbound⟩, ?_⟩
  · rw [hlength]
    omega
  · exact validatePacket_listing hkind hid (by omega) (hbound.trans hsmall)

theorem admitResponse_admitted {kind : UInt8} {id payload : Bytes} (hid : id.length = 4)
    (hframed : Framed (frame (kind :: id ++ payload))) (pending : Table ℕ ResponseMetadata) :
    ∃ result later, admitResponse (frame (kind :: id ++ payload)) pending =
      some (result, later) ∧ Admitted kind id payload pending result later := by
  by_cases hversion : kind.toNat = 2
  · exact ⟨_, _, admitResponse_version hversion, .version hversion⟩
  · cases hpending : pending.lookup (beValue id) with
    | none => exact ⟨_, _, admitResponse_unknown hid hversion hpending,
        .unknown hversion hpending⟩
    | some metadata =>
        by_cases hstatus : kind.toNat = 101
        · have hpayload := framed_payload hframed hid (by rw [hstatus]; decide)
          rw [hstatus] at hpayload
          rcases hpayload with ⟨code, x, y, rfl, hcode, -, -⟩
          exact ⟨_, _, admitResponse_status hid hcode hstatus hpending,
            .status hstatus hpending rfl hcode⟩
        · by_cases hnames : kind.toNat = 104 ∧ metadata.directory = true
          · have hpayload := framed_payload hframed hid (by rw [hnames.1]; decide)
            rw [hnames.1] at hpayload
            rcases hpayload with ⟨records, hcount, rfl, -⟩
            have hlimit := (framed_frame.mp hframed).1.2
            have hfilter := @filterDirectory_listing kind id records metadata hid hcount hlimit
            have hallow : admitResponse (frame (kind :: id ++ listing records)) pending =
                (filterDirectory (frame (kind :: id ++ listing records)) metadata).map
                  fun result => (result.map fun result => (result.1, some result.2),
                    pending.erase (beValue id)) := by
              rw [admitResponse, frame_kind, Option.bind_eq_bind, Option.bind_some,
                if_neg hversion, frame_id hid, Option.bind_eq_bind, Option.bind_some, hpending]
              dsimp only
              rw [if_neg hstatus, if_pos hnames, Option.map_eq_bind]
              rfl
            by_cases hall : ∀ record ∈ records, record.Admissible
            · rw [hfilter.1 hall] at hallow
              refine ⟨_, _, hallow, .names hnames.1 hpending hnames.2 rfl hall
                (framed_filter hnames.1 hid hcount hlimit) ?_⟩
              rw [skipped, Nat.add_assoc, length_filter_isUtf8]
            · have hsome : ∃ record ∈ records, ¬record.Admissible := by
                simpa only [not_forall, exists_prop] using hall
              rw [hfilter.2 hsome] at hallow
              exact ⟨_, _, hallow, .refused hnames.1 hpending hnames.2 rfl hsome⟩
          · exact ⟨_, _, admitResponse_other hid hversion hstatus hnames hpending,
              .other hversion hstatus hnames hpending⟩

/-! ## Histories -/

/-- The pending requests over a session, with the packets that were queued and the ids that
responses took from the pending requests. Requests are also forgotten, when they are dropped. -/
inductive History : Table ℕ ResponseMetadata → List Bytes → List ℕ → Prop
  | start : History ∅ [] []
  | push {pending pending' : Table ℕ ResponseMetadata} {sent : List Bytes} {answered : List ℕ}
      {bytes : Bytes} {building : Option ResponseMetadata} : History pending sent answered →
      push bytes building pending = some pending' → History pending' (bytes :: sent) answered
  | forget {pending : Table ℕ ResponseMetadata} {sent : List Bytes} {answered : List ℕ}
      (id : ℕ) : History pending sent answered → History (pending.erase id) sent answered
  | accept {pending pending' : Table ℕ ResponseMetadata} {sent : List Bytes} {answered : List ℕ}
      {kind : UInt8} {id payload : Bytes}
      {result : Except FrameError (Bytes × Option ResponseMetadata)} :
      History pending sent answered → id.length = 4 → Framed (frame (kind :: id ++ payload)) →
      admitResponse (frame (kind :: id ++ payload)) pending = some (result, pending') →
      History pending' sent ((pending.keys.filter fun id => id ∉ pending') ++ answered)

/-- A queued packet makes at most its own id pending. -/
theorem push_cases {bytes : Bytes} {building : Option ResponseMetadata}
    {pending pending' : Table ℕ ResponseMetadata} (h : push bytes building pending = some pending') :
    pending' = pending ∨
      ∃ id metadata, wordAt bytes 5 = some id ∧ pending' = pending.insert id metadata := by
  rw [push] at h
  by_cases hlong : 9 ≤ bytes.length
  · rw [if_pos hlong] at h
    rcases Option.bind_eq_some_iff.mp h with ⟨kind, -, hrest⟩
    by_cases hinit : kind.toNat ≠ 1
    · rw [if_pos hinit] at hrest
      rcases Option.bind_eq_some_iff.mp hrest with ⟨id, hid, hpending⟩
      cases building with
      | none => exact .inl (Option.some.inj hpending).symm
      | some metadata => exact .inr ⟨id, metadata, hid, (Option.some.inj hpending).symm⟩
    · rw [if_neg hinit] at hrest
      exact .inl (Option.some.inj hrest).symm
  · rw [if_neg hlong] at h
    exact .inl (Option.some.inj h).symm

theorem Admitted.later_eq {kind : UInt8} {id payload : Bytes}
    {pending later : Table ℕ ResponseMetadata}
    {result : Except FrameError (Bytes × Option ResponseMetadata)}
    (h : Admitted kind id payload pending result later) :
    later = pending ∨ later = pending.erase (beValue id) := by
  cases h with
  | version => exact .inl rfl
  | unknown => exact .inl rfl
  | status => exact .inr rfl
  | names => exact .inr rfl
  | refused => exact .inr rfl
  | other => exact .inr rfl

/-- An id is taken at most as often as it was queued, and the ids that are pending were queued once
more than they were taken. -/
theorem History.count_le {pending : Table ℕ ResponseMetadata} {sent : List Bytes}
    {answered : List ℕ} (h : History pending sent answered) (id : ℕ) :
    answered.count id + (if id ∈ pending then 1 else 0) ≤
      sent.countP fun bytes => wordAt bytes 5 = some id := by
  induction h with
  | start => exact Nat.le_refl 0
  | @push pending pending' sent answered bytes building _ hpush ih =>
      rw [List.countP_cons]
      rcases push_cases hpush with rfl | ⟨added, metadata, hid, rfl⟩
      · exact ih.trans (Nat.le_add_right _ _)
      · by_cases hsame : id = added
        · have hqueued : (if decide (wordAt bytes 5 = some id) = true then 1 else 0) = 1 := by
            rw [if_pos]
            rw [hsame]
            exact decide_eq_true hid
          have hpending : (if id ∈ pending.insert added metadata then 1 else 0) ≤ 1 := by
            split
            · exact Nat.le_refl 1
            · exact Nat.zero_le 1
          rw [hqueued]
          omega
        · have hmem : (id ∈ pending.insert added metadata) ↔ id ∈ pending := by
            rw [AList.mem_insert]
            exact or_iff_right hsame
          simp only [hmem]
          exact ih.trans (Nat.le_add_right _ _)
  | @forget pending sent answered dropped _ ih =>
      have hfewer : (if id ∈ pending.erase dropped then 1 else 0) ≤
          if id ∈ pending then 1 else 0 := by
        by_cases hmem : id ∈ pending.erase dropped
        · rw [if_pos hmem, if_pos (AList.mem_erase.mp hmem).2]
        · rw [if_neg hmem]
          exact Nat.zero_le _
      omega
  | @accept pending pending' sent answered kind idBytes payload result _ hid hframed hallow ih =>
      rcases admitResponse_admitted hid hframed pending with ⟨result', later, heq, hadmitted⟩
      rw [heq, Option.some.injEq, Prod.mk.injEq] at hallow
      rcases hallow with ⟨-, rfl⟩
      rw [List.count_append]
      have hnodup : (pending.keys.filter fun id => id ∉ later).Nodup :=
        (AList.keys_nodup pending).filter _
      have htaken : (pending.keys.filter fun id => id ∉ later).count id =
          if id ∈ pending ∧ id ∉ later then 1 else 0 := by
        rw [hnodup.count]
        congr 1
        rw [List.mem_filter, decide_eq_true_eq, ← AList.mem_keys]
      have hkept : id ∈ later → id ∈ pending := by
        intro hlater
        rcases hadmitted.later_eq with rfl | rfl
        · exact hlater
        · exact (AList.mem_erase.mp hlater).2
      have hmoved : (if id ∈ pending ∧ id ∉ later then 1 else 0) + (if id ∈ later then 1 else 0) ≤
          if id ∈ pending then 1 else 0 := by
        by_cases hlater : id ∈ later
        · simp [hlater, hkept hlater]
        · simp [hlater]
      rw [htaken]
      omega

/-! ## The guard -/

/-- What is accepted is made of whole containers, a read never goes out of range, an accepted frame
is passed on by its kind, and over any session an id is answered at most as often as it was
queued. -/
theorem responses_guarded :
    (∀ packet, validatePacket packet = some (.ok ()) → IsPacket packet) ∧
    (∀ stream, (∃ error, readFrame stream = some (.error error)) ∨
      ∃ packet rest, readFrame stream = some (.ok (packet, rest)) ∧ stream = packet ++ rest ∧
        Framed packet) ∧
    (∀ packet pending, Framed packet → ∃ kind id payload result later,
      packet = frame (kind :: id ++ payload) ∧ id.length = 4 ∧
      (kind.toNat ≠ 201 → IsPayload kind.toNat payload) ∧
      admitResponse packet pending = some (result, later) ∧
      Admitted kind id payload pending result later) ∧
    (∀ pending sent answered, History pending sent answered → ∀ id, answered.count id ≤
      sent.countP fun bytes => wordAt bytes 5 = some id) := by
  refine ⟨fun _ => validatePacket_sound, readFrame_cases, ?_, ?_⟩
  · intro packet pending hframed
    rcases hframed.exists_parts with ⟨kind, id, payload, rfl, hid⟩
    rcases admitResponse_admitted hid hframed pending with ⟨result, later, hallow, hadmitted⟩
    exact ⟨kind, id, payload, result, later, rfl, hid, framed_payload hframed hid, hallow,
      hadmitted⟩
  · intro pending sent answered h id
    exact (Nat.le_add_right _ _).trans (h.count_le id)

/-- A listing of the names `a` and `0xff`. -/
def twoNames : Bytes :=
  [104, 0, 0, 0, 7, 0, 0, 0, 2, 0, 0, 0, 1, 97, 0, 0, 0, 0, 0, 0, 0, 0, 0, 0, 0, 1, 255,
    0, 0, 0, 0, 0, 0, 0, 0]

theorem twoNames_guarded :
    validatePacket twoNames = some (.ok ()) ∧ IsPacket twoNames ∧
      ∃ kind id payload result later, frame twoNames = frame (kind :: id ++ payload) ∧
        id.length = 4 ∧ (kind.toNat ≠ 201 → IsPayload kind.toNat payload) ∧
        admitResponse (frame twoNames) (AList.singleton 7 ⟨true, none, 0, 0⟩) =
          some (result, later) ∧
        Admitted kind id payload (AList.singleton 7 ⟨true, none, 0, 0⟩) result later := by
  have haccepted : validatePacket twoNames = some (.ok ()) := rfl
  have hframed : Framed (frame twoNames) := framed_frame.mpr ⟨by decide, haccepted⟩
  exact ⟨haccepted, responses_guarded.1 _ haccepted, responses_guarded.2.2.1 _ _ hframed⟩

/-- A listing of one name without bytes. -/
def emptyName : Bytes :=
  [104, 0, 0, 0, 1, 0, 0, 0, 1, 0, 0, 0, 0, 0, 0, 0, 0, 0, 0, 0, 0]

/-- A listing can be accepted and still be refused for a name. -/
theorem emptyName_refused :
    Framed (frame emptyName) ∧
      admitResponse (frame emptyName) (AList.singleton 1 ⟨true, none, 0, 0⟩) =
        some (.error invalid, ∅) := by
  constructor
  · exact framed_frame.mpr ⟨by decide, rfl⟩
  · rfl

end ObsidianMcp.Sftp
