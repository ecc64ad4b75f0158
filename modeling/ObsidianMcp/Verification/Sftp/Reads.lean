import ObsidianMcp.Model.SftpReads

/-! # What a bounded read asks for and keeps -/

namespace ObsidianMcp.Sftp

open Text

variable {σ : Type} {reader : Reader σ} {path : Text} {maxBytes : ℕ} {handle : Bytes}

/-- A read request with the data that answered it. -/
structure Exchange where
  offset : ℕ
  length : ℕ
  data : Bytes

/-- The bytes that some exchanges have brought. -/
def received (log : List Exchange) : Bytes :=
  log.flatMap Exchange.data

/-- The exchanges of the rounds of a loop, and what it holds after them. -/
inductive Rounds (reader : Reader σ) (path : Text) (maxBytes : ℕ) (handle : Bytes)
    (first : Buffered) (s : σ) : List Exchange → Buffered → σ → Prop where
  | start : Rounds reader path maxBytes handle first s [] first s
  | next {log : List Exchange} {buffered kept : Buffered} {chunk : Bytes} {t u v : σ}
      (h : Rounds reader path maxBytes handle first s log buffered t)
      (hread : Session.read reader handle buffered.offset (allowance maxBytes buffered) t =
        .ok (some chunk) u)
      (hround : readRound reader path maxBytes handle buffered t = .ok (.inl kept) v) :
      Rounds reader path maxBytes handle first s
        (log ++ [⟨buffered.offset, allowance maxBytes buffered, chunk⟩]) kept v

/-- The permits cover the bytes, up to the whole budget. -/
def Covered (buffered : Buffered) : Prop :=
  kibibytes buffered.bytes.length ≤ buffered.permits

/-- What the loop holds at the start of every round. -/
structure Bounded (maxBytes : ℕ) (log : List Exchange) (buffered : Buffered) : Prop where
  bytes : buffered.bytes = received log
  offset : buffered.offset = buffered.bytes.length
  limit : buffered.bytes.length ≤ maxBytes
  capacity : buffered.bytes.length ≤ isizeMax
  count : log.length ≤ buffered.bytes.length
  covered : Covered buffered

theorem kibibytes_mono {a b : ℕ} (h : a ≤ b) : kibibytes a ≤ kibibytes b := by
  rw [kibibytes, kibibytes]
  omega

theorem covered_of_keepChunk {buffered kept : Buffered} {chunk : Bytes} {s t : σ}
    (h : keepChunk reader path buffered chunk s = .ok kept t) : Covered kept :=
  (kibibytes_mono (le_max_left _ _)).trans (keepChunk_ok h).2.2.2

/-- A chunk is never longer than what is left of the limit, and one byte more. -/
theorem length_add_allowance_le {buffered : Buffered} (h : buffered.bytes.length ≤ maxBytes) :
    buffered.bytes.length + allowance maxBytes buffered ≤ maxBytes + 1 := by
  rw [allowance, saturatingAdd]
  omega

theorem Bounded.allowance_ne_zero {log : List Exchange} {buffered : Buffered}
    (h : Bounded maxBytes log buffered) : allowance maxBytes buffered ≠ 0 := by
  have hlimit := h.limit
  have hcapacity := h.capacity
  rw [allowance, saturatingAdd]
  simp only [isizeMax, usizeMax, chunkBytes] at *
  omega

/-- A round keeps what the server has sent behind what was there. -/
theorem Bounded.next {log : List Exchange} {buffered kept : Buffered} {chunk : Bytes} {t u v : σ}
    (h : Bounded maxBytes log buffered)
    (hread : Session.read reader handle buffered.offset (allowance maxBytes buffered) t =
      .ok (some chunk) u)
    (hround : readRound reader path maxBytes handle buffered t = .ok (.inl kept) v) :
    Bounded maxBytes (log ++ [⟨buffered.offset, allowance maxBytes buffered, chunk⟩]) kept := by
  obtain ⟨-, other, w, hread', hne, -, hkeep, hlimit⟩ := readRound_next hround
  rw [hread, EStateM.Result.ok.injEq, Option.some.injEq] at hread'
  obtain ⟨rfl, rfl⟩ := hread'
  obtain ⟨hbytes, hoffset, hcapacity, -⟩ := keepChunk_ok hkeep
  have hpos := List.length_pos_iff.mpr hne
  have hlength : kept.bytes.length = buffered.bytes.length + chunk.length := by
    rw [hbytes, List.length_append]
  refine ⟨?_, ?_, hlimit, hcapacity, ?_, covered_of_keepChunk hkeep⟩
  · rw [hbytes, h.bytes, received, received, List.flatMap_append]
    simp
  · rw [hoffset, h.offset, hlength]
  · have hcount := h.count
    rw [List.length_append, List.length_singleton]
    omega

theorem Rounds.bounded {permits : ℕ} {log : List Exchange} {buffered : Buffered} {s t : σ}
    (h : Rounds reader path maxBytes handle { permits := permits } s log buffered t) :
    Bounded maxBytes log buffered := by
  induction h with
  | start =>
      refine ⟨rfl, rfl, Nat.zero_le _, Nat.zero_le _, le_rfl, ?_⟩
      simp [Covered, kibibytes]
  | next _ hread hround ih => exact ih.next hread hround

/-- Every request asks for the bytes behind those that have come before. -/
def Consecutive (log : List Exchange) : Prop :=
  ∀ before exchange after, log = before ++ exchange :: after →
    exchange.offset = (received before).length

theorem Rounds.consecutive {permits : ℕ} {log : List Exchange} {buffered : Buffered} {s t : σ}
    (h : Rounds reader path maxBytes handle { permits := permits } s log buffered t) :
    Consecutive log := by
  induction h with
  | start => simp [Consecutive]
  | @next log buffered kept chunk t u v h hread hround ih =>
      intro before exchange after heq
      rcases List.eq_nil_or_concat after with rfl | ⟨rest, last, rfl⟩
      · obtain ⟨rfl, hlast⟩ := List.append_inj' heq rfl
        obtain rfl : _ = exchange := by simpa using hlast
        have hbounded := h.bounded
        rw [← hbounded.bytes]
        exact hbounded.offset
      · have hassoc : before ++ exchange :: rest.concat last =
            (before ++ exchange :: rest) ++ [last] := by simp
        rw [hassoc] at heq
        exact ih before exchange rest (List.append_inj_left' heq rfl)

/-- A loop that returns has come to the end of the file. -/
theorem exists_rounds {first : Buffered} {bytes : Bytes} {s t : σ}
    (h : (readLoop reader path maxBytes handle).run first s = .ok bytes t) :
    ∃ log buffered u, Rounds reader path maxBytes handle first s log buffered u ∧
      Session.read reader handle buffered.offset (allowance maxBytes buffered) u = .ok none t ∧
      bytes = buffered.bytes := by
  obtain ⟨n, buffered, u, hreach, hstop⟩ := Loop.exists_of_run h
  have hrounds : ∀ {n : ℕ} {buffered : Buffered} {u : σ},
      (readLoop reader path maxBytes handle).Reaches first s n buffered u →
        ∃ log, Rounds reader path maxBytes handle first s log buffered u := by
    intro n buffered u hreach
    induction hreach with
    | start => exact ⟨[], .start⟩
    | next _ hround ih =>
        obtain ⟨log, hlog⟩ := ih
        obtain ⟨-, chunk, v, hread, -⟩ := readRound_next hround
        exact ⟨_, hlog.next hread hround⟩
  obtain ⟨log, hlog⟩ := hrounds hreach
  refine ⟨log, buffered, u, hlog, ?_⟩
  change readRound reader path maxBytes handle buffered u = .ok (.inr bytes) t at hstop
  rw [readRound] at hstop
  split_ifs at hstop with hallowed
  · simp at hstop
  · rw [estateM_bind_ok] at hstop
    obtain ⟨answer, v, hread, hstop⟩ := hstop
    cases answer with
    | none =>
        obtain ⟨rfl, rfl⟩ : buffered.bytes = bytes ∧ v = t := by simpa using hstop
        exact ⟨hread, rfl⟩
    | some chunk =>
        simp only at hstop
        split_ifs at hstop
        · simp at hstop
        · rw [estateM_bind_ok] at hstop
          obtain ⟨kept, w, -, hstop⟩ := hstop
          split_ifs at hstop
          · simp at hstop
          · simp at hstop

theorem read_some {offset length : ℕ} {chunk : Bytes} {s t : σ}
    (h : Session.read reader handle offset length s = .ok (some chunk) t) :
    chunk ≠ [] ∧ chunk.length ≤ length := by
  have hchecked : ∀ data, Session.checkedData data length = .ok (some chunk) →
      chunk ≠ [] ∧ chunk.length ≤ length := by
    intro data hdata
    rw [Session.checkedData] at hdata
    split_ifs at hdata with hinvalid
    obtain rfl : data = chunk := by simpa using hdata
    rw [not_or, not_lt] at hinvalid
    exact hinvalid
  rw [Session.read] at h
  split_ifs at h
  · simp at h
  · rw [estateM_bind_ok] at h
    obtain ⟨data, u, -, h⟩ := h
    cases data with
    | eof => simp at h
    | buffer data => exact hchecked data (raise_eq_ok.mp h).1
    | allocatedBox data => exact hchecked data (raise_eq_ok.mp h).1

/-- A note that is returned is what the server has sent before the end of the file. -/
theorem exists_rounds_of_readSource {text : Text} {stat : FileStat} {s t : σ}
    (h : readSourceWithStat reader path maxBytes s = .ok (text, stat) t) :
    ∃ handle permits first log buffered u v,
      Rounds reader path maxBytes handle { permits := permits } first log buffered u ∧
        Session.read reader handle buffered.offset (allowance maxBytes buffered) u = .ok none v ∧
        utf8Bytes text = buffered.bytes := by
  rw [readSourceWithStat] at h
  simp only [estateM_bind_ok] at h
  obtain ⟨-, s₁, -, handle, s₂, -, result, s₃, hresult, closed, s₄, -, h⟩ := h
  obtain ⟨content, rfl, rfl⟩ : ∃ content, result = .ok content ∧ content = (text, stat) := by
    cases result with
    | error error => simp at h
    | ok content =>
        cases closed with
        | error error => simp at h
        | ok => exact ⟨content, rfl, by simpa using (EStateM.Result.ok.inj h).1⟩
  have hcontent := attempt_eq_result.mp hresult
  rw [readContent] at hcontent
  simp only [estateM_bind_ok] at hcontent
  obtain ⟨attrs, s₅, -, -, s₆, -, hcontent⟩ := hcontent
  split_ifs at hcontent with hsize
  · simp at hcontent
  · simp only [estateM_bind_ok] at hcontent
    obtain ⟨-, s₇, -, -, s₈, -, bytes, s₉, hrun, hcontent⟩ := hcontent
    obtain ⟨log, buffered, u, hrounds, hread, rfl⟩ := exists_rounds hrun
    refine ⟨handle, _, _, log, buffered, u, s₉, hrounds, hread, ?_⟩
    cases htext : fromUtf8 buffered.bytes with
    | none => simp [htext] at hcontent
    | some content =>
        simp only [htext, estateM_bind_ok, estateM_pure, EStateM.Result.ok.injEq,
          Prod.mk.injEq] at hcontent
        obtain ⟨attrs', s₁₀, -, stat', s₁₁, -, ⟨rfl, -⟩, -⟩ := hcontent
        exact (fromUtf8_eq_some.mp htext).symm

/-- What holds whenever the loop is about to read. -/
structure ReadBounds (reader : Reader σ) (path : Text) (maxBytes : ℕ) (handle : Bytes)
    (log : List Exchange) (buffered : Buffered) (t : σ) : Prop where
  reads : log.length + 1 ≤ maxBytes + 2
  bytes : buffered.bytes = received log
  size : buffered.bytes.length ≤ maxBytes + 1
  consecutive : Consecutive log
  offset : buffered.offset = (received log).length
  allowed : allowance maxBytes buffered ≠ 0
  covered : Covered buffered
  kept : ∀ chunk u kept v,
    Session.read reader handle buffered.offset (allowance maxBytes buffered) t =
      .ok (some chunk) u →
    keepChunk reader path buffered chunk u = .ok kept v →
    kept.bytes = received log ++ chunk ∧ kept.bytes.length ≤ maxBytes + 1 ∧ Covered kept

/-- The loop reads consecutive parts of the file, keeps at most a byte more than the limit under
permits that cover it, and a note that is returned is exactly what was sent. -/
theorem remote_read_bounded (reader : Reader σ) (path : Text) (maxBytes : ℕ) :
    (∀ (handle : Bytes) (permits : ℕ) (s t : σ) (log : List Exchange) (buffered : Buffered),
      Rounds reader path maxBytes handle { permits := permits } s log buffered t →
      ReadBounds reader path maxBytes handle log buffered t) ∧
    (∀ (text : Text) (stat : FileStat) (s t : σ),
      readSourceWithStat reader path maxBytes s = .ok (text, stat) t →
      byteLen text ≤ maxBytes ∧ ∃ handle permits first log buffered u v,
        Rounds reader path maxBytes handle { permits := permits } first log buffered u ∧
          Session.read reader handle buffered.offset (allowance maxBytes buffered) u =
            .ok none v ∧
          utf8Bytes text = received log) := by
  refine ⟨?_, ?_⟩
  · intro handle permits s t log buffered hrounds
    have h := hrounds.bounded
    have hcount := h.count
    have hlimit := h.limit
    refine {
      reads := by omega
      bytes := h.bytes
      size := by omega
      consecutive := hrounds.consecutive
      offset := h.bytes ▸ h.offset
      allowed := h.allowance_ne_zero
      covered := h.covered
      kept := fun chunk u kept v hread hkeep => ?_ }
    have hbytes := (keepChunk_ok hkeep).1
    refine ⟨h.bytes ▸ hbytes, ?_, covered_of_keepChunk hkeep⟩
    have hchunk := (read_some hread).2
    have hallowed := length_add_allowance_le hlimit
    rw [hbytes, List.length_append]
    omega
  · intro text stat s t hrun
    obtain ⟨handle, permits, first, log, buffered, u, v, hrounds, hread, hbytes⟩ :=
      exists_rounds_of_readSource hrun
    have h := hrounds.bounded
    refine ⟨?_, handle, permits, first, log, buffered, u, v, hrounds, hread, hbytes.trans h.bytes⟩
    rw [← length_utf8Bytes, hbytes]
    exact h.limit

/-- A server that sends a file of two bytes one byte at a time. -/
def slowReader : Reader Unit where
  openRead _ := fun s => .ok [] s
  fstat _ := fun s => .ok ⟨some .regularFile, some 2, none⟩ s
  read _ offset _ := fun s =>
    .ok (match [0x68, 0x69].drop offset with
      | [] => .eof
      | byte :: _ => .buffer [byte]) s
  close _ := fun s => .ok () s
  enter := fun s => .ok () s
  acquireMany _ := fun s => .ok () s
  tryAcquireMany _ := fun s => .ok () s
  allocate _ := fun s => .ok () s
  utf8Error _ := []

theorem readSource_slowReader :
    readSourceWithStat slowReader "note.md".toList 2 () = .ok ("hi".toList, ⟨2, none⟩) () := by
  have hfirst : (readLoop slowReader "note.md".toList 2 []).round { permits := 1 } () =
      .ok (.inl ⟨[0x68], 1, 1⟩) () := rfl
  have hsecond : (readLoop slowReader "note.md".toList 2 []).round ⟨[0x68], 1, 1⟩ () =
      .ok (.inl ⟨[0x68, 0x69], 2, 1⟩) () := rfl
  have hend : (readLoop slowReader "note.md".toList 2 []).round ⟨[0x68, 0x69], 2, 1⟩ () =
      .ok (.inr [0x68, 0x69]) () := rfl
  have hloop : (readLoop slowReader "note.md".toList 2 []).run { permits := 1 } () =
      .ok [0x68, 0x69] () := by
    rw [Loop.run_of_next hfirst, Loop.run_of_next hsecond, Loop.run_of_stop hend]
  have htext : fromUtf8 [0x68, 0x69] = some "hi".toList := fromUtf8_utf8Bytes "hi".toList
  have hcontent : readContent slowReader "note.md".toList 2 [] () =
      .ok ("hi".toList, ⟨2, none⟩) () := by
    rw [readContent, estateM_bind_ok]
    refine ⟨⟨some .regularFile, some 2, none⟩, (), rfl, ?_⟩
    rw [estateM_bind_ok]
    refine ⟨(), (), rfl, ?_⟩
    rw [if_neg (by decide)]
    simp only [estateM_bind_ok]
    refine ⟨(), (), rfl, (), (), rfl, [0x68, 0x69], (), hloop, ?_⟩
    rw [htext]
    rfl
  rw [readSourceWithStat]
  simp only [estateM_bind_ok]
  exact ⟨(), (), rfl, [], (), rfl, .ok _, (), attempt_eq_result.mpr hcontent, .ok (), (), rfl, rfl⟩

theorem slow_note_bounded : byteLen "hi".toList ≤ 2 ∧ ∃ log : List Exchange,
    utf8Bytes "hi".toList = received log := by
  obtain ⟨hlength, handle, permits, first, log, buffered, u, v, -, -, hbytes⟩ :=
    (remote_read_bounded slowReader "note.md".toList 2).2 _ _ _ _ readSource_slowReader
  exact ⟨hlength, log, hbytes⟩

end ObsidianMcp.Sftp
