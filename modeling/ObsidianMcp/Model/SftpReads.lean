import ObsidianMcp.Model.SftpDirectories

/-! # Bounded reads of remote notes

Besides the server a read depends on the shared budgets and on the allocator; what they answer comes
from the same state. -/

namespace ObsidianMcp.Sftp

open Text

/-- An answer to a read request. -/
inductive Data where
  | eof
  | buffer (data : Bytes)
  | allocatedBox (data : Bytes)

/-- What answers during a read. -/
structure Reader (σ : Type) where
  openRead : Text → EStateM RequestError σ Bytes
  fstat : Bytes → EStateM RequestError σ FileAttrs
  read : Bytes → ℕ → ℕ → EStateM RequestError σ Data
  close : Bytes → EStateM RequestError σ Unit
  /-- Wait for admission as a reader. -/
  enter : EStateM Unit σ Unit
  /-- Wait for permits of the shared memory budget. -/
  acquireMany : ℕ → EStateM Unit σ Unit
  /-- Take permits of the shared memory budget if they are free. -/
  tryAcquireMany : ℕ → EStateM Unit σ Unit
  /-- Allocate room for some bytes. -/
  allocate : ℕ → EStateM Text σ Unit
  /-- How the reason reads why some bytes are not a text. -/
  utf8Error : Bytes → Text

structure FileStat where
  size : ℕ
  modified : Option ℕ

variable {σ : Type} (reader : Reader σ) (path : Text) (maxBytes : ℕ)

def chunkBytes : ℕ := 32 * 1024

/-- The largest size of an allocation. -/
def isizeMax : ℕ := 2 ^ 63 - 1

def saturatingAdd (a b : ℕ) : ℕ :=
  min (a + b) usizeMax

/-- The size of some bytes in KiB, up to the whole budget. -/
def kibibytes (size : ℕ) : ℕ :=
  min ((size + 1023) / 1024) (maxReadBytes / 1024)

def limitError (actual : ℕ) : VaultError :=
  .semanticResourceLimit ("source bytes for ".toList ++ path) actual maxBytes

/-- A step without a request, whose failure is an error of the read. -/
def localStep {ε α : Type} (error : ε → VaultError) (x : EStateM ε σ α) :
    EStateM VaultError σ α := fun s =>
  match x s with
  | .ok a t => .ok a t
  | .error e t => .error (error e) t

/-- Room for more bytes behind some bytes. -/
def tryReserveExact (length additional : ℕ) : EStateM VaultError σ Unit :=
  if isizeMax < length + additional then
    throw (storageError "read".toList path .resourceLimit
      ("memory allocation failed because the computed capacity exceeded the collection's " ++
        "maximum").toList)
  else
    localStep (fun text => storageError "read".toList path .resourceLimit text)
      (reader.allocate additional)

namespace Session

/-- The data of an answer must be some of what was asked for. -/
def checkedData (data : Bytes) (requested : ℕ) : Except VaultError (Option Bytes) :=
  if data = [] ∨ requested < data.length then
    .error (storageError "read".toList [] .protocol
      "SFTP data length does not satisfy the requested read".toList)
  else .ok (some data)

def read (handle : Bytes) (offset length : ℕ) : EStateM VaultError σ (Option Bytes) :=
  if chunkBytes < length then
    throw (storageError "read".toList [] .resourceLimit "SFTP read chunk exceeds 32 KiB".toList)
  else do
    let data ← request "read".toList [] (reader.read handle offset length)
    match data with
    | .eof => return none
    | .buffer data => raise (checkedData data length)
    | .allocatedBox data => raise (checkedData data length)

def fstat (handle : Bytes) : EStateM VaultError σ FileAttrs :=
  request "fstat".toList [] (reader.fstat handle)

end Session

def requireType (attrs : FileAttrs) (expected : FileType) : Except VaultError Unit :=
  match attrs.fileType with
  | some actual =>
      if actual = expected then .ok ()
      else .error (.invalidPath ("unexpected remote file type: ".toList ++ path))
  | none =>
      .error (storageError "stat".toList path .unsupported "server omitted the file type".toList)

def fileStat (attrs : FileAttrs) : Except VaultError FileStat :=
  match attrs.size with
  | some size => .ok ⟨size, attrs.modified⟩
  | none =>
      .error (storageError "stat".toList path .unsupported "server omitted the file size".toList)

/-! ## The loop -/

/-- What the loop holds. -/
structure Buffered where
  bytes : Bytes := []
  offset : ℕ := 0
  permits : ℕ

/-- How many bytes the next read may ask for. -/
def allowance (buffered : Buffered) : ℕ :=
  min (saturatingAdd maxBytes 1 - buffered.bytes.length) chunkBytes

/-- Take more permits if the bytes need them; the result are the permits that are held. -/
def growReservation (permits needed : ℕ) : EStateM VaultError σ ℕ :=
  if permits < needed then do
    localStep (fun _ => storageError "read".toList path .resourceLimit
      "source content memory budget is in use".toList) (reader.tryAcquireMany (needed - permits))
    return needed
  else return permits

/-- Put a chunk behind the bytes. -/
def keepChunk (buffered : Buffered) (chunk : Bytes) : EStateM VaultError σ Buffered := do
  let permits ← growReservation reader path buffered.permits
    (kibibytes (max (buffered.bytes.length + chunk.length) 1))
  tryReserveExact reader path buffered.bytes.length chunk.length
  return ⟨buffered.bytes ++ chunk, buffered.offset + chunk.length, permits⟩

/-- A round of the loop; the end of the file ends it. -/
def readRound (handle : Bytes) (buffered : Buffered) : EStateM VaultError σ (Buffered ⊕ Bytes) :=
  let allowed := allowance maxBytes buffered
  if allowed = 0 then throw (limitError path maxBytes buffered.bytes.length)
  else do
    let answer ← Session.read reader handle buffered.offset allowed
    match answer with
    | none => return .inr buffered.bytes
    | some chunk =>
        if chunk = [] ∨ allowed < chunk.length then
          throw (storageError "read".toList path .protocol "invalid SFTP read length".toList)
        else do
          let kept ← keepChunk reader path buffered chunk
          if maxBytes < kept.bytes.length then
            throw (limitError path maxBytes kept.bytes.length)
          else return .inl kept

variable {reader path maxBytes}

theorem localStep_ok {ε α : Type} {error : ε → VaultError} {x : EStateM ε σ α} {a : α} {s t : σ} :
    localStep error x s = .ok a t ↔ x s = .ok a t := by
  rw [localStep]
  cases x s <;> simp

theorem keepChunk_ok {buffered kept : Buffered} {chunk : Bytes} {s t : σ}
    (h : keepChunk reader path buffered chunk s = .ok kept t) :
    kept.bytes = buffered.bytes ++ chunk ∧ kept.offset = buffered.offset + chunk.length ∧
      kept.bytes.length ≤ isizeMax ∧ kibibytes (max kept.bytes.length 1) ≤ kept.permits := by
  rw [keepChunk, estateM_bind_ok] at h
  obtain ⟨permits, u, hgrow, h⟩ := h
  rw [estateM_bind_ok] at h
  obtain ⟨_, v, hreserve, h⟩ := h
  obtain ⟨rfl, -⟩ : _ = kept ∧ v = t := by simpa using h
  refine ⟨rfl, rfl, ?_, ?_⟩
  · unfold tryReserveExact at hreserve
    split_ifs at hreserve with hcapacity
    · simp at hreserve
    · simpa using hcapacity
  · rw [growReservation] at hgrow
    rw [List.length_append]
    split_ifs at hgrow with hfew
    · rw [estateM_bind_ok] at hgrow
      obtain ⟨_, w, -, hgrow⟩ := hgrow
      obtain ⟨heq, -⟩ : _ = permits ∧ w = u := by simpa using hgrow
      exact heq.le
    · obtain ⟨rfl, -⟩ : buffered.permits = permits ∧ s = u := by simpa using hgrow
      exact not_lt.mp hfew

theorem readRound_next {handle : Bytes} {buffered next : Buffered} {s t : σ}
    (h : readRound reader path maxBytes handle buffered s = .ok (.inl next) t) :
    allowance maxBytes buffered ≠ 0 ∧ ∃ chunk u,
      Session.read reader handle buffered.offset (allowance maxBytes buffered) s =
        .ok (some chunk) u ∧
      chunk ≠ [] ∧ chunk.length ≤ allowance maxBytes buffered ∧
      keepChunk reader path buffered chunk u = .ok next t ∧ next.bytes.length ≤ maxBytes := by
  rw [readRound] at h
  split_ifs at h with hallowed
  · simp at h
  · rw [estateM_bind_ok] at h
    obtain ⟨answer, u, hread, h⟩ := h
    cases answer with
    | none => simp at h
    | some chunk =>
        simp only at h
        split_ifs at h with hlength
        · simp at h
        · rw [estateM_bind_ok] at h
          obtain ⟨kept, v, hkeep, h⟩ := h
          split_ifs at h with hlimit
          · simp at h
          · obtain ⟨rfl, rfl⟩ : kept = next ∧ v = t := by simpa using h
            rw [not_or, not_lt] at hlength
            exact ⟨hallowed, chunk, u, hread, hlength.1, hlength.2, hkeep, not_lt.mp hlimit⟩

variable (reader path maxBytes)

/-- The loop over the chunks of a file. Every round but the last keeps at least a byte. -/
def readLoop (handle : Bytes) : Loop VaultError σ Buffered Bytes where
  round := readRound reader path maxBytes handle
  measure buffered := isizeMax + 1 - buffered.bytes.length
  decreases := by
    intro buffered s next t h
    obtain ⟨-, chunk, u, -, hne, -, hkeep, -⟩ := readRound_next h
    obtain ⟨hbytes, -, hcapacity, -⟩ := keepChunk_ok hkeep
    have hpos := List.length_pos_iff.mpr hne
    rw [hbytes, List.length_append] at hcapacity ⊢
    omega

/-- How many bytes a read expects. -/
def sizeHint (attrs : FileAttrs) : ℕ :=
  min (attrs.size.getD chunkBytes) (saturatingAdd maxBytes 1)

/-- Read the content of an opened file. -/
def readContent (handle : Bytes) : EStateM VaultError σ (Text × FileStat) := do
  let attrs ← Session.fstat reader handle
  raise (requireType path attrs .regularFile)
  if attrs.size.any fun size => maxBytes < size then
    throw (limitError path maxBytes (min (attrs.size.getD 0) usizeMax))
  else do
    let hint := sizeHint maxBytes attrs
    let permits := kibibytes (max hint 1)
    localStep (fun _ => storageError "read".toList path .unavailable
      "source content admission closed".toList) (reader.acquireMany permits)
    tryReserveExact reader path 0 hint
    let bytes ← (readLoop reader path maxBytes handle).run { permits := permits }
    match fromUtf8 bytes with
    | none => throw (storageError "read".toList path .invalidSource
        ("remote note is not UTF-8: ".toList ++ reader.utf8Error bytes))
    | some content => do
        let attrs ← Session.fstat reader handle
        let stat ← raise (fileStat path attrs)
        return (content, stat)

def readSourceWithStat : EStateM VaultError σ (Text × FileStat) := do
  localStep (fun _ => storageError "read".toList path .unavailable
    "source read admission closed".toList) reader.enter
  let handle ← request "open".toList path (reader.openRead path)
  let result ← attempt (readContent reader path maxBytes handle)
  let closed ← attempt (request "close".toList [] (reader.close handle))
  match result, closed with
  | .error error, _ => throw error
  | .ok _, .error error => throw error
  | .ok content, .ok () => return content

end ObsidianMcp.Sftp
