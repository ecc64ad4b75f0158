import ObsidianMcp.Library.Cursor
import ObsidianMcp.Library.Table
import ObsidianMcp.Library.Utf8

/-! # The guard of SFTP responses

Whole bounded frames are admitted before the decoder sees their lengths. Offsets are 64-bit numbers
whose sums are checked; an index or a subtraction out of range ends the run without a result. -/

namespace ObsidianMcp.Sftp

open Text

abbrev Bytes := List UInt8

def maxPacket : ℕ := 256 * 1024

def usizeMax : ℕ := 2 ^ 64 - 1

inductive FrameError where
  | invalidData (message : Text)
  | unexpectedEof
  deriving DecidableEq

def invalid : FrameError :=
  .invalidData "invalid SFTP response container".toList

abbrev Walk (α : Type) := Cursor FrameError α

/-! ## Containers -/

/-- Move over bytes that must be there. -/
def advance (bytes : Bytes) (length : ℕ) : Walk Unit :=
  fun offset =>
    if offset + length ≤ usizeMax ∧ offset + length ≤ bytes.length then
      some (.ok ((), offset + length))
    else some (.error invalid)

def u32At (bytes : Bytes) : Walk ℕ :=
  fun offset =>
    if offset + 4 ≤ usizeMax ∧ offset + 4 ≤ bytes.length then
      some (.ok (beValue ((bytes.drop offset).take 4), offset + 4))
    else some (.error invalid)

def string (bytes : Bytes) : Walk Unit := do
  let length ← u32At bytes
  advance bytes length

/-- The file types that a mode may have. -/
def knownTypes : List ℕ :=
  [0, 0o010000, 0o020000, 0o040000, 0o060000, 0o100000, 0o120000, 0o140000]

/-- The optional field of an attribute block that belongs to a flag. -/
def attrField (flags : ℕ) (field : ℕ × ℕ) (bytes : Bytes) : Walk Unit :=
  if flags &&& field.1 ≠ 0 then
    if field.1 = 4 then do
      let mode ← (u32At bytes).peek
      if mode &&& 0o170000 ∈ knownTypes then advance bytes field.2 else Cursor.fail invalid
    else advance bytes field.2
  else Cursor.ret ()

def attrFields : List (ℕ × ℕ) :=
  [(1, 8), (2, 8), (4, 4), (8, 8)]

def extension (bytes : Bytes) : Walk Unit := do
  string bytes
  string bytes

/-- The extended attributes of a block. -/
def extended (bytes : Bytes) : Walk Unit := do
  let count ← u32At bytes
  let left ← Cursor.remaining bytes
  if left / 8 < count then Cursor.fail invalid else (extension bytes).times count

def attrs (bytes : Bytes) : Walk Unit := do
  let flags ← u32At bytes
  if flags &&& (usizeMax - 0x8000000f) ≠ 0 then Cursor.fail invalid
  else do
    Cursor.each attrFields fun field => attrField flags field bytes
    if flags &&& 0x80000000 ≠ 0 then extended bytes else Cursor.ret ()

/-- An entry of a directory listing. -/
def nameEntry (bytes : Bytes) : Walk Unit := do
  string bytes
  string bytes
  attrs bytes

/-! ## Packets -/

/-- The extensions of a version response, up to the end of the packet. A round takes eight bytes, so
the rounds never outnumber the bytes. -/
def versionExtensions (packet : Bytes) : ℕ → Walk Unit
  | 0 => Cursor.outOfRange
  | rounds + 1 => do
      let offset ← Cursor.position
      if offset < packet.length then do
        extension packet
        versionExtensions packet rounds
      else Cursor.ret ()

def handle (packet : Bytes) : Walk Unit := do
  let length ← (u32At packet).peek
  if length ≤ 256 then string packet else Cursor.fail invalid

def names (packet : Bytes) : Walk Unit := do
  let count ← u32At packet
  let left ← Cursor.remaining packet
  if left / 12 < count then Cursor.fail invalid else (nameEntry packet).times count

def status (packet : Bytes) : Walk Unit := do
  let _ ← u32At packet
  string packet
  string packet

/-- The containers of a response of a kind. -/
def containers (kind : ℕ) (packet : Bytes) : Walk Unit :=
  match kind with
  | 2 => versionExtensions packet (packet.length + 1)
  | 101 => status packet
  | 102 => handle packet
  | 103 => string packet
  | 104 => names packet
  | 105 => attrs packet
  | _ => Cursor.fail invalid

/-- Validate the few variable-length response containers. -/
def validatePacket (packet : Bytes) : Option (Except FrameError Unit) :=
  match packet with
  | [] => none
  | kind :: _ =>
      if kind.toNat = 201 then some (.ok ())
      else
        match containers kind.toNat packet 5 with
        | none => none
        | some (.error error) => some (.error error)
        | some (.ok (_, offset)) =>
            if offset ≠ packet.length then some (.error invalid) else some (.ok ())

/-- Read a frame from a stream; the second part is what is left of the stream. -/
def readFrame (stream : Bytes) : Option (Except FrameError (Bytes × Bytes)) :=
  if stream.length < 4 then some (.error .unexpectedEof)
  else
    let size := beValue (stream.take 4)
    if size < 5 ∨ maxPacket < size then
      some (.error (.invalidData "SFTP frame length is outside supported bounds".toList))
    else if (stream.drop 4).length < size then some (.error .unexpectedEof)
    else
      let body := (stream.drop 4).take size
      match validatePacket body with
      | none => none
      | some (.error error) => some (.error error)
      | some (.ok _) => some (.ok (beBytes 4 size ++ body, (stream.drop 4).drop size))

/-! ## Admission -/

structure ResponseMetadata where
  directory : Bool
  status : Option ℕ
  skippedCount : ℕ
  skippedBytes : ℕ
  deriving DecidableEq

/-- The word at an index of a packet. -/
def wordAt (packet : Bytes) (index : ℕ) : Option ℕ :=
  if index + 4 ≤ packet.length then some (beValue ((packet.drop index).take 4)) else none

/-- Queue a packet; the request that is being built becomes pending under the packet's id. -/
def push (bytes : Bytes) (building : Option ResponseMetadata)
    (pending : Table ℕ ResponseMetadata) : Option (Table ℕ ResponseMetadata) :=
  if 9 ≤ bytes.length then do
    let kind ← bytes[4]?
    if kind.toNat ≠ 1 then
      let id ← wordAt bytes 5
      return (building.map (pending.insert id)).getD pending
    else return pending
  else some pending

/-- Overwrite the word at an index of a packet. -/
def writeWord (packet : Bytes) (index value : ℕ) : Option Bytes :=
  if index + 4 ≤ packet.length then
    some (packet.take index ++ beBytes 4 value ++ packet.drop (index + 4))
  else none

/-- The state of the loop over the entries of a directory response. -/
structure Filtered where
  bytes : Bytes
  accepted : ℕ
  metadata : ResponseMetadata

def filterEntry (body : Bytes) (state : Filtered) : Walk Filtered := do
  let start ← Cursor.position
  string body
  let offset ← Cursor.position
  let filename ← Cursor.slice body (start + 4) offset
  if filename = [] ∨ 0 ∈ filename ∨ 0x2F ∈ filename then Cursor.fail invalid
  else do
    string body
    attrs body
    let stop ← Cursor.position
    let entry ← Cursor.slice body start stop
    if (fromUtf8 filename).isSome then
      Cursor.ret { state with bytes := state.bytes ++ entry, accepted := state.accepted + 1 }
    else
      Cursor.ret { state with
        metadata := { state.metadata with
          skippedCount := state.metadata.skippedCount + 1
          skippedBytes := state.metadata.skippedBytes + filename.length } }

def filterEntries (body : Bytes) : ℕ → Filtered → Walk Filtered
  | 0, state => Cursor.ret state
  | count + 1, state => do
      let state ← filterEntry body state
      filterEntries body count state

/-- The filtered frame, when names were skipped. -/
def refit (packet : Bytes) (state : Filtered) : Option Bytes :=
  if state.metadata.skippedCount ≠ 0 then do
    let filtered ← writeWord state.bytes 9 state.accepted
    let length := filtered.length % 2 ^ 32
    if length < 4 then none else writeWord filtered 0 (length - 4)
  else some packet

/-- Leave the names of a directory response that are UTF-8. -/
def filterDirectory (packet : Bytes) (metadata : ResponseMetadata) :
    Option (Except FrameError (Bytes × ResponseMetadata)) :=
  let body := packet.drop 4
  match u32At body 5 with
  | none => none
  | some (.error error) => some (.error error)
  | some (.ok (count, offset)) =>
      if packet.length < 13 then none
      else
        match filterEntries body count ⟨packet.take 13, 0, metadata⟩ offset with
        | none => none
        | some (.error error) => some (.error error)
        | some (.ok (state, _)) =>
            (refit packet state).map fun packet => .ok (packet, state.metadata)

/-- Keep the meaning of a connection status beside a status that the decoder accepts. -/
def admitStatus (packet : Bytes) (metadata : ResponseMetadata) :
    Option (Bytes × ResponseMetadata) := do
  let status ← wordAt packet 9
  let metadata := { metadata with status := some status }
  if status = 6 ∨ status = 7 then return (← writeWord packet 9 4, metadata)
  else return (packet, metadata)

/-- Admit a response to the decoder. The second part are the requests that are still pending, the
result holds what is known of the answered request. -/
def admitResponse (packet : Bytes) (pending : Table ℕ ResponseMetadata) :
    Option (Except FrameError (Bytes × Option ResponseMetadata) × Table ℕ ResponseMetadata) := do
  let kind ← packet[4]?
  if kind.toNat = 2 then return (.ok (packet, none), pending)
  else
    let id ← wordAt packet 5
    match pending.lookup id with
    | none =>
        return (.error (.invalidData "unknown or duplicate SFTP response ID".toList), pending)
    | some metadata =>
        let pending := pending.erase id
        if kind.toNat = 101 then
          let (packet, metadata) ← admitStatus packet metadata
          return (.ok (packet, some metadata), pending)
        else if kind.toNat = 104 ∧ metadata.directory then
          let result ← filterDirectory packet metadata
          return (result.map fun result => (result.1, some result.2), pending)
        else return (.ok (packet, some metadata), pending)

end ObsidianMcp.Sftp
