import ObsidianMcp.Verification.Sftp.Lookup

/-! # The budget of the directory observations

However the observations of a batch went, its counts are those of the listings it holds. -/

namespace ObsidianMcp.Sftp.ReadBatch

open Text

variable {σ : Type} (server : Server σ) {batch : ReadBatch}

/-- The batch after an observation that succeeds or fails, in any state of the server. -/
def afterObservation (batch : ReadBatch) (call : Text × σ) : ReadBatch :=
  match observeDirectory server call.1 (call.2, batch) with
  | .ok _ s => s.2
  | .error _ s => s.2

/-- The batch after a sequence of observations. -/
def observeEach (calls : List (Text × σ)) : ReadBatch :=
  calls.foldl (afterObservation server) {}

/-- The counts are those of the listings and within their limits, and the share of a listing can be
taken out of them. -/
structure Exact (batch : ReadBatch) : Prop where
  entries : batch.entryCount = Table.total (fun _ names => Table.len names) batch.directories
  bytes : batch.nameBytes =
    Table.total (fun parent names => byteLen parent + namesBytes names) batch.directories
  entries_le : batch.entryCount ≤ maxEntries
  bytes_le : batch.nameBytes ≤ maxReadBytes
  entries_covered : ∀ parent previous, batch.directories.lookup parent = some previous →
    Table.len previous ≤ batch.entryCount
  bytes_covered : ∀ parent previous, batch.directories.lookup parent = some previous →
    byteLen parent + namesBytes previous ≤ batch.nameBytes

/-- The share of a listing is part of the counts. -/
theorem Accounted.exact (h : batch.Accounted) : batch.Exact := by
  refine ⟨h.entries, h.bytes, h.entries_le, h.bytes_le, ?_, ?_⟩
  · intro parent previous hlookup
    rw [h.entries]
    exact Table.size_le_total (fun _ names => Table.len names) hlookup
  · intro parent previous hlookup
    rw [h.bytes]
    exact Table.size_le_total (fun parent names => byteLen parent + namesBytes names) hlookup

/-- One more observation, whatever comes of it, reaches a batch. -/
theorem Reached.afterObservation (h : Reached server batch) (call : Text × σ) :
    Reached server (afterObservation server batch call) := by
  unfold ReadBatch.afterObservation
  cases hrun : observeDirectory server call.1 (call.2, batch) with
  | ok result s => exact h.observed hrun
  | error error s => exact h.failed hrun

theorem reached_foldl (h : Reached server batch) (calls : List (Text × σ)) :
    Reached server (calls.foldl (ReadBatch.afterObservation server) batch) := by
  induction calls generalizing batch with
  | nil => exact h
  | cons call calls ih => exact ih (h.afterObservation server call)

/-- After any observations, of any directories and failing at any entry, the budget is exact. -/
theorem observeEach_exact (calls : List (Text × σ)) : (observeEach server calls).Exact :=
  (reached_foldl server .empty calls).accounted.exact

end ObsidianMcp.Sftp.ReadBatch
