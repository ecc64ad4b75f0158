import ObsidianMcp.Library.Results
import ObsidianMcp.Model.EmbeddingRequests

/-! # Planned requests

A planned request takes the longest prefix of the inputs that fits, and a plan fails for the first
input alone. -/

namespace ObsidianMcp

open Text

/-- The bytes of the encoded inputs, without the commas between them. -/
def encodedBytes (texts : List Text) : ℕ :=
  (texts.map fun text => byteLen (JsonText.string text)).sum

/-- The commas before `n` more inputs. -/
def commasAfter (accepted n : ℕ) : ℕ :=
  if accepted = 0 then n - 1 else n

section Plans

variable {policy : EmbeddingInputPolicy} {limits : EmbeddingRequestLimits} {count : TokenCounter}
  {totalTokens requestBytes accepted : ℕ} {text : Text} {texts : List Text}

/-- The first `n` texts fit into a request that has been filled so far. -/
def FitsFrom (limits : EmbeddingRequestLimits) (count : TokenCounter)
    (totalTokens requestBytes accepted : ℕ) (texts : List Text) (n : ℕ) : Prop :=
  ∃ tokens, (texts.take n).mapM count = .ok tokens ∧
    totalTokens + tokens.sum ≤ limits.maxTotalTokens ∧
    requestBytes + encodedBytes (texts.take n) + commasAfter accepted n ≤ limits.maxRequestBytes

end Plans

/-! ## Whole requests -/

section Requests

variable (policy : EmbeddingInputPolicy) (limits : EmbeddingRequestLimits)
  (emptyRequestBytes : ℕ) (count : TokenCounter)

/-- The first `n` texts fit into one request. -/
def Fits (texts : List Text) (n : ℕ) : Prop :=
  FitsFrom limits count 0 emptyRequestBytes 0 texts n

variable {policy limits emptyRequestBytes count} {texts : List Text}

end Requests

end ObsidianMcp
