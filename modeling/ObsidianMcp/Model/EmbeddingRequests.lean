import ObsidianMcp.Library.JsonText
import ObsidianMcp.Model.EmbeddingDraft
import ObsidianMcp.Model.Serde

/-! # Requests to an embedding backend and their responses -/

namespace ObsidianMcp

open Text

/-! ## Planning -/

structure EmbeddingInputPolicy where
  maxInputTokens : ℕ
  tokenizerFingerprint : Hash

structure EmbeddingRequestLimits where
  maxInputs : ℕ
  maxTotalTokens : ℕ
  maxRequestBytes : ℕ

abbrev TokenCounter := Text → Except VaultError ℕ

/-- A sum, if it is a native word. -/
def usizeAdd (a b : ℕ) (overflow : VaultError) : Except VaultError ℕ :=
  if a + b ≤ usizeMax then .ok (a + b) else .error overflow

def validateInput (text : Text) (policy : EmbeddingInputPolicy) (count : TokenCounter) :
    Except VaultError ℕ :=
  if text = [] then
    .error (.embeddingConfiguration "embedding input cannot be empty".toList)
  else
    match count text with
    | .error error => .error error
    | .ok tokens =>
        if policy.maxInputTokens < tokens then
          .error (.embeddingInputTooLong tokens policy.maxInputTokens)
        else .ok tokens

/-- Measure the exact escaped JSON string. -/
def serializedInputLen (text : Text) : Except VaultError ℕ :=
  if byteLen (JsonText.string text) ≤ usizeMax then .ok (byteLen (JsonText.string text))
  else .error (.embedding ("cannot measure embedding input: ".toList ++
    "serialized embedding input length overflow".toList))

/-- The tokens and the bytes of a request that takes one more input. -/
def nextRequest (policy : EmbeddingInputPolicy) (count : TokenCounter) (text : Text)
    (totalTokens requestBytes accepted : ℕ) : Except VaultError (ℕ × ℕ × ℕ) := do
  let tokens ← validateInput text policy count
  let encodedLen ← serializedInputLen text
  let nextTokens ← usizeAdd totalTokens tokens
    (.embeddingConfiguration "embedding request token count overflow".toList)
  let nextBytes ← usizeAdd requestBytes (encodedLen + if accepted ≠ 0 then 1 else 0)
    (.embeddingConfiguration "embedding request byte count overflow".toList)
  return (tokens, nextTokens, nextBytes)

/-- The loop over the inputs that may be taken. -/
def planFrom (policy : EmbeddingInputPolicy) (limits : EmbeddingRequestLimits)
    (count : TokenCounter) : List Text → ℕ → ℕ → ℕ → Except VaultError ℕ
  | [], _, _, accepted => .ok accepted
  | text :: texts, totalTokens, requestBytes, accepted =>
      match nextRequest policy count text totalTokens requestBytes accepted with
      | .error error => .error error
      | .ok (tokens, nextTokens, nextBytes) =>
          if nextTokens ≤ limits.maxTotalTokens ∧ nextBytes ≤ limits.maxRequestBytes then
            planFrom policy limits count texts nextTokens nextBytes (accepted + 1)
          else if accepted = 0 then
            if limits.maxTotalTokens < nextTokens then
              .error (.semanticResourceLimit "embedding request tokens".toList tokens
                limits.maxTotalTokens)
            else
              .error (.semanticResourceLimit "embedding request bytes".toList nextBytes
                limits.maxRequestBytes)
          else .ok accepted

/-- Number of the supplied inputs that fit into the next single request. -/
def planBatch (texts : List Text) (policy : EmbeddingInputPolicy)
    (limits : EmbeddingRequestLimits) (emptyRequestBytes : ℕ) (count : TokenCounter) :
    Except VaultError ℕ :=
  if texts = [] then .ok 0
  else if limits.maxInputs = 0 ∨ limits.maxTotalTokens = 0 ∨ limits.maxRequestBytes = 0 then
    .error (.embeddingConfiguration "embedding request limits must be positive".toList)
  else planFrom policy limits count (texts.take limits.maxInputs) 0 emptyRequestBytes 0

def validateBatch (texts : List Text) (policy : EmbeddingInputPolicy)
    (limits : EmbeddingRequestLimits) (emptyRequestBytes : ℕ) (count : TokenCounter) :
    Except VaultError Unit :=
  match planBatch texts policy limits emptyRequestBytes count with
  | .error error => .error error
  | .ok accepted =>
      if accepted ≠ texts.length then
        .error (.semanticResourceLimit "embedding request inputs".toList texts.length accepted)
      else .ok ()

/-- The value under a key; `null` where there is none. -/
def Json.index (key : Text) : Json → Json
  | .object fields => (Fields.get key fields).getD .null
  | _ => .null

def Json.isNull : Json → Bool
  | .null => true
  | _ => false

def Json.asArray : Json → Option (List Json)
  | .array items => some items
  | _ => none

def Json.asU64 : Json → Option ℕ
  | .number (.posInt value) => some value
  | _ => none

def Json.asNumber : Json → Option Number
  | .number value => some value
  | _ => none

variable (convert : Number → F32)

def hasIndex (item : Json) : Bool :=
  !(item.index "index".toList).isNull

/-- The input that an item of a response belongs to. -/
def itemIndex (indexedResponse : Bool) (arrayPos : ℕ) (item : Json) : Except VaultError ℕ :=
  if indexedResponse then
    match (item.index "index".toList).asU64 with
    | some raw => .ok raw
    | none =>
        .error (.embedding "embedding response index must be an unsigned integer".toList)
  else .ok arrayPos

def parseValue (value : Json) : Except VaultError F32 :=
  match value.asNumber with
  | none => .error (.embedding "non-numeric value in embedding vector".toList)
  | some number =>
      if (convert number).isFinite then .ok (convert number)
      else .error (.embedding "non-finite value in embedding vector".toList)

def itemVector (item : Json) : Except VaultError (List F32) :=
  match (item.index "embedding".toList).asArray with
  | none => .error (.embedding "missing 'embedding' array in response item".toList)
  | some values => values.mapM (parseValue convert)

def parseItem (indexedResponse : Bool) (expectedCount : ℕ) (arrayPos : ℕ) (item : Json) :
    Except VaultError (ℕ × List F32) :=
  if hasIndex item ≠ indexedResponse then
    .error (.embedding "embedding API returned mixed indexed and unindexed items".toList)
  else
    match itemIndex indexedResponse arrayPos item with
    | .error error => .error error
    | .ok idx =>
        if expectedCount ≤ idx then
          .error (.embedding ("embedding response index ".toList ++ displayNat idx ++
            " is out of range for ".toList ++ displayNat expectedCount ++ " inputs".toList))
        else (itemVector convert item).map fun vec => (idx, vec)

/-- The loop over the items; `arrayPos` is the position of the first. -/
def parseItems (indexedResponse : Bool) (expectedCount : ℕ) :
    ℕ → List Json → Except VaultError (List (ℕ × List F32))
  | _, [] => .ok []
  | arrayPos, item :: items => do
      let parsed ← parseItem convert indexedResponse expectedCount arrayPos item
      let rest ← parseItems indexedResponse expectedCount (arrayPos + 1) items
      return parsed :: rest

/-- Sorted indices count up from zero. -/
def checkContiguous : ℕ → List (ℕ × List F32) → Except VaultError Unit
  | _, [] => .ok ()
  | expected, (actual, _) :: rest =>
      if actual ≠ expected then
        .error (.embedding ("embedding response indices are not unique and contiguous: ".toList ++
          "expected ".toList ++ displayNat expected ++ ", got ".toList ++ displayNat actual))
      else checkContiguous (expected + 1) rest

/-- The vectors in the order of the inputs. -/
def orderVectors (indexedResponse : Bool) (indexed : List (ℕ × List F32)) :
    Except VaultError (List (List F32)) :=
  if indexedResponse then
    let indexed := indexed.mergeSort fun a b => decide (a.1 ≤ b.1)
    (checkContiguous 0 indexed).map fun _ => indexed.map Prod.snd
  else .ok (indexed.map Prod.snd)

/-- Parse an embedding API response into embedding vectors. -/
def parseEmbeddingResponse (resp : Json) (expectedCount : ℕ) :
    Except VaultError (List (List F32)) :=
  match (resp.index "data".toList).asArray with
  | none => .error (.embedding "missing 'data' array in API response".toList)
  | some data =>
      if data.length ≠ expectedCount then
        .error (.embedding ("embedding API returned ".toList ++ displayNat data.length ++
          " vectors for ".toList ++ displayNat expectedCount ++ " inputs".toList))
      else do
        let indexedResponse := data.head?.any hasIndex
        let indexed ← parseItems convert indexedResponse expectedCount 0 data
        orderVectors indexedResponse indexed

end ObsidianMcp
