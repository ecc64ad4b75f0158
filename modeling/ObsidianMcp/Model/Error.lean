import ObsidianMcp.Library.Text

/-! # Errors -/

namespace ObsidianMcp

inductive StorageErrorKind where
  | unavailable
  | permissionDenied
  | unsupported
  | protocol
  | remoteFailure
  | projectionFailure
  | invalidSource
  | conflict
  | identityChanged
  | warming
  | resourceLimit
  deriving DecidableEq

/-- The destination outcome, independently of local index publication. -/
inductive MutationOutcome where
  | notDispatched
  | notCommitted
  | committed
  | unknown
  deriving DecidableEq

def MutationOutcome.debug : MutationOutcome → Text
  | .notDispatched => "NotDispatched".toList
  | .notCommitted => "NotCommitted".toList
  | .committed => "Committed".toList
  | .unknown => "Unknown".toList

/-- The kinds of I/O error that are told apart. -/
inductive IoErrorKind where
  | interrupted
  | wouldBlock
  | timedOut
  | resourceBusy
  | connectionAborted
  | connectionReset
  | notConnected
  | brokenPipe
  | notFound
  | notADirectory
  | other
  deriving DecidableEq

structure IoError where
  kind : IoErrorKind
  rawOsError : Option ℕ
  message : Text
  deriving DecidableEq

/-- The vault errors raised by the modelled operations. Times are in milliseconds. -/
inductive VaultError where
  | storage (operation path : Text) (kind : StorageErrorKind) (message : Text)
      (outcome : MutationOutcome)
  | embeddingRequest (message : Text) (retryable : Bool) (retryAfter : Option ℕ)
  | io (error : IoError)
  | other (message : Text)
  | noteNotFound (path : Text)
  | directoryNotFound (path : Text)
  | invalidPath (message : Text)
  | semanticResourceLimit (resource : Text) (actual limit : ℕ)
  | embeddingInputTooLong (tokens maxTokens : ℕ)
  | embeddingCacheIncompatible (message : Text)
  | frontmatterParse (path source : Text)
  | patchTargetNotFound (path targetType target : Text)
  | outsideVault (path : Text)
  | embedding (message : Text)
  | daemonProtocol (message : Text)
  | daemonUnavailable (message : Text)
  | daemonRpc (code : ℤ) (message : Text)
  | daemonTimeout (operation : Text) (timeoutMs : ℕ)
  | daemonBootstrap (message : Text)
  | invalidSourceRange (message : Text)
  | sourceChanged (path expectedRevision currentRevision : Text)
  | embeddingConfiguration (message : Text)
  | invalidDateFormat (format source : Text)
  deriving DecidableEq

/-- The decimal spelling of a number. -/
def displayNat (n : ℕ) : Text :=
  Nat.toDigits 10 n

def displayInt : ℤ → Text
  | .ofNat n => displayNat n
  | .negSucc n => '-' :: displayNat (n + 1)

def VaultError.display : VaultError → Text
  | .storage operation path _ message outcome =>
      "Storage ".toList ++ operation ++ " failed for ".toList ++ path ++ ": ".toList ++ message ++
        " (outcome: ".toList ++ outcome.debug ++ ")".toList
  | .embeddingRequest message _ _ => "Embedding request failed: ".toList ++ message
  | .io error => "IO error: ".toList ++ error.message
  | .other message => message
  | .noteNotFound path => "Note not found: ".toList ++ path
  | .directoryNotFound path => "Directory not found: ".toList ++ path
  | .invalidPath message => "Invalid path: ".toList ++ message
  | .semanticResourceLimit resource actual limit =>
      "Semantic resource limit exceeded for ".toList ++ resource ++ ": ".toList ++
        displayNat actual ++ " (maximum ".toList ++ displayNat limit ++ ")".toList
  | .embeddingInputTooLong tokens maxTokens =>
      "Embedding input has ".toList ++ displayNat tokens ++ " tokens (maximum ".toList ++
        displayNat maxTokens ++ ")".toList
  | .embeddingCacheIncompatible message =>
      "Embedding cache requires rebuilding: ".toList ++ message
  | .frontmatterParse path source =>
      "Frontmatter parse error in ".toList ++ path ++ ": ".toList ++ source
  | .patchTargetNotFound path targetType target =>
      "Patch target not found: ".toList ++ targetType ++ " '".toList ++ target ++
        "' in ".toList ++ path
  | .outsideVault path =>
      "Invalid vault path: ".toList ++ path ++ " is outside vault root".toList
  | .embedding message => "Embedding error: ".toList ++ message
  | .daemonProtocol message => "Daemon protocol error: ".toList ++ message
  | .daemonUnavailable message => "Daemon unavailable: ".toList ++ message
  | .daemonRpc code message =>
      "Daemon RPC error (".toList ++ displayInt code ++ "): ".toList ++ message
  | .daemonTimeout operation timeoutMs =>
      "Daemon request timed out after ".toList ++ displayNat timeoutMs ++ "ms: ".toList ++ operation
  | .daemonBootstrap message => "Daemon bootstrap error: ".toList ++ message
  | .invalidSourceRange message => "Invalid source range: ".toList ++ message
  | .sourceChanged path _ _ =>
      "Note changed since the requested revision: ".toList ++ path
  | .embeddingConfiguration message => "Embedding configuration error: ".toList ++ message
  | .invalidDateFormat format source =>
      "Invalid date format '".toList ++ format ++ "' for a date without a time: ".toList ++ source

def VaultError.isNotFound : VaultError → Bool
  | .noteNotFound _ | .directoryNotFound _ => true
  | .io error => error.kind = .notFound
  | _ => false

end ObsidianMcp
