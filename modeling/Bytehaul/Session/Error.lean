import Mathlib

/-!
# Download errors

`error.rs`: whether a retry may help and how long the server wants it to wait.
-/

namespace Bytehaul.Session

inductive TransportErrorKind
  | connect
  | timeout
  | request
  | body
  | other
  deriving DecidableEq, Repr

inductive IoErrorKind
  | connectionReset
  | connectionAborted
  | timedOut
  | unexpectedEof
  | other
  deriving DecidableEq, Repr

/-- The message of an HTTP status error; `retry-after:N` is read back as a number. -/
inductive StatusMessage
  | retryAfter (secs : Nat)
  | text (message : String)
  deriving DecidableEq, Repr

inductive DownloadError
  | transport (kind : TransportErrorKind) (message : String)
  | io (kind : IoErrorKind)
  | cancelled
  | paused
  | httpStatus (status : Nat) (message : StatusMessage)
  | channelClosed
  | resumeMismatch (message : String)
  | controlFileCorrupted (message : String)
  | retryBudgetExceeded (elapsed limit : Nat)
  | internal (message : String)
  deriving DecidableEq, Repr

namespace DownloadError

def isRetryable : DownloadError → Bool
  | transport kind _ => kind != .other
  | httpStatus status _ => status ∈ [429, 500, 502, 503, 504]
  | io kind => kind != .other
  | _ => false

def retryAfterSecs : DownloadError → Option Nat
  | httpStatus status (.retryAfter secs) =>
    if status = 429 ∨ status = 503 then some secs else none
  | _ => none

def isStop : DownloadError → Bool
  | cancelled | paused => true
  | _ => false

end DownloadError

/-- `session/mod.rs`: what the owner of a download asks of its tasks. -/
inductive StopSignal
  | running
  | cancel
  | pause
  deriving DecidableEq, Repr

def stopSignalError : StopSignal → Option DownloadError
  | .running => none
  | .cancel => some .cancelled
  | .pause => some .paused

end Bytehaul.Session
