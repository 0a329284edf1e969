import Bytehaul.Foundation.OrderedMap
import Bytehaul.Network.IpPolicy

/-!
# The driver's transfers

`network/curl/driver/mod.rs`: what the driver does with one transfer, from the submission
over connect retries to its end.
-/

namespace Bytehaul.Network

open Foundation Session
open Std (TreeMap)

def maxInternalConnectAttempts : Nat := 3
def minConnectSlice : Nat := 2 * 10 ^ 9

abbrev TransferId := Nat

/-- `poolKey` is what `pool_key` makes of the URL and the proxy. -/
structure TransferOptions extends RequestOptions where
  poolKey : PoolKey
  connectTimeout : Nat
  headTimeout : Nat
  candidates : Option CandidateSet
  deriving DecidableEq, Repr

structure CandidateClaim where
  address : IpAddr
  generation : Nat
  attempts : Nat
  deriving DecidableEq, Repr

structure RetryState where
  options : TransferOptions
  attempts : Nat
  maxAttempts : Nat
  deadline : Nat
  deriving DecidableEq, Repr

structure AttemptRecord where
  pool : PoolKey
  claim : CandidateClaim
  outcome : Option AttemptOutcome
  consumed : Option Bool
  sample : Option TransferSample
  deriving DecidableEq, Repr

/-- A transfer in the active map of its pool; `connectTimeout` is what its handle was given. -/
structure ActiveTransfer where
  pool : PoolKey
  head : HeadParser
  connectTimeout : Nat
  candidate : Option CandidateClaim
  retry : Option RetryState

/-- What was sent, and whether the sender was dropped without being used. -/
structure HeadChannel where
  values : List (Except DownloadError ResponseHead)
  dropped : Bool

/-- How a transfer has left the driver; only the first two are counted by the source. -/
inductive Ending
  | completed
  | cancelled
  | refused
  | unattached
  | unretried
  | broken
  | shutDown
  | unwound
  | discarded
  deriving DecidableEq, Repr

/-- The entries of one transfer in the maps of the driver, and how it has left. -/
structure Slot where
  active : Option ActiveTransfer
  attempt : Option AttemptRecord
  head : HeadChannel
  terminal : Option Terminal
  registered : Bool
  ended : Option Ending

/-- `underflow` records that an address was settled that had no reservation. -/
structure Driver (ρ : Type) where
  policy : IpPolicy ρ
  slots : TreeMap TransferId Slot
  completed : Nat
  cancelled : Nat
  underflow : Bool

/-- What libcurl answers when a handle is configured, added and tagged; `none` is success. -/
structure CurlAnswers where
  rejected : Option String
  notAdded : Option String
  notTagged : Option String
  deriving DecidableEq, Repr

structure CurlReport where
  primaryIp : Option IpAddr
  requestBytes : Option Nat
  connectTime : Option Nat
  appconnectTime : Option Nat
  deriving DecidableEq, Repr

abbrev CurlResult := Except (Nat × String) Unit

structure RetryRequest where
  id : TransferId
  pool : PoolKey
  state : RetryState
  error : DownloadError
  deriving DecidableEq, Repr

def connectSlice (remainingHead attemptsLeft configured : Nat) : Nat :=
  min configured (min (max (remainingHead / max attemptsLeft 1) minConnectSlice) remainingHead)

def classifyCurlFailure (code : Nat) : TransportErrorKind :=
  if code = 28 then .timeout
  else if code ∈ [5, 6, 7, 35] then .connect
  else if code ∈ [18, 55, 56] then .body
  else if code ∈ [8, 34, 52, 61, 65] then .request
  else .other

def isSafeConnectFailure (code : Nat) (headPublished : Bool) (requestBytes : Option Nat)
    (connectFinished : Option Nat) : Bool :=
  !headPublished && requestBytes == some 0 &&
    (code ∈ [5, 6, 7, 35] || (code == 28 && connectFinished == some 0))

def httpsOrigin : Text := ['h', 't', 't', 'p', 's', ':', '/', '/']

def connectFinished (key : PoolKey) (report : CurlReport) : Option Nat :=
  if httpsOrigin.isPrefixOf key.origin then report.appconnectTime else report.connectTime

def transferPhase (headPublished : Bool) : String :=
  if headPublished then "after response headers" else "before response headers"

def terminalOf (id : TransferId) (headPublished : Bool) : CurlResult → Terminal
  | .ok () => .eof
  | .error (code, message) =>
    .failed (classifyCurlFailure code) (some code)
      ("libcurl error " ++ toString code ++ " " ++ transferPhase headPublished ++ ": " ++
        message ++ " (transfer " ++ toString id ++ ")")

def outcomeOf (key : PoolKey) (headPublished : Bool) (report : CurlReport) :
    CurlResult → AttemptOutcome
  | .ok () => .completed
  | .error (code, _) =>
    if isSafeConnectFailure code headPublished report.requestBytes
      (connectFinished key report) then .connectFailed
    else .failed

def terminalError : Terminal → Option DownloadError
  | .failed kind _ message => some (.transport kind message)
  | .eof | .cancelled => none

namespace Slot

variable (slot : Slot)

def new : Slot where
  active := none
  attempt := none
  head := ⟨[], false⟩
  terminal := none
  registered := false
  ended := none

def finish (terminal : Terminal) : Slot :=
  { slot with terminal := slot.terminal.or (some terminal) }

def register : Slot := { slot with registered := true }

def unregister : Slot := { slot with registered := false }

def sendHead (result : Except DownloadError ResponseHead) : Slot :=
  { slot with head := { slot.head with values := slot.head.values ++ [result] } }

def publish (before after : HeadParser) : Slot :=
  { slot with head := { slot.head with
      values := slot.head.values ++ after.sent.drop before.sent.length } }

def failHead (head : HeadParser) (error : DownloadError) : Slot :=
  slot.publish head (head.fail error)

def dropHead (head : HeadParser) : Slot :=
  if head.sender then { slot with head := { slot.head with dropped := true } } else slot

def removeAttempt : Slot := { slot with attempt := none }

def setAttempt (record : AttemptRecord) : Slot :=
  { slot with attempt := some record }

def detach : Slot := { slot with active := none }

def leave (ending : Ending) : Slot := { slot with ended := some ending }

end Slot

namespace Driver

variable {ρ : Type} (rates : RateModel ρ) (driver : Driver ρ) (id : TransferId)

def new : Driver ρ where
  policy := .new
  slots := ∅
  completed := 0
  cancelled := 0
  underflow := false

def slot : Slot := driver.slots[id]?.getD .new

def modify (change : Slot → Slot) : Driver ρ :=
  { driver with slots := driver.slots.insert id (change (driver.slot id)) }

def settle (driver : Driver ρ) (key : PoolKey) (claim : CandidateClaim)
    (outcome : AttemptOutcome) (now : Nat) : Driver ρ :=
  { driver with
    policy := driver.policy.settle key claim.address claim.generation outcome now
    underflow := driver.underflow || driver.policy.inFlight key claim.address == 0 }

def settleCandidate (transfer : ActiveTransfer) (outcome : AttemptOutcome) (now : Nat) : Driver ρ :=
  match transfer.candidate with
  | some claim => driver.settle transfer.pool claim outcome now
  | none => driver

def reserveCandidate (options : TransferOptions) (key : PoolKey)
    (now : Nat) (previous : Option RetryState) :
    Except SelectionError (Option CandidateClaim) × Driver ρ :=
  match options.candidates with
  | none => (.ok none, driver)
  | some set =>
    match (driver.policy.observe key set now).select rates key now with
    | (.error error, policy) => (.error error, { driver with policy := policy })
    | (.ok selection, policy) =>
      (.ok (some ⟨selection.address, selection.generation,
        match previous with
        | some state => state.attempts + 1
        | none => 1⟩), { driver with policy := policy })

def releaseCandidate (now : Nat) : Driver ρ :=
  match (driver.slot id).attempt with
  | some record =>
    (driver.modify id Slot.removeAttempt).settle record.pool record.claim .cancelled now
  | none => driver

def rank (record : AttemptRecord) (now : Nat) : Driver ρ :=
  match record.sample with
  | none => driver
  | some sample =>
    { driver with
      policy := (driver.policy.recordSample rates record.pool record.claim.address sample now).2 }

/-- A record is removed when both halves of it are in. -/
def foldAttempt (now : Nat) : Driver ρ :=
  match (driver.slot id).attempt with
  | none => driver
  | some record =>
    match record.outcome, record.consumed with
    | some outcome, some consumed =>
      if outcome ≠ .completed ∨ consumed = false then driver.modify id Slot.removeAttempt
      else (driver.modify id Slot.removeAttempt).rank rates record now
    | _, _ => driver

def bodyDone (consumed : Bool) (sample : Option TransferSample) (now : Nat) : Driver ρ :=
  match (driver.slot id).attempt with
  | none => driver
  | some record =>
    (driver.modify id (·.setAttempt
      { record with consumed := some consumed, sample := sample })).foldAttempt rates id now

def abandon (head : HeadParser) (message : String) (now : Nat) : Driver ρ :=
  (driver.releaseCandidate id now).modify id fun slot =>
    (((slot.dropHead head).finish (.failed .other none message)).unregister).leave .unattached

def attachTransfer (transfer : ActiveTransfer) (answers : CurlAnswers) (now : Nat) : Driver ρ :=
  match answers.notAdded, answers.notTagged with
  | some error, _ =>
    driver.abandon id transfer.head ("could not add transfer to multi handle: " ++ error) now
  | none, some error =>
    driver.abandon id transfer.head ("could not tag transfer: " ++ error) now
  | none, none => driver.modify id fun slot => { slot with active := some transfer }

def optionsRejected (error : String) : DownloadError :=
  .internal ("libcurl request options rejected: " ++ error)

/-- Rejected options fail the head, and the handle is added all the same. -/
def launch (key : PoolKey) (options : TransferOptions)
    (connectTimeout : Nat) (pinned : Option CandidateClaim) (retry : Option RetryState)
    (answers : CurlAnswers) (now : Nat) : Driver ρ :=
  let head := HeadParser.ofTransfer options.toRequestOptions (pinned.map CandidateClaim.address)
  match answers.rejected with
  | none => driver.attachTransfer id ⟨key, head, connectTimeout, pinned, retry⟩ answers now
  | some error =>
    (driver.modify id (·.failHead head (optionsRejected error))).attachTransfer id
      ⟨key, head.fail (optionsRejected error), connectTimeout, pinned, retry⟩ answers now

def debugKey (key : PoolKey) : String :=
  "PoolKey \x7b origin: " ++ (String.ofList key.origin).quote ++ ", proxy: " ++
    (match key.proxy with
    | none => "None"
    | some proxy => "Some(" ++ (String.ofList proxy).quote ++ ")") ++ " \x7d"

def selectionMessage (key : PoolKey) : SelectionError → String
  | .expired => "the resolved addresses expired before the transfer started"
  | .noCandidates => "no usable address for " ++ debugKey key ++ " was resolved"

def refuse (message : String) : Driver ρ :=
  driver.modify id fun slot =>
    (((slot.sendHead (.error (.transport .connect message))).unregister).finish
      (.failed .connect none message)).leave .refused

def recordOf (key : PoolKey) (claim : CandidateClaim) : AttemptRecord :=
  ⟨key, claim, none, none, none⟩

def retryStateOf (options : TransferOptions) (claim : CandidateClaim) (now : Nat) : RetryState :=
  ⟨options, claim.attempts,
    min ((options.candidates.map (·.addresses.length % 2 ^ 32)).getD 1) maxInternalConnectAttempts,
    now + options.headTimeout⟩

def startTransfer (options : TransferOptions) (answers : CurlAnswers) (now : Nat) : Driver ρ :=
  let key := options.poolKey
  match driver.reserveCandidate rates options key now none with
  | (.error error, driver) => driver.refuse id (selectionMessage key error)
  | (.ok none, driver) =>
    driver.launch id key options options.connectTimeout none none answers now
  | (.ok (some claim), driver) =>
    let retry := retryStateOf options claim now
    (driver.modify id (·.setAttempt (recordOf key claim))).launch id key options
      (connectSlice options.headTimeout retry.maxAttempts options.connectTimeout)
      (some claim) (some retry) answers now

def failRetry (error : DownloadError) : Driver ρ :=
  driver.modify id fun slot =>
    ((((slot.sendHead (.error error)).unregister).removeAttempt).finish
      (.failed .connect none "no candidate could be reached")).leave .unretried

def nextRecord (slot : Slot) (key : PoolKey) (claim : CandidateClaim) : AttemptRecord :=
  match slot.attempt with
  | some record => { record with claim := claim, outcome := none, sample := none }
  | none => recordOf key claim

def startRetry (request : RetryRequest) (answers : CurlAnswers) (now : Nat) : Driver ρ :=
  let state := request.state
  let remaining := state.deadline - now
  if remaining = 0 then driver.failRetry request.id request.error
  else
    match driver.reserveCandidate rates state.options request.pool now (some state) with
    | (.ok (some claim), driver) =>
      (driver.modify request.id fun slot =>
        slot.setAttempt (nextRecord slot request.pool claim)).launch
          request.id request.pool state.options
          (connectSlice remaining (state.maxAttempts - state.attempts) state.options.connectTimeout)
          (some claim) (some { state with attempts := claim.attempts }) answers now
    | (_, driver) => driver.failRetry request.id request.error

/-- An attempt that reached another address than the selected one is never credited. -/
def reportAttempt (claim : CandidateClaim)
    (outcome : AttemptOutcome) (mismatch : Bool) (now : Nat) : Driver ρ :=
  match (driver.slot id).attempt with
  | none => driver
  | some record =>
    (driver.modify id (·.setAttempt { record with
      claim := claim
      outcome := some outcome
      consumed := if mismatch then some false else record.consumed })).foldAttempt rates id now

def creditCandidate (transfer : ActiveTransfer)
    (outcome : AttemptOutcome) (report : CurlReport) (now : Nat) : Driver ρ :=
  match transfer.candidate with
  | none => driver
  | some claim =>
    (driver.settle transfer.pool claim outcome now).reportAttempt rates id claim outcome
      (report.primaryIp.any (· != claim.address)) now

/-- The connection never carried the request, and the head channel is still unused. -/
def retryRequest (transfer : ActiveTransfer) (terminal : Terminal)
    (outcome : AttemptOutcome) (now : Nat) : Option RetryRequest := do
  let error ← terminalError terminal
  let retry ← transfer.retry
  if outcome = .connectFailed ∧ retry.attempts < retry.maxAttempts ∧ now < retry.deadline ∧
      transfer.head.sender then
    some ⟨id, transfer.pool, retry, error⟩
  else none

/-- Without a published head nobody could report the second half of the record. -/
def concluded (transfer : ActiveTransfer) (terminal : Terminal) (slot : Slot) : Slot :=
  let slot := if transfer.head.published then slot else slot.removeAttempt
  let slot := match terminalError terminal with
    | some error => slot.failHead transfer.head error
    | none => slot.dropHead transfer.head
  ((slot.unregister).finish terminal).leave .completed

def conclude (transfer : ActiveTransfer) (terminal : Terminal) : Driver ρ :=
  { driver.modify id (concluded transfer terminal) with completed := driver.completed + 1 }

def completeTransfer (key : PoolKey) (id : TransferId)
    (result : CurlResult) (report : CurlReport) (now : Nat) : Driver ρ × Option RetryRequest :=
  match (driver.slot id).active with
  | none => (driver, none)
  | some transfer =>
    if transfer.pool ≠ key then (driver, none)
    else
      let terminal := terminalOf id transfer.head.published result
      let outcome := outcomeOf key transfer.head.published report result
      let driver :=
        (driver.modify id Slot.detach).creditCandidate rates id transfer outcome report now
      match retryRequest id transfer terminal outcome now with
      | some request => (driver, some request)
      | none => (driver.conclude id transfer terminal, none)

/-- `start_retry` reads the clock again. -/
def finishTransfer (key : PoolKey) (id : TransferId) (result : CurlResult)
    (report : CurlReport) (answers : CurlAnswers) (now later : Nat) : Driver ρ :=
  match driver.completeTransfer rates key id result report now with
  | (driver, none) => driver
  | (driver, some request) => driver.startRetry rates request answers later

/-- A running transfer is taken out without a word about its address, and its callers are failed.
-/
def dismiss (transfer : ActiveTransfer)
    (error : DownloadError) (terminal : Terminal) (ending : Ending) (now : Nat) : Driver ρ :=
  ((driver.modify id Slot.detach).settleCandidate transfer .cancelled now).modify id fun slot =>
    ((((slot.removeAttempt).failHead transfer.head error).unregister).finish terminal).leave ending

def cancelTransfer (now : Nat) : Driver ρ :=
  match (driver.slot id).active with
  | none => driver
  | some transfer =>
    { driver.dismiss id transfer .cancelled .cancelled .cancelled now with
      cancelled := driver.cancelled + 1 }

def failTransfer (message : String) (now : Nat) (driver : Driver ρ) (id : TransferId) :
    Driver ρ :=
  match (driver.slot id).active with
  | none => driver
  | some transfer =>
    driver.dismiss id transfer (.internal message) (.failed .other none message) .broken now

def transfersOf (key : PoolKey) : List TransferId :=
  (driver.slots.toList.filter fun entry => entry.2.active.any (·.pool == key)).map Prod.fst

def failPool (key : PoolKey) (message : String) (now : Nat) : Driver ρ :=
  (driver.transfersOf key).foldl (failTransfer message now) driver

/-- One transfer after the loop.  The record goes with its map when the thread returns. -/
def shutDownTransfer (now : Nat) (driver : Driver ρ) (id : TransferId) : Driver ρ :=
  match (driver.slot id).active with
  | none => driver.modify id Slot.removeAttempt
  | some transfer => driver.dismiss id transfer .cancelled .cancelled .shutDown now

def shutDown (now : Nat) : Driver ρ :=
  driver.slots.keys.foldl (shutDownTransfer now) driver

def header (line : List UInt8) : Driver ρ :=
  match (driver.slot id).active with
  | none => driver
  | some transfer =>
    driver.modify id fun slot =>
      { slot.publish transfer.head (transfer.head.push line) with
        active := some { transfer with head := transfer.head.push line } }

end Driver

end Bytehaul.Network
