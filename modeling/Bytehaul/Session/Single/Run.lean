import Bytehaul.Session.Multi.Pool
import Bytehaul.Session.ResumeModes

/-!
# A single connection

`session/single.rs`: `run_single_with_retry`. The program counter names the wait the task is
in, with the local variables that are live there; what is between two waits is one step.
-/

namespace Bytehaul.Session

open Foundation Storage

structure SingleConfig where
  url : String
  retry : RetryPolicy
  resume : Bool
  fileAllocation : FileAllocation
  autosaveSyncEvery : Nat
  channelBuffer : Nat
  maxChunk : Nat
  watermark : Nat

structure Device where
  writeBudget : Option Nat
  syncBudget : Option Nat
  deriving DecidableEq, Repr

/-- `storage/file.rs`: create or truncate the output, and reserve its size. -/
def createOutputFile (totalSize : Option Nat) (allocation : FileAllocation) (device : Device) :
    DiskFile where
  content :=
    match allocation, totalSize with
    | .prealloc, some size => List.replicate size 0
    | _, _ => []
  cursor := 0
  written := fun _ => false
  durable := fun _ => false
  writeBudget := device.writeBudget
  syncBudget := device.syncBudget

def writerFailure (kind : IoErrorKind) : WriterError → DownloadError
  | .io => .io kind
  | .nonContiguousWrite error =>
    let expected := error.expected
    let actual := error.actual
    .internal s!"noncontiguous lease write: expected offset {expected}, got {actual}"

/-- `SingleWriterRuntime`: the writer task and the task's end of its channel. -/
structure SingleWriter where
  sender : Bool
  channel : List (WriterCommand Unit)
  task : WriterTask
  outcome : Option (Except WriterError Unit)
  mailbox : Option Nat
  fileTotalSize : Option Nat

namespace SingleWriter

variable (writer : SingleWriter)

def start (cfg : SingleConfig) (file : DiskFile) (startOffset : Nat) (totalSize : Option Nat) :
    SingleWriter where
  sender := true
  channel := []
  task := { WriterTask.new file cfg.watermark with writtenBytes := startOffset }
  outcome := none
  mailbox := none
  fileTotalSize := totalSize

def deliver : Option (Unit × WriterReply) → SingleWriter
  | some (_, .flushedAll writtenBytes) => { writer with mailbox := some writtenBytes }
  | _ => writer

def write : Option SingleWriter :=
  if writer.outcome.isSome then none
  else
    match writer.channel with
    | [] => none
    | command :: commands =>
      match writer.task.process command with
      | .ok task =>
        some ({ writer with channel := commands, task := task }.deliver
          (writer.task.reply task command))
      | .error (error, task) =>
        some { writer with channel := [], task := task, outcome := some (.error error) }

def finish (writer : SingleWriter) : Option SingleWriter :=
  if writer.outcome.isSome ∨ writer.sender ∨ writer.channel ≠ [] then none
  else
    match writer.task.finish with
    | .ok task => some { writer with task := task, outcome := some (.ok ()) }
    | .error (error, task) => some { writer with task := task, outcome := some (.error error) }

def hasCapacity (cfg : SingleConfig) : Bool :=
  decide (writer.channel.length < cfg.channelBuffer)

def post (command : WriterCommand Unit) : SingleWriter :=
  { writer with channel := writer.channel ++ [command] }

end SingleWriter

structure SingleAttempt where
  response : HttpResponse
  downloaded : Nat
  receivedInAttempt : Nat
  expectedLen : Option Nat
  frame : List UInt8
  deriving DecidableEq, Repr

inductive Restart
  | mismatch (response : HttpResponse)
  | body
  deriving DecidableEq, Repr

inductive Recreation
  | restart (restart : Restart)
  | resize (response : HttpResponse)
  deriving DecidableEq, Repr

inductive FlushPurpose
  | autosave (attempt : SingleAttempt)
  | stop (error : DownloadError)
  | barrier (error : DownloadError)
  | complete (finalOffset : Nat)
  deriving DecidableEq, Repr

inductive AfterSave
  | stream (attempt : SingleAttempt)
  | finish (error : DownloadError)
  | decide (error : DownloadError)
  | report (error : DownloadError)
  deriving DecidableEq, Repr

inductive AfterClose
  | recreate (recreation : Recreation)
  | finish (error : DownloadError)
  | complete
  | give (error : DownloadError)
  deriving DecidableEq, Repr

inductive SinglePc
  | top (pending : Option HttpResponse)
  | requesting
  | responded (response : HttpResponse)
  | sleeping (wakeAt : Nat) (restart : Option Restart)
  | streaming (attempt : SingleAttempt)
  | flushing (purpose : FlushPurpose)
  | syncing (purpose : FlushPurpose)
  | saving (snapshot : ControlSnapshot) (next : AfterSave)
  | deciding (error : DownloadError)
  | closing (next : AfterClose)
  | recreating (recreation : Recreation)
  | deleting (restart : Option Restart)
  | returned (result : Except DownloadError Unit)
  deriving DecidableEq, Repr

/-- A response whose body was streamed: what arrived and how much of it was sent on. -/
structure Contribution where
  response : HttpResponse
  start : Nat
  body : List UInt8
  forwarded : Nat
  deriving DecidableEq, Repr

structure SingleRun where
  offset : Nat
  totalSize : Option Nat
  baseline : ResponseMeta
  retryState : RetryState
  writer : SingleWriter
  useControl : Bool
  tracker : ControlSaveTracker
  snapTemplate : ControlSnapshot
  files : ControlFiles
  now : Nat
  stop : StopSignal
  pc : SinglePc
  /-- Where the present file was first written to.  No step looks at it. -/
  base : Nat
  /-- The bodies streamed into the present file, the latest first.  Likewise. -/
  contributions : List Contribution

namespace SingleRun

variable (cfg : SingleConfig) (run : SingleRun)

def goto (pc : SinglePc) : SingleRun := { run with pc := pc }

def close (next : AfterClose) : SingleRun :=
  { run with writer := { run.writer with sender := false }, pc := .closing next }

def finishSingleError (error : DownloadError) : SingleRun :=
  run.close (.finish error)

def singleResponseTotalSize (response : HttpResponse) : Option Nat :=
  if response.status = 206 then response.metadata.contentRangeTotal
  else response.metadata.contentLength

def metadataMatchesBaseline (metadata baseline : ResponseMeta) (totalSize : Option Nat) : Bool :=
  baseline.etag.all (fun etag => metadata.etag == some etag) &&
    baseline.lastModified.all (fun value => metadata.lastModified == some value) &&
    metadata.contentRangeTotal.all fun total => totalSize == some total

def validationError (total : Nat) (response : HttpResponse) : Option DownloadError :=
  match validateRangeResponse response .resumeProbe
      ⟨run.offset, total - 1, run.totalSize⟩ with
  | .ok .accept =>
    if metadataMatchesBaseline response.metadata run.baseline run.totalSize then none
    else some (.resumeMismatch "resume response metadata does not match the original object")
  | .ok (.fallbackToSingle _) => some (.resumeMismatch
      "resume response unexpectedly requested a single-connection fallback")
  | .error error => some error

def stream (response : HttpResponse) : SingleRun :=
  if run.writer.sender then
    { run with
      contributions := ⟨response, run.offset, [], 0⟩ :: run.contributions
      pc := .streaming {
        response := response
        downloaded := run.offset
        receivedInAttempt := 0
        expectedLen := run.totalSize.map (· - run.offset)
        frame := [] } }
  else run.goto (.returned (.error .channelClosed))

def adopt (response : HttpResponse) : SingleRun :=
  let discovered := singleResponseTotalSize response
  let totalSize := discovered.or run.totalSize
  { run with
    totalSize := totalSize
    useControl := if discovered.isSome then cfg.resume else run.useControl
    baseline := response.metadata
    snapTemplate := singleSnapshotTemplate cfg.url totalSize 0 response.metadata }

/-- The retry policy was asked: give up with its error, or wait and go on. -/
def retryOrFinish (restart : Option Restart) : RetryDecision × RetryState → SingleRun
  | (.stop error, retryState) => { run with retryState := retryState }.finishSingleError error
  | (.retry _ _ backoff _, retryState) =>
    { run with retryState := retryState }.goto (.sleeping (run.now + backoff) restart)

def check (response : HttpResponse) (later jitter : Nat) : SingleRun :=
  if 0 < run.offset then
    match run.totalSize with
    | none => run.goto (.returned (.error (.resumeMismatch "missing total size for Range resume")))
    | some total =>
      match run.validationError total response with
      | none => run.stream response
      | some error => run.retryOrFinish (some (.mismatch response))
          (run.retryState.decideRestart error run.now later jitter)
  else
    let run := adopt cfg run response
    if cfg.fileAllocation = .prealloc ∧ run.writer.fileTotalSize ≠ run.totalSize then
      run.close (.recreate (.resize response))
    else run.stream response

def requestFailed (error : DownloadError) (later jitter : Nat) : SingleRun :=
  run.retryOrFinish none (run.retryState.decide error run.now later jitter)

def snapshotAt (downloadedBytes : Nat) : ControlSnapshot :=
  { run.snapTemplate with downloadedBytes := downloadedBytes }

/-- `skipped` is where it returns to when nothing is due. -/
def persist (reason : ControlSaveReason)
    (currentDownloaded : Nat) (purpose : FlushPurpose) (skipped : SingleRun → SingleRun) :
    SingleRun :=
  let (due, tracker) := run.tracker.shouldSave reason currentDownloaded cfg.autosaveSyncEvery
  let run := { run with tracker := tracker }
  if due then run.goto (.flushing purpose) else skipped run

/-- The terminal save of `finish_single_error`, after the writer has closed. -/
def persistTerminal (error : DownloadError) : SingleRun :=
  let writtenBytes := run.writer.task.writtenBytes
  let (due, tracker) := run.tracker.shouldSave .terminal writtenBytes cfg.autosaveSyncEvery
  let run := { run with tracker := tracker }
  if due ∧ run.tracker.lastSavedDownloadedBytes < writtenBytes then
    run.goto (.saving (run.snapshotAt writtenBytes) (.report error))
  else run.goto (.returned (.error error))

def flushFailed : FlushPurpose → SingleRun
  | .autosave attempt => run.goto (.streaming attempt)
  | .stop error => run.finishSingleError error
  | .barrier _ | .complete _ => run.close (.give .channelClosed)

def saveIfNew (writtenBytes : Nat) (next : AfterSave)
    (skipped : SingleRun → SingleRun) : SingleRun :=
  if writtenBytes ≤ run.tracker.lastSavedDownloadedBytes then skipped run
  else run.goto (.saving (run.snapshotAt writtenBytes) next)

def persistedMismatch (writtenBytes finalOffset : Nat) : DownloadError :=
  .internal s!"single writer persisted {writtenBytes} bytes but attempt completed at {finalOffset}"

def flushed (writtenBytes : Nat) : FlushPurpose → SingleRun
  | .autosave attempt =>
    run.saveIfNew writtenBytes (.stream attempt) fun run => run.goto (.streaming attempt)
  | .stop error =>
    run.saveIfNew writtenBytes (.finish error) fun run => run.finishSingleError error
  | .barrier error =>
    let run := { run with offset := writtenBytes }
    if run.useControl then
      run.saveIfNew writtenBytes (.decide error) fun run => run.goto (.deciding error)
    else run.goto (.deciding error)
  | .complete finalOffset =>
    if writtenBytes ≠ finalOffset ∨ run.totalSize.any (· != finalOffset) then
      run.close (.give (persistedMismatch writtenBytes finalOffset))
    else run.close .complete

def sendFlush (purpose : FlushPurpose) : Option SingleRun :=
  if run.writer.outcome.isSome then some (run.flushFailed purpose)
  else if run.writer.hasCapacity cfg then
    some ({ run with writer := run.writer.post (.flushAll true ()) }.goto (.syncing purpose))
  else none

def awaitFlush (purpose : FlushPurpose) : Option SingleRun :=
  match run.writer.mailbox with
  | some writtenBytes =>
    some ({ run with writer := { run.writer with mailbox := none } }.flushed writtenBytes purpose)
  | none => if run.writer.outcome.isSome then some (run.flushFailed purpose) else none

def saved (done : Bool) (kind : IoErrorKind) : AfterSave → SingleRun
  | .stream attempt => run.goto (.streaming attempt)
  | .finish error => run.finishSingleError error
  | .decide error => run.goto (.deciding error)
  | .report error => run.goto (.returned (.error (if done then error else .io kind)))

def save (snapshot : ControlSnapshot) (next : AfterSave)
    (fault : Option SaveFault) (kind : IoErrorKind) : SingleRun :=
  let (done, files) := saveSync run.files snapshot fault
  let tracker := if done then .markSaved snapshot.downloadedBytes else run.tracker
  { run with files := files, tracker := tracker }.saved done kind next

/-- The attempt ends with an error; a retryable one waits for the writer first. -/
def failAttempt (error : DownloadError) : SingleRun :=
  if error.isStop ∨ ¬ error.isRetryable then run.finishSingleError error
  else run.goto (.flushing (.barrier error))

def overrunError : DownloadError :=
  .transport .body "server sent more bytes than expected for single connection"

def earlyEofError (receivedInAttempt expected : Nat) : DownloadError :=
  .transport .body
    s!"single connection body ended after {receivedInAttempt} bytes, expected {expected}"

def note (update : Contribution → Contribution) : SingleRun :=
  { run with contributions := run.contributions.modifyHead update }

def chunk (attempt : SingleAttempt) (data : List UInt8) : Option SingleRun :=
  if attempt.frame ≠ [] then none
  else if attempt.expectedLen.any (· < attempt.receivedInAttempt + data.length) then
    some (run.failAttempt overrunError)
  else some ((run.note fun c => { c with body := c.body ++ data }).goto
    (.streaming { attempt with frame := data }))

def forward (attempt : SingleAttempt) : Option SingleRun :=
  let part := attempt.frame.take cfg.maxChunk
  if attempt.frame = [] then none
  else if run.writer.outcome.isSome then some (run.failAttempt .channelClosed)
  else if run.writer.hasCapacity cfg then
    some ((({ run with
      writer := run.writer.post (.data attempt.downloaded part (some part.length) none) }.note
        fun c => { c with forwarded := c.forwarded + part.length })).goto
      (.streaming { attempt with
        downloaded := attempt.downloaded + part.length
        receivedInAttempt := attempt.receivedInAttempt + part.length
        frame := attempt.frame.drop cfg.maxChunk }))
  else none

def eof (attempt : SingleAttempt) : Option SingleRun :=
  if attempt.frame ≠ [] then none
  else
    match attempt.expectedLen with
    | some expected =>
      if attempt.receivedInAttempt ≠ expected then
        some (run.failAttempt (earlyEofError attempt.receivedInAttempt expected))
      else some (run.goto (.flushing (.complete attempt.downloaded)))
    | none => some (run.goto (.flushing (.complete attempt.downloaded)))

def autosave (cfg : SingleConfig) (run : SingleRun) (attempt : SingleAttempt) :
    Option SingleRun :=
  if attempt.frame ≠ [] ∨ ¬ run.useControl then none
  else some (persist cfg run .autosave attempt.downloaded (.autosave attempt)
    fun run => run.goto (.streaming attempt))

/-- A stop that interrupts the forwarding of a frame saves no checkpoint. -/
def stopAttempt (attempt : SingleAttempt) (error : DownloadError) : SingleRun :=
  if attempt.frame = [] ∧ run.useControl then
    persist cfg run .terminal attempt.downloaded (.stop error)
      fun run => run.finishSingleError error
  else run.finishSingleError error

def decide (run : SingleRun) (error : DownloadError) (later jitter : Nat) : SingleRun :=
  run.retryOrFinish (if run.totalSize.all (· ≤ run.offset) then some .body else none)
    (run.retryState.decide error run.now later jitter)

def join (next : AfterClose) (kind : IoErrorKind) : Option SingleRun :=
  match run.writer.outcome with
  | none => none
  | some (.error error) => some (run.goto (.returned (.error (writerFailure kind error))))
  | some (.ok ()) =>
    match next with
    | .recreate recreation => some (run.goto (.recreating recreation))
    | .finish error =>
      if run.useControl then some (persistTerminal cfg run error)
      else some (run.goto (.returned (.error error)))
    | .complete =>
      some (run.goto (if run.useControl then .deleting none else .returned (.ok ())))
    | .give error => some (run.goto (.returned (.error error)))

/-- `start_writer` on a new file; without a device it could not be created. -/
def create (recreation : Recreation) (device : Option Device) (kind : IoErrorKind) : SingleRun :=
  match device with
  | none => run.goto (.returned (.error (.io kind)))
  | some device =>
    let totalSize := match recreation with
      | .restart _ => none
      | .resize _ => run.totalSize
    let run := { run with
      writer := .start cfg (createOutputFile totalSize cfg.fileAllocation device) 0 totalSize
      base := 0
      contributions := [] }
    match recreation with
    | .restart restart => run.goto (.deleting (some restart))
    | .resize response => run.stream response

def restarted (restart : Restart) : SingleRun :=
  let run := { run with
    offset := 0
    totalSize := none
    useControl := false
    tracker := .new 0 }
  match restart with
  | .body => run.goto (.top none)
  | .mismatch response =>
    { run with
      baseline := response.metadata
      snapTemplate := singleSnapshotTemplate cfg.url none 0 response.metadata }.goto
        (.top (if response.status = 200 then some response else none))

def delete (restart : Option Restart) (fault : Bool) (kind : IoErrorKind) : SingleRun :=
  if fault then run.goto (.returned (.error (.io kind)))
  else
    let run := { run with files := { run.files with control := none } }
    match restart with
    | some restart => restarted cfg run restart
    | none => run.goto (.returned (.ok ()))

end SingleRun

inductive SingleAction
  | advance
  | observeStop
  | respond (response : HttpResponse)
  | requestFailed (error : DownloadError) (later jitter : Nat)
  | check (later jitter : Nat)
  | chunk (data : List UInt8)
  | forward
  | eof
  | fail (error : DownloadError)
  | autosave
  | decide (later jitter : Nat)
  | save (fault : Option SaveFault) (kind : IoErrorKind)
  | join (kind : IoErrorKind)
  | create (device : Option Device) (kind : IoErrorKind)
  | delete (fault : Bool) (kind : IoErrorKind)
  | write
  | finishWriter
  | tick (elapsed : Nat)
  | signal (stop : StopSignal)
  deriving DecidableEq, Repr

namespace SingleRun

variable (cfg : SingleConfig) (run : SingleRun)

def advance : SinglePc → Option SingleRun
  | .top (some response) => some (run.goto (.responded response))
  | .top none => some (run.goto .requesting)
  | .sleeping wakeAt restart =>
    if run.now < wakeAt then none
    else
      match restart with
      | none => some (run.goto (.top none))
      | some restart => some (run.close (.recreate (.restart restart)))
  | .flushing purpose => sendFlush cfg run purpose
  | .syncing purpose => run.awaitFlush purpose
  | _ => none

def observeStop (error : DownloadError) : SinglePc → Option SingleRun
  | .requesting | .sleeping _ _ => some (run.finishSingleError error)
  | .streaming attempt => some (stopAttempt cfg run attempt error)
  | _ => none

/-- What the task does, by the point it has reached. -/
def taskStep : SinglePc → SingleAction → Option SingleRun
  | pc, .advance => advance cfg run pc
  | pc, .observeStop => (stopSignalError run.stop).bind fun error => observeStop cfg run error pc
  | .requesting, .respond response => some (run.goto (.responded response))
  | .requesting, .requestFailed error later jitter => some (run.requestFailed error later jitter)
  | .responded response, .check later jitter => some (check cfg run response later jitter)
  | .streaming attempt, .chunk data => run.chunk attempt data
  | .streaming attempt, .forward => forward cfg run attempt
  | .streaming attempt, .eof => run.eof attempt
  | .streaming attempt, .fail error =>
    if attempt.frame = [] then some (run.failAttempt error) else none
  | .streaming attempt, .autosave => autosave cfg run attempt
  | .deciding error, .decide later jitter => some (run.decide error later jitter)
  | .saving snapshot next, .save fault kind => some (run.save snapshot next fault kind)
  | .closing next, .join kind => join cfg run next kind
  | .recreating recreation, .create device kind => some (create cfg run recreation device kind)
  | .deleting restart, .delete fault kind => some (delete cfg run restart fault kind)
  | _, _ => none

def step : SingleAction → Option SingleRun
  | .write => run.writer.write.map fun writer => { run with writer := writer }
  | .finishWriter => run.writer.finish.map fun writer => { run with writer := writer }
  | .tick elapsed => some { run with now := run.now + elapsed }
  | .signal stop => some { run with stop := stop }
  | action => taskStep cfg run run.pc action

def start (cfg : SingleConfig) (file : DiskFile) (startOffset : Nat) (totalSize : Option Nat)
    (response : HttpResponse) (files : ControlFiles) : SingleRun where
  offset := startOffset
  totalSize := totalSize
  baseline := response.metadata
  retryState := RetryState.new cfg.retry 0
  writer := .start cfg file startOffset totalSize
  useControl := cfg.resume && totalSize.isSome
  tracker := .new startOffset
  snapTemplate := singleSnapshotTemplate cfg.url totalSize startOffset response.metadata
  files := files
  now := 0
  stop := .running
  pc := .top (some response)
  base := startOffset
  contributions := []

end SingleRun

end Bytehaul.Session
