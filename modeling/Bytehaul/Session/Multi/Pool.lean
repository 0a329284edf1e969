import Bytehaul.Scheduler.Run
import Bytehaul.Session.Multi.Recovery
import Bytehaul.Session.Response
import Bytehaul.Storage.Control
import Bytehaul.Storage.Writer

/-!
# The worker pool

`session/multi.rs` and `session/multi/worker.rs`: `n` workers share the scheduler, the
recovery state and the channel to the writer. A program counter names the point a worker has
reached, with the local variables that are live there.
-/

namespace Bytehaul.Session

open Foundation Storage Scheduler

inductive SlowTransferMode
  | disabled
  | adaptive
  | adaptiveWithHedging
  deriving DecidableEq, Repr

structure PoolConfig where
  url : String
  total : Nat
  baseline : ResponseMeta
  headerNames : List HeaderText
  retry : RetryPolicy
  slowTransferMode : SlowTransferMode
  rateLimited : Bool
  minSegmentSize : Nat
  requestBatchSize : Nat
  rangeSchedulingMode : RangeSchedulingMode
  dynamicMinSplitSize : Nat
  dynamicMaxRequestSize : Nat
  logDebug : Bool
  logTrace : Bool
  channelBuffer : Nat
  maxChunk : Nat
  autosaveSyncEvery : Nat
  instantLimit : Nat

namespace PoolConfig

def validator (cfg : PoolConfig) : Option HeaderText :=
  usableValidator cfg.headerNames cfg.baseline

def extraLimit (cfg : PoolConfig) : Nat := min (cfg.total / 100) maxExtra

def recoveryRequestCap (cfg : PoolConfig) : Nat :=
  match cfg.rangeSchedulingMode with
  | .fixed => cfg.requestBatchSize
  | .dynamic => cfg.dynamicMaxRequestSize

def checkedAdd (cfg : PoolConfig) (now delay : Nat) : Option Nat :=
  if now + delay ≤ cfg.instantLimit then some (now + delay) else none

end PoolConfig

/-- `RequestStream`: the body of an accepted response, read up to `wire`. -/
structure RequestStream where
  response : HttpResponse
  start : Nat
  expected : Nat
  wire : Nat
  consumed : Nat
  buffered : List UInt8
  deriving DecidableEq, Repr

/-- The body counters of an `Observation`, which outlives the stream. -/
structure Observation where
  wire : Nat
  enqueued : Nat
  deriving DecidableEq, Repr

def Observation.new : Observation := ⟨0, 0⟩

structure Staging where
  response : HttpResponse
  data : List UInt8
  deriving DecidableEq, Repr

structure Challenger where
  reservation : Reservation
  staging : Option Staging
  deriving DecidableEq, Repr

structure Staged where
  reservation : Reservation
  response : HttpResponse
  data : List UInt8
  deriving DecidableEq, Repr

structure Job where
  segment : Segment
  queued : List Segment
  requestEnd : Nat
  lineage : LineageId
  initial : Option HttpResponse
  stream : Option RequestStream
  observation : Observation
  forwarded : Nat
  challenger : Option Challenger
  staged : Option Staged
  waste : Nat
  deriving DecidableEq, Repr

inductive Outcome
  | recover (reservation : Reservation)
  | staged (staged : Staged)
  | failed (error : DownloadError)
  deriving DecidableEq, Repr

/-- An outcome once the retry policy has been asked about a failure. -/
inductive Cause
  | recover (reservation : Reservation)
  | staged (staged : Staged)
  | failed (decision : RetryDecision)
  deriving DecidableEq, Repr

inductive Pc
  | top
  | registered (woken : Bool)
  | parked (woken : Bool) (deadline : Option Nat)
  | claimed (segment : Segment) (queued : List Segment) (initial : Option HttpResponse)
  | starting (job : Job)
  | running (job : Job)
  | advised (job : Job) (hedgeEligible : Bool) (at' : Nat)
  | spare (job : Job) (at' : Nat)
  | cancelling (job : Job) (at' : Nat)
  | copying (job : Job)
  | completing (job : Job)
  | flushing (job : Job)
  | recording (job : Job)
  | interrupted (job : Job) (outcome : Outcome)
  | settling (job : Job) (cause : Cause) (retain : Bool)
  | settleWait (job : Job) (cause : Cause) (retain : Bool)
  | settled (job : Job) (cause : Cause) (kept : Option Segment)
  | crediting (job : Job) (cause : Cause) (kept : Option Segment)
  | releasing (job : Job) (cause : Cause) (retain : Bool)
  | releasingRest (job : Job) (reservation : Reservation)
  | refunding (reservation : Reservation)
  | counting (job : Job) (backoff : Nat)
  | renewing (job : Job) (backoff : Option Nat)
  | vacating (job : Job) (backoff : Nat)
  | sleeping (job : Job) (wakeAt : Nat)
  | reacquiring (job : Job)
  | stopping (job : Job) (error : DownloadError)
  | reclaiming (job : Job) (slot : Bool) (error : DownloadError)
  | closing (slot : Bool) (exit : Option DownloadError)
  | exited (error : Option DownloadError)
  deriving DecidableEq, Repr

structure Worker where
  pc : Pc
  owes : Bool
  mailbox : Option WriterReply
  deriving DecidableEq, Repr

def Worker.new : Worker := ⟨.top, false, none⟩

inductive ControlSaveReason
  | autosave
  | terminal
  deriving DecidableEq, Repr

structure ControlSaveTracker where
  lastSavedDownloadedBytes : Nat
  autosaveTicksSinceSave : Nat
  deriving DecidableEq, Repr

namespace ControlSaveTracker

def new (initialDownloadedBytes : Nat) : ControlSaveTracker :=
  ⟨initialDownloadedBytes, 0⟩

def shouldSave (tracker : ControlSaveTracker) (reason : ControlSaveReason)
    (currentDownloadedBytes autosaveSyncEvery : Nat) : Bool × ControlSaveTracker :=
  if currentDownloadedBytes ≤ tracker.lastSavedDownloadedBytes then
    match reason with
    | .autosave => (false, { tracker with autosaveTicksSinceSave := 0 })
    | .terminal => (false, tracker)
  else
    match reason with
    | .autosave =>
      let ticks := tracker.autosaveTicksSinceSave + 1
      (decide (autosaveSyncEvery ≤ ticks), { tracker with autosaveTicksSinceSave := ticks })
    | .terminal => (true, tracker)

def markSaved (downloadedBytes : Nat) : ControlSaveTracker := ⟨downloadedBytes, 0⟩

end ControlSaveTracker

/-- `live` says whether the writer channel is still open for the barrier. -/
inductive MonitorPc
  | idle
  | freezing (reason : ControlSaveReason) (live : Bool)
  | frozen (snapshot : ControlSnapshot)
  | syncing (snapshot : ControlSnapshot)
  | saving (snapshot : ControlSnapshot)
  deriving DecidableEq, Repr

structure Monitor where
  pc : MonitorPc
  mailbox : Option WriterReply
  tracker : ControlSaveTracker
  holdsSender : Bool
  deriving DecidableEq, Repr

inductive Party (n : Nat)
  | worker (id : Fin n)
  | monitor
  deriving DecidableEq, Repr

inductive WriterStatus
  | running
  | finished
  | failed
  deriving DecidableEq, Repr

inductive ChargeKind
  | retry
  | recovery
  deriving DecidableEq, Repr

/-- A retry or a recovery granted to a lineage, and what its request owned then. -/
structure Charge where
  kind : ChargeKind
  lineage : LineageId
  owned : List Span
  deriving DecidableEq, Repr

/-- What has happened so far.  No transition looks at it. -/
structure PoolHistory where
  acked : List Span
  reported : List Span
  carried : List (Segment × LineageId)
  charges : List Charge
  handedOver : List Span
  contributed : List HttpResponse
  saved : List ControlSnapshot
  deriving DecidableEq, Repr

structure Pool (n : Nat) where
  sched : SchedulerState
  recovery : RecoveryState
  lineages : List Lineage
  slotsFree : Nat
  /-- The probe response and the piece it covers, until a worker claims it. -/
  probe : Option (HttpResponse × Nat)
  received : Int
  workers : Fin n → Worker
  channel : List (WriterCommand (Party n))
  writer : WriterTask
  writerStatus : WriterStatus
  monitor : Monitor
  files : ControlFiles
  now : Nat
  stop : StopSignal
  history : PoolHistory

namespace Pool

variable {n : Nat} (pool : Pool n)

@[simps] def put (w : Fin n) (pc : Pc) : Pool n :=
  { pool with workers := Function.update pool.workers w { pool.workers w with pc := pc } }

@[simps] def owe (w : Fin n) : Pool n :=
  { pool with workers := Function.update pool.workers w { pool.workers w with owes := true } }

@[simps] def takeMail (w : Fin n) : Pool n :=
  { pool with workers := Function.update pool.workers w { pool.workers w with mailbox := none } }

@[simps] def post (command : WriterCommand (Party n)) : Pool n :=
  { pool with channel := pool.channel ++ [command] }

def hasCapacity (cfg : PoolConfig) : Bool :=
  decide (pool.channel.length < cfg.channelBuffer)

def lineageAt (cfg : PoolConfig) (id : LineageId) : Lineage :=
  pool.lineages.getD id ⟨RetryState.new cfg.retry pool.now, 0⟩

@[simps] def setLineage (id : LineageId) (lineage : Lineage) : Pool n :=
  { pool with lineages := pool.lineages.set id lineage }

@[simps] def log (update : PoolHistory → PoolHistory) : Pool n :=
  { pool with history := update pool.history }

@[simps] def withRecovery (update : RecoveryState → RecoveryState) : Pool n :=
  { pool with recovery := update pool.recovery }

@[simps] def releaseSlots (slots : Nat) : Pool n :=
  { pool with slotsFree := pool.slotsFree + slots }

end Pool

def Job.leases (job : Job) : List Segment := job.segment :: job.queued

def Job.len (job : Job) : Nat := job.segment.stop - job.segment.start

/-- Body bytes read from the connection and not forwarded. -/
def Job.readAhead (job : Job) : Nat :=
  job.stream.elim 0 fun stream => stream.wire - stream.consumed

def RequestContext.ofJob (cfg : PoolConfig) (job : Job) (requestEnd : Nat) : RequestContext where
  start := job.segment.start
  requestEnd := requestEnd
  total := cfg.total
  validator := cfg.validator
  requireValidator := cfg.slowTransferMode == .adaptiveWithHedging

end Bytehaul.Session
