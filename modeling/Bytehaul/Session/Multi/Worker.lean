import Bytehaul.Session.Multi.Pool

/-!
# The steps of the pool

One definition for each stretch of `worker_loop`, `run_attempt`, `primary`, `stage` and
`persist_multi_control_snapshot` where no other task can interfere. What a task waits for is
an argument of the step.
-/

namespace Bytehaul.Session

open Foundation Storage Scheduler

namespace Pool

variable {n : Nat} (cfg : PoolConfig) (pool : Pool n) (w : Fin n) (job : Job)

def leave (reservations : List Reservation) (error : DownloadError) : Pool n :=
  (pool.withRecovery fun state => reservations.foldl RecoveryState.refund state).put w
    (.closing true (some error))

def close (slot : Bool) (exit : Option DownloadError) : Pool n :=
  ((pool.releaseSlots slot.toNat).put w
    (match exit with
      | none => .top
      | some error => .exited (some error))).owe w

def enter : Pool n :=
  pool.put w (match stopSignalError pool.stop with
    | some error => .exited (some error)
    | none => .registered false)

def probeMatches (probe : HttpResponse × Nat) (segment : Segment) : Bool :=
  probe.2 == segment.pieceId && probe.1.metadata.contentRangeStart == some segment.start &&
    probe.1.metadata.contentRangeEnd == some (segment.stop - 1)

def claim (sched : SchedulerState) (pending : List PendingRange) : List Segment → Option (Pool n)
  | [] => none
  | segment :: queued =>
    let response := pool.probe.filter (probeMatches · segment)
    some ({ pool with
      sched := sched
      recovery := { pool.recovery with pending := pending }
      slotsFree := pool.slotsFree - 1
      probe := if response.isSome then none else pool.probe }.put w
        (.claimed segment queued (response.map Prod.fst)))

def requestParams (capacity occupied : Nat) (allowBatch : Bool) :
    SchedulerState.RequestParams where
  maxRequests := capacity
  minSegmentSize := cfg.minSegmentSize
  occupiedRequests := occupied
  mode := cfg.rangeSchedulingMode
  requestBatchSize := cfg.requestBatchSize
  dynamicMinSplitSize := cfg.dynamicMinSplitSize
  dynamicMaxRequestSize := cfg.dynamicMaxRequestSize
  allowBatch := allowBatch
  collectDiagnostics := cfg.logDebug
  collectCandidateShares := cfg.logTrace

def assignRecovered (occupied : Nat) (woken : Bool)
    (range : PendingRange) (rest : List PendingRange) : Option (Pool n) :=
  let taken := range.takePrefix (n - occupied)
  match pool.sched.assignRecoveryBatch (taken.1.map PendingPiece.entry) w with
  | some (some segments, sched) =>
    pool.claim w sched (if taken.2.pieces = [] then rest else taken.2 :: rest) segments
  | some (none, sched) =>
    some ({ pool with
      sched := sched
      recovery := { pool.recovery with pending := taken.2.prepend taken.1 :: rest } }.put w
        (.parked woken none))
  | none => none

def assignOrdinary (occupied : Nat) (woken : Bool) : Option (Pool n) :=
  match pool.sched.assignRequestWithTrace w
      (requestParams cfg n occupied pool.probe.isNone) with
  | some (some assignment, sched) =>
    pool.claim w sched pool.recovery.pending assignment.segments
  | some (none, sched) => some ({ pool with sched := sched }.put w (.parked woken none))
  | none => none

/-- `occupied` is the number of other requests seen when the worker has taken its permit. -/
def inspect (woken : Bool) (occupied : Nat) : Option (Pool n) :=
  if pool.sched.allDone then some (pool.put w (.exited none))
  else if pool.slotsFree = 0 then some (pool.put w (.parked woken none))
  else if n ≤ occupied then none
  else if pool.recovery.pendingBackoff pool.now then
    some (pool.put w (.parked woken pool.recovery.blockedUntil))
  else
    match pool.recovery.pending with
    | range :: rest => pool.assignRecovered w occupied woken range rest
    | [] => assignOrdinary cfg pool w occupied woken

def wake (woken : Bool) (deadline : Option Nat) : Option (Pool n) :=
  if woken || deadline.any (· ≤ pool.now) then some (pool.put w .top) else none

def stopWaiting : Option (Pool n) :=
  (stopSignalError pool.stop).map fun error => pool.put w (.exited (some error))

def newJob (segment : Segment) (queued : List Segment) (lineage : LineageId)
    (initial : Option HttpResponse) : Job where
  segment := segment
  queued := queued
  requestEnd := (queued.getLast?.map Segment.stop).getD segment.stop
  lineage := lineage
  initial := initial
  stream := none
  observation := .new
  forwarded := 0
  challenger := none
  staged := none
  waste := 0

def noteCarried (segments : List Segment) (lineage : LineageId) : Pool n :=
  pool.log fun history => { history with
    carried := history.carried ++ segments.map fun segment => (segment, lineage) }

def findLineage (segment : Segment)
    (queued : List Segment) (initial : Option HttpResponse) : Pool n :=
  match pool.recovery.lineageOf segment with
  | some lineage =>
    (pool.noteCarried (segment :: queued) lineage).put w
      (.starting (newJob segment queued lineage initial))
  | none =>
    ({ pool with
      lineages := pool.lineages ++ [Lineage.mk (RetryState.new cfg.retry pool.now) 0] }.noteCarried
        (segment :: queued) pool.lineages.length).put w
      (.starting (newJob segment queued pool.lineages.length initial))

def reservationOf : List Reservation :=
  job.staged.toList.map Staged.reservation

def begin : Option (Pool n) :=
  if pool.writerStatus ≠ .running then
    some (pool.leave w (reservationOf job) .channelClosed)
  else if pool.hasCapacity cfg then
    let job := { job with forwarded := 0 }
    some ((pool.post (.beginLease job.segment.leaseKey)).put w
      (if job.staged.isSome then .copying job
        else match stopSignalError pool.stop with
          | some error => .interrupted job (.failed error)
          | none => .running job))
  else none

def dropChallenger : Pool n :=
  match job.challenger with
  | some challenger =>
    ((pool.withRecovery fun state =>
      ({ state with hedge := false }.refund challenger.reservation)).releaseSlots 1).owe w
  | none => pool

def finishAttempt : Pool n :=
  (pool.dropChallenger w job).put w (.completing { job with challenger := none })

def interruptAttempt (outcome : Outcome) : Pool n :=
  (pool.dropChallenger w job).put w (.interrupted { job with challenger := none } outcome)

/-- The current piece is forwarded in full and the body continues with the next one. -/
def atBoundary : Bool :=
  job.forwarded == job.len && decide (job.segment.stop < job.requestEnd)

def boundary : Option (Pool n) :=
  if job.stream.isSome ∧ atBoundary job then some (pool.finishAttempt w job) else none

def respond (response : HttpResponse) : Option (Pool n) :=
  if job.stream.isSome ∨ job.initial.any (· != response) then none
  else
    match checkedResponse (.ofJob cfg job job.requestEnd) response with
    | .error failure => some (pool.interruptAttempt w job (.failed failure.error))
    | .ok () => some (pool.put w (.running { job with
        initial := none
        stream := some {
          response := response
          start := job.segment.start
          expected := job.requestEnd - job.segment.start
          wire := 0
          consumed := 0
          buffered := [] } }))

def chunk (data : List UInt8) : Option (Pool n) :=
  match job.stream with
  | none => none
  | some stream =>
    if atBoundary job || stream.buffered ≠ [] then none
    else if stream.expected < stream.wire + data.length then
      some (pool.interruptAttempt w
        { job with
          stream := some { stream with wire := stream.wire + data.length }
          observation.wire := job.observation.wire + data.length }
        (.failed (.resumeMismatch "server overran requested range")))
    else some (pool.put w (.running { job with
      stream := some { stream with wire := stream.wire + data.length, buffered := data }
      observation.wire := job.observation.wire + data.length }))

def eof : Option (Pool n) :=
  match job.stream with
  | none => none
  | some stream =>
    if atBoundary job || stream.buffered ≠ [] then none
    else if stream.wire ≠ stream.expected then
      some (pool.interruptAttempt w job (.failed (.transport .body "range body ended early")))
    else some (pool.finishAttempt w job)

def noteContributed (response : HttpResponse) : Pool n :=
  pool.log fun history => { history with contributed := history.contributed ++ [response] }

def sendData (data : List UInt8) : Pool n :=
  { pool.post (.data (job.segment.start + job.forwarded) data (some data.length)
      (some job.segment.leaseKey)) with received := pool.received + data.length }

def forward : Option (Pool n) :=
  match job.stream with
  | none => none
  | some stream =>
    let len := min (min stream.buffered.length cfg.maxChunk) (job.len - job.forwarded)
    if atBoundary job || stream.buffered = [] then none
    else if len = 0 then
      some (pool.interruptAttempt w job (.failed (.resumeMismatch "server overran final piece")))
    else if pool.writerStatus = .running ∧ pool.hasCapacity cfg then
      some (((pool.sendData job (stream.buffered.take len)).noteContributed
        stream.response).put w (.running { job with
          forwarded := job.forwarded + len
          stream := some { stream with
            consumed := stream.consumed + len
            buffered := stream.buffered.drop len }
          observation.enqueued := job.observation.enqueued + len }))
    else none

def fail (error : DownloadError) : Pool n :=
  pool.interruptAttempt w job (.failed error)

def noteHandedOver (segments : List Segment) : Pool n :=
  pool.log fun history => { history with
    handedOver := history.handedOver ++ segments.map Segment.span }

def recover (segments : List Segment) (lineage : LineageId) : Option (Pool n) :=
  (recoverSegments pool.sched pool.recovery segments lineage cfg.recoveryRequestCap
    cfg.minSegmentSize).map fun (sched, recovery) =>
      { pool with sched := sched, recovery := recovery }.noteHandedOver segments

/-- Idle workers take over the untouched leases of a slow request. -/
def handOff : Option (Pool n) :=
  if cfg.slowTransferMode = .disabled ∨ cfg.rateLimited ∨ job.stream.isNone ∨
      job.queued = [] ∨ pool.recovery.blockedUntil.any (pool.now < ·) then none
  else (recover cfg pool job.queued job.lineage).map fun next =>
    (next.put w (.running { job with queued := [] })).owe w

def remainingEnd : Nat :=
  (job.queued.getLast?.map Segment.stop).getD job.segment.stop

/-- An attempt that can return does so first. -/
def advise : Option (Pool n) :=
  if cfg.slowTransferMode = .disabled ∨ cfg.rateLimited ∨ job.challenger.isSome ∨
      job.stream.isNone ∨ atBoundary job ∨
      remainingEnd job - job.segment.start ≤ job.forwarded then none
  else
    let hedgeEligible := decide (job.requestEnd = job.segment.stop) && cfg.validator.isSome &&
      cfg.slowTransferMode == .adaptiveWithHedging && decide (job.len ≤ maxHedge) &&
      !pool.sched.hasAvailable
    some (pool.put w (.advised job hedgeEligible pool.now))

def trySpare (hedgeEligible : Bool) (at' : Nat) : Pool n :=
  if hedgeEligible ∧ 0 < pool.slotsFree then
    { pool with slotsFree := pool.slotsFree - 1 }.put w (.spare job at')
  else pool.put w (.cancelling job at')

def noteCharge (kind : ChargeKind) (job : Job) : Pool n :=
  pool.log fun history => { history with
    charges := history.charges ++ [⟨kind, job.lineage, job.leases.map Segment.span⟩] }

def reserved (state : RecoveryState) (lineage : Lineage) : Pool n :=
  ({ pool with recovery := state }.setLineage job.lineage lineage).noteCharge .recovery job

/-- Reserve the hedge.  A refusal releases the spare permit without a notification. -/
def reserveHedge (at' : Nat) : Pool n :=
  match pool.recovery.reserveResult cfg.extraLimit job.len (pool.lineageAt cfg job.lineage)
      true at' with
  | .ok (reservation, state, lineage) =>
    (pool.reserved job state lineage).put w (.running { job with
      challenger := some ⟨{ reservation with cost := 0 }, none⟩ })
  | .error .budget => (pool.releaseSlots 1).put w (.cancelling job at')
  | .error _ => (pool.releaseSlots 1).put w (.running job)

def cancellationCostBound : Nat :=
  let readAhead := job.observation.wire - job.observation.enqueued
  if cfg.validator.isSome then readAhead else job.len + readAhead

def reserveCancel (at' : Nat) : Pool n :=
  match pool.recovery.reserveResult cfg.extraLimit (cancellationCostBound cfg job)
      (pool.lineageAt cfg job.lineage) false at' with
  | .ok (reservation, state, lineage) =>
    (pool.reserved job state lineage).interruptAttempt w job (.recover reservation)
  | .error _ => pool.put w (.running job)

/-- A hedge that failed is dropped; only a changed object ends the attempt. -/
def hedgeFailure (failure : CandidateFailure) : Pool n :=
  if failure.identityChanged then pool.interruptAttempt w job (.failed failure.error)
  else
    ((pool.dropChallenger w job).withRecovery fun state =>
      match failure.error.retryAfterSecs with
      | some secs => state.backoff (cfg.checkedAdd pool.now (secs * nanosPerSec))
      | none => state).put w (.running { job with challenger := none })

def hedgeRespond (response : HttpResponse) : Option (Pool n) :=
  match job.challenger with
  | some ⟨reservation, none⟩ =>
    match checkedResponse (.ofJob cfg job job.segment.stop) response with
    | .error failure => some (hedgeFailure cfg pool w job failure)
    | .ok () =>
      if response.framedLength ≠ some job.len ∨ response.transferEncoding then
        some (hedgeFailure cfg pool w job (.ofError (.resumeMismatch
          "challenger requires an exact Content-Length for its extra-byte bound")))
      else some (pool.put w (.running { job with
        challenger := some ⟨reservation, some ⟨response, []⟩⟩ }))
  | _ => none

def hedgeChunk (data : List UInt8) : Option (Pool n) :=
  match job.challenger with
  | some ⟨reservation, some staging⟩ =>
    let wire := staging.data.length + data.length
    let reservation := { reservation with cost := wire }
    if job.len < wire then
      some (hedgeFailure cfg pool w
        { job with challenger := some ⟨reservation, some staging⟩ }
        (.ofError (.resumeMismatch "challenger overran its range")))
    else some (pool.put w (.running { job with
      challenger := some ⟨reservation, some { staging with data := staging.data ++ data }⟩ }))
  | _ => none

def hedgeEof : Option (Pool n) :=
  match job.challenger with
  | some ⟨reservation, some staging⟩ =>
    if staging.data.length ≠ job.len then
      some (hedgeFailure cfg pool w job (.ofError (.transport .body "challenger body ended early")))
    else
      some ((((pool.withRecovery fun state => { state with hedge := false }).releaseSlots 1).put
        w (.interrupted { job with challenger := none }
          (.staged ⟨reservation, staging.response, staging.data⟩))).owe w)
  | _ => none

def hedgeFail (error : DownloadError) : Option (Pool n) :=
  if job.challenger.isSome then some (hedgeFailure cfg pool w job (.ofError error)) else none

def copy : Option (Pool n) :=
  match job.staged with
  | none => none
  | some staged =>
    let len := min (job.len - job.forwarded) (min cfg.maxChunk (64 * 1024))
    if job.len ≤ job.forwarded then some (pool.put w (.completing job))
    else if pool.writerStatus ≠ .running then
      some (pool.leave w (reservationOf job) .channelClosed)
    else if pool.hasCapacity cfg then
      some (((pool.sendData job ((staged.data.drop job.forwarded).take len)).noteContributed
        staged.response).put w (.copying { job with forwarded := job.forwarded + len }))
    else none

def stopCopy : Option (Pool n) :=
  (stopSignalError pool.stop).map fun error => pool.leave w (reservationOf job) error

def sendFlush : Option (Pool n) :=
  if pool.writerStatus ≠ .running then
    some (pool.leave w (reservationOf job) .channelClosed)
  else if pool.hasCapacity cfg then
    some ((pool.post (.flushLease job.segment.leaseKey (.worker w))).put w (.flushing job))
  else none

def noteAcked (span : Span) : Pool n :=
  pool.log fun history => { history with acked := span :: history.acked }

def noteReported (span : Span) : Pool n :=
  pool.log fun history => { history with reported := span :: history.reported }

def complete : Option (Pool n) :=
  if (pool.workers w).mailbox.isSome then
    match pool.sched.complete job.segment.leaseKey with
    | some (true, sched) =>
      some ((({ pool with sched := sched }.noteAcked job.segment.span).takeMail w).put w
        (.recording job))
    | some (false, sched) =>
      some (({ pool with sched := sched }.takeMail w).leave w (reservationOf job)
        (.internal (if job.staged.isSome then "stale hedge winner completion"
          else "stale adaptive completion")))
    | none => none
  else if pool.writerStatus ≠ .running then
    some (pool.leave w (reservationOf job) .channelClosed)
  else none

def record : Pool n :=
  (((pool.withRecovery fun state => state.completed job.segment job.lineage).noteReported
    job.segment.span).put w
      (match job.staged, job.queued with
        | some staged, _ => .refunding { staged.reservation with cost := job.waste }
        | none, next :: queued => .starting { job with segment := next, queued := queued }
        | none, [] => .closing true none)).owe w

/-- The retry policy is asked about a failure; `reading` tells a body failure. -/
def retryDecision (error : DownloadError)
    (reading : Bool) (later jitter : Nat) : RetryDecision × RetryState :=
  let retries := (pool.lineageAt cfg job.lineage).retries
  if reading then retries.decideBodyFailure error pool.now later jitter
  else retries.decide error pool.now later jitter

def grantsRetry : RetryDecision → Bool
  | .retry _ _ _ _ => true
  | .stop _ => false

/-- May the forwarded prefix be kept?  Only under a validator, and only a proper part. -/
def retains (wanted : Bool) : Bool :=
  cfg.validator.isSome && decide (0 < job.forwarded) && decide (job.forwarded < job.len) && wanted

def settleJob (retain : Bool) : Job :=
  { job with
    initial := none
    stream := none
    requestEnd := job.segment.stop
    waste := job.readAhead + if retain then 0 else job.forwarded }

def decideOutcome (outcome : Outcome) (reading : Bool) (later jitter : Nat) : Pool n :=
  match outcome with
  | .recover reservation =>
    let retain := retains cfg job true
    pool.put w (.settling (settleJob job retain) (.recover reservation) retain)
  | .staged staged => pool.put w (.settling (settleJob job false) (.staged staged) false)
  | .failed error =>
    let (decision, retries) := retryDecision cfg pool job error reading later jitter
    let retain := retains cfg job (grantsRetry decision)
    let charged := pool.setLineage job.lineage
      { pool.lineageAt cfg job.lineage with retries := retries }
    (if grantsRetry decision then charged.noteCharge .retry job else charged).put w
      (.settling (settleJob job retain) (.failed decision) retain)

def Cause.reservations : Cause → List Reservation
  | .recover reservation => [reservation]
  | .staged staged => [staged.reservation]
  | .failed _ => []

def settleLost (cause : Cause) : Pool n :=
  { pool.withRecovery fun state => (Cause.reservations cause).foldl RecoveryState.refund state with
    received := pool.received - job.forwarded }.put w (.reclaiming job true .channelClosed)

def sendSettle (cause : Cause) (retain : Bool) : Option (Pool n) :=
  if pool.writerStatus ≠ .running then some (pool.settleLost w job cause)
  else if pool.hasCapacity cfg then
    if retain then
      some ((pool.post (.flushLease job.segment.leaseKey (.worker w))).put w
        (.settleWait job cause true))
    else
      some ({ pool.post (.discardLease job.segment.leaseKey (.worker w)) with
        received := pool.received - job.forwarded }.put w (.settleWait job cause false))
  else none

def retainForwarded (cause : Cause) : Pool n :=
  let confirmedEnd := job.segment.start + job.forwarded
  match pool.sched.retainPrefix job.segment.leaseKey confirmedEnd with
  | (true, sched) =>
    (({ pool with sched := sched }.noteAcked ⟨job.segment.start, confirmedEnd⟩).takeMail w).put
      w (.settled { job with segment := { job.segment with start := confirmedEnd } } cause
        (some { job.segment with stop := confirmedEnd }))
  | (false, sched) =>
    ({ pool with
      sched := sched
      received := pool.received - job.forwarded
      recovery := (Cause.reservations cause).foldl RecoveryState.refund pool.recovery }.takeMail
        w).put w (.reclaiming job true (.internal "stale prefix handoff"))

def settle (cause : Cause) (retain : Bool) : Option (Pool n) :=
  if (pool.workers w).mailbox.isSome then
    some (if retain then pool.retainForwarded w job cause
      else (pool.takeMail w).put w (.settled job cause none))
  else if pool.writerStatus ≠ .running then
    some (if retain then pool.settleLost w job cause
      else { pool.settleLost w job cause with received := pool.received })
  else none

/-- Only a directive of the server holds back other workers. -/
def noteBackoff (cause : Cause) (kept : Option Segment) : Pool n :=
  (pool.withRecovery fun state =>
    match cause with
    | .failed (.retry error _ _ _) =>
      match error.retryAfterSecs with
      | some secs => state.backoff (cfg.checkedAdd pool.now (secs * nanosPerSec))
      | none => state
    | _ => state).put w (.crediting job cause kept)

def credit (cause : Cause) (kept : Option Segment) : Pool n :=
  match kept with
  | some confirmed =>
    ((pool.withRecovery fun state => state.completed confirmed job.lineage).noteReported
      confirmed.span).put w (.releasing job cause true)
  | none => pool.put w (.releasing job cause false)

def release (cause : Cause) (retain : Bool) : Option (Pool n) :=
  match cause with
  | .recover reservation =>
    let reservation := { reservation with cost := job.waste }
    if retain then
      (recover cfg pool [job.segment] job.lineage).map fun next =>
        next.put w (.releasingRest job reservation)
    else
      (recover cfg pool job.leases job.lineage).map fun next =>
        (next.put w (.refunding reservation)).owe w
  | .staged staged =>
    (recover cfg pool job.queued job.lineage).map fun next =>
      next.put w (.renewing { job with queued := [], staged := some staged } none)
  | .failed (.stop error) => some (pool.put w (.stopping job error))
  | .failed (.retry _ _ backoff _) =>
    (recover cfg pool job.queued job.lineage).map fun next =>
      next.put w (.counting { job with queued := [] } backoff)

def releaseRest (reservation : Reservation) : Option (Pool n) :=
  (recover cfg pool job.queued job.lineage).map fun next =>
    (next.put w (.refunding reservation)).owe w

def refund (reservation : Reservation) : Pool n :=
  (pool.withRecovery fun state => state.refund reservation).put w (.closing true none)

def count (backoff : Nat) : Pool n :=
  ((pool.withRecovery fun state => { state with retries := state.retries + 1 }).put w
    (.renewing job (some backoff))).owe w

def renew (backoff : Option Nat) : Pool n :=
  match pool.sched.renew job.segment.leaseKey w with
  | (some segment, sched) =>
    ({ pool with sched := sched }.noteCarried [segment] job.lineage).put w
      (match backoff with
        | none => .starting { job with segment := segment }
        | some backoff => .vacating { job with segment := segment } backoff)
  | (none, sched) =>
    { pool with sched := sched }.leave w (reservationOf job)
      (.internal (if backoff.isSome then "cannot renew adaptive retry lease"
        else "cannot renew hedge winner lease"))

def vacate (backoff : Nat) : Pool n :=
  ((pool.releaseSlots 1).put w (.sleeping job (pool.now + backoff))).owe w

def awaken (wakeAt : Nat) : Option (Pool n) :=
  if wakeAt ≤ pool.now then some (pool.put w (.reacquiring job)) else none

def reacquire : Option (Pool n) :=
  if 0 < pool.slotsFree then
    some ({ pool with slotsFree := pool.slotsFree - 1 }.put w
      (.starting { job with observation := .new }))
  else none

def stopBackoff : Option (Pool n) :=
  (stopSignalError pool.stop).map fun error => pool.put w (.reclaiming job false error)

def stopScheduler (error : DownloadError) : Option (Pool n) :=
  (pool.sched.stopAndReclaim job.segment.leaseKey).map fun sched =>
    { pool with sched := sched }.put w (.closing true (some error))

def reclaim (slot : Bool) (error : DownloadError) : Option (Pool n) :=
  (pool.sched.reclaim job.segment.leaseKey).map fun (_, sched) =>
    { pool with sched := sched }.put w (.closing slot (some error))

def deliver : Option (Party n × WriterReply) → Pool n
  | none => pool
  | some (.worker w, reply) =>
    { pool with
      workers := Function.update pool.workers w { pool.workers w with mailbox := some reply } }
  | some (.monitor, reply) => { pool with monitor := { pool.monitor with mailbox := some reply } }

/-- The writer takes the next command.  If it fails, the channel goes with it. -/
def write : Option (Pool n) :=
  if pool.writerStatus ≠ .running then none
  else
    match pool.channel with
    | [] => none
    | command :: commands =>
      match pool.writer.process command with
      | .ok writer =>
        some ({ pool with channel := commands, writer := writer }.deliver
          (pool.writer.reply writer command))
      | .error (_, writer) =>
        some { pool with channel := [], writer := writer, writerStatus := .failed }

def exitedPc : Pc → Bool
  | .exited _ => true
  | _ => false

def finishWriter : Option (Pool n) :=
  if pool.writerStatus ≠ .running ∨ pool.channel ≠ [] ∨ pool.monitor.holdsSender ∨
      ¬ ∀ w, exitedPc (pool.workers w).pc then none
  else
    match pool.writer.finish with
    | .ok writer => some { pool with writer := writer, writerStatus := .finished }
    | .error (_, writer) => some { pool with writer := writer, writerStatus := .failed }

def setMonitor (pc : MonitorPc) : Pool n :=
  { pool with monitor := { pool.monitor with pc := pc } }

/-- A checkpoint is due.  Without a live channel it needs a writer that ended well. -/
def persist (reason : ControlSaveReason) (live : Bool) : Option (Pool n) :=
  if pool.monitor.pc ≠ .idle ∨ (live ∧ ¬ pool.monitor.holdsSender) ∨
      (¬ live ∧ pool.writerStatus ≠ .finished) then none
  else if reason = .terminal then some (pool.setMonitor (.freezing reason live))
  else
    let (due, tracker) := pool.monitor.tracker.shouldSave reason pool.sched.completedBytes
      cfg.autosaveSyncEvery
    some { pool with monitor := { pool.monitor with
      tracker := tracker
      pc := if due then .freezing reason live else .idle } }

def snapshot : ControlSnapshot where
  url := cfg.url
  totalSize := cfg.total
  pieceSize := pool.sched.pieceMap.pieceSize
  pieceCount := pool.sched.pieceCount
  completedBitset := pool.sched.snapshotBitset
  downloadedBytes := pool.sched.completedBytes
  etag := cfg.baseline.etag
  lastModified := cfg.baseline.lastModified

def freeze : Option (Pool n) :=
  match pool.monitor.pc with
  | .freezing reason live =>
    let snapshot := snapshot cfg pool
    if reason ≠ .terminal ∧
        snapshot.downloadedBytes ≤ pool.monitor.tracker.lastSavedDownloadedBytes then
      some (pool.setMonitor .idle)
    else some (pool.setMonitor (if live then .frozen snapshot else .saving snapshot))
  | _ => none

def requestSync : Option (Pool n) :=
  match pool.monitor.pc with
  | .frozen snapshot =>
    if pool.writerStatus ≠ .running then some (pool.setMonitor .idle)
    else if pool.hasCapacity cfg then
      some ((pool.post (.flushAll true .monitor)).setMonitor (.syncing snapshot))
    else none
  | _ => none

def confirmSync : Option (Pool n) :=
  match pool.monitor.pc with
  | .syncing snapshot =>
    if pool.monitor.mailbox.isSome then
      some { pool with monitor := { pool.monitor with
        mailbox := none
        pc := .saving snapshot } }
    else if pool.writerStatus ≠ .running then some (pool.setMonitor .idle)
    else none
  | _ => none

def noteSaved (snapshot : ControlSnapshot) : Pool n :=
  pool.log fun history => { history with saved := history.saved ++ [snapshot] }

def save (fault : Option SaveFault) : Option (Pool n) :=
  match pool.monitor.pc with
  | .saving snapshot =>
    match saveSync pool.files snapshot fault with
    | (true, files) =>
      some ({ pool with
        files := files
        monitor := { pool.monitor with
          pc := .idle
          tracker := .markSaved snapshot.downloadedBytes } }.noteSaved snapshot)
    | (false, files) => some ({ pool with files := files }.setMonitor .idle)
  | _ => none

def dropSender : Option (Pool n) :=
  if pool.monitor.pc = .idle then
    some { pool with monitor := { pool.monitor with holdsSender := false } }
  else none

def Pc.notified : Pc → Pc
  | .registered _ => .registered true
  | .parked _ deadline => .parked true deadline
  | pc => pc

/-- `notify_waiters` reaches every registered worker, waiting or about to wait. -/
def notify : Option (Pool n) :=
  if (pool.workers w).owes then
    some { pool with workers := fun other =>
      { pool.workers other with
        pc := Pc.notified (pool.workers other).pc
        owes := (pool.workers other).owes && other != w } }
  else none

def Pc.slots : Pc → Nat
  | .top | .registered _ | .parked _ _ | .exited _ => 0
  | .running job => 1 + job.challenger.toList.length
  | .spare _ _ => 2
  | .sleeping _ _ | .reacquiring _ => 0
  | .reclaiming _ slot _ | .closing slot _ => slot.toNat
  | _ => 1

def Pc.reservations : Pc → List Reservation
  | .starting job | .copying job | .completing job | .flushing job | .recording job
  | .renewing job _ => reservationOf job
  | .running job => job.challenger.toList.map Challenger.reservation
  | .interrupted _ (.recover reservation) => [reservation]
  | .interrupted _ (.staged staged) => [staged.reservation]
  | .settling _ cause _ | .settleWait _ cause _ | .settled _ cause _ | .crediting _ cause _
  | .releasing _ cause _ => Cause.reservations cause
  | .releasingRest _ reservation | .refunding reservation => [reservation]
  | _ => []

def Pc.hedging : Pc → Bool
  | .running job => job.challenger.isSome
  | _ => false

/-- The monitor aborts a task: its local variables are dropped where it stands. -/
def abort : Option (Pool n) :=
  let pc := (pool.workers w).pc
  if exitedPc pc then none
  else
    some ((((pool.withRecovery fun state =>
      (Pc.reservations pc).foldl RecoveryState.refund
        { state with hedge := state.hedge && !Pc.hedging pc }).releaseSlots (Pc.slots pc)).put w
          (.exited (some .cancelled))).owe w)

end Pool

inductive WorkerAction
  | advance
  | inspect (occupied : Nat)
  | stop
  | respond (response : HttpResponse)
  | chunk (data : List UInt8)
  | eof
  | forward
  | fail (error : DownloadError)
  | handOff
  | advise
  | hedgeRespond (response : HttpResponse)
  | hedgeChunk (data : List UInt8)
  | hedgeEof
  | hedgeFail (error : DownloadError)
  | decide (reading : Bool) (later jitter : Nat)
  deriving DecidableEq, Repr

inductive Action (n : Nat)
  | worker (w : Fin n) (action : WorkerAction)
  | notify (w : Fin n)
  | abort (w : Fin n)
  | write
  | finishWriter
  | persist (reason : ControlSaveReason) (live : Bool)
  | freeze
  | requestSync
  | confirmSync
  | save (fault : Option SaveFault)
  | dropSender
  | tick (elapsed : Nat)
  | signal (stop : StopSignal)
  deriving DecidableEq, Repr

namespace Pool

variable {n : Nat}

def advance (cfg : PoolConfig) (pool : Pool n) (w : Fin n) : Pc → Option (Pool n)
  | .top => some (pool.enter w)
  | .parked woken deadline => pool.wake w woken deadline
  | .claimed segment queued initial => some (findLineage cfg pool w segment queued initial)
  | .starting job => begin cfg pool w job
  | .running job => pool.boundary w job
  | .advised job hedgeEligible at' => some (pool.trySpare w job hedgeEligible at')
  | .spare job at' => some (reserveHedge cfg pool w job at')
  | .cancelling job at' => some (reserveCancel cfg pool w job at')
  | .copying job => copy cfg pool w job
  | .completing job => sendFlush cfg pool w job
  | .flushing job => pool.complete w job
  | .recording job => some (pool.record w job)
  | .settling job cause retain => sendSettle cfg pool w job cause retain
  | .settleWait job cause retain => pool.settle w job cause retain
  | .settled job cause kept => some (noteBackoff cfg pool w job cause kept)
  | .crediting job cause kept => some (pool.credit w job cause kept)
  | .releasing job cause retain => release cfg pool w job cause retain
  | .releasingRest job reservation => releaseRest cfg pool w job reservation
  | .refunding reservation => some (pool.refund w reservation)
  | .counting job backoff => some (pool.count w job backoff)
  | .renewing job backoff => some (pool.renew w job backoff)
  | .vacating job backoff => some (pool.vacate w job backoff)
  | .sleeping job wakeAt => pool.awaken w job wakeAt
  | .reacquiring job => pool.reacquire w job
  | .stopping job error => pool.stopScheduler w job error
  | .reclaiming job slot error => pool.reclaim w job slot error
  | .closing slot exit => some (pool.close w slot exit)
  | .registered _ | .interrupted _ _ | .exited _ => none

def workerStep (cfg : PoolConfig) (pool : Pool n) (w : Fin n) :
    Pc → WorkerAction → Option (Pool n)
  | pc, .advance => advance cfg pool w pc
  | .registered woken, .inspect occupied => inspect cfg pool w woken occupied
  | .parked _ _, .stop => pool.stopWaiting w
  | .copying job, .stop => pool.stopCopy w job
  | .sleeping job _, .stop => pool.stopBackoff w job
  | .reacquiring job, .stop => pool.stopBackoff w job
  | .running job, .respond response => respond cfg pool w job response
  | .running job, .chunk data => pool.chunk w job data
  | .running job, .eof => pool.eof w job
  | .running job, .forward => forward cfg pool w job
  | .running job, .fail error => some (pool.fail w job error)
  | .running job, .handOff => handOff cfg pool w job
  | .running job, .advise => advise cfg pool w job
  | .running job, .hedgeRespond response => hedgeRespond cfg pool w job response
  | .running job, .hedgeChunk data => hedgeChunk cfg pool w job data
  | .running job, .hedgeEof => hedgeEof cfg pool w job
  | .running job, .hedgeFail error => hedgeFail cfg pool w job error
  | .interrupted job outcome, .decide reading later jitter =>
    some (decideOutcome cfg pool w job outcome reading later jitter)
  | _, _ => none

/-- One step of the pool.  A worker that owes a notification delivers it first. -/
def step (cfg : PoolConfig) (pool : Pool n) : Action n → Option (Pool n)
  | .worker w action =>
    if (pool.workers w).owes then none
    else workerStep cfg pool w (pool.workers w).pc action
  | .notify w => pool.notify w
  | .abort w => pool.abort w
  | .write => pool.write
  | .finishWriter => pool.finishWriter
  | .persist reason live => persist cfg pool reason live
  | .freeze => freeze cfg pool
  | .requestSync => requestSync cfg pool
  | .confirmSync => pool.confirmSync
  | .save fault => pool.save fault
  | .dropSender => pool.dropSender
  | .tick elapsed => some { pool with now := pool.now + elapsed }
  | .signal stop => if stop = .running then none else some { pool with stop := stop }

def start (pieceMap : PieceMap) (file : DiskFile) (watermark : Nat)
    (probe : Option (HttpResponse × Nat)) (files : ControlFiles) : Pool n where
  sched := SchedulerState.new pieceMap
  recovery := RecoveryState.new
  lineages := []
  slotsFree := n
  probe := probe
  received := pieceMap.completedBytes
  workers := fun _ => Worker.new
  channel := []
  writer := WriterTask.new file watermark
  writerStatus := .running
  monitor := ⟨.idle, none, .new pieceMap.completedBytes, true⟩
  files := files
  now := 0
  stop := .running
  history := {
    acked := History.completedSpans pieceMap
    reported := History.completedSpans pieceMap
    carried := []
    charges := []
    handedOver := []
    contributed := []
    saved := [] }

end Pool

end Bytehaul.Session
