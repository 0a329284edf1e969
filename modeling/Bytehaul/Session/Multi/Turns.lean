import Bytehaul.Session.Multi.Facts

/-!
# One step of a worker

`Turn` says once what a worker can do.
-/

namespace Bytehaul.Session

open Foundation Foundation.DiskFile Storage Scheduler Option SchedulerState

inductive Job.Begins (job : Job) : Pc → Prop
  | copy (hstaged : job.staged.isSome = true) : Begins job (.copying { job with forwarded := 0 })
  | stop (hstaged : job.staged = none) (error : DownloadError) :
      Begins job (.interrupted { job with forwarded := 0 } (.failed error))
  | run (hstaged : job.staged = none) : Begins job (.running { job with forwarded := 0 })

inductive Job.Proceeds (job : Job) : Pc → Prop
  | winner {staged} (hstaged : job.staged = some staged) :
      Proceeds job (.refunding { staged.reservation with cost := job.waste })
  | next {segment queued} (hstaged : job.staged = none) (hqueued : job.queued = segment :: queued) :
      Proceeds job (.starting { job with segment := segment, queued := queued })
  | done (hstaged : job.staged = none) (hqueued : job.queued = []) :
      Proceeds job (.closing true none)

/-- Which leases go to recovery at a point, and where the worker goes on. -/
inductive Job.Releases (job : Job) : Pc → WorkerAction → List Segment → Pc → Prop
  | handOff :
      Releases job (.running job) .handOff job.queued (.running { job with queued := [] })
  | suffix {reservation} :
      Releases job (.releasing job (.recover reservation) true) .advance [job.segment]
        (.releasingRest job { reservation with cost := job.waste })
  | all {reservation} :
      Releases job (.releasing job (.recover reservation) false) .advance job.leases
        (.refunding { reservation with cost := job.waste })
  | winner {staged retain} :
      Releases job (.releasing job (.staged staged) retain) .advance job.queued
        (.renewing { job with queued := [], staged := some staged } none)
  | again {error retries backoff elapsed retain} :
      Releases job (.releasing job (.failed (.retry error retries backoff elapsed)) retain)
        .advance job.queued (.counting { job with queued := [] } backoff)
  | rest {reservation} :
      Releases job (.releasingRest job reservation) .advance job.queued (.refunding reservation)

theorem Job.Releases.sound {cfg : PoolConfig} {G : Nat → UInt8 → Prop} {job : Job} {pc after : Pc}
    {act : WorkerAction} {segs : List Segment} (h : job.Releases pc act segs after)
    (hsound : pc.Sound cfg G) : after.Sound cfg G := by
  cases h with
  | handOff => exact ⟨hsound.1.alone hsound.2, hsound.2⟩
  | suffix => exact hsound.1.proper
  | winner => exact ⟨hsound.1.waits (by rintro _ ⟨⟩; exact hsound.2) nofun, rfl⟩
  | again =>
    have hwaits : { job with queued := [], observation := .new }.Waits cfg G :=
      hsound.1.waits (by simp [hsound.1.staged]) fun _ => rfl
    exact ⟨hwaits, rfl⟩
  | all | rest => trivial

namespace Pool

variable {n : Nat}

/-! ## What a worker can do -/

def refunded (pool : Pool n) (reservations : List Reservation) : Pool n :=
  pool.withRecovery fun state => reservations.foldl RecoveryState.refund state

def granted (pool : Pool n) (sched : SchedulerState) (pending : List PendingRange)
    (segment : Segment) : Pool n :=
  { pool with
    sched := sched
    recovery := { pool.recovery with pending := pending }
    slotsFree := pool.slotsFree - 1
    probe := if (pool.probe.filter (probeMatches · segment)).isSome then none else pool.probe }

def charged (cfg : PoolConfig) (pool : Pool n) (job : Job) (decision : RetryDecision)
    (retries : RetryState) : Pool n :=
  let charged := pool.setLineage job.lineage
    { pool.lineageAt cfg job.lineage with retries := retries }
  if grantsRetry decision then charged.noteCharge .retry job else charged

def Defers (pool base : Pool n) : Prop :=
  base = pool ∨ ∃ until', base = pool.withRecovery (·.backoff until')

section Turn

variable (cfg : PoolConfig) (pool : Pool n) (w : Fin n)

/-- The points that a worker leaves when the writer has gone. -/
inductive Sending (job : Job) : Pc → Prop
  | starting : Sending job (.starting job)
  | copying (hmore : job.forwarded < job.len) : Sending job (.copying job)
  | completing : Sending job (.completing job)
  | flushing (hmail : (pool.workers w).mailbox = none) : Sending job (.flushing job)

/-- What a worker does at a point: the pool but for the point it goes to, and that point. -/
inductive Turn : Pc → WorkerAction → Pool n → Pc → Prop
  | halt {error} : Turn .top .advance pool (.exited (some error))
  | register : Turn .top .advance pool (.registered false)
  | wake {woken deadline} : Turn (.parked woken deadline) .advance pool .top
  | stopWaiting {woken deadline error} :
      Turn (.parked woken deadline) .stop pool (.exited (some error))
  | finish {woken occupied} : Turn (.registered woken) (.inspect occupied) pool (.exited none)
  | park {woken occupied deadline} :
      Turn (.registered woken) (.inspect occupied) pool (.parked woken deadline)
  | take {woken occupied assignment sched segment queued}
      (hpending : pool.recovery.pending = [])
      (hassign : pool.sched.assignRequestWithTrace w
        (requestParams cfg n occupied pool.probe.isNone) = some (some assignment, sched))
      (hsegments : assignment.segments = segment :: queued) :
      Turn (.registered woken) (.inspect occupied)
        (pool.granted sched pool.recovery.pending segment)
        (.claimed segment queued ((pool.probe.filter (probeMatches · segment)).map Prod.fst))
  | refuse {woken occupied sched}
      (hassign : pool.sched.assignRequestWithTrace w
        (requestParams cfg n occupied pool.probe.isNone) = some (none, sched)) :
      Turn (.registered woken) (.inspect occupied) { pool with sched := sched } (.parked woken none)
  | retake {woken occupied range rest sched segment queued}
      (hpending : pool.recovery.pending = range :: rest)
      (hassign : pool.sched.assignRecoveryBatch
        ((range.takePrefix (n - occupied)).1.map PendingPiece.entry) w =
          some (some (segment :: queued), sched)) :
      Turn (.registered woken) (.inspect occupied)
        (pool.granted sched (if (range.takePrefix (n - occupied)).2.pieces = [] then rest
          else (range.takePrefix (n - occupied)).2 :: rest) segment)
        (.claimed segment queued ((pool.probe.filter (probeMatches · segment)).map Prod.fst))
  | putBack {woken occupied range rest sched} (hpending : pool.recovery.pending = range :: rest)
      (hassign : pool.sched.assignRecoveryBatch
        ((range.takePrefix (n - occupied)).1.map PendingPiece.entry) w = some (none, sched)) :
      Turn (.registered woken) (.inspect occupied)
        { pool with
          sched := sched
          recovery := { pool.recovery with
            pending := (range.takePrefix (n - occupied)).2.prepend
              (range.takePrefix (n - occupied)).1 :: rest } }
        (.parked woken none)
  | adopt {segment queued initial lineage}
      (hfound : pool.recovery.lineageOf segment = some lineage) :
      Turn (.claimed segment queued initial) .advance
        (pool.noteCarried (segment :: queued) lineage)
        (.starting (newJob segment queued lineage initial))
  | create {segment queued initial} (hfound : pool.recovery.lineageOf segment = none) :
      Turn (.claimed segment queued initial) .advance
        ({ pool with lineages := pool.lineages ++
          [Lineage.mk (RetryState.new cfg.retry pool.now) 0] }.noteCarried
            (segment :: queued) pool.lineages.length)
        (.starting (newJob segment queued pool.lineages.length initial))
  | begin {job pc} (hstatus : pool.writerStatus = .running) (hbegins : job.Begins pc) :
      Turn (.starting job) .advance (pool.post (.beginLease job.segment.leaseKey)) pc
  | lost {job pc} (hsending : Sending pool w job pc) (hgone : pool.writerStatus ≠ .running) :
      Turn pc .advance (pool.refunded (reservationOf job)) (.closing true (some .channelClosed))
  | interrupt {job action stream observation error} :
      Turn (.running job) action (pool.dropChallenger w job)
        (.interrupted { job with
          stream := stream
          observation := observation
          challenger := none } (.failed error))
  | accept {job response} (hstream : job.stream = none)
      (haccepted : checkedResponse (.ofJob cfg job job.requestEnd) response = .ok ()) :
      Turn (.running job) (.respond response) pool (.running { job with
        initial := none
        stream := some
          ⟨response, job.segment.start, job.requestEnd - job.segment.start, 0, 0, []⟩ })
  | chunk {job data stream} (hstream : job.stream = some stream) (hempty : stream.buffered = [])
      (hfits : stream.wire + data.length ≤ stream.expected) :
      Turn (.running job) (.chunk data) pool (.running { job with
        stream := some { stream with wire := stream.wire + data.length, buffered := data }
        observation.wire := job.observation.wire + data.length })
  | boundary {job} (hdone : job.forwarded = job.len) :
      Turn (.running job) .advance (pool.dropChallenger w job)
        (.completing { job with challenger := none })
  | eof {job stream} (hstream : job.stream = some stream) (hempty : stream.buffered = [])
      (hdone : stream.wire = stream.expected) :
      Turn (.running job) .eof (pool.dropChallenger w job)
        (.completing { job with challenger := none })
  | forward {job stream len} (hstream : job.stream = some stream)
      (hlen : len = min (min stream.buffered.length cfg.maxChunk) (job.len - job.forwarded))
      (hstatus : pool.writerStatus = .running) :
      Turn (.running job) .forward
        ((pool.sendData job (stream.buffered.take len)).noteContributed stream.response)
        (.running { job with
          forwarded := job.forwarded + len
          stream := some { stream with
            consumed := stream.consumed + len
            buffered := stream.buffered.drop len }
          observation.enqueued := job.observation.enqueued + len })
  | advise {job eligible} (hchallenger : job.challenger = none) (hat : ¬ atBoundary job = true)
      (hleft : job.forwarded < remainingEnd job - job.segment.start)
      (heligible : eligible = true → job.requestEnd = job.segment.stop) :
      Turn (.running job) .advise pool (.advised job eligible pool.now)
  | spare {job eligible at'} (heligible : eligible = true) :
      Turn (.advised job eligible at') .advance { pool with slotsFree := pool.slotsFree - 1 }
        (.spare job at')
  | cancel {job eligible at'} :
      Turn (.advised job eligible at') .advance pool (.cancelling job at')
  | hedge {job at' reservation state lineage}
      (hreserve : pool.recovery.reserveResult cfg.extraLimit job.len
        (pool.lineageAt cfg job.lineage) true at' = .ok (reservation, state, lineage)) :
      Turn (.spare job at') .advance (pool.reserved job state lineage)
        (.running { job with challenger := some ⟨{ reservation with cost := 0 }, none⟩ })
  | overBudget {job at'} :
      Turn (.spare job at') .advance (pool.releaseSlots 1) (.cancelling job at')
  | unhedged {job at'} : Turn (.spare job at') .advance (pool.releaseSlots 1) (.running job)
  | giveUp {job at' reservation state lineage}
      (hreserve : pool.recovery.reserveResult cfg.extraLimit (cancellationCostBound cfg job)
        (pool.lineageAt cfg job.lineage) false at' = .ok (reservation, state, lineage)) :
      Turn (.cancelling job at') .advance ((pool.reserved job state lineage).dropChallenger w job)
        (.interrupted { job with challenger := none } (.recover reservation))
  | carryOn {job at'} : Turn (.cancelling job at') .advance pool (.running job)
  | hedgeAccept {job response reservation} (hchallenger : job.challenger = some ⟨reservation, none⟩)
      (haccepted : checkedResponse (.ofJob cfg job job.segment.stop) response = .ok ())
      (hframed : response.framedLength = some job.len) :
      Turn (.running job) (.hedgeRespond response) pool (.running { job with
        challenger := some ⟨reservation, some ⟨response, []⟩⟩ })
  | hedgeChunk {job data reservation staging}
      (hchallenger : job.challenger = some ⟨reservation, some staging⟩)
      (hfits : staging.data.length + data.length ≤ job.len) :
      Turn (.running job) (.hedgeChunk data) pool (.running { job with
        challenger := some ⟨{ reservation with cost := staging.data.length + data.length },
          some { staging with data := staging.data ++ data }⟩ })
  | hedgeOverrun {job data reservation staging}
      (hchallenger : job.challenger = some ⟨reservation, some staging⟩)
      (hover : job.len < staging.data.length + data.length) :
      Turn (.running job) (.hedgeChunk data)
        (pool.dropChallenger w { job with
          challenger := some
            ⟨{ reservation with cost := staging.data.length + data.length }, some staging⟩ })
        (.running { job with challenger := none })
  | hedgeEof {job reservation staging}
      (hchallenger : job.challenger = some ⟨reservation, some staging⟩)
      (hlength : staging.data.length = job.len) :
      Turn (.running job) .hedgeEof
        (((pool.withRecovery fun state => { state with hedge := false }).releaseSlots 1).owe w)
        (.interrupted { job with challenger := none }
          (.staged ⟨reservation, staging.response, staging.data⟩))
  | dropHedge {job action base} (hdefers : Defers (pool.dropChallenger w job) base) :
      Turn (.running job) action base (.running { job with challenger := none })
  | copied {job} (hdone : job.len ≤ job.forwarded) :
      Turn (.copying job) .advance pool (.completing job)
  | copy {job staged len} (hstaged : job.staged = some staged)
      (hlen : len = min (job.len - job.forwarded) (min cfg.maxChunk (64 * 1024)))
      (hstatus : pool.writerStatus = .running) :
      Turn (.copying job) .advance
        ((pool.sendData job ((staged.data.drop job.forwarded).take len)).noteContributed
          staged.response)
        (.copying { job with forwarded := job.forwarded + len })
  | stopCopy {job error} :
      Turn (.copying job) .stop (pool.refunded (reservationOf job)) (.closing true (some error))
  | flush {job} (hstatus : pool.writerStatus = .running) :
      Turn (.completing job) .advance
        (pool.post (.flushLease job.segment.leaseKey (.worker w))) (.flushing job)
  | complete {job sched} (hmail : (pool.workers w).mailbox.isSome = true)
      (hcomplete : pool.sched.complete job.segment.leaseKey = some (true, sched)) :
      Turn (.flushing job) .advance
        (({ pool with sched := sched }.noteAcked job.segment.span).takeMail w) (.recording job)
  | completeStale {job sched error}
      (hcomplete : pool.sched.complete job.segment.leaseKey = some (false, sched)) :
      Turn (.flushing job) .advance
        (({ pool with sched := sched }.takeMail w).refunded (reservationOf job))
        (.closing true (some error))
  | record {job pc} (hproceeds : job.Proceeds pc) :
      Turn (.recording job) .advance
        (((pool.withRecovery fun state => state.completed job.segment job.lineage).noteReported
          job.segment.span).owe w) pc
  | settleRecover {job reservation reading later jitter} :
      Turn (.interrupted job (.recover reservation)) (.decide reading later jitter) pool
        (.settling (settleJob job (retains cfg job true)) (.recover reservation)
          (retains cfg job true))
  | settleStaged {job staged reading later jitter} :
      Turn (.interrupted job (.staged staged)) (.decide reading later jitter) pool
        (.settling (settleJob job false) (.staged staged) false)
  | settleFailed {job error reading later jitter decision retries}
      (hdecision : retryDecision cfg pool job error reading later jitter = (decision, retries)) :
      Turn (.interrupted job (.failed error)) (.decide reading later jitter)
        (charged cfg pool job decision retries)
        (.settling (settleJob job (retains cfg job (grantsRetry decision))) (.failed decision)
          (retains cfg job (grantsRetry decision)))
  | settleLost {job cause pc}
      (hpc : (∃ retain, pc = .settling job cause retain) ∨ pc = .settleWait job cause true)
      (hgone : pool.writerStatus ≠ .running) :
      Turn pc .advance
        { pool.refunded (Cause.reservations cause) with received := pool.received - job.forwarded }
        (.reclaiming job true .channelClosed)
  | discardLost {job cause} (hgone : pool.writerStatus ≠ .running) :
      Turn (.settleWait job cause false) .advance (pool.refunded (Cause.reservations cause))
        (.reclaiming job true .channelClosed)
  | settleFlush {job cause} (hstatus : pool.writerStatus = .running) :
      Turn (.settling job cause true) .advance
        (pool.post (.flushLease job.segment.leaseKey (.worker w))) (.settleWait job cause true)
  | settleDiscard {job cause} (hstatus : pool.writerStatus = .running) :
      Turn (.settling job cause false) .advance
        { pool.post (.discardLease job.segment.leaseKey (.worker w)) with
          received := pool.received - job.forwarded }
        (.settleWait job cause false)
  | retain {job cause sched} (hmail : (pool.workers w).mailbox.isSome = true)
      (hretain : pool.sched.retainPrefix job.segment.leaseKey
        (job.segment.start + job.forwarded) = (true, sched)) :
      Turn (.settleWait job cause true) .advance
        (({ pool with sched := sched }.noteAcked
          ⟨job.segment.start, job.segment.start + job.forwarded⟩).takeMail w)
        (.settled
          { job with segment := { job.segment with start := job.segment.start + job.forwarded } }
          cause (some { job.segment with stop := job.segment.start + job.forwarded }))
  | retainStale {job cause sched error}
      (hretain : pool.sched.retainPrefix job.segment.leaseKey
        (job.segment.start + job.forwarded) = (false, sched)) :
      Turn (.settleWait job cause true) .advance
        ({ pool.refunded (Cause.reservations cause) with
          sched := sched
          received := pool.received - job.forwarded }.takeMail w)
        (.reclaiming job true error)
  | discard {job cause} (hmail : (pool.workers w).mailbox.isSome = true) :
      Turn (.settleWait job cause false) .advance (pool.takeMail w) (.settled job cause none)
  | defer {job cause kept base} (hdefers : Defers pool base) :
      Turn (.settled job cause kept) .advance base (.crediting job cause kept)
  | credit {job cause confirmed} :
      Turn (.crediting job cause (some confirmed)) .advance
        ((pool.withRecovery fun state => state.completed confirmed job.lineage).noteReported
          confirmed.span)
        (.releasing job cause true)
  | uncredited {job cause} :
      Turn (.crediting job cause none) .advance pool (.releasing job cause false)
  | recover {job : Job} {pc action segments pc' after base}
      (hreleases : job.Releases pc action segments pc')
      (hrecover : Pool.recover cfg pool segments job.lineage = some after)
      (hbase : base = after ∨ base = after.owe w) : Turn pc action base pc'
  | stop {job error retain} :
      Turn (.releasing job (.failed (.stop error)) retain) .advance pool (.stopping job error)
  | refund {reservation} :
      Turn (.refunding reservation) .advance (pool.refunded [reservation]) (.closing true none)
  | count {job backoff} :
      Turn (.counting job backoff) .advance
        ((pool.withRecovery fun state => { state with retries := state.retries + 1 }).owe w)
        (.renewing job (some backoff))
  | renewWinner {job segment sched}
      (hrenew : pool.sched.renew job.segment.leaseKey w = (some segment, sched)) :
      Turn (.renewing job none) .advance
        ({ pool with sched := sched }.noteCarried [segment] job.lineage)
        (.starting { job with segment := segment })
  | renew {job backoff segment sched}
      (hrenew : pool.sched.renew job.segment.leaseKey w = (some segment, sched)) :
      Turn (.renewing job (some backoff)) .advance
        ({ pool with sched := sched }.noteCarried [segment] job.lineage)
        (.vacating { job with segment := segment } backoff)
  | renewStale {job backoff sched error}
      (hrenew : pool.sched.renew job.segment.leaseKey w = (none, sched)) :
      Turn (.renewing job backoff) .advance
        ({ pool with sched := sched }.refunded (reservationOf job)) (.closing true (some error))
  | vacate {job backoff} :
      Turn (.vacating job backoff) .advance ((pool.releaseSlots 1).owe w)
        (.sleeping job (pool.now + backoff))
  | awaken {job wakeAt} : Turn (.sleeping job wakeAt) .advance pool (.reacquiring job)
  | reacquire {job} :
      Turn (.reacquiring job) .advance { pool with slotsFree := pool.slotsFree - 1 }
        (.starting { job with observation := .new })
  | stopSleep {job wakeAt error} :
      Turn (.sleeping job wakeAt) .stop pool (.reclaiming job false error)
  | stopBackoff {job error} : Turn (.reacquiring job) .stop pool (.reclaiming job false error)
  | stopScheduler {job error sched}
      (hstop : pool.sched.stopAndReclaim job.segment.leaseKey = some sched) :
      Turn (.stopping job error) .advance { pool with sched := sched } (.closing true (some error))
  | reclaim {job slot error given sched}
      (hreclaim : pool.sched.reclaim job.segment.leaseKey = some (given, sched)) :
      Turn (.reclaiming job slot error) .advance { pool with sched := sched }
        (.closing slot (some error))
  | close {slot} : Turn (.closing slot none) .advance ((pool.releaseSlots slot.toNat).owe w) .top
  | exit {slot error} :
      Turn (.closing slot (some error)) .advance ((pool.releaseSlots slot.toNat).owe w)
        (.exited (some error))

end Turn

/-! ## Every step is a turn -/

variable {cfg : PoolConfig} {G : Nat → UInt8 → Prop} {pool next base : Pool n} {w : Fin n}
  {job : Job} {pc after : Pc} {act : WorkerAction} {outcome : Outcome} {cause : Cause}
  {seg : Segment} {acked : List Span}

def Turns (cfg : PoolConfig) (pool : Pool n) (w : Fin n) (pc : Pc) (action : WorkerAction)
    (next : Pool n) : Prop :=
  ∃ base after, Turn cfg pool w pc action base after ∧ next = base.put w after

theorem owe_put (pool : Pool n) (w : Fin n) (pc : Pc) :
    (pool.put w pc).owe w = (pool.owe w).put w pc := by
  simp [put, owe]

theorem claim_turns {woken : Bool} {occ : Nat} {sched : SchedulerState}
    {pending : List PendingRange} {segs : List Segment}
    (hturn : ∀ seg queued, segs = seg :: queued →
      Turn cfg pool w (.registered woken) (.inspect occ) (pool.granted sched pending seg)
        (.claimed seg queued ((pool.probe.filter (probeMatches · seg)).map Prod.fst)))
    (hstep : pool.claim w sched pending segs = some next) :
    Turns cfg pool w (.registered woken) (.inspect occ) next := by
  cases segs with
  | nil => cases hstep
  | cons seg queued =>
    cases hstep
    exact ⟨_, _, hturn seg queued rfl, rfl⟩

theorem inspect_turns {woken : Bool} {occ : Nat}
    (hstep : inspect cfg pool w woken occ = some next) :
    Turns cfg pool w (.registered woken) (.inspect occ) next := by
  unfold inspect at hstep
  split at hstep
  · cases hstep
    exact ⟨_, _, .finish, rfl⟩
  split at hstep
  · cases hstep
    exact ⟨_, _, .park, rfl⟩
  split at hstep
  · cases hstep
  split at hstep
  · cases hstep
    exact ⟨_, _, .park, rfl⟩
  split at hstep
  · rename_i range rest hpend
    simp only [assignRecovered] at hstep
    split at hstep
    · rename_i segs sched hasg
      refine claim_turns (fun seg queued hsegs => ?_) hstep
      subst hsegs
      exact .retake hpend hasg
    · rename_i sched hasg
      cases hstep
      exact ⟨_, _, .putBack hpend hasg, rfl⟩
    · cases hstep
  · rename_i hpend
    simp only [assignOrdinary] at hstep
    split at hstep
    · rename_i asg sched hasg
      exact claim_turns (fun _ _ hsegs => .take hpend hasg hsegs) hstep
    · rename_i sched hasg
      cases hstep
      exact ⟨_, _, .refuse hasg, rfl⟩
    · cases hstep

theorem recover_turns {segs : List Segment} {after : Pool n} {pc' : Pc}
    (hrels : job.Releases pc act segs pc')
    (hrecv : recover cfg pool segs job.lineage = some after) :
    Turns cfg pool w pc act (after.put w pc') ∧
      Turns cfg pool w pc act ((after.put w pc').owe w) :=
  ⟨⟨_, _, .recover hrels hrecv (.inl rfl), rfl⟩,
    ⟨_, _, .recover hrels hrecv (.inr rfl), owe_put ..⟩⟩

theorem hedgeFailure_turns (failure : CandidateFailure) :
    Turns cfg pool w (.running job) act (hedgeFailure cfg pool w job failure) := by
  unfold hedgeFailure
  split
  · exact ⟨_, _, .interrupt, rfl⟩
  · cases hsecs : failure.error.retryAfterSecs with
    | none => exact ⟨_, _, .dropHedge (.inl rfl), rfl⟩
    | some secs => exact ⟨_, _, .dropHedge (.inr ⟨_, rfl⟩), rfl⟩

theorem running_turns (haction : act ≠ .advance)
    (hstep : workerStep cfg pool w (.running job) act = some next) :
    Turns cfg pool w (.running job) act next := by
  have hemp : ∀ stream : RequestStream,
      ¬ (atBoundary job || decide (stream.buffered ≠ [])) = true → stream.buffered = [] := by
    intro stream hnot
    simp only [Bool.or_eq_true, not_or] at hnot
    simpa using hnot.2
  cases act with
  | advance => exact absurd rfl haction
  | inspect occ | stop | decide reading later jitter => cases hstep
  | respond resp =>
    simp only [workerStep, respond] at hstep
    split at hstep
    · cases hstep
    rename_i hguard
    split at hstep
    · cases hstep
      exact ⟨_, _, .interrupt, rfl⟩
    · rename_i hacc
      cases hstep
      exact ⟨_, _, .accept (by simpa using (not_or.mp hguard).1) hacc, rfl⟩
  | chunk data =>
    simp only [workerStep, Pool.chunk] at hstep
    split at hstep
    · cases hstep
    rename_i stream hstr
    split at hstep
    · cases hstep
    rename_i hnot
    split at hstep
    · cases hstep
      exact ⟨_, _, .interrupt, rfl⟩
    · rename_i hfits
      cases hstep
      exact ⟨_, _, .chunk hstr (hemp stream hnot) (Nat.le_of_not_lt hfits), rfl⟩
  | eof =>
    simp only [workerStep, Pool.eof] at hstep
    split at hstep
    · cases hstep
    rename_i stream hstr
    split at hstep
    · cases hstep
    rename_i hnot
    split at hstep
    · cases hstep
      exact ⟨_, _, .interrupt, rfl⟩
    · rename_i hdone
      cases hstep
      exact ⟨_, _, .eof hstr (hemp stream hnot) (not_not.mp hdone), rfl⟩
  | forward =>
    simp only [workerStep, Pool.forward] at hstep
    (repeat' split at hstep)
    all_goals cases hstep
    · exact ⟨_, _, .interrupt, rfl⟩
    · exact ⟨_, _, .forward ‹_› rfl (‹_ ∧ _›).1, rfl⟩
  | fail error =>
    cases hstep
    exact ⟨_, _, .interrupt, rfl⟩
  | handOff =>
    simp only [workerStep, handOff] at hstep
    split at hstep
    · cases hstep
    · obtain ⟨after, hrecv, rfl⟩ := map_eq_some_iff.mp hstep
      exact (recover_turns .handOff hrecv).2
  | advise =>
    simp only [workerStep, Pool.advise] at hstep
    split at hstep
    · cases hstep
    · rename_i hguard
      cases hstep
      push Not at hguard
      refine ⟨_, _, .advise (by simpa using hguard.2.2.1) hguard.2.2.2.2.1 hguard.2.2.2.2.2 ?_, rfl⟩
      intro helig
      simp only [Bool.and_eq_true, decide_eq_true_eq] at helig
      exact helig.1.1.1.1
  | hedgeRespond resp =>
    simp only [workerStep, hedgeRespond] at hstep
    split at hstep
    swap
    · cases hstep
    rename_i resv hchal
    split at hstep
    · cases hstep
      exact hedgeFailure_turns _
    rename_i hacc
    split at hstep
    · cases hstep
      exact hedgeFailure_turns _
    · rename_i hframed
      cases hstep
      push Not at hframed
      exact ⟨_, _, .hedgeAccept hchal hacc hframed.1, rfl⟩
  | hedgeChunk data =>
    simp only [workerStep, Pool.hedgeChunk] at hstep
    split at hstep
    swap
    · cases hstep
    rename_i resv staging hchal
    split at hstep
    · rename_i hover
      cases hstep
      exact ⟨_, _, .hedgeOverrun hchal hover, rfl⟩
    · rename_i hfits
      cases hstep
      exact ⟨_, _, .hedgeChunk hchal (Nat.le_of_not_lt hfits), rfl⟩
  | hedgeEof =>
    simp only [workerStep, Pool.hedgeEof] at hstep
    split at hstep
    swap
    · cases hstep
    rename_i resv staging hchal
    split at hstep
    · cases hstep
      exact hedgeFailure_turns _
    · rename_i hlen
      cases hstep
      exact ⟨_, _, .hedgeEof hchal (not_not.mp hlen), owe_put ..⟩
  | hedgeFail error =>
    simp only [workerStep, hedgeFail] at hstep
    split at hstep
    · cases hstep
      exact hedgeFailure_turns _
    · cases hstep

private theorem decideOutcome_turns (reading : Bool) (later jitter : Nat) :
    Turns cfg pool w (.interrupted job outcome) (.decide reading later jitter)
      (decideOutcome cfg pool w job outcome reading later jitter) := by
  cases outcome with
  | recover resv => exact ⟨_, _, .settleRecover, rfl⟩
  | staged staged => exact ⟨_, _, .settleStaged, rfl⟩
  | failed error => exact ⟨_, _, .settleFailed rfl, rfl⟩

theorem release_turns {retain : Bool} (hstep : release cfg pool w job cause retain = some next) :
    Turns cfg pool w (.releasing job cause retain) .advance next := by
  unfold release at hstep
  split at hstep
  · cases retain with
    | true =>
      obtain ⟨after, hrecv, rfl⟩ := map_eq_some_iff.mp hstep
      exact (recover_turns .suffix hrecv).1
    | false =>
      obtain ⟨after, hrecv, rfl⟩ := map_eq_some_iff.mp hstep
      exact (recover_turns .all hrecv).2
  · obtain ⟨after, hrecv, rfl⟩ := map_eq_some_iff.mp hstep
    exact (recover_turns .winner hrecv).1
  · cases hstep
    exact ⟨_, _, .stop, rfl⟩
  · obtain ⟨after, hrecv, rfl⟩ := map_eq_some_iff.mp hstep
    exact (recover_turns .again hrecv).1

private theorem settle_turns {retain : Bool} (hstep : pool.settle w job cause retain = some next) :
    Turns cfg pool w (.settleWait job cause retain) .advance next := by
  unfold settle at hstep
  split at hstep
  · rename_i hmail
    cases hstep
    cases retain with
    | false => exact ⟨_, _, .discard hmail, rfl⟩
    | true =>
      simp only [if_true, retainForwarded]
      split
      · exact ⟨_, _, .retain hmail ‹_›, rfl⟩
      · exact ⟨_, _, .retainStale ‹_›, rfl⟩
  split at hstep
  · rename_i hgone
    cases hstep
    cases retain with
    | false => exact ⟨_, _, .discardLost hgone, rfl⟩
    | true => exact ⟨_, _, .settleLost (.inr rfl) hgone, rfl⟩
  · cases hstep

theorem advance_turns (hstep : advance cfg pool w pc = some next) :
    Turns cfg pool w pc .advance next := by
  cases pc with
  | registered woken | interrupted job outcome | exited error => cases hstep
  | top =>
    cases hstep
    unfold enter
    split
    · exact ⟨_, _, .halt, rfl⟩
    · exact ⟨_, _, .register, rfl⟩
  | parked woken deadline =>
    simp only [advance, Pool.wake] at hstep
    split at hstep
    · cases hstep
      exact ⟨_, _, .wake, rfl⟩
    · cases hstep
  | claimed seg queued initial =>
    cases hstep
    unfold findLineage
    split
    · exact ⟨_, _, .adopt ‹_›, rfl⟩
    · exact ⟨_, _, .create ‹_›, rfl⟩
  | starting job =>
    simp only [advance, Pool.begin] at hstep
    split at hstep
    · cases hstep
      exact ⟨_, _, .lost .starting ‹_›, rfl⟩
    rename_i hstat
    split at hstep
    · cases hstep
      refine ⟨_, _, .begin (not_not.mp hstat) ?_, rfl⟩
      split
      · exact .copy ‹_›
      · split
        · exact .stop (by simpa using ‹¬ job.staged.isSome = true›) _
        · exact .run (by simpa using ‹¬ job.staged.isSome = true›)
    · cases hstep
  | running job =>
    simp only [advance, Pool.boundary] at hstep
    split at hstep
    · rename_i hguard
      have hat := hguard.2
      simp only [atBoundary, Bool.and_eq_true, beq_iff_eq] at hat
      cases hstep
      exact ⟨_, _, .boundary hat.1, rfl⟩
    · cases hstep
  | advised job eligible at' =>
    cases hstep
    unfold trySpare
    split
    · exact ⟨_, _, .spare (‹_ ∧ _›).1, rfl⟩
    · exact ⟨_, _, .cancel, rfl⟩
  | spare job at' =>
    cases hstep
    unfold reserveHedge
    split
    · exact ⟨_, _, .hedge ‹_›, rfl⟩
    · exact ⟨_, _, .overBudget, rfl⟩
    · exact ⟨_, _, .unhedged, rfl⟩
  | cancelling job at' =>
    cases hstep
    unfold reserveCancel
    split
    · exact ⟨_, _, .giveUp ‹_›, rfl⟩
    · exact ⟨_, _, .carryOn, rfl⟩
  | copying job =>
    simp only [advance, Pool.copy] at hstep
    split at hstep
    · cases hstep
    rename_i staged hstgd
    split at hstep
    · cases hstep
      exact ⟨_, _, .copied ‹_›, rfl⟩
    rename_i hmore
    split at hstep
    · cases hstep
      exact ⟨_, _, .lost (.copying (Nat.lt_of_not_le hmore)) ‹_›, rfl⟩
    rename_i hstat
    split at hstep
    · cases hstep
      exact ⟨_, _, .copy hstgd rfl (not_not.mp hstat), rfl⟩
    · cases hstep
  | completing job =>
    simp only [advance, sendFlush] at hstep
    split at hstep
    · cases hstep
      exact ⟨_, _, .lost .completing ‹_›, rfl⟩
    rename_i hstat
    split at hstep
    · cases hstep
      exact ⟨_, _, .flush (not_not.mp hstat), rfl⟩
    · cases hstep
  | flushing job =>
    simp only [advance, Pool.complete] at hstep
    split at hstep
    · rename_i hmail
      split at hstep
      · cases hstep
        exact ⟨_, _, .complete hmail ‹_›, rfl⟩
      · cases hstep
        exact ⟨_, _, .completeStale ‹_›, rfl⟩
      · cases hstep
    rename_i hmail
    split at hstep
    · cases hstep
      exact ⟨_, _, .lost (.flushing (by simpa using hmail)) ‹_›, rfl⟩
    · cases hstep
  | recording job =>
    cases hstep
    refine ⟨_, _, .record ?_, owe_put ..⟩
    split
    · exact .winner ‹_›
    · exact .next ‹_› ‹_›
    · exact .done ‹_› ‹_›
  | settling job cause retain =>
    simp only [advance, sendSettle] at hstep
    split at hstep
    · cases hstep
      exact ⟨_, _, .settleLost (.inl ⟨_, rfl⟩) ‹_›, rfl⟩
    rename_i hstat
    split at hstep
    · cases retain with
      | true =>
        cases hstep
        exact ⟨_, _, .settleFlush (not_not.mp hstat), rfl⟩
      | false =>
        cases hstep
        exact ⟨_, _, .settleDiscard (not_not.mp hstat), rfl⟩
    · cases hstep
  | settleWait job cause retain => exact settle_turns hstep
  | settled job cause kept =>
    cases hstep
    refine ⟨_, _, .defer ?_, rfl⟩
    repeat' split
    · exact .inr ⟨_, rfl⟩
    · exact .inl rfl
    · exact .inl rfl
  | crediting job cause kept =>
    cases hstep
    cases kept with
    | none => exact ⟨_, _, .uncredited, rfl⟩
    | some confirmed => exact ⟨_, _, .credit, rfl⟩
  | releasing job cause retain => exact release_turns hstep
  | releasingRest job resv =>
    obtain ⟨after, hrecv, rfl⟩ := map_eq_some_iff.mp hstep
    exact (recover_turns .rest hrecv).2
  | refunding resv =>
    cases hstep
    exact ⟨_, _, .refund, rfl⟩
  | counting job backoff =>
    cases hstep
    exact ⟨_, _, .count, owe_put ..⟩
  | renewing job backoff =>
    cases hstep
    unfold Pool.renew
    split
    · cases backoff with
      | none => exact ⟨_, _, .renewWinner ‹_›, rfl⟩
      | some backoff => exact ⟨_, _, .renew ‹_›, rfl⟩
    · exact ⟨_, _, .renewStale ‹_›, rfl⟩
  | vacating job backoff =>
    cases hstep
    exact ⟨_, _, .vacate, owe_put ..⟩
  | sleeping job wakeAt =>
    simp only [advance, Pool.awaken] at hstep
    split at hstep
    · cases hstep
      exact ⟨_, _, .awaken, rfl⟩
    · cases hstep
  | reacquiring job =>
    simp only [advance, Pool.reacquire] at hstep
    split at hstep
    · cases hstep
      exact ⟨_, _, .reacquire, rfl⟩
    · cases hstep
  | stopping job error =>
    obtain ⟨sched, hstop, rfl⟩ := map_eq_some_iff.mp hstep
    exact ⟨_, _, .stopScheduler hstop, rfl⟩
  | reclaiming job slot error =>
    obtain ⟨⟨given, sched⟩, hrecl, rfl⟩ := map_eq_some_iff.mp hstep
    exact ⟨_, _, .reclaim hrecl, rfl⟩
  | closing slot exit =>
    cases hstep
    cases exit with
    | none => exact ⟨_, _, .close, owe_put ..⟩
    | some error => exact ⟨_, _, .exit, owe_put ..⟩

theorem workerStep_turns (hstep : workerStep cfg pool w pc act = some next) :
    Turns cfg pool w pc act next := by
  unfold workerStep at hstep
  split at hstep
  · exact advance_turns hstep
  · exact inspect_turns hstep
  case h_3 =>
    obtain ⟨error, -, rfl⟩ := map_eq_some_iff.mp hstep
    exact ⟨_, _, .stopWaiting, rfl⟩
  case h_4 =>
    obtain ⟨error, -, rfl⟩ := map_eq_some_iff.mp hstep
    exact ⟨_, _, .stopCopy, rfl⟩
  case h_5 =>
    obtain ⟨error, -, rfl⟩ := map_eq_some_iff.mp hstep
    exact ⟨_, _, .stopSleep, rfl⟩
  case h_6 =>
    obtain ⟨error, -, rfl⟩ := map_eq_some_iff.mp hstep
    exact ⟨_, _, .stopBackoff, rfl⟩
  case h_18 =>
    cases hstep
    exact decideOutcome_turns _ _ _
  case h_19 => cases hstep
  all_goals exact running_turns nofun hstep

/-! ## What a worker leaves alone -/

def Frames (pool : Pool n) (w : Fin n) (next : Pool n) : Prop :=
  ∀ other, other ≠ w → next.workers other = pool.workers other

theorem Frames.put (h : Frames pool w next) (pc : Pc) : Frames pool w (next.put w pc) := by
  intro other hne
  simp [hne, h other hne]

theorem dropChallenger_frames (pool : Pool n) (w : Fin n) (job : Job) :
    Frames pool w (pool.dropChallenger w job) := by
  intro other hne
  unfold dropChallenger
  split <;> simp [hne]

theorem Turn.frames (h : Turn cfg pool w pc act base after) : Frames pool w base := by
  cases h with
  | interrupt | boundary | eof | giveUp | hedgeOverrun => exact dropChallenger_frames _ w _
  | dropHedge hdef => rcases hdef with rfl | ⟨_, rfl⟩ <;> exact dropChallenger_frames pool w _
  | defer hdef => rcases hdef with rfl | ⟨_, rfl⟩ <;> exact fun _ _ => rfl
  | recover hrels hrecv hbase =>
    obtain ⟨⟨sched, recovery⟩, -, rfl⟩ := map_eq_some_iff.mp hrecv
    rcases hbase with rfl | rfl <;> intro other hne <;> simp [hne, noteHandedOver]
  | settleFailed hdec =>
    unfold charged
    split <;> exact fun _ _ => rfl
  | _ =>
    intro other hne
    first
    | rfl
    | simp [hne, noteReported, noteAcked, refunded]

theorem workerStep_frames (hstep : workerStep cfg pool w pc act = some next) :
    Frames pool w next := by
  obtain ⟨base, after, hturn, rfl⟩ := workerStep_turns hstep
  exact hturn.frames.put after

/-! ## The worker's own facts -/

theorem view_update {α : Type} (view : Worker → α) (workers : Fin n → Worker) (w : Fin n)
    (worker : Worker) : (fun other => view (Function.update workers w worker other)) =
      Function.update (fun other => view (workers other)) w (view worker) :=
  Function.comp_update view workers w worker

@[simp] theorem put_pc (pool : Pool n) (w : Fin n) (pc : Pc) :
    ((pool.put w pc).workers w).pc = pc := by
  simp

@[simp] theorem owe_pc (pool : Pool n) (w : Fin n) :
    ((pool.owe w).workers w).pc = (pool.workers w).pc := by
  simp

private theorem newJob_waits {queued : List Segment} (h : Proper (seg :: queued)) (lin : LineageId)
    (initial : Option HttpResponse) : (newJob seg queued lin initial).Waits cfg G := by
  refine ⟨⟨h, Nat.zero_le _, ?_, by simp [newJob], fun _ _ => ⟨rfl, rfl⟩, by simp [newJob],
    by simp [newJob]⟩, rfl⟩
  exact Proper.stop_le_last h

private theorem retains_bounds {wanted : Bool} (h : retains cfg job wanted = true) :
    0 < job.forwarded ∧ job.forwarded < job.len := by
  simp only [retains, Bool.and_eq_true, decide_eq_true_eq] at h
  exact ⟨h.1.1.2, h.1.2⟩

theorem settleJob_idle (h : (Pc.interrupted job outcome).Sound cfg G) (retain : Bool) :
    (settleJob job retain).Idle ∧
      (settleJob job retain).forwarded ≤ (settleJob job retain).len := by
  obtain ⟨hproper, hle, hchal, hstgd, -⟩ := h
  exact ⟨⟨hproper, rfl, rfl, hchal, hstgd⟩, hle⟩

private theorem settleJob_sound (h : (Pc.interrupted job outcome).Sound cfg G)
    (hcause : ∀ staged, cause ≠ .staged staged) (wanted : Bool) :
    (Pc.settling (settleJob job (retains cfg job wanted)) cause (retains cfg job wanted)).Sound
      cfg G := by
  obtain ⟨hidle, hle⟩ := settleJob_idle h (retains cfg job wanted)
  refine ⟨hidle, hle, ?_, fun hret => ?_⟩
  · cases cause with
    | staged staged => exact absurd rfl (hcause staged)
    | _ => trivial
  · obtain ⟨hpos, hlt⟩ := retains_bounds hret
    exact ⟨hpos, hlt, hcause⟩

theorem complete_fresh {sched after : SchedulerState} {key : LeaseKey} {span : Span}
    (hcons : sched.Conserved acked) (hheld : sched.leaseRange key = some span) :
    sched.complete key ≠ some (false, after) := by
  obtain ⟨done, hdone, -⟩ := complete_spec hcons hheld
  simp [hdone]

theorem renew_fresh {sched after : SchedulerState} (hcons : sched.Conserved acked)
    (hheld : sched.leaseRange seg.leaseKey = some seg.span) {worker : Nat} :
    sched.renew seg.leaseKey worker ≠ (none, after) := by
  obtain ⟨renewed, done, hdone, -⟩ := renew_spec hcons hheld worker
  simp [hdone]

theorem retain_fresh {sched after : SchedulerState} (hcons : sched.Conserved acked)
    (hheld : sched.leaseRange job.segment.leaseKey = some job.segment.span)
    (h : (Pc.settleWait job cause true).Sound cfg G) :
    sched.retainPrefix job.segment.leaseKey (job.segment.start + job.forwarded) ≠
      (false, after) := by
  obtain ⟨hpos, hlt, -⟩ := h.2.2.2 rfl
  simp only [Job.len] at hlt
  obtain ⟨done, hdone, -⟩ := retainPrefix_spec hcons hheld
    (show job.segment.start < job.segment.start + job.forwarded by omega)
    (show job.segment.start + job.forwarded < job.segment.span.stop by
      simp only [Segment.span]; omega)
  simp [hdone]

theorem renewed_waits (hcons : pool.sched.Conserved acked)
    (hback : Backed pool.sched job.leases) {obs : Observation}
    (h : { job with observation := obs }.Waits cfg G) (hqd : job.queued = [])
    {sched : SchedulerState}
    (hrenew : pool.sched.renew job.segment.leaseKey w = (some seg, sched)) :
    { job with segment := seg, observation := obs }.Waits cfg G := by
  obtain ⟨renewed, after, haft, -, -, hspan, -⟩ :=
    renew_spec hcons (hback job.segment List.mem_cons_self) w
  obtain ⟨hseg, -⟩ := Prod.mk.inj (hrenew.symm.trans haft)
  cases hseg
  exact h.renew hqd hspan

theorem Turn.sound (hturn : Turn cfg pool w pc act base after)
    (hcons : pool.sched.Conserved acked) (hback : Backed pool.sched pc.holding.leases)
    (hhon : HonestAction G pc act) (h : pc.Sound cfg G) : after.Sound cfg G := by
  cases hturn with
  | take hpend hasg hsegs =>
    obtain ⟨hlnd, -, hbatch⟩ := (assigned_of_request hcons hasg).granted _ rfl
    rw [hsegs] at hlnd hbatch
    exact Proper.of_lends hlnd hbatch
  | retake hpend hasg =>
    obtain ⟨hlnd, -, hbatch⟩ := (assigned_of_recovery hcons hasg).granted _ rfl
    exact Proper.of_lends hlnd hbatch
  | adopt hf | create hf => exact newJob_waits h _ _
  | begin hstat hbeg =>
    cases hbeg with
    | copy hstgd => exact h
    | stop hstgd error => exact ⟨h.1.proper, Nat.zero_le _, h.2, hstgd, trivial⟩
    | run hstgd => exact ⟨h.1, hstgd⟩
  | interrupt => exact h.1.interrupted h.2 _ _ trivial
  | accept hstr hacc => exact ⟨h.1.accept h.2 hstr hacc, h.2⟩
  | chunk hstr hemp hfits => exact ⟨h.1.chunk h.2 hstr hemp hfits hhon, h.2⟩
  | boundary hdone => exact ⟨h.1.withoutChallenger, rfl, hdone⟩
  | eof hstr hemp hdone => exact ⟨h.1.withoutChallenger, rfl, h.1.forwarded_of_eof hstr hemp hdone⟩
  | forward hstr hlen hstat => exact ⟨h.1.forward h.2 hstr (by omega) (by omega), h.2⟩
  | advise hchal hat hleft helig => exact ⟨h.1, h.2, hchal⟩
  | hedge hresv => exact ⟨h.1.hedged _, h.2.1⟩
  | unhedged | carryOn => exact ⟨h.1, h.2.1⟩
  | giveUp hresv => exact h.1.interrupted h.2.1 _ _ trivial
  | @hedgeAccept job resp resv hchal hacc hframed => exact ⟨h.1.staging ⟨job, _, hacc⟩ .nil, h.2⟩
  | hedgeChunk hchal hfits =>
    obtain ⟨hacc, hbyt⟩ := h.1.challenger _ _ hchal rfl
    exact ⟨h.1.staging hacc (hbyt.append (hhon _ _ hchal rfl hfits)), h.2⟩
  | hedgeOverrun hchal hover | dropHedge hdef => exact ⟨h.1.withoutChallenger, h.2⟩
  | hedgeEof hchal hlength =>
    obtain ⟨hacc, hbyt⟩ := h.1.challenger _ _ hchal rfl
    exact h.1.interrupted h.2 _ _ ⟨hacc, hlength, hbyt⟩
  | copied hdone => exact ⟨h.1, h.2, Nat.le_antisymm h.1.forwarded_le hdone⟩
  | copy hstgd hlen hstat => exact ⟨h.1.copy hstgd (by omega), h.2⟩
  | record hproc =>
    cases hproc with
    | next hstgd hqd => exact h.1.proceed h.2.2 h.2.1 hstgd hqd
    | winner | done => trivial
  | settleRecover | settleFailed hdec => exact settleJob_sound h (by simp) _
  | settleStaged =>
    obtain ⟨hidle, hle⟩ := settleJob_idle h false
    exact ⟨hidle, hle, h.2.2.2.2, by simp [Retainable]⟩
  | settleLost hpc hgone => rcases hpc with ⟨_, rfl⟩ | rfl <;> exact h.1.proper
  | discardLost | retainStale => exact h.1.proper
  | @retain job cause sched hmail hret =>
    obtain ⟨hidle, -, hcause, hretainable⟩ := h
    obtain ⟨hpos, hlt, hnot⟩ := hretainable rfl
    refine ⟨hidle.retain (by simp only [Job.len] at hlt; omega), ?_⟩
    cases cause with
    | staged staged => exact absurd rfl (hnot staged)
    | _ => trivial
  | discard hmail => exact ⟨h.1, h.2.2.1⟩
  | recover hrels hrecv hbase => exact hrels.sound h
  | stop => exact h.1.proper
  | renewWinner hrenew => exact renewed_waits hcons hback h.1 h.2 hrenew
  | renew hrenew => exact ⟨renewed_waits hcons hback h.1 h.2 hrenew, h.2⟩
  | reacquire => exact h.1
  | stopSleep | stopBackoff => exact h.1.1.proper
  | spare | cancel | overBudget | flush | complete | settleFlush | settleDiscard | defer | credit
  | uncredited | count | vacate | awaken => exact h
  | halt | register | wake | stopWaiting | finish | park | refuse | putBack | lost | stopCopy
  | completeStale | refund | renewStale | stopScheduler | reclaim | close | exit => trivial

theorem workerStep_sound (hcons : pool.sched.Conserved acked)
    (hback : Backed pool.sched pc.holding.leases) (hhon : HonestAction G pc act)
    (h : pc.Sound cfg G) (hstep : workerStep cfg pool w pc act = some next) :
    ((next.workers w).pc).Sound cfg G := by
  obtain ⟨base, after, hturn, rfl⟩ := workerStep_turns hstep
  rw [put_pc]
  exact hturn.sound hcons hback hhon h

/-! ## Everything else -/

def Action.aside : Action n → Bool
  | .worker _ _ | .notify _ | .abort _ | .write => false
  | _ => true

/-- Workers, scheduler, recovery state, slots and progress are as they were. -/
structure Aside (pool next : Pool n) : Prop where
  workers : next.workers = pool.workers
  sched : next.sched = pool.sched
  recovery : next.recovery = pool.recovery
  lineages : next.lineages = pool.lineages
  slotsFree : next.slotsFree = pool.slotsFree
  received : next.received = pool.received
  probe : next.probe = pool.probe
  history : ∃ saved, next.history = { pool.history with saved := saved }

theorem step_signal {stop : StopSignal} (hstep : step cfg pool (.signal stop) = some next) :
    stop ≠ .running ∧ next = { pool with stop := stop } := by
  simp only [step] at hstep
  split at hstep
  · cases hstep
  · rename_i hstop
    cases hstep
    exact ⟨hstop, rfl⟩

theorem step_aside {act : Action n} (haside : Action.aside act = true)
    (hstep : step cfg pool act = some next) : Aside pool next := by
  cases act with
  | worker w act | notify w | abort w | write => cases haside
  | tick elapsed =>
    cases hstep
    exact ⟨rfl, rfl, rfl, rfl, rfl, rfl, rfl, _, rfl⟩
  | signal stop =>
    obtain ⟨-, rfl⟩ := step_signal hstep
    exact ⟨rfl, rfl, rfl, rfl, rfl, rfl, rfl, _, rfl⟩
  | _ =>
    simp only [step, finishWriter, persist, freeze, requestSync, confirmSync, save, dropSender]
      at hstep
    (repeat' split at hstep)
    all_goals cases hstep
    all_goals exact ⟨rfl, rfl, rfl, rfl, rfl, rfl, rfl, _, rfl⟩

end Pool

end Bytehaul.Session
