import Bytehaul.Session.Multi.Ledger

/-!
# Steps of the pool are moves of its ledger

One lemma for each step; most leave the ledger as it is.
-/

namespace Bytehaul.Session

open Foundation Storage Scheduler List

theorem Job.Releases.parts {job : Job} {pc after : Pc} {act : WorkerAction}
    {segs : List Segment} (h : job.Releases pc act segs after) :
    ∃ leases, pc.holding.leases.Perm (segs ++ leases) ∧
      pc.holding.Keeps after.holding leases ∧ pc.holding.lineage = some job.lineage ∧
      pc.holding.transit = none := by
  cases h with
  | handOff | winner | again =>
    exact ⟨[job.segment], (perm_append_singleton job.segment job.queued).symm,
      ⟨rfl, fun _ => rfl, rfl, rfl⟩, rfl, rfl⟩
  | suffix => exact ⟨job.queued, .refl _, ⟨rfl, fun _ => rfl, rfl, rfl⟩, rfl, rfl⟩
  | all | rest =>
    refine ⟨[], ?_, ⟨rfl, fun hne => absurd rfl hne, rfl, rfl⟩, rfl, rfl⟩
    rw [append_nil]
    exact .refl _

namespace Pool

variable {n : Nat} {cfg : PoolConfig} {G : Nat → UInt8 → Prop} {pool next : Pool n} {w : Fin n}
  {job : Job} {act : WorkerAction} {holding : Holding} {base : Pool n} {state : RecoveryState}
  {lin : Lineage}

open Ledger

def ledger (pool : Pool n) : Ledger n where
  sched := pool.sched
  recovered := pool.recovery.recovered
  pending := pool.recovery.pending
  lineages := pool.lineages
  acked := pool.history.acked
  reported := pool.history.reported
  carried := pool.history.carried
  charges := pool.history.charges
  handedOver := pool.history.handedOver
  holding := fun w => (pool.workers w).pc.holding

@[simp] theorem ledger_put (pool : Pool n) (w : Fin n) (pc : Pc) :
    (pool.put w pc).ledger = pool.ledger.hold w pc.holding := by
  simp only [ledger, hold, put, view_update (·.pc.holding)]

@[simp] theorem ledger_owe (pool : Pool n) (w : Fin n) : (pool.owe w).ledger = pool.ledger := by
  simp only [ledger, owe, view_update (·.pc.holding), Function.update_eq_self]

@[simp] theorem ledger_takeMail (pool : Pool n) (w : Fin n) :
    (pool.takeMail w).ledger = pool.ledger := by
  simp only [ledger, takeMail, view_update (·.pc.holding), Function.update_eq_self]

@[simp] theorem ledger_post (pool : Pool n) (cmd : WriterCommand (Party n)) :
    (pool.post cmd).ledger = pool.ledger := rfl

@[simp] theorem ledger_releaseSlots (pool : Pool n) (slots : Nat) :
    (pool.releaseSlots slots).ledger = pool.ledger := rfl

theorem hold_same {ledger : Ledger n} (h : ledger.holding w = holding) :
    ledger.hold w holding = ledger := by
  simp [hold, ← h]

theorem Move.still {ledger base : Ledger n} (hheld : ledger.holding w = holding)
    (hbase : base = ledger) : Move cfg ledger (base.hold w holding) := by
  rw [hbase, hold_same hheld]
  exact .idle

@[simp] theorem pending_foldl_refund (reservations : List Reservation) (state : RecoveryState) :
    (reservations.foldl RecoveryState.refund state).pending = state.pending := by
  induction reservations generalizing state with
  | nil => rfl
  | cons resv reservations ih => exact ih _

@[simp] theorem recovered_foldl_refund (reservations : List Reservation) (state : RecoveryState) :
    (reservations.foldl RecoveryState.refund state).recovered = state.recovered := by
  induction reservations generalizing state with
  | nil => rfl
  | cons resv reservations ih => exact ih _

theorem ledger_withRecovery {update : RecoveryState → RecoveryState}
    (hpend : (update pool.recovery).pending = pool.recovery.pending)
    (hrecd : (update pool.recovery).recovered = pool.recovery.recovered) :
    (pool.withRecovery update).ledger = pool.ledger := by
  simp only [ledger, withRecovery_recovery, hpend, hrecd]
  rfl

theorem ledger_refunded (pool : Pool n) (reservations : List Reservation) :
    (pool.refunded reservations).ledger = pool.ledger :=
  ledger_withRecovery (by simp) (by simp)

theorem ledger_dropChallenger (pool : Pool n) (w : Fin n) (job : Job) :
    (pool.dropChallenger w job).ledger = pool.ledger := by
  unfold dropChallenger
  split
  · rw [ledger_owe, ledger_releaseSlots]
    exact ledger_withRecovery rfl rfl
  · rfl

theorem Move.fails {ledger base : Ledger n} (hbase : base = ledger)
    (hfailg : holding.failing = true)
    (hls : holding.leases.Sublist (ledger.holding w).leases) :
    Move cfg ledger (base.hold w holding) := by
  rw [hbase]
  exact .fail hfailg hls

theorem ledger_of_defers (h : Defers pool base) : base.ledger = pool.ledger := by
  rcases h with rfl | ⟨_, rfl⟩
  · rfl
  · exact ledger_withRecovery rfl rfl

theorem recover_move {segs : List Segment} {after : Pc}
    (hrels : job.Releases (pool.workers w).pc act segs after)
    (hrecv : recover cfg pool segs job.lineage = some base) :
    Move cfg pool.ledger (base.ledger.hold w after.holding) := by
  obtain ⟨leases, hparts, hkeeps, hlineage, htransit⟩ := hrels.parts
  obtain ⟨⟨sched, state⟩, hrecd, rfl⟩ := Option.map_eq_some_iff.mp hrecv
  exact .recover hlineage htransit hparts rfl rfl hrecd hkeeps

theorem reserveResult_charged {after : RecoveryState} {extraLimit len now : Nat} {charged : Lineage}
    {hedge : Bool} {resv : Reservation}
    (h : state.reserveResult extraLimit len lin hedge now = .ok (resv, after, charged)) :
    lin.Charged charged (some .recovery) ∧ after.pending = state.pending ∧
      after.recovered = state.recovered := by
  unfold RecoveryState.reserveResult at h
  split at h
  · cases h
  split at h
  · cases h
  · cases h
    exact ⟨.recovery lin (by omega), rfl, rfl⟩

theorem reserved_move (hpc : (pool.workers w).pc.holding = job.holding) {extraLimit len now : Nat}
    {hedge : Bool} {resv : Reservation}
    (hresv : pool.recovery.reserveResult extraLimit len (pool.lineageAt cfg job.lineage)
      hedge now = .ok (resv, state, lin)) :
    Move cfg pool.ledger (pool.reserved job state lin).ledger := by
  obtain ⟨hchgd, hpend, hrecd⟩ := reserveResult_charged hresv
  have hheld : pool.ledger.holding w = job.holding := hpc
  have hmove : Move cfg pool.ledger _ := .charge pool.now (by rw [hheld]; rfl) rfl hchgd
  rw [hheld] at hmove
  convert hmove using 1
  simp [reserved, ledger, noteCharge, hpend, hrecd, Job.holding]

private theorem retryDecision_charged {job : Job} {error : DownloadError} {reading : Bool}
    {later jitter : Nat} : ((pool.lineageAt cfg job.lineage).retries).Charged
      (retryDecision cfg pool job error reading later jitter) := by
  unfold retryDecision
  dsimp only
  split
  · exact RetryState.decideInner_charged _ _ _ _ _ _ _
  · exact RetryState.decideInner_charged _ _ _ _ _ _ _

theorem charged_move {error : DownloadError} {reading : Bool} {later jitter : Nat}
    {decision : RetryDecision} {retries : RetryState}
    (hpc : (pool.workers w).pc.holding = job.holding)
    (hdec : retryDecision cfg pool job error reading later jitter = (decision, retries)) :
    Move cfg pool.ledger (charged cfg pool job decision retries).ledger := by
  have hheld : pool.ledger.holding w = job.holding := hpc
  have hchgd : ((pool.lineageAt cfg job.lineage).retries).Charged (decision, retries) :=
    hdec ▸ retryDecision_charged
  cases decision with
  | stop error =>
    obtain rfl : retries = (pool.lineageAt cfg job.lineage).retries := hchgd
    have hmove : Move cfg pool.ledger _ := .charge pool.now (by rw [hheld]; rfl) rfl (.free _)
    rw [Option.toList_none, map_nil, append_nil] at hmove
    exact hmove
  | retry error retryCount backoff elapsed =>
    obtain ⟨rfl, hle, rfl⟩ := hchgd
    have hmove : Move cfg pool.ledger _ := .charge pool.now (by rw [hheld]; rfl) rfl (.retry _ hle)
    rw [hheld] at hmove
    exact hmove

private theorem record_move {after : Pc} (h : (Pc.recording job).Sound cfg G)
    (hheld : pool.ledger.holding w = (Pc.recording job).holding) (hproc : job.Proceeds after) :
    (pool.ledger.holding w).Keeps after.holding job.queued := by
  rw [hheld]
  cases hproc with
  | winner hstgd =>
    obtain ⟨-, hqd, -⟩ := h.1.staged _ hstgd
    rw [hqd]
    exact ⟨rfl, fun hne => absurd rfl hne, rfl, rfl⟩
  | next hstgd hqd => exact ⟨hqd.symm, fun _ => rfl, rfl, rfl⟩
  | done hstgd hqd =>
    rw [hqd]
    exact ⟨rfl, fun hne => absurd rfl hne, rfl, rfl⟩

theorem Turn.move {acked : List Span} {pc after : Pc} (hturn : Turn cfg pool w pc act base after)
    (hcons : pool.sched.Conserved acked) (hback : Backed pool.sched pc.holding.leases)
    (h : pc.Sound cfg G) (hpc : (pool.workers w).pc = pc) :
    Move cfg pool.ledger (base.put w after).ledger := by
  have hheld : pool.ledger.holding w = pc.holding := congrArg Pc.holding hpc
  rw [ledger_put]
  cases hturn with
  | take hpend hasg hsegs =>
    have hmove : Move cfg pool.ledger _ := .take hpend hheld hasg
    rw [hsegs] at hmove
    exact hmove
  | refuse hasg =>
    refine (hold_same ?_).symm ▸ .refuse hasg
    exact hheld
  | retake hpend hasg => exact .retake hpend hheld hasg
  | putBack hpend hasg =>
    refine (hold_same ?_).symm ▸ .putBack hpend hasg
    exact hheld
  | adopt hf => exact .adopt hheld (.inl ⟨hf, rfl⟩)
  | create hf => exact .adopt hheld (.inr ⟨hf, rfl, _, rfl⟩)
  | begin hstat hbeg => cases hbeg <;> exact Move.still hheld (ledger_post _ _)
  | hedge hresv =>
    rw [hold_same]
    · exact reserved_move hheld hresv
    · exact hheld
  | giveUp hresv =>
    rw [ledger_dropChallenger, hold_same]
    · exact reserved_move hheld hresv
    · exact hheld
  | settleFailed hdec =>
    rw [hold_same]
    · exact charged_move hheld hdec
    · unfold charged
      split <;> exact hheld
  | complete hmail hcomp =>
    rw [ledger_takeMail]
    exact .complete hheld hcomp
  | record hproc =>
    rw [ledger_owe]
    exact .report hheld (record_move h hheld hproc)
  | retain hmail hret =>
    obtain ⟨hpos, hlt, -⟩ := h.2.2.2 rfl
    simp only [Job.len] at hlt
    rw [ledger_takeMail]
    exact .retain hheld (by omega) (by omega) hret
  | credit =>
    refine .report hheld ?_
    rw [hheld]
    exact ⟨rfl, fun _ => rfl, rfl, rfl⟩
  | recover hrels hrecv hbase =>
    subst hpc
    rcases hbase with rfl | rfl
    · exact recover_move hrels hrecv
    · rw [ledger_owe]
      exact recover_move hrels hrecv
  | renewWinner hrenew | renew hrenew =>
    simp only [Pc.holding, Job.holding, Job.leases, h.2] at hheld ⊢
    exact .renew hheld hrenew
  | stopScheduler hstop =>
    obtain ⟨⟨given, sched'⟩, hrecl, hsched⟩ := Option.bind_eq_some_iff.mp hstop
    cases hsched
    exact .surrender true rfl rfl (by rw [hheld]; rfl) (by rw [Bool.or_true]; exact hrecl)
  | reclaim hrecl =>
    exact .surrender false rfl rfl (by rw [hheld]; rfl) (by rw [Bool.or_false]; exact hrecl)
  | halt | stopWaiting => exact Move.fails rfl rfl (nil_sublist _)
  | lost | stopCopy => exact Move.fails (ledger_refunded ..) rfl (nil_sublist _)
  | completeStale hcomp => exact absurd hcomp (complete_fresh hcons (hback _ mem_cons_self))
  | renewStale hrenew => exact absurd hrenew (renew_fresh hcons (hback _ mem_cons_self))
  | retainStale hret => exact absurd hret (retain_fresh hcons (hback _ mem_cons_self) h)
  | @settleLost job cause pc hlost hgone =>
    have hls : pc.holding.leases = job.leases := by rcases hlost with ⟨_, rfl⟩ | rfl <;> rfl
    exact Move.fails (ledger_refunded pool _) rfl (by rw [hheld, hls]; exact .refl _)
  | discardLost => exact Move.fails (ledger_refunded ..) rfl (by rw [hheld]; exact .refl _)
  | stop | stopSleep | stopBackoff => exact Move.fails rfl rfl (by rw [hheld]; exact .refl _)
  | dropHedge hdef =>
    exact Move.still hheld ((ledger_of_defers hdef).trans (ledger_dropChallenger ..))
  | defer hdef => exact Move.still hheld (ledger_of_defers hdef)
  | interrupt | boundary | eof | hedgeOverrun => exact Move.still hheld (ledger_dropChallenger ..)
  | refund => exact Move.still hheld (ledger_refunded ..)
  | hedgeEof | count | vacate | close | exit => exact Move.still hheld (ledger_owe ..)
  | discard => exact Move.still hheld (ledger_takeMail ..)
  | _ => exact Move.still hheld rfl

private theorem ledger_notify (hstep : pool.notify w = some next) : next.ledger = pool.ledger := by
  unfold notify at hstep
  split at hstep
  · cases hstep
    have hholding : (fun other => (Pc.notified (pool.workers other).pc).holding) =
        fun other => (pool.workers other).pc.holding := by
      funext other
      cases (pool.workers other).pc <;> rfl
    simp only [ledger, hholding]
  · cases hstep

private theorem ledger_deliver {mail : Option (Party n × WriterReply)} :
    (pool.deliver mail).ledger = pool.ledger := by
  rcases mail with _ | ⟨party, reply⟩
  · rfl
  cases party with
  | monitor => rfl
  | worker w => simp only [ledger, deliver, view_update (·.pc.holding), Function.update_eq_self]

private theorem ledger_of_aside (h : Aside pool next) : next.ledger = pool.ledger := by
  obtain ⟨saved, hhist⟩ := h.history
  simp only [ledger, h.workers, h.sched, h.recovery, h.lineages, hhist]

theorem abort_move (hstep : pool.abort w = some next) : Move cfg pool.ledger next.ledger := by
  unfold abort at hstep
  dsimp only at hstep
  split at hstep
  · cases hstep
  · cases hstep
    rw [ledger_owe, ledger_put, ledger_releaseSlots, ledger_withRecovery (by simp) (by simp)]
    exact .fail rfl (nil_sublist _)

theorem step_move {act : Action n} (hcons : pool.sched.Conserved pool.history.acked)
    (hback : ∀ w, Backed pool.sched (pool.workers w).pc.holding.leases)
    (h : ∀ w, (pool.workers w).pc.Sound cfg G) (hstep : step cfg pool act = some next) :
    Move cfg pool.ledger next.ledger := by
  cases act with
  | worker w act =>
    simp only [step] at hstep
    split at hstep
    · cases hstep
    · obtain ⟨base, after, hturn, rfl⟩ := workerStep_turns hstep
      exact hturn.move hcons (hback w) (h w) rfl
  | notify w =>
    rw [ledger_notify hstep]
    exact .idle
  | abort w => exact abort_move hstep
  | write =>
    simp only [step, write] at hstep
    (repeat' split at hstep)
    all_goals cases hstep
    · rw [ledger_deliver]
      exact .idle
    · exact .idle
  | _ =>
    rw [ledger_of_aside (step_aside rfl hstep)]
    exact .idle

end Pool

end Bytehaul.Session
