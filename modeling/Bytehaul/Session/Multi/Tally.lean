import Bytehaul.Session.Multi.Integrity

/-!
# The progress counter

`received` is raised when bytes are enqueued and lowered when an attempt is given up without
keeping them; some exits of `worker_loop` keep them counted.
-/

namespace Bytehaul.Session

open Foundation Storage Scheduler List PieceMap Nat

namespace Pool

/-- What a live attempt has enqueued for its lease and has not settled or withdrawn. -/
def Pc.enqueued : Pc → Nat
  | .running job | .advised job _ _ | .spare job _ | .cancelling job _ | .copying job
  | .completing job | .flushing job | .interrupted job _ | .settling job _ _
  | .settleWait job _ true => job.forwarded
  | _ => 0

variable {n : Nat} {cfg : PoolConfig} {G : Nat → UInt8 → Prop} {pool next : Pool n} {w : Fin n}
  {job : Job} {base : Pool n} {after : Pc} {pieceMap : PieceMap}

def acknowledgedBytes (pool : Pool n) : Nat := (pool.history.acked.map Span.len).sum

def enqueuedBytes (pool : Pool n) : Nat := ∑ w, Pc.enqueued (pool.workers w).pc

def excess (pool : Pool n) : Int :=
  pool.received - pool.acknowledgedBytes - pool.enqueuedBytes

/-- Bytes that stay counted although the attempt that enqueued them ends with this step. -/
def forsaken (pool : Pool n) : Action n → Nat
  | .worker w .advance =>
    match (pool.workers w).pc with
    | .copying job =>
      if pool.writerStatus ≠ .running ∧ job.forwarded < job.len then job.forwarded else 0
    | .completing job => if pool.writerStatus ≠ .running then job.forwarded else 0
    | .flushing job =>
      if pool.writerStatus ≠ .running ∧ (pool.workers w).mailbox = none then job.forwarded
      else 0
    | _ => 0
  | .worker w .stop =>
    match (pool.workers w).pc with
    | .copying job => job.forwarded
    | _ => 0
  | .abort w => Pc.enqueued (pool.workers w).pc
  | _ => 0

def Counts (pool : Pool n) (w : Fin n) (left : Nat) (next : Pool n) : Prop :=
  next.received - (next.acknowledgedBytes : Int) - Pc.enqueued (next.workers w).pc =
    pool.received - pool.acknowledgedBytes - Pc.enqueued (pool.workers w).pc + left

theorem Counts.excess {left : Nat} (h : Counts pool w left next) (hfrs : Frames pool w next) :
    next.excess = pool.excess + left := by
  have hsum : next.enqueuedBytes + Pc.enqueued (pool.workers w).pc =
      pool.enqueuedBytes + Pc.enqueued (next.workers w).pc :=
    sum_exchange (f := fun other => Pc.enqueued (pool.workers other).pc)
      (g := fun other => Pc.enqueued (next.workers other).pc) (Finset.mem_univ w)
      fun other ho => by rw [hfrs other ho]
  unfold Counts at h
  unfold Pool.excess
  omega

theorem counts_still {pc : Pc} (hpc : (pool.workers w).pc = pc)
    (hrecd : base.received = pool.received) (hacked : base.history.acked = pool.history.acked)
    {left : Nat} (hleft : Pc.enqueued pc = Pc.enqueued after + left) :
    Counts pool w left (base.put w after) := by
  subst hpc
  simp only [Counts, put_pc, acknowledgedBytes, put_received, put_history, hrecd, hacked, hleft]
  omega

theorem dropChallenger_still (pool : Pool n) (w : Fin n) (job : Job) :
    (pool.dropChallenger w job).received = pool.received ∧
      (pool.dropChallenger w job).history = pool.history := by
  unfold dropChallenger
  split <;> exact ⟨rfl, rfl⟩

private theorem recover_still {segs : List Segment} {lin : LineageId}
    (h : recover cfg pool segs lin = some next) :
    next.received = pool.received ∧ next.history.acked = pool.history.acked := by
  obtain ⟨⟨sched, recovery⟩, -, rfl⟩ := Option.map_eq_some_iff.mp h
  exact ⟨rfl, rfl⟩

theorem sendData_counts {pc : Pc} (hpc : (pool.workers w).pc = pc)
    (henqueued : Pc.enqueued pc = job.forwarded) (data : List UInt8) {len : Nat}
    (hlen : data.length = len) (resp : HttpResponse)
    (haft : Pc.enqueued after = job.forwarded + len) :
    Counts pool w 0 (((pool.sendData job data).noteContributed resp).put w after) := by
  subst hpc
  simp only [Counts, put_pc, acknowledgedBytes, sendData, noteContributed, put_received,
    put_history, log_received, log_history, post_history, hlen, haft, henqueued]
  omega

theorem withdraw_counts {pc : Pc} (hpc : (pool.workers w).pc = pc)
    (henqueued : Pc.enqueued pc = job.forwarded) (haft : Pc.enqueued after = 0)
    (hrecd : base.received = pool.received - job.forwarded)
    (hhist : base.history = pool.history) : Counts pool w 0 (base.put w after) := by
  subst hpc
  simp only [Counts, put_pc, acknowledgedBytes, put_received, put_history, haft, hrecd,
    hhist, henqueued]
  omega

theorem forsaken_running (hpc : (pool.workers w).pc = .running job) (act : WorkerAction) :
    pool.forsaken (.worker w act) = 0 := by
  cases act <;> simp [forsaken, hpc]

theorem Turn.counts {acked : List Span} {pc : Pc} {act : WorkerAction}
    (hturn : Turn cfg pool w pc act base after) (hpc : (pool.workers w).pc = pc)
    (hcons : pool.sched.Conserved acked) (hback : Backed pool.sched pc.holding.leases)
    (hsound : pc.Sound cfg G) :
    Counts pool w (pool.forsaken (.worker w act)) (base.put w after) := by
  cases hturn with
  | begin hstat hbeg =>
    simp only [forsaken, hpc]
    cases hbeg <;> exact counts_still hpc rfl rfl rfl
  | lost hsending hgone =>
    cases hsending with
    | starting =>
      simp only [forsaken, hpc]
      exact counts_still hpc rfl rfl rfl
    | copying hmore =>
      simp only [forsaken, hpc, if_pos (And.intro hgone hmore)]
      exact counts_still hpc rfl rfl (zero_add _).symm
    | completing =>
      simp only [forsaken, hpc, if_pos hgone]
      exact counts_still hpc rfl rfl (zero_add _).symm
    | flushing hmail =>
      simp only [forsaken, hpc, if_pos (And.intro hgone hmail)]
      exact counts_still hpc rfl rfl (zero_add _).symm
  | interrupt | boundary | eof | hedgeOverrun =>
    obtain ⟨hrecd, hhist⟩ := dropChallenger_still pool w _
    rw [forsaken_running hpc]
    exact counts_still hpc hrecd (congrArg _ hhist) rfl
  | dropHedge hdef =>
    obtain ⟨hrecd, hhist⟩ := dropChallenger_still pool w _
    rw [forsaken_running hpc]
    rcases hdef with rfl | ⟨_, rfl⟩ <;>
      exact counts_still hpc hrecd (congrArg _ hhist) rfl
  | @giveUp job at' resv state lin hresv =>
    obtain ⟨hrecd, hhist⟩ := dropChallenger_still (pool.reserved job state lin) w job
    have hacked := congrArg PoolHistory.acked hhist
    simp only [forsaken, hpc]
    exact counts_still hpc hrecd hacked rfl
  | forward hstr hlen hstat =>
    refine sendData_counts hpc rfl _ ?_ _ rfl
    rw [length_take]
    omega
  | copied hdone =>
    simp only [forsaken, hpc]
    rw [if_neg fun h => by omega]
    exact counts_still hpc rfl rfl rfl
  | copy hstgd hlen hstat =>
    simp only [forsaken, hpc]
    rw [if_neg fun h => h.1 hstat]
    have hlength := (hsound.1.staged _ hstgd).1.length
    refine sendData_counts hpc rfl _ ?_ _ rfl
    rw [length_take, length_drop, hlength, hlen]
    exact min_eq_left (min_le_left _ _)
  | stopCopy =>
    simp only [forsaken, hpc]
    exact counts_still hpc rfl rfl (zero_add _).symm
  | flush hstat =>
    simp only [forsaken, hpc]
    rw [if_neg fun h => h hstat]
    exact counts_still hpc rfl rfl rfl
  | @complete job sched hmail hcomp =>
    simp only [forsaken, hpc]
    rw [if_neg fun h => by simp [h.2] at hmail]
    have hlen : job.segment.span.len = job.forwarded := hsound.2.2.symm
    simp only [Counts, put_pc, hpc, Pc.enqueued, acknowledgedBytes, put_received, put_history,
      takeMail_received, takeMail_history, noteAcked, log_received, log_history, map_cons,
      sum_cons, hlen]
    omega
  | completeStale hcomp => exact absurd hcomp (complete_fresh hcons (hback _ mem_cons_self))
  | record hproc =>
    simp only [forsaken, hpc]
    cases hproc <;> exact counts_still hpc (by rfl) (by rfl) rfl
  | settleFailed =>
    unfold charged
    split <;> exact counts_still hpc rfl rfl rfl
  | settleLost hlost =>
    rcases hlost with ⟨_, rfl⟩ | rfl <;> simp only [forsaken, hpc] <;>
      exact withdraw_counts hpc rfl rfl rfl rfl
  | settleDiscard | retainStale =>
    simp only [forsaken, hpc]
    exact withdraw_counts hpc rfl rfl rfl rfl
  | retain =>
    simp only [forsaken, Counts, put_pc, hpc, Pc.enqueued, acknowledgedBytes, put_received,
      put_history, takeMail_received, takeMail_history, noteAcked, log_received, log_history,
      map_cons, sum_cons, Span.len]
    omega
  | defer hdef =>
    simp only [forsaken, hpc]
    rcases hdef with rfl | ⟨_, rfl⟩ <;> exact counts_still hpc rfl rfl rfl
  | recover hrels hrecv hbase =>
    obtain ⟨hrecd, hacked⟩ := recover_still hrecv
    have hbase : base.received = pool.received ∧ base.history.acked = pool.history.acked := by
      rcases hbase with rfl | rfl <;> exact ⟨hrecd, hacked⟩
    cases hrels <;> simp only [forsaken, hpc] <;>
      exact counts_still hpc hbase.1 hbase.2 rfl
  | _ =>
    simp only [forsaken, hpc]
    exact counts_still hpc (by rfl) (by rfl) rfl

theorem step_excess {action : Action n} (h : pool.Sane cfg G)
    (hstep : step cfg pool action = some next) :
    next.excess = pool.excess + pool.forsaken action := by
  cases action with
  | worker w action =>
    simp only [step] at hstep
    split at hstep
    · cases hstep
    · have hfrs := workerStep_frames hstep
      obtain ⟨base, after, hturn, rfl⟩ := workerStep_turns hstep
      exact (hturn.counts rfl h.conserved (h.kept.owned.backed w) (h.sound w)).excess hfrs
  | notify w =>
    simp only [step, notify] at hstep
    split at hstep
    · cases hstep
      have hsame : ∀ pc, Pc.enqueued (Pc.notified pc) = Pc.enqueued pc := by
        intro pc
        cases pc <;> rfl
      simp [excess, acknowledgedBytes, enqueuedBytes, forsaken, hsame]
    · cases hstep
  | abort w =>
    simp only [step, abort] at hstep
    split at hstep
    · cases hstep
    · cases hstep
      rw [owe_put]
      refine Counts.excess (w := w) (counts_still rfl (by rfl) (by rfl) (zero_add _).symm) ?_
      intro other ho
      simp [ho]
  | write =>
    simp only [step, write] at hstep
    (repeat' split at hstep)
    all_goals cases hstep
    · simp only [excess, acknowledgedBytes, enqueuedBytes, forsaken, deliver_pc]
      unfold deliver
      split <;> simp
    · simp [excess, acknowledgedBytes, enqueuedBytes, forsaken]
  | _ =>
    have haside := step_aside rfl hstep
    obtain ⟨saved, hhist⟩ := haside.history
    simp [excess, acknowledgedBytes, enqueuedBytes, forsaken, haside.received, haside.workers,
      hhist]

private theorem sum_completedSpans {map : PieceMap} (h : map.Valid) :
    ((History.completedSpans map).map Span.len).sum = map.completedBytes := by
  rw [h.completedBytes_eq, History.completedSpans, map_map, sum_map_filter_range]
  rfl

theorem excess_start (hmap : pieceMap.Valid) (file : DiskFile) (watermark : Nat)
    (probe : Option (HttpResponse × Nat)) (files : ControlFiles) :
    (Pool.start pieceMap file watermark probe files : Pool n).excess = 0 := by
  simp [excess, acknowledgedBytes, enqueuedBytes, Pool.start, Worker.new, Pc.enqueued,
    sum_completedSpans hmap]

def Bounded (ledger : Ledger n) : Prop :=
  ∀ span ∈ ledger.acked, span.stop ≤ ledger.sched.pieceMap.totalSize

theorem lease_stop_le {sched : SchedulerState} {acked : List Span} (h : sched.Conserved acked)
    {key : LeaseKey} {span : Span} (hheld : sched.leaseRange key = some span) :
    span.stop ≤ sched.pieceMap.totalSize := by
  obtain ⟨hp, -, hpos, -, hin⟩ := h.leaseRange_spec hheld
  have hlast := hin (span.stop - 1) (by rw [Span.mem_iff]; omega)
  rw [h.map.mem_pieceRange_iff hp] at hlast
  omega

private theorem bounded_move {ledger after : Ledger n} (hmove : Ledger.Move cfg ledger after)
    (h : ledger.Kept) (hbdd : Bounded ledger) : Bounded after := by
  have hgrows := (hmove.advances h).grows
  intro span hspan
  rw [hgrows.totalSize]
  cases hmove with
  | complete hheld hcomp =>
    rcases mem_cons.mp hspan with rfl | hspan
    · exact lease_stop_le h.conserved (h.owned.backed _ _ (by rw [hheld]; exact mem_cons_self))
    · exact hbdd span hspan
  | retain hheld hlo hhi hret =>
    rcases mem_cons.mp hspan with rfl | hspan
    · have hstop := lease_stop_le h.conserved
        (h.owned.backed _ _ (by rw [hheld]; exact mem_cons_self))
      exact le_trans (le_of_lt hhi) hstop
    · exact hbdd span hspan
  | _ => exact hbdd span hspan

structure Tallied (cfg : PoolConfig) (pieceMap : PieceMap) (pool : Pool n) : Prop where
  sane : pool.Sane cfg fun _ _ => True
  bounded : Bounded pool.ledger
  grows : pieceMap.Grows pool.sched.pieceMap
  excess : 0 ≤ pool.excess

theorem Tallied.start (hmap : pieceMap.Valid) (file : DiskFile) (watermark : Nat)
    (probe : Option (HttpResponse × Nat)) (files : ControlFiles) :
    (Pool.start pieceMap file watermark probe files : Pool n).Tallied cfg pieceMap where
  sane := Sane.start hmap file watermark probe files
  bounded := by
    intro span hspan
    obtain ⟨i, hi, rfl⟩ := mem_map.mp hspan
    have hi := mem_range.mp (mem_of_mem_filter hi)
    rw [hmap.pieceRange_stop hi]
    exact min_le_right _ _
  grows := .refl _
  excess := (excess_start hmap file watermark probe files).ge

theorem Tallied.step {action : Action n} (h : pool.Tallied cfg pieceMap)
    (hstep : Pool.step cfg pool action = some next) : next.Tallied cfg pieceMap := by
  have hmove := step_move h.sane.kept.conserved h.sane.kept.owned.backed h.sane.sound hstep
  have hexcess := step_excess h.sane hstep
  have hle := h.excess
  exact ⟨h.sane.step (honest_true pool action) hstep, bounded_move hmove h.sane.kept h.bounded,
    h.grows.trans (h.sane.advances hstep).grows, by omega⟩

end Pool

end Bytehaul.Session
