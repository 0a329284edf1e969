import Bytehaul.Session.Multi.Pipe
import Bytehaul.Session.Multi.Reach

/-!
# Steps of the pool are shifts of its pipe

As for the ledger; most steps send nothing.
-/

namespace Bytehaul.Session

open Foundation Foundation.DiskFile Storage Scheduler List Option Function SchedulerState

def Job.streaming (job : Job) : Stage := .streaming job.segment job.forwarded job.queued

def Pc.stage : Pc → Stage
  | .running job | .advised job _ _ | .spare job _ | .cancelling job _ | .copying job
  | .completing job | .interrupted job _ | .settling job _ _ => job.streaming
  | .flushing job => .waiting job.segment job.forwarded job.queued true
  | .settleWait job _ retain => .waiting job.segment job.forwarded job.queued retain
  | .closing _ (some _) | .exited _ => .gone
  | pc => .idle pc.holding.leases

theorem Pc.stage_leases_sublist (pc : Pc) : pc.stage.leases.Sublist pc.holding.leases := by
  cases pc with
  | closing slot exit => cases exit <;> exact List.Sublist.refl _
  | exited error => exact nil_sublist _
  | _ => exact List.Sublist.refl _

namespace Pool

variable {n : Nat} {cfg : PoolConfig} {G : Nat → UInt8 → Prop} {pool next : Pool n} {w : Fin n}
  {job : Job} {act : WorkerAction} {base : Pool n} {acked : List Span}

open Pipe

def pipe (pool : Pool n) : Pipe n where
  sched := pool.sched
  acked := pool.history.acked
  channel := pool.channel
  writer := pool.writer
  status := pool.writerStatus
  stage := fun w => (pool.workers w).pc.stage
  mail := fun w => (pool.workers w).mailbox

@[simp] theorem pipe_put (pool : Pool n) (w : Fin n) (pc : Pc) :
    (pool.put w pc).pipe = pool.pipe.set w pc.stage := by
  simp only [pipe, Pipe.set, put, view_update (·.pc.stage), view_update (·.mailbox), update_eq_self]

@[simp] theorem pipe_owe (pool : Pool n) (w : Fin n) : (pool.owe w).pipe = pool.pipe := by
  simp only [pipe, owe, view_update (·.pc.stage), view_update (·.mailbox), update_eq_self]

@[simp] theorem pipe_takeMail (pool : Pool n) (w : Fin n) :
    (pool.takeMail w).pipe = pool.pipe.clear w := by
  simp only [pipe, Pipe.clear, takeMail, view_update (·.pc.stage), view_update (·.mailbox),
    update_eq_self]

theorem pipe_dropChallenger : (pool.dropChallenger w job).pipe = pool.pipe := by
  unfold dropChallenger
  split
  · rw [pipe_owe]
    rfl
  · rfl

private theorem set_same {pipe : Pipe n} {stage : Stage} (h : pipe.stage w = stage) :
    pipe.set w stage = pipe := by
  simp [Pipe.set, ← h]

theorem Shift.still {pipe base : Pipe n} {stage : Stage} (hstg : pipe.stage w = stage)
    (hbase : base = pipe) : Shift G pipe (base.set w stage) := by
  rw [hbase, set_same hstg]
  exact .still

theorem pipe_of_defers (h : Defers pool base) : base.pipe = pool.pipe := by
  rcases h with rfl | ⟨_, rfl⟩ <;> rfl

theorem send_shift {data : List UInt8} {resp : HttpResponse} {len : Nat}
    (hstg : pool.pipe.stage w = job.streaming) (hlive : pool.writerStatus = .running)
    (hdata : Spells G (job.segment.start + job.forwarded) data) (hlen : data.length = len)
    (hfits : len ≤ job.len - job.forwarded) (hle : job.forwarded ≤ job.len)
    (hpos : job.segment.start < job.segment.stop) :
    Shift G pool.pipe (((pool.sendData job data).noteContributed resp).pipe.set w
      (.streaming job.segment (job.forwarded + len) job.queued)) := by
  subst hlen
  simp only [Job.len] at hfits hle
  exact .send hlive hstg hdata (by omega)

theorem leaves_of_custody {sched after : SchedulerState} {seg : Segment}
    {custody : Custody LeaseKey} {new : Option Span} (hcust : after.custody = custody)
    (hheld : custody.held = Function.update sched.custody.held seg.leaseKey new) :
    Leaves sched after [seg] := by
  intro key span hspan hkey
  rw [leaseRange_of_custody hcust, hheld, update_of_ne (hkey seg (by simp)).symm]
  exact hspan

variable (hconserved : pool.sched.Conserved acked)
include hconserved

private theorem recover_leaves {segments : List Segment} {lineage : LineageId} {after : Pool n}
    (hback : Backed pool.sched segments) (hdist : (segments.map Segment.pieceId).Nodup)
    (haft : recover cfg pool segments lineage = some after) :
    after.pipe = { pool.pipe with sched := after.sched } ∧
      Leaves pool.sched after.sched segments := by
  obtain ⟨sched, added, heq, -, hrel, -⟩ := recoverSegments_spec hconserved pool.recovery
    hback (keys_ne_of_nodup hdist) lineage cfg.recoveryRequestCap cfg.minSegmentSize
  unfold recover at haft
  rw [heq] at haft
  obtain rfl := some.inj haft
  refine ⟨rfl, fun key span hheld hkey => ?_⟩
  exact (hrel.kept key hkey).trans hheld

theorem recover_shift {segments : List Segment} {after : Pc}
    (hback : Backed pool.sched (pool.workers w).pc.holding.leases)
    (hdist : ((pool.workers w).pc.holding.leases.map Segment.pieceId).Nodup)
    (hrels : job.Releases (pool.workers w).pc act segments after)
    (hrecv : recover cfg pool segments job.lineage = some base) :
    Shift G pool.pipe (base.pipe.set w after.stage) := by
  obtain ⟨leases, hparts, hkeeps, -, -⟩ := hrels.parts
  rw [(hparts.map Segment.pieceId).nodup_iff, map_append] at hdist
  obtain ⟨hpipe, hlv⟩ := recover_leaves hconserved
    (fun segment hseg => hback segment (hparts.mem_iff.mpr (mem_append_left _ hseg)))
    (nodup_append.mp hdist).1 hrecv
  have hstg : pool.pipe.stage w = (pool.workers w).pc.stage := rfl
  rw [hpipe]
  generalize (pool.workers w).pc = pc at hrels hparts hkeeps hstg
  have hls := hkeeps.leases_eq
  cases hrels with
  | handOff => exact .handOff hstg hlv
  | suffix | all | winner | again | rest =>
    subst hls
    exact .release hstg hparts hlv

theorem renew_shift {seg : Segment} {sched : SchedulerState}
    (hback : Backed pool.sched job.leases) (hqd : job.queued = [])
    (hstg : pool.pipe.stage w = .idle job.leases)
    (hrenew : pool.sched.renew job.segment.leaseKey w = (some seg, sched)) :
    Shift G pool.pipe (({ pool with sched := sched }.noteCarried [seg] job.lineage).pipe.set w
      (.idle { job with segment := seg }.leases)) := by
  obtain ⟨renewed, after, haft, -, hkey, hspan, -, hcust, -⟩ :=
    renew_spec hconserved (hback job.segment mem_cons_self) w
  obtain ⟨hseg, rfl⟩ := Prod.mk.inj (hrenew.symm.trans haft)
  obtain rfl := some.inj hseg
  have hfresh : pool.sched.leaseRange seg.leaseKey = none := by
    cases hheld : pool.sched.leaseRange seg.leaseKey with
    | none => rfl
    | some span =>
      have hid := (hconserved.leaseRange_spec hheld).2.1
      rw [hkey] at hid
      exact absurd hid (Nat.lt_irrefl _)
  have hlv : Leaves pool.sched sched [job.segment] := by
    intro key span hheld ho
    have hne : key ≠ seg.leaseKey := by
      rintro rfl
      rw [hfresh] at hheld
      cases hheld
    rw [leaseRange_of_custody hcust]
    simp only [Custody.rename, update_of_ne hne, update_of_ne (ho job.segment (by simp)).symm]
    exact hheld
  simp only [Job.leases, hqd] at hstg ⊢
  exact .renew hstg hlv hfresh

omit hconserved

theorem Turn.shift {pc after : Pc} (hturn : Turn cfg pool w pc act base after)
    (hconserved : pool.sched.Conserved acked) (hback : Backed pool.sched pc.holding.leases)
    (hdist : (pc.holding.leases.map Segment.pieceId).Nodup) (h : pc.Sound cfg G)
    (hpc : (pool.workers w).pc = pc) : Shift G pool.pipe (base.put w after).pipe := by
  have hstg : pool.pipe.stage w = pc.stage := congrArg Pc.stage hpc
  rw [pipe_put]
  cases hturn with
  | take hpend hasg hsegs =>
    have hlnd := ((assigned_of_request hconserved hasg).granted _ rfl).1
    rw [hsegs] at hlnd
    exact .lend hstg hlnd
  | refuse hasg => exact .lend hstg ((assigned_of_request hconserved hasg).refused rfl)
  | retake hpend hasg => exact .lend hstg ((assigned_of_recovery hconserved hasg).granted _ rfl).1
  | putBack hpend hasg => exact .lend hstg ((assigned_of_recovery hconserved hasg).refused rfl)
  | begin hstat hbeg => cases hbeg <;> exact .begin hstat hstg
  | forward hstr hlen hstat =>
    have hsound := h.1.stream _ hstr
    refine send_shift hstg hstat (hsound.position ▸ hsound.bytes.take _) ?_ (by omega)
      h.1.forwarded_le (h.1.proper.pos _ mem_cons_self)
    rw [length_take]
    omega
  | copy hstgd hlen hstat =>
    have hsound := (h.1.staged _ hstgd).1
    refine send_shift hstg hstat ((hsound.bytes.drop _).take _) ?_ (by omega)
      h.1.forwarded_le (h.1.proper.pos _ mem_cons_self)
    rw [length_take, length_drop, hsound.length, ← Job.len]
    omega
  | flush hstat | settleFlush hstat => exact .ask true hstat hstg
  | settleDiscard hstat => exact .ask false hstat hstg
  | complete hmail hcomp =>
    obtain ⟨done, hdone, -, hcust, -⟩ := complete_spec hconserved (hback _ mem_cons_self)
    cases hcomp.symm.trans hdone
    have hpos := h.1.proper.pos _ mem_cons_self
    have hall := h.2.2
    simp only [Job.len] at hall
    rw [pipe_takeMail]
    exact .complete hstg (ne_none_iff_isSome.mpr hmail) (by omega) (leaves_of_custody hcust rfl)
  | @retain job cause sched hmail hret =>
    obtain ⟨hpos, hlt, -⟩ := h.2.2.2 rfl
    simp only [Job.len] at hlt
    obtain ⟨done, hdone, -, hcust, -⟩ := retainPrefix_spec hconserved
      (hback job.segment mem_cons_self)
      (show job.segment.start < job.segment.start + job.forwarded by omega)
      (show job.segment.start + job.forwarded < job.segment.stop by omega)
    cases hret.symm.trans hdone
    rw [pipe_takeMail]
    exact .retain hstg (ne_none_iff_isSome.mpr hmail) (leaves_of_custody hcust rfl)
  | discard hmail =>
    rw [pipe_takeMail]
    exact .drop hstg (ne_none_iff_isSome.mpr hmail)
  | @record job _ hproc =>
    have haft : after.stage = .idle job.queued := by
      cases hproc with
      | winner hstgd => rw [(h.1.staged _ hstgd).2.1]; rfl
      | next hstgd hqd | done hstgd hqd => rw [hqd]; rfl
    rw [haft]
    exact Shift.still hstg (pipe_owe ..)
  | recover hrels hrecv hbase =>
    subst hpc
    rcases hbase with rfl | rfl
    · exact recover_shift hconserved hback hdist hrels hrecv
    · rw [pipe_owe]
      exact recover_shift hconserved hback hdist hrels hrecv
  | renewWinner hrenew | renew hrenew => exact renew_shift hconserved hback h.2 hstg hrenew
  | stopScheduler hstop =>
    obtain ⟨done, hdone, -, hcust, -⟩ := reclaim_spec
      (History.stopped_conserved hconserved true) (hback _ mem_cons_self)
    simp only [stopAndReclaim, hdone] at hstop
    cases hstop
    exact .surrender hstg (leaves_of_custody hcust rfl)
  | reclaim hrecl =>
    obtain ⟨done, hdone, -, hcust, -⟩ := reclaim_spec hconserved (hback _ mem_cons_self)
    cases hrecl.symm.trans hdone
    exact .surrender hstg (leaves_of_custody hcust rfl)
  | completeStale hcomp => exact absurd hcomp (complete_fresh hconserved (hback _ mem_cons_self))
  | renewStale hrenew => exact absurd hrenew (renew_fresh hconserved (hback _ mem_cons_self))
  | retainStale hret => exact absurd hret (retain_fresh hconserved (hback _ mem_cons_self) h)
  | settleLost hlost hgone | discardLost hgone => exact .lost hgone
  | halt | stopWaiting | finish | lost | stopCopy => exact .leave
  | dropHedge hdef => exact Shift.still hstg ((pipe_of_defers hdef).trans (pipe_dropChallenger ..))
  | defer hdef => exact Shift.still hstg (pipe_of_defers hdef)
  | interrupt | boundary | eof | hedgeOverrun | giveUp =>
    exact Shift.still hstg (pipe_dropChallenger ..)
  | settleFailed hdec =>
    refine Shift.still hstg ?_
    unfold charged
    split <;> rfl
  | hedgeEof | count | vacate | close | exit => exact Shift.still hstg (pipe_owe ..)
  | _ => exact Shift.still hstg rfl

private theorem notify_shift (hstep : pool.notify w = some next) : Shift G pool.pipe next.pipe := by
  unfold notify at hstep
  split at hstep
  · cases hstep
    have hstg : (fun other => (Pc.notified (pool.workers other).pc).stage) =
        fun other => (pool.workers other).pc.stage := by
      funext other
      cases (pool.workers other).pc <;> rfl
    simp only [pipe, hstg]
    exact .still
  · cases hstep

private theorem abort_shift (hstep : pool.abort w = some next) : Shift G pool.pipe next.pipe := by
  unfold abort at hstep
  dsimp only at hstep
  split at hstep
  · cases hstep
  · cases hstep
    rw [pipe_owe, pipe_put]
    exact .leave

private theorem pipe_deliver {mail : Option (Party n × WriterReply)} :
    (pool.deliver mail).pipe = pool.pipe.deliver mail := by
  rcases mail with _ | ⟨party, reply⟩
  · rfl
  cases party with
  | monitor => rfl
  | worker w =>
    simp only [pipe, Pipe.deliver, deliver, view_update (·.pc.stage), view_update (·.mailbox),
      update_eq_self]

private theorem write_shift (hstep : pool.write = some next) : Shift G pool.pipe next.pipe := by
  unfold write at hstep
  split at hstep
  · cases hstep
  rename_i hlive
  split at hstep
  · cases hstep
  rename_i cmd cmds hchan
  split at hstep
  · rename_i writer hproc
    cases hstep
    rw [pipe_deliver]
    exact .write (not_not.mp hlive) hchan hproc
  · rename_i error writer hproc
    cases hstep
    exact .spoil (not_not.mp hlive) hchan hproc

private theorem finishWriter_shift (hstep : pool.finishWriter = some next) :
    Shift G pool.pipe next.pipe := by
  unfold finishWriter at hstep
  split at hstep
  · cases hstep
  rename_i hready
  have hlive : pool.writerStatus = .running := by
    by_contra hne
    exact hready (.inl hne)
  split at hstep
  · rename_i writer hfin
    cases hstep
    exact .finish (.ok writer) hlive hfin (by simp) fun _ => ⟨writer, rfl⟩
  · rename_i error writer hfin
    cases hstep
    exact .finish (.error (error, writer)) hlive hfin (by simp) (by rintro ⟨⟩)

private theorem requestSync_shift (hstep : requestSync cfg pool = some next) :
    Shift G pool.pipe next.pipe := by
  unfold requestSync at hstep
  split at hstep
  · split at hstep
    · cases hstep
      exact .still
    rename_i hlive
    split at hstep
    · cases hstep
      exact .sync (not_not.mp hlive)
    · cases hstep
  · cases hstep

theorem step_shift {act : Action n} (h : pool.Sane cfg G)
    (hstep : step cfg pool act = some next) : Shift G pool.pipe next.pipe := by
  cases act with
  | worker w act =>
    simp only [step] at hstep
    split at hstep
    · cases hstep
    · obtain ⟨base, after, hturn, rfl⟩ := workerStep_turns hstep
      exact hturn.shift h.kept.conserved (h.kept.owned.backed w) (h.kept.owned.distinct w)
        (h.sound w) rfl
  | notify w => exact notify_shift hstep
  | abort w => exact abort_shift hstep
  | write => exact write_shift hstep
  | finishWriter => exact finishWriter_shift hstep
  | requestSync => exact requestSync_shift hstep
  | tick elapsed =>
    cases hstep
    exact .still
  | signal stop =>
    obtain ⟨-, rfl⟩ := step_signal hstep
    exact .still
  | _ =>
    simp only [step, persist, freeze, confirmSync, save, dropSender] at hstep
    (repeat' split at hstep)
    all_goals cases hstep
    all_goals exact .still

end Pool

end Bytehaul.Session
