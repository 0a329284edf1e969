import Bytehaul.Scheduler.Frame
import Bytehaul.Session.Multi.Integrity

/-!
# The probe response

Until the response that was fetched before the pool started is claimed, the scheduler plans
no batches, so that the first assignment is the piece it covers.
-/

namespace Bytehaul.Scheduler.SchedulerState

open Foundation Storage

/-- The piece that a new scheduler assigns first. -/
structure Leads (map : PieceMap) (piece : Nat) : Prop where
  first : map.firstMissing = some piece
  missing : map.missingBitset[piece]? = some true
  remaining : 0 < map.remainingCount
  nonempty : (map.pieceRange piece).start < (map.pieceRange piece).stop

variable {map : PieceMap} {piece : Nat}

private theorem nextAvailablePiece_new (h : Leads map piece) :
    (new map).nextAvailablePiece = some piece := by
  obtain ⟨hlt, hbit⟩ := List.getElem?_eq_some_iff.mp h.missing
  have hf : ((map.missingBitset.drop piece).findIdx? id) = some 0 := by
    rw [List.drop_eq_getElem_cons hlt, hbit]
    rfl
  simp [nextAvailablePiece, new, h.first, hf]

theorem assignTo_new (h : Leads map piece) (workerId : Nat) :
    ∃ seg sched, (new map).assignTo workerId = some (some seg, sched) ∧
      seg.pieceId = piece ∧ seg.span = map.pieceRange piece := by
  have hc : (new map).availableRangeCount ≠ 0 := h.remaining.ne'
  have hrng : (new map).candidateRange piece = some (map.pieceRange piece) := by
    simp [candidateRange, new]
  have hp : (new map).runtimePiece piece = .new (map.pieceRange piece) := by
    simp [runtimePiece, new]
  have hfull : RangeSet.newFull (map.pieceRange piece).start (map.pieceRange piece).stop =
      ⟨[map.pieceRange piece]⟩ := by
    rw [RangeSet.newFull, ByteRange.new, if_pos h.nonempty]
    rfl
  have hissd : ∃ seg sched, (new map).issueLease piece (map.pieceRange piece) workerId =
      some (some seg, sched) ∧ seg.pieceId = piece ∧
        seg.span = map.pieceRange piece := by
    unfold issueLease
    simp only [hp, PieceRuntimeState.issueLease, PieceRuntimeState.new, hfull,
      RangeSet.remove, RangeSet.removeLoop, le_refl, and_self, if_true,
      Option.map_some, PieceRuntimeState.missingRangeCount, RangeSet.len]
    rw [checkedSub_eq (by simpa [new] using Nat.succ_le_of_lt h.remaining)]
    exact ⟨_, _, rfl, rfl, rfl⟩
  obtain ⟨seg, sched, hiss, hpid, hspan⟩ := hissd
  unfold assignTo assignToWithSplit
  simp only [if_neg hc, nextAvailablePiece_new h, hrng, assignmentRangeFor, le_refl, true_or,
    if_true, hiss]
  exact ⟨seg, _, rfl, hpid, hspan⟩

theorem assignRequestWithTrace_new (h : Leads map piece) (workerId : Nat) {params : RequestParams}
    (hbatch : params.allowBatch = false) {out : Option RequestAssignment × SchedulerState}
    (hout : (new map).assignRequestWithTrace workerId params = some out) :
    out = (none, new map) ∨ ∃ asg seg sched, out = (some asg, sched) ∧
      asg.segments = [seg] ∧ seg.pieceId = piece ∧
      seg.span = map.pieceRange piece := by
  unfold assignRequestWithTrace at hout
  dsimp only at hout
  split at hout
  · exact .inl (Option.some.inj hout).symm
  · obtain ⟨seg, sched, hasg, hp, hspan⟩ := assignTo_new h workerId
    simp only [hbatch, hasg] at hout
    cases hout
    exact .inr ⟨_, seg, sched, rfl, rfl, hp, hspan⟩

end Bytehaul.Scheduler.SchedulerState

namespace Bytehaul.Session

open Foundation Storage Scheduler

def HttpResponse.Announces (response : HttpResponse) (range : ByteRange) : Prop :=
  response.metadata.contentRangeStart = some range.start ∧
    response.metadata.contentRangeEnd = some (range.stop - 1) ∧ range.start < range.stop

/-- The response that is handed to the pool, with the piece it was requested for. -/
inductive Probed (response : HttpResponse) : PieceMap → Nat → Prop
  | fresh {pieceSize total : Nat} (hsize : 1 ≤ pieceSize)
      (haccept : validateRangeResponse response .freshProbe ⟨0, pieceSize - 1, none⟩ = .ok .accept)
      (htotal : response.metadata.contentRangeTotal = some total) :
      Probed response (.new total pieceSize) 0
  | resumed {totalSize pieceSize pieceCount piece : Nat} {bitset : List UInt8}
      (htotal : 1 ≤ totalSize) (hsize : 1 ≤ pieceSize)
      (hfirst : (PieceMap.fromBitset totalSize pieceSize bitset pieceCount).firstMissing =
        some piece)
      (haccept : validateRangeResponse response .resumeProbe
        ⟨((PieceMap.fromBitset totalSize pieceSize bitset pieceCount).pieceRange piece).start,
          ((PieceMap.fromBitset totalSize pieceSize bitset pieceCount).pieceRange piece).stop - 1,
          some totalSize⟩ = .ok .accept) :
      Probed response (.fromBitset totalSize pieceSize bitset pieceCount) piece

variable {resp : HttpResponse} {map : PieceMap} {piece : Nat}

theorem validateRangeResponse_accept {mode : RangeValidationMode} {expected : ExpectedRange}
    (h : validateRangeResponse resp mode expected = .ok .accept) :
    ∃ total stop, resolveResponseTotal resp.metadata mode expected.totalSize = .ok total ∧
      resolveExpectedEnd expected total mode = some stop ∧
      resp.metadata.contentRangeStart = some expected.start ∧
      resp.metadata.contentRangeEnd = some stop ∧ expected.start ≤ stop := by
  have hbody : validateRangeBody resp.metadata mode expected = .ok .accept := by
    unfold validateRangeResponse at h
    split at h
    · exact h
    · rename_i ho
      exact absurd h (ho ·)
  unfold validateRangeBody at hbody
  split at hbody
  · cases mode <;> cases hbody
  · split at hbody
    · cases hbody
    · rename_i total htot
      split at hbody
      · cases hbody
      · rename_i stop hstop
        unfold checkContentRange at hbody
        split at hbody
        · cases hbody
        · rename_i hrng
          simp only [not_or, not_not, Nat.not_lt] at hrng
          exact ⟨total, stop, htot, hstop, hrng⟩

theorem Probed.announces (h : Probed resp map piece) :
    resp.Announces (map.pieceRange piece) := by
  cases h with
  | @fresh pieceSize total hsize haccept htot =>
    obtain ⟨announced, stop, hann, hstop, hfst, hlast, -⟩ := validateRangeResponse_accept haccept
    simp only [resolveResponseTotal, htot] at hann
    cases hann
    simp only [resolveExpectedEnd] at hstop
    split at hstop
    · cases hstop
    · cases hstop
      have hlen : ((PieceMap.new total pieceSize).pieceRange 0).stop = min pieceSize total := by
        simp [PieceMap.pieceRange, PieceMap.pieceLen, PieceMap.new]
      refine ⟨by simpa [PieceMap.pieceRange] using hfst, ?_, ?_⟩
      · rw [hlast]
        congr 1
        omega
      · rw [hlen]
        simp only [PieceMap.pieceRange, Nat.zero_mul]
        omega
  | @resumed totalSize pieceSize pieceCount piece bitset htot hsize hfst haccept =>
    obtain ⟨announced, stop, -, hstop, hstart, hlast, hle⟩ := validateRangeResponse_accept haccept
    cases hstop
    refine ⟨hstart, hlast, ?_⟩
    simp only [PieceMap.pieceRange, PieceMap.fromBitset, PieceMap.pieceLen] at hle ⊢
    rcases Nat.eq_zero_or_pos piece with rfl | hpos
    · omega
    · have := Nat.mul_pos hpos hsize
      omega

theorem Probed.leads (h : Probed resp map piece) : SchedulerState.Leads map piece := by
  have hnemp := h.announces.2.2
  cases h with
  | @fresh pieceSize total hsize haccept htot =>
    have hc : 0 < divCeil total pieceSize := by
      rw [PieceMap.lt_divCeil_iff hsize]
      simp only [PieceMap.pieceRange, PieceMap.pieceLen, PieceMap.new] at hnemp
      omega
    exact ⟨by simp [PieceMap.firstMissing, PieceMap.new, hc],
      by simp [PieceMap.missingBitset, PieceMap.new, hc], hc, hnemp⟩
  | @resumed totalSize pieceSize pieceCount piece bitset htot hsize hfst haccept =>
    have hlen := length_resize (fromSlice bitset) pieceCount
    have hdescribes := PieceMap.restored_describes totalSize pieceSize pieceCount bitset
    have hcand := hfst
    simp only [PieceMap.firstMissing, Option.ite_none_right_eq_some, Option.some.injEq] at hcand
    obtain ⟨hlt, rfl⟩ := hcand
    rcases hdescribes.candidate with ⟨heq, -⟩ | ⟨hin, hgap, -⟩
    · exact absurd heq hlt.ne
    refine ⟨hfst, ?_, ?_, hnemp⟩
    · have hbit := hgap
      rw [List.getD_eq_getElem _ _ hin] at hbit
      simp only [PieceMap.missingBitset, PieceMap.fromBitset, List.getElem?_map]
      rw [List.getElem?_eq_getElem hin, hbit]
      rfl
    · refine Nat.sub_pos_of_lt ?_
      change (PieceMap.restoreLoop _ _ _ _ _ _).completedPieces < pieceCount
      rw [hdescribes.pieces, ← Finset.card_filter]
      conv_rhs => rw [← hlen, ← Finset.card_range (resize (fromSlice bitset) pieceCount).length]
      exact Finset.card_lt_card (Finset.filter_ssubset.mpr
        ⟨_, Finset.mem_range.mpr hin, by rw [hgap]; exact Bool.false_ne_true⟩)

namespace Pool

variable {n : Nat} {cfg : PoolConfig} {pool base next : Pool n} {w : Fin n} {pc after : Pc}
  {act : WorkerAction}

def Pc.waiting : Pc → Bool
  | .top | .registered _ | .parked _ _ | .exited _ => true
  | _ => false

/-- The response is unclaimed, and nothing has been assigned. -/
structure Pristine (map : PieceMap) (probe : HttpResponse × Nat) (pool : Pool n) : Prop where
  probe : pool.probe = some probe
  sched : pool.sched = SchedulerState.new map
  pending : pool.recovery.pending = []
  waiting : ∀ w, Pc.waiting (pool.workers w).pc = true

/-- A worker is assigned exactly one piece, with the response for it. -/
structure Claims (map : PieceMap) (probe : HttpResponse × Nat) (next : Pool n) (w : Fin n) :
    Prop where
  claimed : ∃ segment, (next.workers w).pc = .claimed segment [] (some probe.1) ∧
    segment.pieceId = probe.2 ∧ segment.span = map.pieceRange probe.2
  probe : next.probe = none

theorem Turn.pristine (hturn : Turn cfg pool w pc act base after)
    (h : pool.Pristine map (resp, piece)) (hpc : Pc.waiting pc = true)
    (hleads : SchedulerState.Leads map piece)
    (hannounces : resp.Announces (map.pieceRange piece)) :
    (base.probe = pool.probe ∧ base.sched = pool.sched ∧
      base.recovery.pending = pool.recovery.pending ∧ Pc.waiting after = true) ∨
    ∃ occ, act = .inspect occ ∧ Claims map (resp, piece) (base.put w after) w := by
  cases hturn with
  | halt | register | wake | stopWaiting | finish | park => exact .inl ⟨rfl, rfl, rfl, rfl⟩
  | retake hpend | putBack hpend =>
    rw [h.pending] at hpend
    cases hpend
  | refuse hasg =>
    rw [h.probe, h.sched] at hasg
    rcases SchedulerState.assignRequestWithTrace_new hleads w rfl hasg with
      hsame | ⟨asg, seg, sched, hsome, -⟩
    · exact .inl ⟨rfl, by rw [h.sched, ← (Prod.mk.inj hsame).2], rfl, rfl⟩
    · cases hsome
  | @take woken occ asg sched seg queued hpend hasg hsegs =>
    rw [h.probe, h.sched] at hasg
    rcases SchedulerState.assignRequestWithTrace_new hleads w rfl hasg with
      hnone | ⟨_, first, _, hsome, hsing, hp, hspan⟩
    · cases hnone
    cases hsome
    rw [hsing] at hsegs
    cases hsegs
    have hmatches : probeMatches (resp, piece) seg = true := by
      obtain ⟨hstart, hstop, -⟩ := hannounces
      rw [← hspan] at hstart hstop
      simp [probeMatches, hp, hstart, hstop, Segment.span]
    have hfiltered : pool.probe.filter (probeMatches · seg) = some (resp, piece) := by
      rw [h.probe, Option.filter, if_pos hmatches]
    refine .inr ⟨occ, rfl, ⟨seg, ?_, hp, hspan⟩, ?_⟩
    · rw [put_pc, hfiltered]
      rfl
    · exact if_pos (by rw [hfiltered]; rfl)
  | lost hsending => cases hsending <;> cases hpc
  | settleLost hlost => rcases hlost with ⟨_, rfl⟩ | rfl <;> cases hpc
  | recover hrels => cases hrels <;> cases hpc
  | _ => cases hpc

theorem write_probe (hw : pool.write = some next) :
    next.probe = pool.probe ∧ next.sched = pool.sched ∧ next.recovery = pool.recovery := by
  unfold write at hw
  (repeat' split at hw)
  all_goals cases hw
  · unfold deliver
    split <;> exact ⟨rfl, rfl, rfl⟩
  · exact ⟨rfl, rfl, rfl⟩

theorem Pristine.step {act : Action n} (h : pool.Pristine map (resp, piece))
    (hleads : SchedulerState.Leads map piece)
    (hannounces : resp.Announces (map.pieceRange piece))
    (hstep : step cfg pool act = some next) :
    next.Pristine map (resp, piece) ∨ ∃ w occ, act = .worker w (.inspect occ) ∧
      Claims map (resp, piece) next w := by
  have hpoints := fun hwork => step_points (P := (Pc.waiting · = true))
    (fun pc hpc => by cases pc <;> exact hpc) rfl hwork h.waiting hstep
  cases act with
  | worker w label =>
    simp only [Pool.step] at hstep
    split at hstep
    · cases hstep
    obtain ⟨base, after, hturn, rfl⟩ := workerStep_turns hstep
    rcases hturn.pristine h (h.waiting w) hleads hannounces with
      ⟨hprobe, hsched, hpend, haft⟩ | ⟨occ, rfl, hclaims⟩
    · refine .inl ⟨hprobe.trans h.probe, hsched.trans h.sched, hpend.trans h.pending, hpoints ?_⟩
      rintro w label ⟨⟩ -
      rw [put_pc]
      exact haft
    · exact .inr ⟨w, occ, rfl, hclaims⟩
  | notify w =>
    have hwait := hpoints (by rintro _ _ ⟨⟩)
    simp only [Pool.step, notify] at hstep
    split at hstep <;> cases hstep
    exact .inl ⟨h.probe, h.sched, h.pending, hwait⟩
  | abort w =>
    have hwait := hpoints (by rintro _ _ ⟨⟩)
    simp only [Pool.step, abort] at hstep
    split at hstep <;> cases hstep
    have hnone : Pc.reservations (pool.workers w).pc = [] := by
      have hpc := h.waiting w
      cases hw : (pool.workers w).pc <;> rw [hw] at hpc <;> first | rfl | cases hpc
    refine .inl ⟨h.probe, h.sched, ?_, hwait⟩
    simp only [hnone]
    exact h.pending
  | write =>
    have hwait := hpoints (by rintro _ _ ⟨⟩)
    obtain ⟨hprobe, hsched, hrecovery⟩ := write_probe hstep
    exact .inl ⟨hprobe.trans h.probe, hsched.trans h.sched, by rw [hrecovery, h.pending], hwait⟩
  | _ =>
    have hwait := hpoints (by rintro _ _ ⟨⟩)
    have haside := step_aside rfl hstep
    exact .inl ⟨haside.probe.trans h.probe, haside.sched.trans h.sched,
      by rw [haside.recovery, h.pending], hwait⟩

theorem dropChallenger_probe (pool : Pool n) (w : Fin n) (job : Job) :
    (pool.dropChallenger w job).probe = pool.probe := by
  unfold dropChallenger
  split <;> rfl

theorem Turn.probe (hturn : Turn cfg pool w pc act base after) (hnone : pool.probe = none) :
    base.probe = none := by
  cases hturn with
  | take | retake => simp [granted, hnone]
  | interrupt | boundary | eof | hedgeOverrun => exact (dropChallenger_probe ..).trans hnone
  | giveUp => exact (dropChallenger_probe ..).trans hnone
  | dropHedge hdef =>
    rcases hdef with rfl | ⟨_, rfl⟩ <;> exact (dropChallenger_probe ..).trans hnone
  | defer hdef => rcases hdef with rfl | ⟨_, rfl⟩ <;> exact hnone
  | settleFailed =>
    unfold charged
    split <;> exact hnone
  | recover hrels hrecv hbase =>
    obtain ⟨_, -, rfl⟩ := Option.map_eq_some_iff.mp hrecv
    rcases hbase with rfl | rfl <;> exact hnone
  | _ => exact hnone

theorem step_probe {act : Action n} (hnone : pool.probe = none)
    (hstep : step cfg pool act = some next) : next.probe = none := by
  cases act with
  | worker w label =>
    simp only [step] at hstep
    split at hstep
    · cases hstep
    obtain ⟨base, after, hturn, rfl⟩ := workerStep_turns hstep
    exact hturn.probe hnone
  | notify w =>
    simp only [step, notify] at hstep
    split at hstep <;> cases hstep
    exact hnone
  | abort w =>
    simp only [step, abort] at hstep
    split at hstep <;> cases hstep
    exact hnone
  | write => exact (write_probe hstep).1.trans hnone
  | _ => exact (step_aside rfl hstep).probe.trans hnone

/-- An accepted probe response announces the first missing piece, which is the first assignment of
all and comes with the response. -/
theorem probe_answers_the_first_assignment (hprobed : Probed response map piece) :
    response.Announces (map.pieceRange piece) ∧
    ∀ (cfg : PoolConfig) (file : DiskFile) (watermark : Nat) (files : ControlFiles) (pool : Pool n),
      Reachable cfg (start map file watermark (some (response, piece)) files) pool →
      (pool.probe ≠ none → pool.Pristine map (response, piece) ∧
        ∀ action next, step cfg pool action = some next →
          next.Pristine map (response, piece) ∨ ∃ w occupied,
            action = .worker w (.inspect occupied) ∧ Claims map (response, piece) next w) ∧
      (pool.probe = none → ∀ later, Reachable cfg pool later → later.probe = none) := by
  refine ⟨hprobed.announces, fun cfg file watermark files pool hr => ⟨fun hsome => ?_,
    fun hnone later hlater => ?_⟩⟩
  · have hpristine : pool.Pristine map (response, piece) ∨ pool.probe = none := by
      apply hr.invariant
      · exact .inl ⟨rfl, rfl, rfl, fun _ => rfl⟩
      rintro state action next (hstate | hstate) - hstep
      · refine (hstate.step hprobed.leads hprobed.announces hstep).imp_right ?_
        rintro ⟨w, occupied, -, hclaims⟩
        exact hclaims.probe
      · exact .inr (step_probe hstate hstep)
    have hpristine := hpristine.resolve_right hsome
    exact ⟨hpristine, fun action next hstep =>
      hpristine.step hprobed.leads hprobed.announces hstep⟩
  · exact hlater.invariant hnone fun _ _ _ hstate _ hstep => step_probe hstate hstep

def resumedStart : Pool 2 :=
  start (.fromBitset 5 4 [1] 2) emptyFile 16 (some (partialContent 4 5 5, 1)) ⟨none, none⟩

theorem short_last_piece_is_answered : ∃ pool next : Pool 2,
      Reachable (smallConfig 5 (partialContent 4 5 5).metadata) resumedStart pool ∧
      step (smallConfig 5 (partialContent 4 5 5).metadata) pool (.worker 1 (.inspect 0)) =
        some next ∧
      Claims (.fromBitset 5 4 [1] 2) (partialContent 4 5 5, 1) next 1 := by
  have hregister : step (smallConfig 5 (partialContent 4 5 5).metadata) resumedStart
      (.worker 1 .advance) = some (resumedStart.put 1 (.registered false)) := rfl
  have hr : Reachable (smallConfig 5 (partialContent 4 5 5).metadata) resumedStart _ :=
    Reaches.refl.step (.worker 1 .advance) trivial hregister
  have hinspect : (step (smallConfig 5 (partialContent 4 5 5).metadata)
      (resumedStart.put 1 (.registered false)) (.worker 1 (.inspect 0))).map (·.probe.isNone) =
        some true := by
    decide
  obtain ⟨next, hstep, hnone⟩ := Option.map_eq_some_iff.mp hinspect
  have hpend : (resumedStart.put 1 (.registered false)).probe ≠ none := Option.some_ne_none _
  obtain ⟨-, hsteps⟩ := ((probe_answers_the_first_assignment
    (.resumed (by decide) (by decide) (by decide) (by decide))).2 _ _ _ _ _ hr).1 hpend
  rcases hsteps _ _ hstep with hpristine | ⟨w, occupied, hw, hclaims⟩
  · rw [hpristine.probe] at hnone
    cases hnone
  · cases hw
    exact ⟨_, next, hr, hstep, hclaims⟩

end Pool

end Bytehaul.Session
