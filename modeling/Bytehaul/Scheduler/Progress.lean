import Bytehaul.Scheduler.Run

/-!
# Progress of the scheduler

Serving a request is assigning it and completing its leases; it takes bytes off the missing
ones, so serving finishes the file.
-/

namespace Bytehaul.Scheduler

open Foundation Function Finset Storage Option PieceMap SchedulerState
open Finset (range)

namespace SchedulerState

def missingBytes (sched : SchedulerState) : Nat :=
  ∑ i ∈ range sched.pieceMap.pieceCount, ((sched.missingSpans i).map Span.len).sum

def completeAll : List Segment → SchedulerState → Checked SchedulerState
  | [], sched => some sched
  | segment :: rest, sched => do
      let (_, sched) ← sched.complete segment.leaseKey
      completeAll rest sched

def serve (sched : SchedulerState) (workerId : Nat) (params : RequestParams) :
    Checked (List Segment × SchedulerState) := do
  let (assignment, sched) ← sched.assignRequestWithTrace workerId params
  let segments := (assignment.map RequestAssignment.segments).getD []
  let sched ← completeAll segments sched
  some (segments, sched)

def serveAll : List (Nat × RequestParams) → SchedulerState →
    Checked (List Segment × SchedulerState)
  | [], sched => some ([], sched)
  | (workerId, params) :: requests, sched => do
      let (served, sched) ← sched.serve workerId params
      let (rest, sched) ← serveAll requests sched
      some (served ++ rest, sched)

section Missing

variable {sched next : SchedulerState} {acked : List Span}

private theorem Conserved.missing_stop_le (h : sched.Conserved acked) {i : Nat}
    (hi : i < sched.pieceMap.pieceCount) {span : Span} (hspan : span ∈ sched.missingSpans i) :
    span.stop ≤ sched.pieceMap.totalSize := by
  have hpos := (History.missingSpans_normal h hi).nonempty span hspan
  have hlast : span.stop - 1 ∈ span := ⟨by omega, by omega⟩
  have hmem := h.mem_piece_of_missing hi (hits_pos_of_mem hspan hlast)
  have hlt := ((h.map.mem_pieceRange_iff hi _).mp hmem).1
  omega

private theorem Conserved.sum_hits_missing (h : sched.Conserved acked) {b : Nat}
    [Decidable (b ∈ sched.custody.missing)] :
    ∑ i ∈ range sched.pieceMap.pieceCount, hits (sched.missingSpans i) b =
      if b ∈ sched.custody.missing then 1 else 0 := by
  split
  · rename_i hmiss
    obtain ⟨i, hi, hpos⟩ := mem_custody_missing.mp hmiss
    have hp := h.mem_piece_of_missing hi hpos
    have ho : ∀ j ∈ range sched.pieceMap.pieceCount, j ≠ i →
        hits (sched.missingSpans j) b = 0 := by
      intro j hj hne
      by_contra hnz
      have hpos' := Nat.pos_of_ne_zero hnz
      have hj := mem_range.mp hj
      exact hne (h.piece_unique hj hi (h.mem_piece_of_missing hj hpos') hp)
    rw [sum_eq_single i ho fun hout => absurd (mem_range.mpr hi) hout]
    have hle := (History.missingSpans_normal h hi).hits_le_one b
    omega
  · rename_i hmiss
    apply sum_range_eq_zero_iff.mpr
    intro i hi
    by_contra hnz
    exact hmiss (mem_custody_missing.mpr ⟨i, hi, Nat.pos_of_ne_zero hnz⟩)

open Classical in
theorem Conserved.missingBytes_eq (h : sched.Conserved acked) :
    sched.missingBytes = ∑ b ∈ range sched.pieceMap.totalSize,
      if b ∈ sched.custody.missing then 1 else 0 := by
  calc sched.missingBytes
      = ∑ i ∈ range sched.pieceMap.pieceCount, ∑ b ∈ range sched.pieceMap.totalSize,
          hits (sched.missingSpans i) b := by
        apply sum_congr rfl
        intro i hi
        rw [sum_range_hits fun span hspan => h.missing_stop_le (mem_range.mp hi) hspan]
    _ = ∑ b ∈ range sched.pieceMap.totalSize, ∑ i ∈ range sched.pieceMap.pieceCount,
          hits (sched.missingSpans i) b := sum_comm
    _ = _ := sum_congr rfl fun b _ => h.sum_hits_missing

theorem Lends.missingBytes {segs : List Segment} (hlnd : Lends sched next segs)
    (h : sched.Conserved acked) (hnext : next.Conserved acked) :
    sched.missingBytes =
      next.missingBytes + (segs.map fun seg => seg.span.len).sum := by
  classical
  have hstop : ∀ span ∈ segs.map Segment.span, span.stop ≤ sched.pieceMap.totalSize := by
    intro span hspan
    obtain ⟨seg, hseg, rfl⟩ := List.mem_map.mp hspan
    obtain ⟨hi, hpos, hinside⟩ := hlnd.segment seg hseg
    have hlast : seg.stop - 1 ∈ seg.span :=
      ⟨by change seg.start ≤ _; omega, by change _ < seg.stop; omega⟩
    have hlt := ((h.map.mem_pieceRange_iff hi _).mp (hinside _ hlast).2).1
    change seg.stop ≤ _
    omega
  have hapart : (segs.map Segment.span).Pairwise Span.Apart := by
    rw [List.pairwise_map]
    exact hlnd.apart.imp fun hpair => hpair.2
  have hpoint : ∀ b, (if b ∈ sched.custody.missing then 1 else 0) =
      (if b ∈ next.custody.missing then 1 else 0) + hits (segs.map Segment.span) b := by
    intro b
    have hle := hits_le_one_of_pairwise_apart hapart b
    have hmiss := hlnd.missing b
    by_cases hlent : 0 < hits (segs.map Segment.span) b
    · obtain ⟨span, hspan, hb⟩ := hits_pos_iff.mp hlent
      obtain ⟨seg, hseg, rfl⟩ := List.mem_map.mp hspan
      have hbef := ((hlnd.segment seg hseg).2.2 b hb).1
      have haft : b ∉ next.custody.missing := fun hin =>
        (hmiss.mp hin).2 seg hseg hb
      rw [if_pos hbef, if_neg haft]
      omega
    · have hnone : ∀ seg ∈ segs, b ∉ seg.span := by
        intro seg hseg hb
        exact hlent (hits_pos_of_mem (List.mem_map_of_mem hseg) hb)
      have hsame : b ∈ next.custody.missing ↔ b ∈ sched.custody.missing := by
        rw [hmiss]
        exact and_iff_left hnone
      simp only [hsame]
      omega
  rw [h.missingBytes_eq, hnext.missingBytes_eq, hlnd.pieceMap]
  simp only [hpoint, sum_add_distrib]
  rw [sum_range_hits hstop, List.map_map]
  rfl

end Missing

structure Idle (sched : SchedulerState) (acked : List Span) : Prop where
  conserved : sched.Conserved acked
  running : sched.stopped = false
  free : ∀ key, sched.leaseRange key = none

section Idle

variable {sched : SchedulerState} {acked : List Span}

theorem Idle.missing_of_bit (h : sched.Idle acked) {i : Nat} (hi : i < sched.pieceMap.pieceCount)
    (hbit : sched.pieceMap.bit i = false) : sched.missingSpans i ≠ [] := by
  obtain ⟨hmiss, -, hval⟩ := h.conserved.runtimePiece hi hbit
  rcases hval.busy with hbusy | hbusy
  · rwa [hmiss] at hbusy
  · obtain ⟨span, hspan⟩ := List.exists_mem_of_ne_nil _ hbusy
    obtain ⟨leaseId, hl⟩ := PieceRuntimeState.exists_lease_of_mem hspan
    have hnone := h.free ⟨i, leaseId⟩
    unfold runtimePiece at hl
    cases hp : sched.pieces[i]? with
    | none =>
      rw [hp] at hl
      simp [PieceRuntimeState.new] at hl
    | some piece =>
      rw [hp] at hl
      have hheld : sched.leaseRange ⟨i, leaseId⟩ = some span :=
        leaseRange_eq_some.mpr ⟨piece, hp, hl⟩
      rw [hheld] at hnone
      cases hnone

private theorem exists_open_piece {map : PieceMap} (h : map.Valid) (hdone : map.allDone = false) :
    ∃ i < map.pieceCount, map.bit i = false := by
  by_contra hnone
  push Not at hnone
  have hall : map.completedPieces = map.pieceCount := by
    rw [h.completedPieces_eq, sum_congr rfl fun i hi => if_pos
      (by simpa using hnone i (mem_range.mp hi))]
    simp
  simp [PieceMap.allDone, hall] at hdone

theorem Idle.hasAvailable (h : sched.Idle acked) (hdone : sched.allDone = false) :
    sched.hasAvailable = true := by
  obtain ⟨i, hi, hbit⟩ := exists_open_piece h.conserved.map hdone
  have hlen := h.conserved.missingLength_le hi
  have hne := List.length_pos_iff.mpr (h.missing_of_bit hi hbit)
  have hc : sched.availableRangeCount ≠ 0 := by omega
  simp [SchedulerState.hasAvailable, h.running, hc]

private theorem Conserved.missingBytes_of_allDone (h : sched.Conserved acked)
    (hdone : sched.allDone = true) : sched.missingBytes = 0 := by
  apply sum_range_eq_zero_iff.mpr
  intro i hi
  have hbit := h.map.bit_of_allDone hdone hi
  have hnone : sched.pieces[i]? = none := by
    cases hp : sched.pieces[i]? with
    | none => rfl
    | some piece => simp [(h.runtime i piece hp).2.1] at hbit
  simp [missingSpans, hnone, hbit]

end Idle

theorem completeAll_spec {segs : List Segment} :
    ∀ (sched : SchedulerState) (acked : List Span), sched.Conserved acked →
      (∀ seg ∈ segs, sched.leaseRange seg.leaseKey = some seg.span) →
      (segs.map Segment.leaseKey).Nodup →
      ∃ next after, completeAll segs sched = some next ∧ next.Conserved after ∧
        (∀ key, next.leaseRange key =
          if key ∈ segs.map Segment.leaseKey then none else sched.leaseRange key) ∧
        next.custody.missing = sched.custody.missing ∧ next.stopped = sched.stopped ∧
        next.pieceMap.totalSize = sched.pieceMap.totalSize := by
  induction segs with
  | nil =>
    intro sched acked h _ _
    exact ⟨sched, acked, rfl, h, by simp, rfl, rfl, rfl⟩
  | cons seg segs ih =>
    intro sched acked h hheld hnodup
    obtain ⟨hfst, hrest⟩ := List.nodup_cons.mp hnodup
    obtain ⟨middle, hcomp, hmiddle, hcust, hmap, hstpd, -⟩ :=
      complete_spec h (hheld seg List.mem_cons_self)
    have hrng : middle.leaseRange = update sched.leaseRange seg.leaseKey none :=
      congrArg Custody.held hcust
    have hsize : middle.pieceMap.totalSize = sched.pieceMap.totalSize := by
      rcases hmap with hmap | hmap <;> simp [hmap]
    have hoths : ∀ other ∈ segs, middle.leaseRange other.leaseKey = some other.span := by
      intro other ho
      have hne : other.leaseKey ≠ seg.leaseKey := by
        intro heq
        exact hfst (heq ▸ List.mem_map_of_mem ho)
      rw [hrng, update_of_ne hne]
      exact hheld other (List.mem_cons_of_mem _ ho)
    obtain ⟨next, after, hnext, hcons, hls, hmiss, hlive, htot⟩ := ih middle _ hmiddle hoths hrest
    refine ⟨next, after, by simp [completeAll, hcomp, hnext], hcons, ?_,
      hmiss.trans ?_, hlive.trans hstpd, htot.trans hsize⟩
    swap
    · rw [hcust]
      rfl
    intro key
    rw [hls, hrng]
    by_cases hkey : key = seg.leaseKey
    · simp [hkey]
    · simp [hkey]

theorem Idle.serve {sched : SchedulerState} {acked : List Span} (h : sched.Idle acked)
    (hdone : sched.allDone = false) (w : Nat) {params : RequestParams}
    (hslots : params.occupiedRequests < params.maxRequests) :
    ∃ segs next after, sched.serve w params = some (segs, next) ∧
      next.Idle after ∧ segs ≠ [] ∧
      next.missingBytes < sched.missingBytes ∧
      sched.missingBytes =
        next.missingBytes + (segs.map fun seg => seg.span.len).sum := by
  obtain ⟨⟨result, middle⟩, hasg, hasgd, hgrd⟩ := assignRequestWithTrace_spec h.conserved w params
  cases result with
  | none => exact absurd rfl (hgrd (h.hasAvailable hdone) hslots)
  | some asg =>
    obtain ⟨hlnd, hne, -⟩ := hasgd.granted asg rfl
    have hmiddle : middle.Conserved acked := hasgd.conserved
    have hnodup : (asg.segments.map Segment.leaseKey).Nodup := by
      rw [List.Nodup, List.pairwise_map]
      apply hlnd.apart.imp
      intro first second hpair heq
      exact hpair.1 (congrArg LeaseKey.leaseId heq)
    obtain ⟨next, after, hcomp, hnext, hls, hmiss, hstpd, htot⟩ :=
      completeAll_spec middle acked hmiddle hlnd.held_new hnodup
    have hsame : next.missingBytes = middle.missingBytes := by
      rw [hnext.missingBytes_eq, hmiddle.missingBytes_eq, htot, hmiss]
    have hc := hlnd.missingBytes h.conserved hmiddle
    rw [← hsame] at hc
    refine ⟨asg.segments, next, after, by simp [SchedulerState.serve, hasg, hcomp],
      ⟨hnext, ?_, ?_⟩, hne, ?_, hc⟩
    · rw [hstpd, ← h.running]
      exact hlnd.stopped
    · intro key
      rw [hls]
      split
      · rfl
      · rename_i hkey
        rw [← h.free key]
        apply hlnd.held_old
        rintro seg hseg rfl
        exact hkey (List.mem_map_of_mem hseg)
    · obtain ⟨seg, hseg⟩ := List.exists_mem_of_ne_nil _ hne
      have hlen : seg.span.len ≤ (asg.segments.map fun seg => seg.span.len).sum :=
        List.le_sum_of_mem (List.mem_map_of_mem hseg)
      have hpos : 0 < seg.span.len := Nat.sub_pos_of_lt (hlnd.segment seg hseg).2.1
      omega

theorem Idle.serveAll {sched : SchedulerState} {acked : List Span} (h : sched.Idle acked)
    (requests : Nat → Nat × RequestParams)
    (hslots : ∀ k, (requests k).2.occupiedRequests < (requests k).2.maxRequests) :
    ∃ count ≤ sched.missingBytes, ∃ segs last,
      serveAll ((List.range count).map requests) sched = some (segs, last) ∧
      last.allDone = true ∧
      (segs.map fun seg => seg.span.len).sum = sched.missingBytes := by
  induction hbyt : sched.missingBytes using Nat.strong_induction_on
    generalizing sched acked requests with
  | _ bytes ih =>
    cases hdone : sched.allDone with
    | true =>
      refine ⟨0, Nat.zero_le _, [], sched, rfl, hdone, ?_⟩
      rw [← hbyt, h.conserved.missingBytes_of_allDone hdone]
      rfl
    | false =>
      obtain ⟨served, next, after, hserve, hidle, -, hless, hsum⟩ :=
        h.serve hdone (requests 0).1 (hslots 0)
      obtain ⟨count, hc, segs, last, hrest, hlast, htot⟩ :=
        ih next.missingBytes (hbyt ▸ hless) hidle (fun k => requests (k + 1))
          (fun k => hslots (k + 1)) rfl
      refine ⟨count + 1, by omega, served ++ segs, last, ?_, hlast, ?_⟩
      · rw [List.range_succ_eq_map, List.map_cons]
        simp only [SchedulerState.serveAll, hserve]
        simp [comp_def, hrest]
      · rw [List.map_append, List.sum_append]
        omega

end SchedulerState

namespace History

/-- While some piece is incomplete and no lease is active every assignment succeeds, and serving
requests completes the file within as many of them as bytes are missing. -/
theorem scheduler_makes_progress {map : PieceMap} (horigin : Origin map) {calls : List Call}
    {last : History} (hrun : (History.start map).run calls = some last)
    (hrunning : last.sched.stopped = false) (hopen : last.sched.allDone = false)
    (hidle : ∀ key, last.sched.leaseRange key = none) :
    (∀ workerId, ∃ segment next, last.sched.assignTo workerId = some (some segment, next)) ∧
    (∀ workerId params, params.occupiedRequests < params.maxRequests → ∃ assignment next,
        last.sched.assignRequestWithTrace workerId params = some (some assignment, next)) ∧
    ∀ requests : Nat → Nat × SchedulerState.RequestParams,
      (∀ k, (requests k).2.occupiedRequests < (requests k).2.maxRequests) →
      ∃ count ≤ last.sched.missingBytes, ∃ segments final,
        serveAll ((List.range count).map requests) last.sched = some (segments, final) ∧
        final.allDone = true ∧
        (segments.map fun segment => segment.span.len).sum = last.sched.missingBytes := by
  obtain ⟨reached, hrchd, hcons⟩ := run_conserved calls _ (start_conserved horigin.valid)
  obtain rfl := some.inj (hrun.symm.trans hrchd)
  have h : last.sched.Idle last.acked := ⟨hcons, hrunning, hidle⟩
  have havl := h.hasAvailable hopen
  refine ⟨?_, ?_, fun requests hslots => h.serveAll requests hslots⟩
  · intro workerId
    obtain ⟨⟨result, next⟩, hasg, -, hgrd, -⟩ :=
      assignToWithSplit_spec hcons workerId 1 (2 ^ 64 - 1)
    cases result with
    | none => exact absurd rfl (hgrd havl)
    | some segment => exact ⟨segment, next, hasg⟩
  · intro workerId params hslots
    obtain ⟨⟨result, next⟩, hasg, -, hgrd⟩ := assignRequestWithTrace_spec hcons workerId params
    cases result with
    | none => exact absurd rfl (hgrd havl hslots)
    | some assignment => exact ⟨assignment, next, hasg⟩

theorem six_bytes_are_served : ∃ last, (History.start (new 10 4)).run
        [.assignTo 0, .assignTo 1, .complete ⟨0, 1⟩, .reclaim ⟨1, 2⟩] = some last ∧
      last.sched.missingBytes = 6 ∧
      ∃ count ≤ 6, ∃ segments final, serveAll ((List.range count).map fun _ =>
          (0, ⟨2, 1, 0, .dynamic, 8, 4, 8, true, false, false⟩)) last.sched =
            some (segments, final) ∧
        final.allDone = true := by
  have hvalue : ((History.start (new 10 4)).run
      [.assignTo 0, .assignTo 1, .complete ⟨0, 1⟩, .reclaim ⟨1, 2⟩]).map (fun last =>
        (last.sched.stopped, last.sched.allDone, last.sched.activeLeaseCount,
          last.sched.missingBytes)) = some (false, false, 0, 6) := by decide
  obtain ⟨last, hrun, hview⟩ := map_eq_some_iff.mp hvalue
  have horig : Origin (new 10 4) := Origin.fresh (by decide)
  obtain ⟨reached, hrchd, hcons⟩ := run_conserved _ _ (start_conserved horig.valid)
  obtain rfl := some.inj (hrun.symm.trans hrchd)
  simp only [Prod.mk.injEq] at hview
  obtain ⟨hlive, hopen, hc, hbyt⟩ := hview
  have hidle : ∀ key, last.sched.leaseRange key = none := by
    intro key
    cases hkey : last.sched.leaseRange key with
    | none => rfl
    | some span =>
      obtain ⟨hlt, -, -, hmem, -⟩ := hcons.leaseRange_spec hkey
      have hlen := hcons.activeLength_le hlt
      have hpos := List.length_pos_of_mem hmem
      omega
  obtain ⟨-, -, hserve⟩ := scheduler_makes_progress horig hrun hlive hopen hidle
  obtain ⟨count, hle, segments, final, hall, hdone, -⟩ :=
    hserve (fun _ => (0, ⟨2, 1, 0, .dynamic, 8, 4, 8, true, false, false⟩)) (fun _ => by decide)
  exact ⟨last, hrun, hbyt, count, hbyt ▸ hle, segments, final, hall, hdone⟩

/-- A piece beyond the end of the object is incomplete, and no worker is ever given it. -/
theorem extra_piece_is_never_assigned :
    ((History.start (fromBitset 4 4 [0] 2)).run
      [.assignTo 0, .complete ⟨0, 1⟩]).map (fun last =>
        (last.sched.stopped, last.sched.allDone, last.sched.activeLeaseCount,
          (last.sched.assignTo 0).map (·.1.isNone),
          [RangeSchedulingMode.fixed, .dynamic].map fun mode =>
            (last.sched.assignRequestWithTrace 0
              ⟨2, 0, 1, mode, 1, 1, 1, true, false, false⟩).map (·.1.isNone))) =
      some (false, false, 0, some true, [some true, some true]) := by
  decide

theorem step_acked {history next : History} {call : Call} (hstep : history.step call = some next) :
    history.acked <:+ next.acked := by
  cases call with
  | retainPrefix key confirmedEnd =>
    simp only [step] at hstep
    split at hstep
    · cases hstep
      exact List.suffix_append _ _
    · cases hstep
      exact List.suffix_rfl
  | renew key w =>
    cases hstep
    exact List.suffix_rfl
  | complete key =>
    obtain ⟨⟨completed, sched⟩, -, hnext⟩ := bind_eq_some_iff.mp hstep
    cases completed with
    | true =>
      cases hnext
      exact List.suffix_append _ _
    | false =>
      cases hnext
      exact List.suffix_rfl
  | _ =>
    obtain ⟨out, -, hnext⟩ := bind_eq_some_iff.mp hstep
    cases hnext
    exact List.suffix_rfl

private theorem run_acked {calls : List Call} : ∀ {history last : History},
    history.run calls = some last → history.acked <:+ last.acked := by
  induction calls with
  | nil =>
    rintro history last ⟨⟩
    exact List.suffix_rfl
  | cons call calls ih =>
    intro history last hrun
    obtain ⟨next, hstep, hrun⟩ := bind_eq_some_iff.mp hrun
    exact (step_acked hstep).trans (ih hrun)

/-- No byte that was acknowledged is missing or leased again. -/
theorem acknowledged_bytes_stay_settled {map : PieceMap} (horigin : Origin map)
    (calls later : List Call) : ∃ middle last, (start map).run calls = some middle ∧
      middle.run later = some last ∧ ∀ b, 0 < hits middle.acked b →
        ∀ i < last.sched.pieceMap.pieceCount,
          hits (last.sched.missingSpans i ++ last.sched.activeSpans i) b = 0 := by
  obtain ⟨middle, hrun, hmiddle⟩ := run_conserved calls _ (start_conserved horigin.valid)
  obtain ⟨last, hlater, h⟩ := run_conserved later middle hmiddle
  refine ⟨middle, last, hrun, hlater, fun b hb i hi => ?_⟩
  obtain ⟨fresh, hacked⟩ := run_acked hlater
  have hgrown : 0 < hits last.acked b := by
    rw [← hacked, hits_append]
    omega
  have hbal := h.balanced i hi b
  rw [hits_append]
  split at hbal
  · omega
  · omega

theorem retained_prefix_stays_settled : ∃ middle last, (start (new 10 4)).run
        [.assignTo 0, .retainPrefix ⟨0, 1⟩ 3] = some middle ∧
      middle.run [.reclaim ⟨0, 1⟩, .assignTo 1] = some last ∧ hits middle.acked 2 = 1 ∧
      ∀ i < last.sched.pieceMap.pieceCount,
        hits (last.sched.missingSpans i ++ last.sched.activeSpans i) 2 = 0 := by
  obtain ⟨middle, last, hrun, hlater, hset⟩ := acknowledged_bytes_stay_settled
    (.fresh (by decide) : Origin (new 10 4))
    [.assignTo 0, .retainPrefix ⟨0, 1⟩ 3] [.reclaim ⟨0, 1⟩, .assignTo 1]
  have hview : ((start (new 10 4)).run [.assignTo 0, .retainPrefix ⟨0, 1⟩ 3]).map
      (fun middle => hits middle.acked 2) = some 1 := by decide
  rw [hrun] at hview
  have hacked : hits middle.acked 2 = 1 := some.inj hview
  exact ⟨middle, last, hrun, hlater, hacked, hset 2 (by omega)⟩

end History

end Bytehaul.Scheduler
