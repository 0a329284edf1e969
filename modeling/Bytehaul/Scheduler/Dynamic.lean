import Bytehaul.Scheduler.Run

/-!
# Dynamic requests

A dynamic request takes the front of a maximal run of untouched pieces, up to its share, the
byte and lease limits, and the minimum on both sides of a split.
-/

namespace Bytehaul.Scheduler

open Foundation List SchedulerState Storage Nat PieceMap Segment
open Std (TreeMap)

namespace SchedulerState

variable {sched : SchedulerState} {acked : List Span} {candidate : AllocationCandidate}
  {run : AllocationCandidate}

/-! ## Candidates are the maximal untouched runs -/

theorem Conserved.available_iff_missing (h : sched.Conserved acked) {i : Nat}
    (hi : i < sched.pieceMap.pieceCount) : sched.available i = true ↔
      ∃ b ∈ sched.pieceMap.pieceRange i, b ∈ sched.custody.missing := by
  rw [h.available_iff i hi]
  constructor
  · intro hne
    obtain ⟨b, hb⟩ := History.missing_byte_of_ne_nil h hi hne
    exact ⟨b, (h.hits_missing_iff hi b).mp hb⟩
  · rintro ⟨b, hb⟩ hnil
    have hpos := (h.hits_missing_iff hi b).mpr hb
    simp [hnil] at hpos

/-- An untouched run that cannot be extended on either side. -/
structure MaximalRun (sched : SchedulerState) (candidate : AllocationCandidate) : Prop extends
    UntouchedRun sched candidate where
  before : ∀ i, i + 1 = candidate.firstPiece → sched.isUntouchedPiece i = false
  after : sched.isUntouchedPiece candidate.endPiece = false

theorem mem_dynamicCandidates_iff (h : sched.Conserved acked) :
    candidate ∈ sched.dynamicCandidates ↔ MaximalRun sched candidate := by
  constructor
  · intro hmem
    have hunt := dynamicCandidates_untouched h hmem
    obtain ⟨run, hrun, rfl⟩ := (mem_dynamicCandidates h).mp hmem
    exact ⟨hunt, hrun.before, hrun.after⟩
  · intro hmax
    have hrun : IsRun sched.isUntouchedPiece (candidate.firstPiece, candidate.endPiece) :=
      ⟨hmax.nonempty, fun i hi hlt => (h.isUntouchedPiece_iff i).mpr (hmax.untouched i hi hlt),
        hmax.before, hmax.after⟩
    refine (mem_dynamicCandidates h).mpr ⟨_, hrun, ?_⟩
    rw [runCandidate, pieceRunCandidate, ← hmax.start, ← hmax.stop]

theorem dynamicCandidates_ne_nil (h : sched.Conserved acked) {i : Nat}
    (hi : sched.isUntouchedPiece i = true) : sched.dynamicCandidates ≠ [] := by
  have hlt := h.lt_of_available ((h.isUntouchedPiece_iff i).mp hi).1
  obtain ⟨run, hrun, -⟩ := exists_mem_runsBelow hi hlt
  rw [dynamicCandidates_eq h]
  exact ne_nil_of_mem (mem_map_of_mem hrun)

def rawEndPiece (sched : SchedulerState) (candidate : AllocationCandidate)
    (desiredEndPiece configuredMaxRequestSize : Nat) : Nat :=
  let pieceSize := max sched.pieceMap.pieceSize 1
  let byteBound := candidate.start + max (max configuredMaxRequestSize pieceSize) 1
  let desiredEndPiece :=
    min (max desiredEndPiece (candidate.firstPiece + 1)) candidate.endPiece
  let byteEndPiece :=
    if byteBound ≥ candidate.stop then candidate.endPiece
    else min (max (byteBound / pieceSize) (candidate.firstPiece + 1)) candidate.endPiece
  let leaseEndPiece := min (candidate.firstPiece + maxRequestLeases) desiredEndPiece
  min (max (min (min desiredEndPiece byteEndPiece) leaseEndPiece) (candidate.firstPiece + 1))
    candidate.endPiece

def requestEndPiece (sched : SchedulerState) (candidate : AllocationCandidate)
    (desiredEndPiece minSplitSize configuredMaxRequestSize : Nat) : Nat :=
  (sched.legalEndPiece candidate minSplitSize
    (sched.rawEndPiece candidate desiredEndPiece configuredMaxRequestSize)).1

private theorem dynamicRequestEnd_fst {desired minSplit maxSize : Nat} :
    (sched.dynamicRequestEnd candidate desired minSplit maxSize).1 =
      min (sched.pieceMap.pieceRange (sched.requestEndPiece candidate desired
        minSplit maxSize - 1)).stop candidate.stop := rfl

theorem rawEndPiece_bounds (sched : SchedulerState)
    (hnemp : candidate.firstPiece < candidate.endPiece)
    (desired maxSize : Nat) :
    candidate.firstPiece < sched.rawEndPiece candidate desired maxSize ∧
      sched.rawEndPiece candidate desired maxSize ≤ candidate.endPiece ∧
      sched.rawEndPiece candidate desired maxSize ≤ candidate.firstPiece + maxRequestLeases := by
  unfold rawEndPiece maxRequestLeases
  dsimp only
  omega

theorem legalEndPiece_le (minSplit rawEndPiece : Nat) :
    (sched.legalEndPiece candidate minSplit rawEndPiece).1 ≤ rawEndPiece := by
  unfold legalEndPiece
  (repeat' split) <;> dsimp only <;> omega

theorem requestEndPiece_bounds (sched : SchedulerState)
    (hnemp : candidate.firstPiece < candidate.endPiece)
    (desired minSplit maxSize : Nat) :
    candidate.firstPiece < sched.requestEndPiece candidate desired minSplit maxSize ∧
      sched.requestEndPiece candidate desired minSplit maxSize ≤ candidate.endPiece ∧
      sched.requestEndPiece candidate desired minSplit maxSize ≤
        candidate.firstPiece + maxRequestLeases := by
  obtain ⟨hlt, hle, hls⟩ := rawEndPiece_bounds sched hnemp desired maxSize
  refine ⟨(legalEndPiece_bounds hlt hle).1, (legalEndPiece_bounds hlt hle).2, ?_⟩
  exact (legalEndPiece_le _ _).trans hls

section Run

variable (h : sched.Conserved acked) (hrun : UntouchedRun sched candidate)

include h hrun

theorem UntouchedRun.endPiece_le : candidate.endPiece ≤ sched.pieceMap.pieceCount := by
  have hnemp := hrun.nonempty
  have hlast := h.lt_of_available (hrun.untouched (candidate.endPiece - 1) (by omega) (by omega)).1
  omega

theorem UntouchedRun.stop_eq {endPiece : Nat} (hlt : candidate.firstPiece < endPiece)
    (hle : endPiece ≤ candidate.endPiece) : (sched.pieceMap.pieceRange (endPiece - 1)).stop =
      min (endPiece * sched.pieceMap.pieceSize) sched.pieceMap.totalSize := by
  have hc := hrun.endPiece_le h
  rw [h.map.pieceRange_stop (by omega), Nat.sub_add_cancel (by omega)]

theorem UntouchedRun.candidate_stop : candidate.stop =
    min (candidate.endPiece * sched.pieceMap.pieceSize) sched.pieceMap.totalSize :=
  hrun.stop.trans (hrun.stop_eq h hrun.nonempty (le_refl _))

omit h in
theorem UntouchedRun.candidate_start :
    candidate.start = candidate.firstPiece * sched.pieceMap.pieceSize := hrun.start

theorem UntouchedRun.boundary_lt {j : Nat} (hj : j < candidate.endPiece) :
    j * sched.pieceMap.pieceSize < candidate.stop := by
  have hc := hrun.endPiece_le h
  have htot := h.map.start_lt_total (lt_of_lt_of_le hj hc)
  have hmul := mul_le_mul_right sched.pieceMap.pieceSize (succ_le_of_lt hj)
  have hsize := h.map.size_pos
  rw [hrun.candidate_stop h, succ_mul] at *
  omega

theorem UntouchedRun.rawEndPiece_bytes (desired maxSize : Nat) :
    (sched.pieceMap.pieceRange (sched.rawEndPiece candidate desired maxSize - 1)).stop ≤
      candidate.start + max maxSize sched.pieceMap.pieceSize := by
  have hsize := h.map.size_pos
  obtain ⟨hlt, hle, -⟩ := rawEndPiece_bounds sched hrun.nonempty desired maxSize
  rw [hrun.stop_eq h hlt hle]
  have hstop := hrun.candidate_stop h
  have hstart := hrun.candidate_start
  set raw := sched.rawEndPiece candidate desired maxSize with hraw
  have hmul := mul_le_mul_right sched.pieceMap.pieceSize hle
  have hcases : candidate.stop ≤ candidate.start +
        max (max maxSize (max sched.pieceMap.pieceSize 1)) 1 ∨
      raw ≤ (candidate.start + max (max maxSize
        (max sched.pieceMap.pieceSize 1)) 1) / max sched.pieceMap.pieceSize 1 ∨
      raw ≤ candidate.firstPiece + 1 := by
    rw [hraw]
    unfold rawEndPiece
    dsimp only
    split
    · exact .inl ‹_›
    · omega
  have hp : max sched.pieceMap.pieceSize 1 = sched.pieceMap.pieceSize := by omega
  rw [hp] at hcases
  rcases hcases with hfits | hround | hone
  · omega
  · have hmul' := Nat.mul_le_of_le_div _ _ _ hround
    omega
  · have hmul' := mul_le_mul_right sched.pieceMap.pieceSize hone
    rw [succ_mul] at hmul'
    omega

theorem UntouchedRun.requestEndPiece_bytes
    (desired minSplit maxSize : Nat) :
    (sched.pieceMap.pieceRange (sched.requestEndPiece candidate desired minSplit
        maxSize - 1)).stop ≤
      candidate.start + max maxSize sched.pieceMap.pieceSize := by
  obtain ⟨-, hle, -⟩ := rawEndPiece_bounds sched hrun.nonempty desired maxSize
  have hraw := hrun.rawEndPiece_bytes h desired maxSize
  have hc := hrun.endPiece_le h
  have hnemp := hrun.nonempty
  have hlegal : sched.requestEndPiece candidate desired minSplit maxSize ≤ _ := legalEndPiece_le _ _
  exact (h.pieceRange_stop_mono (by omega) (by omega)).trans hraw

theorem UntouchedRun.pieceRange_stop_lt {i j : Nat} (hij : i < j) (hj : j < candidate.endPiece) :
    (sched.pieceMap.pieceRange i).stop < (sched.pieceMap.pieceRange j).stop := by
  have hc := hrun.endPiece_le h
  have hstart := h.map.pieceRange_stop_eq_start (i := i) (by omega)
  have hpos := h.map.pieceRange_nonempty (i := i + 1) (by omega)
  have hmono := h.pieceRange_stop_mono (i := i + 1) hij (by omega)
  omega

theorem UntouchedRun.wholePieces_eq {endPiece : Nat} (hlt : candidate.firstPiece < endPiece)
    (hle : endPiece ≤ candidate.endPiece) :
    sched.wholePieces candidate (sched.pieceMap.pieceRange (endPiece - 1)).stop =
      (range' candidate.firstPiece (endPiece - candidate.firstPiece)).map
        fun p => (p, sched.pieceMap.pieceRange p) := by
  have hc := hrun.endPiece_le h
  have hspl : range' candidate.firstPiece (candidate.endPiece - candidate.firstPiece) =
      range' candidate.firstPiece (endPiece - candidate.firstPiece) ++
        range' endPiece (candidate.endPiece - endPiece) := by
    have hfst : candidate.firstPiece + (endPiece - candidate.firstPiece) = endPiece := by omega
    have hc : endPiece - candidate.firstPiece + (candidate.endPiece - endPiece) =
        candidate.endPiece - candidate.firstPiece := by omega
    have happ := range'_append_1 (s := candidate.firstPiece)
      (m := endPiece - candidate.firstPiece) (n := candidate.endPiece - endPiece)
    rw [hfst, hc] at happ
    exact happ.symm
  unfold wholePieces
  rw [hspl, map_append, takeWhile_append_of_pos]
  · suffices hrest : takeWhile (fun entry : Nat × ByteRange =>
        decide (entry.2.stop ≤ (sched.pieceMap.pieceRange (endPiece - 1)).stop))
        ((range' endPiece (candidate.endPiece - endPiece)).map
          fun p => (p, sched.pieceMap.pieceRange p)) = [] by
      rw [hrest, append_nil]
    by_cases hend : endPiece < candidate.endPiece
    · obtain ⟨rest, hrest⟩ : ∃ rest, candidate.endPiece - endPiece = rest + 1 :=
        ⟨candidate.endPiece - endPiece - 1, by omega⟩
      have hbeyond := hrun.pieceRange_stop_lt h (i := endPiece - 1) (by omega) hend
      rw [hrest, range'_succ, map_cons, takeWhile_cons_of_neg (by simp; omega)]
    · rw [show candidate.endPiece - endPiece = 0 by omega]
      rfl
  · intro entry he
    obtain ⟨p, hpid, rfl⟩ := mem_map.mp he
    rw [mem_range'_1] at hpid
    exact decide_eq_true (h.pieceRange_stop_mono (by omega) (by omega))

private theorem UntouchedRun.sum_lengths (count : Nat)
    (hle : candidate.firstPiece + count ≤ candidate.endPiece) :
    ((range' candidate.firstPiece count).map fun p =>
        (sched.pieceMap.pieceRange p).stop - (sched.pieceMap.pieceRange p).start).sum =
      min ((candidate.firstPiece + count) * sched.pieceMap.pieceSize)
        sched.pieceMap.totalSize - candidate.start := by
  have hc := hrun.endPiece_le h
  have hstart := hrun.candidate_start
  induction count with
  | zero => simp [hstart]
  | succ count ih =>
    have hmul := mul_le_mul_right sched.pieceMap.pieceSize (le_add_right candidate.firstPiece count)
    rw [range'_1_concat, map_append, List.sum_append, ih (by omega), map_singleton,
      sum_singleton, h.map.pieceRange_stop (by omega), pieceRange_start, hstart,
      ← add_assoc, succ_mul]
    omega

end Run

/-! ## The request that is issued -/

/-- The request takes the pieces of `run` before `endPiece`. -/
structure Takes (sched : SchedulerState) (run : AllocationCandidate) (endPiece : Nat)
    (assignment : RequestAssignment) : Prop where
  segments : assignment.segments.map (fun segment => (segment.pieceId, segment.span)) =
    (range' run.firstPiece (endPiece - run.firstPiece)).map
      fun pieceId => (pieceId, sched.pieceMap.pieceRange pieceId)
  candidateStart : assignment.candidateStart = run.start
  candidateEnd : assignment.candidateEnd = run.stop
  finalStart : assignment.segments.head?.map start = some assignment.finalStart
  finalEnd : assignment.segments.getLast?.map stop = some assignment.finalEnd

def plannedEndPiece (sched : SchedulerState) (plan : DynamicPlan)
    (minSplitSize configuredMaxRequestSize : Nat) : Nat :=
  sched.requestEndPiece plan.candidate
    (sched.dynamicShareEndPiece plan.candidate plan.candidateSlots minSplitSize)
    minSplitSize configuredMaxRequestSize

theorem assignDynamicRequest_takes (h : sched.Conserved acked)
    (hcands : sched.dynamicCandidates ≠ []) (w occupied : Nat)
    {slots : Nat} (hslots : slots ≠ 0)
    (splitSize maxSize : Nat) (collect : Bool) : ∃ plan out,
      sched.planDynamicShare sched.dynamicCandidates slots
        (effectiveDynamicMinSplitSize sched.pieceMap.pieceSize splitSize)
        collect = some plan ∧
      plan.candidate ∈ sched.dynamicCandidates ∧
      sched.assignDynamicRequest w occupied slots splitSize maxSize collect = some out ∧
      (sched.hasAvailable = true → out.1 ≠ none) ∧
      ∀ assignment, out.1 = some assignment → Takes sched plan.candidate (sched.plannedEndPiece plan
          (effectiveDynamicMinSplitSize sched.pieceMap.pieceSize splitSize)
          maxSize) assignment := by
  unfold assignDynamicRequest
  rw [if_neg (by simpa using hcands)]
  dsimp only
  generalize effectiveDynamicMinSplitSize sched.pieceMap.pieceSize splitSize = minSplit
  obtain ⟨plan, hplan, hmem⟩ := planDynamicShare_spec sched hcands hslots minSplit collect
  have hrun := dynamicCandidates_untouched h hmem
  obtain ⟨hlt, hle, -⟩ := requestEndPiece_bounds sched hrun.nonempty
    (sched.dynamicShareEndPiece plan.candidate plan.candidateSlots minSplit) minSplit
    maxSize
  obtain ⟨⟨segs, next⟩, hiss, hasgd, hprog, hsegs⟩ :=
    issueDynamicCandidate_spec h hrun (dynamicRequestEnd_ge h hrun
      (sched.dynamicShareEndPiece plan.candidate plan.candidateSlots minSplit)
      minSplit maxSize) w
  have hbd : (sched.dynamicRequestEnd plan.candidate
      (sched.dynamicShareEndPiece plan.candidate plan.candidateSlots minSplit)
      minSplit maxSize).1 =
        (sched.pieceMap.pieceRange (sched.plannedEndPiece plan minSplit maxSize - 1)).stop := by
    rw [dynamicRequestEnd_fst, hrun.stop]
    have hc := hrun.endPiece_le h
    exact min_eq_left (h.pieceRange_stop_mono (by omega) (by omega))
  simp only [hplan, hiss, Option.bind_eq_bind, Option.bind_some]
  cases segs with
  | none => exact ⟨plan, _, rfl, hmem, rfl, fun hlive => absurd rfl (hprog hlive), by simp⟩
  | some segs =>
    obtain ⟨-, hne, -⟩ := hasgd.granted segs rfl
    simp only [id] at hne
    dsimp only
    rw [head?_eq_some_head hne, getLast?_eq_some_getLast hne]
    refine ⟨plan, _, rfl, hmem, rfl, by simp, ?_⟩
    rintro assignment hasgt
    obtain rfl := Option.some.inj hasgt
    refine ⟨?_, rfl, rfl, ?_, ?_⟩
    · rw [hsegs segs rfl, hbd]
      exact hrun.wholePieces_eq h hlt hle
    · simp [head?_eq_some_head hne]
    · simp [getLast?_eq_some_getLast hne]

/-- Whole untouched pieces from the front of the run, within the limits of a request. -/
structure WellShaped (sched : SchedulerState) (run : AllocationCandidate)
    (maxRequestSize : Nat) (assignment : RequestAssignment) : Prop where
  nonempty : assignment.segments ≠ []
  pieces : assignment.segments.map pieceId = range' run.firstPiece assignment.segments.length
  whole : ∀ segment ∈ assignment.segments,
    segment.span = sched.pieceMap.pieceRange segment.pieceId
  untouched : ∀ segment ∈ assignment.segments, sched.isUntouchedPiece segment.pieceId = true
  contiguous : assignment.segments.IsChain fun first second =>
    first.pieceId + 1 = second.pieceId ∧ first.stop = second.start
  inside : run.firstPiece + assignment.segments.length ≤ run.endPiece
  leases : assignment.segments.length ≤ maxRequestLeases
  bytes : (assignment.segments.map fun segment => segment.stop - segment.start).sum ≤
    max maxRequestSize sched.pieceMap.pieceSize
  finalStart : assignment.segments.head?.map start = some assignment.finalStart
  finalEnd : assignment.segments.getLast?.map stop = some assignment.finalEnd

section Takes

variable {run : AllocationCandidate} {endPiece : Nat} {assignment : RequestAssignment}

variable (htakes : Takes sched run endPiece assignment)
include htakes

theorem Takes.length : assignment.segments.length = endPiece - run.firstPiece := by
  simpa using congrArg List.length htakes.segments

theorem Takes.mem {seg : Segment} (hseg : seg ∈ assignment.segments) :
    run.firstPiece ≤ seg.pieceId ∧ seg.pieceId < endPiece ∧
      seg.span = sched.pieceMap.pieceRange seg.pieceId := by
  have hmem : (seg.pieceId, seg.span) ∈ assignment.segments.map
      fun seg => (seg.pieceId, seg.span) := mem_map_of_mem hseg
  rw [htakes.segments] at hmem
  obtain ⟨p, hpid, heq⟩ := mem_map.mp hmem
  obtain ⟨rfl, hspan⟩ := Prod.mk.inj heq
  rw [mem_range'_1] at hpid
  exact ⟨hpid.1, by omega, hspan.symm⟩

theorem Takes.pieces : assignment.segments.map pieceId =
      range' run.firstPiece assignment.segments.length := by
  have hfst := congrArg (map Prod.fst) htakes.segments
  simpa [Function.comp_def, htakes.length] using hfst

omit htakes

theorem Takes.chain (h : sched.Conserved acked) (hrun : UntouchedRun sched run)
    (hle : endPiece ≤ run.endPiece) (htakes : Takes sched run endPiece assignment) :
    assignment.segments.IsChain fun first second =>
      first.pieceId + 1 = second.pieceId ∧ first.stop = second.start := by
  have hc := hrun.endPiece_le h
  have hps : (assignment.segments.map pieceId).IsChain fun i j => i + 1 = j := by
    rw [htakes.pieces]
    exact (isChain_range' _ _ 1).imp fun i j hij => hij.symm
  rw [isChain_map] at hps
  refine hps.imp_of_mem_imp ?_
  intro first second hfst hsnd hnext
  obtain ⟨-, -, hspan⟩ := htakes.mem hfst
  obtain ⟨-, hlt, hspan'⟩ := htakes.mem hsnd
  refine ⟨hnext, ?_⟩
  have hstart := h.map.pieceRange_stop_eq_start (i := first.pieceId) (by omega)
  rw [← hspan, hnext, ← hspan'] at hstart
  exact hstart

theorem Takes.sum (h : sched.Conserved acked) (hrun : UntouchedRun sched run)
    (hlt : run.firstPiece < endPiece) (hle : endPiece ≤ run.endPiece)
    (htakes : Takes sched run endPiece assignment) :
    (assignment.segments.map fun seg => seg.stop - seg.start).sum =
      (sched.pieceMap.pieceRange (endPiece - 1)).stop - run.start := by
  have hlengths := congrArg (map fun entry : Nat × Span => entry.2.stop - entry.2.start)
    htakes.segments
  rw [map_map, map_map] at hlengths
  have hsum := congrArg List.sum hlengths
  rw [hrun.stop_eq h hlt hle]
  have hruns := hrun.sum_lengths h (endPiece - run.firstPiece) (by omega)
  rw [show run.firstPiece + (endPiece - run.firstPiece) = endPiece by omega] at hruns
  exact hsum.trans hruns

theorem Takes.wellShaped (h : sched.Conserved acked) (hrun : UntouchedRun sched run)
    (hlt : run.firstPiece < endPiece) (hle : endPiece ≤ run.endPiece)
    (hls : endPiece ≤ run.firstPiece + maxRequestLeases) {maxSize : Nat}
    (hbyt : (sched.pieceMap.pieceRange (endPiece - 1)).stop ≤
      run.start + max maxSize sched.pieceMap.pieceSize)
    (htakes : Takes sched run endPiece assignment) :
    WellShaped sched run maxSize assignment where
  nonempty hnil := by
    have hlen := htakes.length
    rw [hnil, length_nil] at hlen
    omega
  pieces := htakes.pieces
  whole seg hseg := (htakes.mem hseg).2.2
  untouched seg hseg := by
    obtain ⟨hfst, hend, -⟩ := htakes.mem hseg
    exact (h.isUntouchedPiece_iff _).mpr (hrun.untouched _ hfst (by omega))
  contiguous := htakes.chain h hrun hle
  inside := by
    rw [htakes.length]
    omega
  leases := by
    rw [htakes.length]
    omega
  bytes := by
    rw [htakes.sum h hrun hlt hle]
    omega
  finalStart := htakes.finalStart
  finalEnd := htakes.finalEnd

end Takes

/-! ## The minimum split -/

/-- A piece boundary strictly inside the run with at least `minimum` bytes on both sides. -/
def LegalSplit (sched : SchedulerState) (run : AllocationCandidate) (minimum j : Nat) : Prop :=
  run.firstPiece < j ∧ j < run.endPiece ∧
    minimum ≤ (sched.pieceMap.pieceRange j).start - run.start ∧
    minimum ≤ run.stop - (sched.pieceMap.pieceRange j).start

private theorem effectiveDynamicMinSplitSize_spec {pieceSize : Nat} (hsize : 0 < pieceSize)
    (configured : Nat) : (∃ count, 0 < count ∧
      effectiveDynamicMinSplitSize pieceSize configured = count * pieceSize) ∨
      u64Limit - 1 ≤ effectiveDynamicMinSplitSize pieceSize configured := by
  have hmax : max pieceSize 1 = pieceSize := by omega
  simp only [effectiveDynamicMinSplitSize, hmax]
  have hpos : 0 < divCeil (max configured pieceSize) pieceSize :=
    (lt_divCeil_iff hsize).mpr (by omega)
  have hle := mul_le_mul_right pieceSize (succ_le_of_lt hpos)
  by_cases hfits : divCeil (max configured pieceSize) pieceSize * pieceSize ≤ u64Limit - 1
  · refine .inl ⟨_, hpos, ?_⟩
    omega
  · omega

section Split

variable {run : AllocationCandidate} {minimum : Nat}

theorem LegalSplit.len (hspl : ∃ j, LegalSplit sched run minimum j) : 2 * minimum ≤ run.len := by
  obtain ⟨j, -, -, hleft, hright⟩ := hspl
  unfold AllocationCandidate.len
  omega

theorem legalSplit_iff (h : sched.Conserved acked) (hrun : UntouchedRun sched run) {count : Nat}
    (hc : 0 < count) (j : Nat) : LegalSplit sched run (count * sched.pieceMap.pieceSize) j ↔
      run.firstPiece + count ≤ j ∧
        j ≤ min ((run.stop - count * sched.pieceMap.pieceSize) / sched.pieceMap.pieceSize)
          (run.endPiece - 1) := by
  have hsize := h.map.size_pos
  have hnemp := hrun.nonempty
  have hpos := mul_pos hc hsize
  rw [Nat.le_min, Nat.le_div_iff_mul_le hsize, LegalSplit, pieceRange_start,
    hrun.candidate_start, ← Nat.sub_mul, Nat.mul_le_mul_right_iff hsize]
  constructor
  · rintro ⟨hfst, hend, hleft, hright⟩
    omega
  · rintro ⟨hleft, hright, hend⟩
    have hmul := mul_le_mul_right sched.pieceMap.pieceSize (show 1 ≤ j by omega)
    rw [one_mul] at hmul
    omega

theorem dynamicLegalSplitBounds_spec (h : sched.Conserved acked) (hrun : UntouchedRun sched run)
    (hminimum : (∃ count, 0 < count ∧ minimum = count * sched.pieceMap.pieceSize) ∨
      0 < minimum ∧ run.len < 2 * minimum) :
    ((sched.dynamicLegalSplitBounds run minimum).isSome = true ↔
      ∃ j, LegalSplit sched run minimum j) ∧
    ∀ first last, sched.dynamicLegalSplitBounds run minimum = some (first, last) →
      first ≤ last ∧ last < run.endPiece ∧
        ∀ j, LegalSplit sched run minimum j ↔ first ≤ j ∧ j ≤ last := by
  have hsize := h.map.size_pos
  have hmax : max sched.pieceMap.pieceSize 1 = sched.pieceMap.pieceSize := by omega
  rcases hminimum with ⟨count, hc, rfl⟩ | ⟨hpos, hshort⟩
  · have hpos := mul_pos hc hsize
    have hceil : divCeil (count * sched.pieceMap.pieceSize) sched.pieceMap.pieceSize = count := by
      apply eq_of_forall_lt_iff
      intro i
      rw [lt_divCeil_iff hsize, Nat.mul_lt_mul_right hsize]
    have hiff := legalSplit_iff h hrun hc
    unfold dynamicLegalSplitBounds
    simp only [hmax, hceil]
    split
    · rename_i hearly
      refine ⟨?_, by simp⟩
      simp only [Option.isSome_none, Bool.false_eq_true, false_iff]
      rintro ⟨j, hj⟩
      have hlen := LegalSplit.len ⟨j, hj⟩
      obtain ⟨hfst, hend, -⟩ := hj
      rcases hearly with hshort | hzero | hratio
      · omega
      · omega
      · rw [div_lt_iff_lt_mul hpos] at hratio
        omega
    · split
      · rename_i hle
        refine ⟨?_, ?_⟩
        · simp only [Option.isSome_some, true_iff]
          exact ⟨_, (hiff _).mpr ⟨le_refl _, hle⟩⟩
        · rintro first last hbds
          obtain ⟨rfl, rfl⟩ := Prod.mk.inj (Option.some.inj hbds)
          exact ⟨hle, by omega, hiff⟩
      · refine ⟨?_, by simp⟩
        simp only [Option.isSome_none, Bool.false_eq_true, false_iff]
        rintro ⟨j, hj⟩
        obtain ⟨hlo, hhi⟩ := (hiff j).mp hj
        omega
  · have hnone : sched.dynamicLegalSplitBounds run minimum = none := by
      unfold dynamicLegalSplitBounds
      rw [if_pos]
      rw [div_lt_iff_lt_mul hpos]
      omega
    rw [hnone]
    refine ⟨?_, by simp⟩
    simp only [Option.isSome_none, Bool.false_eq_true, false_iff]
    intro hspl
    have := LegalSplit.len hspl
    omega

private theorem le_dynamicShareEndPiece {first last : Nat}
    (hbds : sched.dynamicLegalSplitBounds run minimum = some (first, last))
    (hle : first ≤ last) (hlast : last < run.endPiece) (slots : Nat) :
    first ≤ sched.dynamicShareEndPiece run slots minimum := by
  unfold dynamicShareEndPiece
  split
  · omega
  · simp only [hbds]
    omega

theorem UntouchedRun.rawEndPiece_short (h : sched.Conserved acked)
    (hrun : UntouchedRun sched run) {count desired maxSize : Nat}
    (hdesired : run.firstPiece + count ≤ desired)
    (hend : run.firstPiece + count < run.endPiece) (hc : 0 < count)
    (hraw : sched.rawEndPiece run desired maxSize < run.firstPiece + count) :
    maxSize < count * sched.pieceMap.pieceSize ∨
      maxRequestLeases * sched.pieceMap.pieceSize < count * sched.pieceMap.pieceSize := by
  have hsize := h.map.size_pos
  have hmax : max sched.pieceMap.pieceSize 1 = sched.pieceMap.pieceSize := by omega
  by_cases hls : maxRequestLeases < count
  · exact .inr ((Nat.mul_lt_mul_right hsize).mpr hls)
  · by_contra hbyt
    have hdiv : run.firstPiece + count ≤ (run.start + max (max maxSize
        sched.pieceMap.pieceSize) 1) / sched.pieceMap.pieceSize := by
      rw [le_div_iff_mul_le hsize, add_mul, hrun.candidate_start]
      omega
    unfold rawEndPiece at hraw
    simp only [hmax] at hraw
    split at hraw <;> omega

private theorem legalEndPiece_split {first last raw : Nat}
    (hbds : sched.dynamicLegalSplitBounds run minimum = some (first, last)) (hle : first ≤ last)
    (hraw : raw ≤ run.endPiece) : (sched.legalEndPiece run minimum raw).1 = run.endPiece ∨
      (sched.legalEndPiece run minimum raw).1 ≤ last ∧
        (first ≤ (sched.legalEndPiece run minimum raw).1 ∨ raw < first) := by
  unfold legalEndPiece
  split
  · simp only [hbds]
    split <;> dsimp only <;> omega
  · omega

end Split

private theorem UntouchedRun.eq_of_bytes (h : sched.Conserved acked) {other : AllocationCandidate}
    (hrun : UntouchedRun sched run) (ho : UntouchedRun sched other)
    (hstart : run.start = other.start) (hstop : run.stop = other.stop) : run = other := by
  have hsize := h.map.size_pos
  have hfst : run.firstPiece = other.firstPiece := by
    rw [hrun.candidate_start, ho.candidate_start] at hstart
    exact eq_of_mul_eq_mul_right hsize hstart
  have hend : run.endPiece = other.endPiece := by
    rcases lt_trichotomy run.endPiece other.endPiece with hlt | heq | hlt
    · have hin := ho.boundary_lt h hlt
      have hle := hrun.candidate_stop h
      omega
    · exact heq
    · have hin := hrun.boundary_lt h hlt
      have hle := ho.candidate_stop h
      omega
  cases run
  simp_all

theorem Takes.finalBounds {endPiece : Nat} {assignment : RequestAssignment}
    (hrun : UntouchedRun sched run) (hlt : run.firstPiece < endPiece)
    (htakes : Takes sched run endPiece assignment) : assignment.finalStart = run.start ∧
      assignment.finalEnd = (sched.pieceMap.pieceRange (endPiece - 1)).stop := by
  have hspans := congrArg (map Prod.snd) htakes.segments
  obtain ⟨count, hc⟩ : ∃ count, endPiece - run.firstPiece = count + 1 :=
    ⟨endPiece - run.firstPiece - 1, by omega⟩
  rw [hc] at hspans
  constructor
  · have hhead := congrArg (fun spans => (head? spans).map Span.start) hspans
    have hfinal := htakes.finalStart
    simp only [head?_map, Option.map_map, range'_succ, map_cons, head?_cons,
      Option.map_some, Function.comp_def] at hhead
    exact Option.some.inj (hfinal.symm.trans hhead) |>.trans hrun.start.symm
  · have hlast := congrArg (fun spans => (getLast? spans).map Span.stop) hspans
    have hfinal := htakes.finalEnd
    simp only [getLast?_map, Option.map_map, range'_1_concat,
      getLast?_append, getLast?_singleton, Option.some_or,
      Option.map_some, Function.comp_def] at hlast
    rw [show endPiece - 1 = run.firstPiece + count by omega]
    exact Option.some.inj (hfinal.symm.trans hlast)

theorem requestEndPiece_split (h : sched.Conserved acked) (hrun : UntouchedRun sched run)
    {count slots maxSize : Nat} (hc : 0 < count) {endPiece : Nat}
    (hendPiece : endPiece = sched.requestEndPiece run
      (sched.dynamicShareEndPiece run slots (count * sched.pieceMap.pieceSize))
      (count * sched.pieceMap.pieceSize) maxSize)
    (hbds : (sched.dynamicLegalSplitBounds run
      (count * sched.pieceMap.pieceSize)).isSome = true) (hin : endPiece < run.endPiece) :
    count * sched.pieceMap.pieceSize ≤ run.stop - endPiece * sched.pieceMap.pieceSize ∧
      (count * sched.pieceMap.pieceSize ≤ endPiece * sched.pieceMap.pieceSize - run.start ∨
        maxSize < count * sched.pieceMap.pieceSize ∨
        maxRequestLeases * sched.pieceMap.pieceSize < count * sched.pieceMap.pieceSize) := by
  obtain ⟨⟨first, last⟩, hsome⟩ := Option.isSome_iff_exists.mp hbds
  obtain ⟨hle, hlast, hlegal⟩ :=
    (dynamicLegalSplitBounds_spec h hrun (.inl ⟨count, hc, rfl⟩)).2 first last hsome
  have hfst := (legalSplit_iff h hrun hc first).mp ((hlegal first).mpr ⟨le_refl _, hle⟩)
  have hleast : first ≤ run.firstPiece + count :=
    ((hlegal _).mp ((legalSplit_iff h hrun hc _).mpr ⟨le_refl _, by omega⟩)).1
  have hraw := rawEndPiece_bounds sched hrun.nonempty
    (sched.dynamicShareEndPiece run slots (count * sched.pieceMap.pieceSize))
    maxSize
  rcases legalEndPiece_split hsome hle hraw.2.1 with hwh | ⟨hend, hcases⟩
  · exact absurd (hendPiece.trans hwh) (by omega)
  · change sched.requestEndPiece _ _ _ _ ≤ last at hend
    rw [← hendPiece] at hend
    obtain ⟨-, -, -, hright⟩ := (hlegal last).mpr ⟨hle, le_refl _⟩
    have hmul := mul_le_mul_right sched.pieceMap.pieceSize hend
    rw [pieceRange_start] at hright
    refine ⟨by omega, ?_⟩
    rcases hcases with hlong | hshort
    · change first ≤ sched.requestEndPiece _ _ _ _ at hlong
      rw [← hendPiece] at hlong
      exact .inl ((hlegal endPiece).mpr ⟨hlong, hend⟩).2.2.1
    · right
      exact hrun.rawEndPiece_short h (hfst.1.trans (le_dynamicShareEndPiece hsome hle hlast slots))
        (by omega) hc (by omega)

end SchedulerState

namespace History

/-- The bounds exist exactly when a boundary leaves the minimum on both sides and enclose exactly
those; a request then leaves and takes the minimum, unless size or leases allow fewer. -/
theorem dynamic_minimum_split {map : PieceMap} (horigin : Origin map) {calls : List Call}
    {last : History} (hrun : (History.start map).run calls = some last)
    (hu64 : last.sched.pieceMap.totalSize < u64Limit) {run : AllocationCandidate}
    (huntouched : last.sched.UntouchedRun run) (configured : Nat) :
    let m := effectiveDynamicMinSplitSize last.sched.pieceMap.pieceSize configured
    ((last.sched.dynamicLegalSplitBounds run m).isSome = true ↔
      ∃ j, last.sched.LegalSplit run m j) ∧
    (∀ firstLegal lastLegal,
      last.sched.dynamicLegalSplitBounds run m = some (firstLegal, lastLegal) →
      ∀ j, last.sched.LegalSplit run m j ↔ firstLegal ≤ j ∧ j ≤ lastLegal) ∧
    ∀ (workerId : Nat) (params : SchedulerState.RequestParams) (assignment : RequestAssignment)
      (next : SchedulerState), params.mode = .dynamic → params.allowBatch = true →
      params.dynamicMinSplitSize = configured →
      (last.sched.dynamicLegalSplitBounds run m).isSome = true →
      last.sched.assignRequestWithTrace workerId params = some (some assignment, next) →
      assignment.candidateStart = run.start → assignment.candidateEnd = run.stop →
      assignment.finalEnd ≠ run.stop →
      m ≤ run.stop - assignment.finalEnd ∧ (m ≤ assignment.finalEnd - assignment.finalStart ∨
          params.dynamicMaxRequestSize < m ∨
          maxRequestLeases * last.sched.pieceMap.pieceSize < m) := by
  obtain ⟨reached, hrchd, h⟩ := run_conserved calls _ (start_conserved horigin.valid)
  obtain rfl := Option.some.inj (hrun.symm.trans hrchd)
  intro m
  have hsize := h.map.size_pos
  have hspec := effectiveDynamicMinSplitSize_spec hsize configured
  have hminimum : (∃ count, 0 < count ∧ m = count * last.sched.pieceMap.pieceSize) ∨
      0 < m ∧ run.len < 2 * m := by
    refine hspec.imp id fun hlarge => ?_
    have hstop := huntouched.candidate_stop h
    have hnemp := huntouched.boundary_lt h huntouched.nonempty
    have hu64' : 1 < u64Limit := by decide
    unfold AllocationCandidate.len
    omega
  have hbds := dynamicLegalSplitBounds_spec h huntouched hminimum
  refine ⟨hbds.1, fun firstLegal lastLegal hsome => (hbds.2 _ _ hsome).2.2, ?_⟩
  intro workerId params assignment next hmode hbatch hconf hsome hasg hstart hstop hpart
  obtain ⟨count, hc, hm⟩ : ∃ count, 0 < count ∧ m = count * last.sched.pieceMap.pieceSize := by
    refine hminimum.resolve_right fun ⟨hpos, hshort⟩ => ?_
    have hlen := SchedulerState.LegalSplit.len (hbds.1.mp hsome)
    omega
  have hne := dynamicCandidates_ne_nil h ((h.isUntouchedPiece_iff run.firstPiece).mpr
    (huntouched.untouched _ (le_refl _) huntouched.nonempty))
  simp only [assignRequestWithTrace, hmode, hbatch, Bool.not_true,
    Bool.false_eq_true, if_false] at hasg
  split at hasg
  · cases hasg
  · rename_i hslots
    obtain ⟨plan, out, -, hmem, hout, -, htakes⟩ :=
      assignDynamicRequest_takes h hne workerId params.occupiedRequests
        (fun hzero => hslots (.inl hzero)) params.dynamicMinSplitSize
        params.dynamicMaxRequestSize params.collectCandidateShares
    obtain rfl := Option.some.inj (hasg.symm.trans hout)
    have htaken := htakes assignment rfl
    obtain rfl := (dynamicCandidates_untouched h hmem).eq_of_bytes h
      huntouched (htaken.candidateStart.symm.trans hstart) (htaken.candidateEnd.symm.trans hstop)
    rw [hconf] at htaken
    obtain ⟨hlt, hle, -⟩ : plan.candidate.firstPiece <
          last.sched.plannedEndPiece plan m params.dynamicMaxRequestSize ∧
        last.sched.plannedEndPiece plan m params.dynamicMaxRequestSize ≤
          plan.candidate.endPiece ∧ _ :=
      requestEndPiece_bounds last.sched huntouched.nonempty _ m _
    obtain ⟨hfinalStart, hfinalEnd⟩ := htaken.finalBounds huntouched hlt
    have hin : last.sched.plannedEndPiece plan m params.dynamicMaxRequestSize <
        plan.candidate.endPiece := by
      refine lt_of_le_of_ne hle fun heq => hpart ?_
      rw [hfinalEnd, huntouched.stop, ← heq]
    have hboundary := huntouched.boundary_lt h hin
    have hruns := huntouched.candidate_stop h
    change assignment.finalEnd = (last.sched.pieceMap.pieceRange
      (last.sched.plannedEndPiece plan m params.dynamicMaxRequestSize - 1)).stop at hfinalEnd
    rw [huntouched.stop_eq h hlt hle, min_eq_left (by omega)] at hfinalEnd
    rw [hfinalStart, hfinalEnd]
    rw [hm] at hsome hin ⊢
    exact requestEndPiece_split h huntouched hc rfl hsome hin

theorem forty_bytes_are_split : ∃ assignment next,
      (History.start (new 40 4)).sched.assignRequestWithTrace 0
        ⟨3, 1, 0, .dynamic, 8, 8, 1000, true, false, false⟩ = some (some assignment, next) ∧
      assignment.finalEnd = 12 ∧ effectiveDynamicMinSplitSize 4 8 = 8 ∧
      8 ≤ 40 - assignment.finalEnd ∧
      (8 ≤ assignment.finalEnd - assignment.finalStart ∨ 1000 < 8 ∨ maxRequestLeases * 4 < 8) := by
  have hvalue : ((History.start (new 40 4)).sched.assignRequestWithTrace 0
      ⟨3, 1, 0, .dynamic, 8, 8, 1000, true, false, false⟩).map (fun out =>
        out.1.map fun assignment =>
          (assignment.candidateStart, assignment.candidateEnd, assignment.finalEnd)) =
      some (some (0, 40, 12)) := by decide
  obtain ⟨⟨granted, next⟩, hasg, hgrd⟩ := Option.map_eq_some_iff.mp hvalue
  obtain ⟨assignment, rfl, hview⟩ := Option.map_eq_some_iff.mp hgrd
  simp only [Prod.mk.injEq] at hview
  obtain ⟨hstart, hstop, hend⟩ := hview
  have hunt : (History.start (new 40 4)).sched.UntouchedRun ⟨0, 40, 0, 10⟩ := by
    have havl : ∀ i < 10,
        (History.start (new 40 4)).sched.available i = true := by decide
    exact ⟨by decide, by decide, by decide, fun i _ hi => ⟨havl i hi, rfl⟩⟩
  have horig : Origin (new 40 4) := Origin.fresh (by decide)
  have hrun : (History.start (new 40 4)).run [] = some (History.start (new 40 4)) := rfl
  obtain ⟨hleft, htaken⟩ := (dynamic_minimum_split horig hrun (by decide) hunt 8).2.2 0 _
    assignment next rfl rfl rfl (by decide) hasg hstart hstop (by simp [hend])
  exact ⟨assignment, next, hasg, hend, by decide, hleft, htaken⟩

end History

end Bytehaul.Scheduler
