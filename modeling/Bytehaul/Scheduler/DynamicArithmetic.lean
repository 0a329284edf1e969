import Bytehaul.Scheduler.Dynamic
import Bytehaul.Storage.Completion

/-!
# The arithmetic of dynamic requests

The planning of a dynamic request in machine arithmetic: an overflow, a division by zero or
a clamp to an empty interval is `none`.
-/

namespace Bytehaul.Scheduler

open Foundation List Option SchedulerState Checked Storage Nat Prod PieceMap
open Std (TreeMap)

def divCeilChecked (a b : Nat) : Checked Nat := if b = 0 then none else some (divCeil a b)

namespace SchedulerState

variable (sched : SchedulerState) {candidate : AllocationCandidate} {shares : Shares}

/-! ## Candidates -/

def pieceRunCandidateChecked (firstPiece endPiece : Nat) : Checked (List AllocationCandidate) :=
  if firstPiece < endPiece then do
    let first ← sched.pieceMap.pieceRangeChecked firstPiece
    let lastPiece ← sub endPiece 1
    let last ← sched.pieceMap.pieceRangeChecked lastPiece
    some [⟨first.start, last.stop, firstPiece, endPiece⟩]
  else some []

def cutRunChecked (sched : SchedulerState) (availableEnd : Nat) :
    List Nat → Nat → Checked (List AllocationCandidate)
  | [], firstPiece => sched.pieceRunCandidateChecked firstPiece availableEnd
  | touchedPiece :: rest, firstPiece => do
      let candidates ← sched.pieceRunCandidateChecked firstPiece touchedPiece
      let later ← sched.cutRunChecked availableEnd rest (saturatingAdd touchedPiece 1)
      some (candidates ++ later)

def availableEndChecked (firstAvailable : Nat) : Checked Nat :=
  match (sched.availablePieces.drop firstAvailable).findIdx? (!·) with
  | none => some sched.pieceMap.pieceCount
  | some offset => add firstAvailable offset

def dynamicCandidatesLoopChecked (sched : SchedulerState) :
    Nat → Nat → Checked (List AllocationCandidate)
  | 0, _ => some []
  | fuel + 1, searchFrom =>
    if searchFrom < sched.pieceMap.pieceCount then
      if sched.availablePieces.length < searchFrom then none
      else
        match (sched.availablePieces.drop searchFrom).findIdx? id with
        | none => some []
        | some offset => do
            let firstAvailable ← add searchFrom offset
            let availableEnd ← sched.availableEndChecked firstAvailable
            let touched := sched.pieces.keys.filter fun pieceId =>
              decide (firstAvailable ≤ pieceId) && decide (pieceId < availableEnd)
            let candidates ← sched.cutRunChecked availableEnd touched firstAvailable
            let later ← sched.dynamicCandidatesLoopChecked fuel availableEnd
            some (candidates ++ later)
    else some []

def dynamicCandidatesChecked : Checked (List AllocationCandidate) :=
  sched.dynamicCandidatesLoopChecked sched.pieceMap.pieceCount 0

/-! ## The plan -/

def dynamicLegalSplitBoundsChecked (candidate : AllocationCandidate)
    (minSplitSize : Nat) : Checked (Option (Nat × Nat)) := do
  let afterFirst ← add candidate.firstPiece 1
  if candidate.endPiece ≤ afterFirst ∨ minSplitSize = 0 ∨
      candidate.len / minSplitSize < 2 then some none
  else
    let pieceSize := max sched.pieceMap.pieceSize 1
    let minPieces ← divCeilChecked minSplitSize pieceSize
    match add candidate.firstPiece minPieces with
    | none => some none
    | some firstLegalPiece =>
      let lastLegalPiece :=
        min ((candidate.stop - minSplitSize) / pieceSize) (candidate.endPiece - 1)
      some (if firstLegalPiece ≤ lastLegalPiece then some (firstLegalPiece, lastLegalPiece)
        else none)

def maxDynamicSlotsChecked (candidate : AllocationCandidate)
    (minSplitSize : Nat) : Checked Nat := do
  let pieceCount ← sub candidate.endPiece candidate.firstPiece
  let byMinimum :=
    if minSplitSize = 0 then pieceCount else max (candidate.len / minSplitSize) 1
  let bounds ← sched.dynamicLegalSplitBoundsChecked candidate minSplitSize
  some (if byMinimum < 2 ∨ bounds.isNone then 1 else max (min pieceCount byMinimum) 1)

def distributeSlotsChecked (sched : SchedulerState) (minSplitSize : Nat) :
    Nat → Shares → Checked Shares
  | 0, shares => some shares
  | extraSlots + 1, shares => do
      let growable ← filterList (fun entry => do
        let slots ← sched.maxDynamicSlotsChecked entry.2.1 minSplitSize
        some (decide (entry.2.2 < slots))) (indexedShares shares)
      match maxBy compareShares growable with
      | none => some shares
      | some (index, candidate, slots) => do
          let slots ← add slots 1
          sched.distributeSlotsChecked minSplitSize extraSlots (shares.set index (candidate, slots))

def shareTableChecked (shares : Shares) : Checked (List DynamicCandidateShare) :=
  mapList (fun entry => do
    let shareBytes ← divCeilChecked entry.1.len entry.2
    some ⟨entry.1.start, entry.1.stop, entry.2, shareBytes⟩) shares

def collectedSharesChecked (shares : Shares) (collectCandidateShares : Bool) :
    Checked (Option (List DynamicCandidateShare)) :=
  if collectCandidateShares then (shareTableChecked shares).map some else some none

def planDynamicShareChecked (candidates : List AllocationCandidate)
    (requestedRanges minSplitSize : Nat) (collectCandidateShares : Bool) :
    Checked (Option DynamicPlan) :=
  if requestedRanges = 0 ∨ candidates.isEmpty then some none
  else
    let nominal : Shares := candidates.map fun candidate => (candidate, 1)
    if candidates.length ≥ requestedRanges then do
      let candidateShares ← collectedSharesChecked nominal collectCandidateShares
      some (do
        let (_, candidate, _) ← maxBy compareShares (indexedShares nominal)
        some {
          candidate := candidate
          candidateSlots := 1
          plannedRanges := requestedRanges
          candidateShares := candidateShares })
    else do
      let shares ←
        sched.distributeSlotsChecked minSplitSize (requestedRanges - candidates.length) nominal
      let candidateShares ← collectedSharesChecked shares collectCandidateShares
      let plannedRanges ← sum (shares.map snd)
      some (do
        let (_, candidate, slots) ← maxBy compareShares (indexedShares shares)
        some {
          candidate := candidate
          candidateSlots := slots
          plannedRanges := plannedRanges
          candidateShares := candidateShares })

/-! ## The end of the request -/

def dynamicShareEndPieceChecked (candidate : AllocationCandidate)
    (slots minSplitSize : Nat) : Checked Nat :=
  if slots ≤ 1 then some candidate.endPiece
  else do
    match ← sched.dynamicLegalSplitBoundsChecked candidate minSplitSize with
    | none => some candidate.endPiece
    | some (firstLegalPiece, lastLegalPiece) =>
      let pieceSize := max sched.pieceMap.pieceSize 1
      let share ← divCeilChecked candidate.len slots
      let targetEnd ← add candidate.start share
      let idealPiece := saturatingAdd (targetEnd / pieceSize)
        (if targetEnd % pieceSize > pieceSize / 2 then 1 else 0)
      clamp idealPiece firstLegalPiece lastLegalPiece

def legalEndPieceChecked (candidate : AllocationCandidate)
    (minSplitSize rawEndPiece : Nat) : Checked (Nat × Bool × Bool) :=
  if rawEndPiece < candidate.endPiece then do
    match ← sched.dynamicLegalSplitBoundsChecked candidate minSplitSize with
    | some (firstLegalPiece, lastLegalPiece) =>
      if rawEndPiece ≥ firstLegalPiece then
        let legalEndPiece := min rawEndPiece lastLegalPiece
        some (legalEndPiece, decide (legalEndPiece < rawEndPiece), false)
      else some (rawEndPiece, false, true)
    | none => some (rawEndPiece, false, false)
  else some (rawEndPiece, false, false)

def dynamicRequestEndChecked (candidate : AllocationCandidate)
    (desiredEndPiece minSplitSize configuredMaxRequestSize : Nat) :
    Checked (Nat × TruncationReason) := do
  let pieceSize := max sched.pieceMap.pieceSize 1
  let maxRequestSize := max (max configuredMaxRequestSize pieceSize) 1
  let byteBound := saturatingAdd candidate.start maxRequestSize
  let afterFirst := saturatingAdd candidate.firstPiece 1
  let desiredEndPiece := min (max desiredEndPiece afterFirst) candidate.endPiece
  let byteEndPiece :=
    if byteBound ≥ candidate.stop then candidate.endPiece
    else min (max (byteBound / pieceSize) afterFirst) candidate.endPiece
  let leaseEndPiece :=
    min (saturatingAdd candidate.firstPiece maxRequestLeases) desiredEndPiece
  let rawEndPiece :=
    min (max (min (min desiredEndPiece byteEndPiece) leaseEndPiece) afterFirst) candidate.endPiece
  let (endPiece, minSplitAdjusted, minSplitConflict) ←
    sched.legalEndPieceChecked candidate minSplitSize rawEndPiece
  let lastPiece ← sub endPiece 1
  let last ← sched.pieceMap.pieceRangeChecked lastPiece
  some (min last.stop candidate.stop,
    dynamicTruncationReason (decide (desiredEndPiece > byteEndPiece))
      (decide (desiredEndPiece > leaseEndPiece)) minSplitAdjusted minSplitConflict)

def requestEndsChecked (plan : DynamicPlan)
    (minSplitSize dynamicMaxRequestSize : Nat) : Checked (Nat × Nat × TruncationReason) := do
  let desiredEndPiece ←
    sched.dynamicShareEndPieceChecked plan.candidate plan.candidateSlots minSplitSize
  let lastPiece ← sub desiredEndPiece 1
  let last ← sched.pieceMap.pieceRangeChecked lastPiece
  let (finalEnd, truncationReason) ←
    sched.dynamicRequestEndChecked plan.candidate desiredEndPiece minSplitSize dynamicMaxRequestSize
  some (last.stop, finalEnd, truncationReason)

def wholePiecesChecked (sched : SchedulerState) (stop : Nat) :
    List Nat → Checked (List (Nat × ByteRange))
  | [] => some []
  | pieceId :: rest => do
      let range ← sched.pieceMap.pieceRangeChecked pieceId
      if range.stop ≤ stop then do
        let later ← sched.wholePiecesChecked stop rest
        some ((pieceId, range) :: later)
      else some []

def issueDynamicCandidateChecked (candidate : AllocationCandidate)
    (stop workerId : Nat) : Checked (Option (List Segment) × SchedulerState) :=
  if sched.stopped ∨ stop ≤ candidate.start then some (none, sched)
  else do
    let pieces ← sched.wholePiecesChecked stop
      (range' candidate.firstPiece (candidate.endPiece - candidate.firstPiece))
    match ← issueAll workerId pieces [] sched with
    | (none, sched) => some (none, sched)
    | (some segments, sched) =>
      some (if segments.isEmpty then none else some segments, sched)

def assignToChecked (workerId : Nat) : Checked (Option Segment × SchedulerState) :=
  match sched.nextAvailablePiece with
  | none => sched.assignTo workerId
  | some pieceId =>
    if sched.pieces[pieceId]?.isSome then sched.assignTo workerId
    else do
      let _ ← sched.pieceMap.pieceRangeChecked pieceId
      sched.assignTo workerId

def assignDynamicRequestChecked (workerId occupiedRequests availableRequestSlots dynamicMinSplitSize
      dynamicMaxRequestSize : Nat) (collectCandidateShares : Bool) :
    Checked (Option RequestAssignment × SchedulerState) := do
  let candidates ← sched.dynamicCandidatesChecked
  if candidates.isEmpty then
    let (segment, sched) ← sched.assignToChecked workerId
    some (segment.map (RequestAssignment.single · availableRequestSlots occupiedRequests), sched)
  else
    let minSplitSize :=
      effectiveDynamicMinSplitSize sched.pieceMap.pieceSize dynamicMinSplitSize
    match ← sched.planDynamicShareChecked candidates availableRequestSlots minSplitSize
        collectCandidateShares with
    | none => some (none, sched)
    | some plan =>
      let (targetEnd, finalEnd, truncationReason) ←
        sched.requestEndsChecked plan minSplitSize dynamicMaxRequestSize
      match ← sched.issueDynamicCandidateChecked plan.candidate finalEnd workerId with
      | (none, sched) => some (none, sched)
      | (some segments, sched) =>
        some (do
          let first ← segments.head?
          let last ← segments.getLast?
          some {
            segments := segments
            candidateStart := plan.candidate.start
            candidateEnd := plan.candidate.stop
            candidateBoundaryScanned := true
            candidateSlots := plan.candidateSlots
            targetEnd := targetEnd
            candidateShares := plan.candidateShares
            finalStart := first.start
            finalEnd := last.stop
            availableRequestSlots := availableRequestSlots
            occupiedRequests := occupiedRequests
            plannedRanges := plan.plannedRanges
            truncationReason := truncationReason }, sched)

/-! ## Nothing panics -/

structure Fits (candidate : AllocationCandidate) : Prop where
  nonempty : candidate.firstPiece < candidate.endPiece
  pieces : candidate.endPiece < u64Limit
  bytes : candidate.start ≤ candidate.stop
  limit : candidate.stop < u64Limit

theorem UntouchedRun.fits {sched : SchedulerState} {acked : List Span} (h : sched.Conserved acked)
    (hrun : UntouchedRun sched candidate) (hu64 : sched.pieceMap.totalSize < u64Limit) :
    Fits candidate := by
  have hstop := hrun.candidate_stop h
  have hstart := hrun.candidate_start
  have hboundary := hrun.boundary_lt h hrun.nonempty
  have hlast := hrun.boundary_lt h (show candidate.endPiece - 1 < candidate.endPiece by
    have := hrun.nonempty
    omega)
  have hmul := mul_le_mul_left (candidate.endPiece - 1) h.map.size_pos
  exact ⟨hrun.nonempty, by omega, by omega, by omega⟩

theorem divCeil_le (a : Nat) {b : Nat} (hb : 0 < b) : divCeil a b ≤ a := by
  by_contra hlt
  have hmul := (lt_divCeil_iff hb).mp (Nat.lt_of_not_le hlt)
  have hle := Nat.mul_le_mul_left a hb
  omega

theorem dynamicLegalSplitBounds_le {sched : SchedulerState}
    {minSplit firstLegalPiece lastLegalPiece : Nat}
    (h : sched.dynamicLegalSplitBounds candidate minSplit =
      some (firstLegalPiece, lastLegalPiece)) :
    0 < firstLegalPiece ∧ firstLegalPiece ≤ lastLegalPiece ∧
      lastLegalPiece ≤ candidate.endPiece := by
  unfold dynamicLegalSplitBounds at h
  dsimp only at h
  split at h
  · cases h
  · split at h
    · obtain ⟨rfl, rfl⟩ := Prod.mk.inj (some.inj h)
      have hceil := (lt_divCeil_iff (i := 0) (a := minSplit)
        (show 0 < max sched.pieceMap.pieceSize 1 by omega)).mpr (by omega)
      omega
    · cases h

private theorem if_saturatingAdd {stop : Nat} (hstop : stop < u64Limit) (start size whole : Nat)
    (cut : Nat → Nat) : (if saturatingAdd start size ≥ stop then whole
      else cut (saturatingAdd start size)) =
      if start + size ≥ stop then whole else cut (start + size) := by
  by_cases hbeyond : start + size ≥ stop
  · rw [if_pos hbeyond, if_pos]
    unfold saturatingAdd
    omega
  · have hexact : saturatingAdd start size = start + size := by
      unfold saturatingAdd
      omega
    rw [hexact]

private theorem min_saturatingAdd {bound : Nat} (hbd : bound < u64Limit) (a b : Nat) :
    min (saturatingAdd a b) bound = min (a + b) bound := by
  unfold saturatingAdd
  omega

/-- The ranges of the pieces below a bound are computed without a panic. -/
def Ranged (sched : SchedulerState) (bound : Nat) : Prop :=
  ∀ i < bound, sched.pieceMap.pieceRangeChecked i = some (sched.pieceMap.pieceRange i)

section Arithmetic

variable (sched : SchedulerState) {candidate : AllocationCandidate} (hfits : Fits candidate)

include hfits

theorem dynamicLegalSplitBoundsChecked_eq (minSplit : Nat) :
    sched.dynamicLegalSplitBoundsChecked candidate minSplit =
      some (sched.dynamicLegalSplitBounds candidate minSplit) := by
  obtain ⟨hnemp, hps, -, -⟩ := hfits
  have hsize : max sched.pieceMap.pieceSize 1 ≠ 0 := by omega
  simp only [dynamicLegalSplitBoundsChecked, dynamicLegalSplitBounds, divCeilChecked, if_neg hsize,
    add_eq_some.mpr ⟨show candidate.firstPiece + 1 < u64Limit by omega, rfl⟩,
    bind_eq_bind, bind_some]
  split
  · rfl
  · cases hadd : add candidate.firstPiece
        (divCeil minSplit (max sched.pieceMap.pieceSize 1)) with
    | some firstLegalPiece =>
      obtain ⟨-, rfl⟩ := add_eq_some.mp hadd
      rfl
    | none =>
      have hlarge : ¬ candidate.firstPiece +
          divCeil minSplit (max sched.pieceMap.pieceSize 1) < u64Limit := by
        intro hlt
        rw [add_eq_some.mpr ⟨hlt, rfl⟩] at hadd
        cases hadd
      rw [if_neg (by omega)]

private theorem maxDynamicSlotsChecked_eq {minSplit : Nat} :
    sched.maxDynamicSlotsChecked candidate minSplit =
      some (sched.maxDynamicSlots candidate minSplit) := by
  simp only [maxDynamicSlotsChecked, maxDynamicSlots,
    sched.dynamicLegalSplitBoundsChecked_eq hfits minSplit,
    sub_eq_some.mpr ⟨hfits.nonempty.le, rfl⟩, bind_eq_bind, bind_some]

theorem dynamicShareEndPieceChecked_eq (slots minSplit : Nat) :
    sched.dynamicShareEndPieceChecked candidate slots minSplit =
      some (sched.dynamicShareEndPiece candidate slots minSplit) := by
  unfold dynamicShareEndPieceChecked dynamicShareEndPiece
  split
  · rfl
  · simp only [sched.dynamicLegalSplitBoundsChecked_eq hfits minSplit, bind_eq_bind, bind_some]
    cases hbds : sched.dynamicLegalSplitBounds candidate minSplit with
    | none => rfl
    | some bounds =>
      obtain ⟨-, hle, hlast⟩ := dynamicLegalSplitBounds_le hbds
      have hshare : candidate.start + divCeil candidate.len slots ≤ candidate.stop := by
        have hbyt := hfits.bytes
        have hceil := divCeil_le candidate.len (show 0 < slots by omega)
        unfold AllocationCandidate.len at *
        omega
      have hlimit := hfits.limit
      have hps := hfits.pieces
      have hzero : slots ≠ 0 := by omega
      simp only [divCeilChecked, if_neg hzero, bind_some,
        add_eq_some.mpr ⟨show candidate.start + divCeil candidate.len slots < u64Limit by
          omega, rfl⟩, clamp, if_pos hle, saturatingAdd, some.injEq]
      omega

private theorem legalEndPieceChecked_eq (minSplit rawEndPiece : Nat) :
    sched.legalEndPieceChecked candidate minSplit rawEndPiece =
      some (sched.legalEndPiece candidate minSplit rawEndPiece) := by
  unfold legalEndPieceChecked legalEndPiece
  split
  · simp only [sched.dynamicLegalSplitBoundsChecked_eq hfits minSplit, bind_eq_bind, bind_some]
    cases sched.dynamicLegalSplitBounds candidate minSplit with
    | none => rfl
    | some bounds =>
      dsimp only
      split <;> rfl
  · rfl

theorem dynamicRequestEndChecked_eq (hranged : sched.Ranged candidate.endPiece)
    (desired minSplit maxSize : Nat) :
    sched.dynamicRequestEndChecked candidate desired minSplit maxSize =
      some (sched.dynamicRequestEnd candidate desired minSplit maxSize) := by
  have hnemp := hfits.nonempty
  have hps := hfits.pieces
  have hfst : saturatingAdd candidate.firstPiece 1 = candidate.firstPiece + 1 := by
    unfold saturatingAdd
    omega
  have hl := min_saturatingAdd (show min (max desired (candidate.firstPiece + 1))
    candidate.endPiece < u64Limit by omega) candidate.firstPiece maxRequestLeases
  have hbyte := if_saturatingAdd hfits.limit candidate.start
    (max (max maxSize (max sched.pieceMap.pieceSize 1)) 1) candidate.endPiece
    fun byteBound => min (max (byteBound / max sched.pieceMap.pieceSize 1)
      (candidate.firstPiece + 1)) candidate.endPiece
  simp only [dynamicRequestEndChecked, dynamicRequestEnd, hfst, hbyte, hl,
    sched.legalEndPieceChecked_eq hfits, bind_eq_bind, bind_some]
  have hbds (raw : Nat) (hraw : candidate.firstPiece < raw) (hle : raw ≤ candidate.endPiece) :
      1 ≤ (sched.legalEndPiece candidate minSplit raw).1 ∧
        (sched.legalEndPiece candidate minSplit raw).1 - 1 < candidate.endPiece := by
    have hlegal := @legalEndPiece_bounds sched candidate minSplit raw hraw hle
    omega
  rw [sub_eq_some.mpr ⟨(hbds _ (by omega) (by omega)).1, rfl⟩, bind_some,
    hranged _ (hbds _ (by omega) (by omega)).2]
  rfl

end Arithmetic

private theorem dynamicShareEndPiece_bounds (sched : SchedulerState) (hfits : Fits candidate)
    (slots minSplit : Nat) : 0 < sched.dynamicShareEndPiece candidate slots minSplit ∧
      sched.dynamicShareEndPiece candidate slots minSplit ≤ candidate.endPiece := by
  have hnemp := hfits.nonempty
  unfold dynamicShareEndPiece
  split
  · omega
  · split
    · omega
    · rename_i firstLegalPiece lastLegalPiece hbds
      obtain ⟨hpos, hle, hlast⟩ := dynamicLegalSplitBounds_le hbds
      dsimp only
      omega

private theorem requestEndsChecked_eq (sched : SchedulerState) {plan : DynamicPlan}
    (hfits : Fits plan.candidate) (hranged : sched.Ranged plan.candidate.endPiece)
    (minSplit maxSize : Nat) :
    sched.requestEndsChecked plan minSplit maxSize =
      some ((sched.pieceMap.pieceRange (sched.dynamicShareEndPiece plan.candidate
          plan.candidateSlots minSplit - 1)).stop,
        sched.dynamicRequestEnd plan.candidate (sched.dynamicShareEndPiece plan.candidate
          plan.candidateSlots minSplit) minSplit maxSize) := by
  obtain ⟨hpos, hle⟩ := sched.dynamicShareEndPiece_bounds hfits plan.candidateSlots minSplit
  have hlast := hranged (sched.dynamicShareEndPiece plan.candidate plan.candidateSlots
    minSplit - 1) (by omega)
  simp only [requestEndsChecked, sched.dynamicShareEndPieceChecked_eq hfits,
    sched.dynamicRequestEndChecked_eq hfits hranged,
    sub_eq_some.mpr ⟨show 1 ≤ _ from hpos, rfl⟩, hlast, bind_eq_bind,
    bind_some]

theorem wholePiecesChecked_eq {sched : SchedulerState} {bound : Nat} (hranged : sched.Ranged bound)
    (stop : Nat) {ids : List Nat} (hids : ∀ i ∈ ids, i < bound) :
    sched.wholePiecesChecked stop ids = some ((ids.map fun p =>
      (p, sched.pieceMap.pieceRange p)).takeWhile
        fun entry => decide (entry.2.stop ≤ stop)) := by
  induction ids with
  | nil => rfl
  | cons p ids ih =>
    rw [forall_mem_cons] at hids
    simp only [wholePiecesChecked, hranged p hids.1, ih hids.2, bind_eq_bind, bind_some,
      map_cons, takeWhile_cons, decide_eq_true_eq]
    split <;> rfl

private theorem issueDynamicCandidateChecked_eq {sched : SchedulerState}
    (hranged : sched.Ranged candidate.endPiece) (stop workerId : Nat) :
    sched.issueDynamicCandidateChecked candidate stop workerId =
      sched.issueDynamicCandidate candidate stop workerId := by
  unfold issueDynamicCandidateChecked issueDynamicCandidate
  rw [wholePiecesChecked_eq hranged stop fun i hi => by rw [mem_range'_1] at hi; omega]
  rfl

private theorem sum_set_succ {index slots : Nat} (hget : shares[index]? = some (candidate, slots)) :
    ((shares.set index (candidate, slots + 1)).map snd).sum = (shares.map snd).sum + 1 := by
  induction shares generalizing index with
  | nil => simp at hget
  | cons share shares ih =>
    cases index with
    | zero =>
      obtain rfl := some.inj hget
      simp only [set_cons_zero, map_cons, sum_cons]
      omega
    | succ index =>
      simp only [set_cons_succ, map_cons, sum_cons, ih hget]
      omega

theorem distributeSlotsChecked_eq (sched : SchedulerState) (minSplit extraSlots : Nat) :
    ∀ shares : Shares, (∀ entry ∈ shares, Fits entry.1 ∧ 0 < entry.2) →
      (shares.map snd).sum + extraSlots < u64Limit →
      sched.distributeSlotsChecked minSplit extraSlots shares =
          some (sched.distributeSlots minSplit extraSlots shares) ∧
        (∀ entry ∈ sched.distributeSlots minSplit extraSlots shares,
          Fits entry.1 ∧ 0 < entry.2) ∧
        ((sched.distributeSlots minSplit extraSlots shares).map snd).sum ≤
          (shares.map snd).sum + extraSlots := by
  induction extraSlots with
  | zero =>
    intro shares hshs _
    exact ⟨rfl, hshs, le_refl _⟩
  | succ extraSlots ih =>
    intro shares hshs hsum
    have hgrowable : filterList (fun entry => do
        let slots ← sched.maxDynamicSlotsChecked entry.2.1 minSplit
        some (decide (entry.2.2 < slots))) (indexedShares shares) =
        some ((indexedShares shares).filter fun entry =>
          decide (entry.2.2 < sched.maxDynamicSlots entry.2.1 minSplit)) := by
      apply filterList_of_forall
      rintro ⟨index, candidate, slots⟩ he
      have hfits := (hshs _ (mem_of_getElem? (indexedShares_spec he))).1
      simp only [sched.maxDynamicSlotsChecked_eq hfits, bind_eq_bind, bind_some]
    unfold distributeSlotsChecked distributeSlots
    rw [hgrowable]
    simp only [bind_eq_bind, bind_some]
    cases hmax : maxBy compareShares ((indexedShares shares).filter fun entry =>
        decide (entry.2.2 < sched.maxDynamicSlots entry.2.1 minSplit)) with
    | none => exact ⟨rfl, hshs, le_add_right _ _⟩
    | some best =>
      obtain ⟨index, candidate, slots⟩ := best
      have hget := indexedShares_spec (mem_of_mem_filter (maxBy_mem hmax))
      have hmem := mem_of_getElem? hget
      have hslots : slots ≤ (shares.map snd).sum :=
        single_le_sum (by simp) _ (mem_map_of_mem (f := snd) hmem)
      have hset := sum_set_succ hget
      obtain ⟨heq, hall, htot⟩ := ih (shares.set index (candidate, slots + 1))
        (fun entry he => by
          rcases mem_or_eq_of_mem_set he with he | rfl
          · exact hshs entry he
          · exact ⟨(hshs _ hmem).1, succ_pos slots⟩) (by omega)
      dsimp only
      rw [add_eq_some.mpr ⟨show slots + 1 < u64Limit by omega, rfl⟩, bind_some]
      exact ⟨heq, hall, by omega⟩

private theorem shareTableChecked_eq (hshs : ∀ entry ∈ shares, 0 < entry.2) :
    shareTableChecked shares = some (shareTable shares) := by
  apply mapList_of_forall
  intro entry he
  have hslots := hshs entry he
  simp only [divCeilChecked, if_neg (ne_of_gt hslots), bind_eq_bind, bind_some]

theorem collectedSharesChecked_eq (hshs : ∀ entry ∈ shares, 0 < entry.2)
    (collect : Bool) : collectedSharesChecked shares collect =
      some (if collect then some (shareTable shares) else none) := by
  cases collect with
  | true => simp [collectedSharesChecked, shareTableChecked_eq hshs]
  | false => rfl

theorem planDynamicShareChecked_eq (sched : SchedulerState) {cands : List AllocationCandidate}
    (hcands : ∀ c ∈ cands, Fits c) {requested : Nat}
    (hrngs : requested < u64Limit) (minSplit : Nat) (collect : Bool) :
    sched.planDynamicShareChecked cands requested minSplit collect =
      some (sched.planDynamicShare cands requested minSplit collect) := by
  have hnom : ∀ entry ∈ cands.map fun candidate => (candidate, 1),
      Fits entry.1 ∧ 0 < entry.2 := by
    rintro entry he
    obtain ⟨candidate, hcand, rfl⟩ := mem_map.mp he
    exact ⟨hcands candidate hcand, one_pos⟩
  have hsum : ((cands.map fun candidate => (candidate, 1)).map snd).sum =
      cands.length := by
    simp [Function.comp_def]
  unfold planDynamicShareChecked planDynamicShare
  split
  · rfl
  · split
    · simp only [collectedSharesChecked_eq fun entry he => (hnom entry he).2,
        bind_eq_bind, bind_some]
    · obtain ⟨heq, hall, htot⟩ := sched.distributeSlotsChecked_eq minSplit
        (requested - cands.length) _ hnom (by omega)
      have hplan := sum_of_lt (lt_of_le_of_lt htot (by omega))
      simp only [heq, collectedSharesChecked_eq fun entry he => (hall entry he).2,
        hplan, bind_eq_bind, bind_some]

theorem pieceRunCandidateChecked_eq {sched : SchedulerState} {firstPiece endPiece : Nat}
    (hranged : sched.Ranged endPiece) :
    sched.pieceRunCandidateChecked firstPiece endPiece =
      some (if firstPiece < endPiece then [sched.pieceRunCandidate firstPiece endPiece]
        else []) := by
  unfold pieceRunCandidateChecked
  split
  case isTrue hlt =>
    have hlast := hranged (endPiece - 1) (by omega)
    simp only [hranged firstPiece hlt, sub_eq_some.mpr ⟨show 1 ≤ endPiece by omega, rfl⟩, hlast,
      bind_eq_bind, bind_some]
    rfl
  case isFalse => rfl

private theorem cutRunChecked_eq {sched : SchedulerState} {availableEnd : Nat}
    (hend : availableEnd < u64Limit) (hranged : sched.Ranged availableEnd) (touched : List Nat) :
    ∀ firstPiece : Nat, (∀ i ∈ touched, i < availableEnd) →
      sched.cutRunChecked availableEnd touched firstPiece =
        some (sched.cutRun availableEnd touched firstPiece) := by
  induction touched with
  | nil =>
    intro firstPiece _
    exact pieceRunCandidateChecked_eq hranged
  | cons touchedPiece touched ih =>
    intro firstPiece htouched
    rw [forall_mem_cons] at htouched
    have hnext : saturatingAdd touchedPiece 1 = touchedPiece + 1 := by
      unfold saturatingAdd
      omega
    have hcut : sched.Ranged touchedPiece := fun i hi => hranged i (by omega)
    simp only [cutRunChecked, cutRun, hnext, ih _ htouched.2, pieceRunCandidateChecked_eq hcut,
      bind_eq_bind, bind_some]

section Candidates

variable {sched : SchedulerState} {acked : List Span} (h : sched.Conserved acked)
  (hcount : sched.pieceMap.pieceCount < u64Limit) (hranged : sched.Ranged sched.pieceMap.pieceCount)

include h hcount

theorem availableEndChecked_eq (firstAvailable : Nat) : ∃ availableEnd ≤ sched.pieceMap.pieceCount,
      sched.availableEndChecked firstAvailable = some availableEnd ∧
      (match (sched.availablePieces.drop firstAvailable).findIdx? (!·) with
        | none => sched.pieceMap.pieceCount
        | some offset => firstAvailable + offset) = availableEnd := by
  unfold availableEndChecked
  cases hidx : (sched.availablePieces.drop firstAvailable).findIdx? (!·) with
  | none => exact ⟨_, le_refl _, rfl, rfl⟩
  | some offset =>
    obtain ⟨hbd, -⟩ := findIdx?_drop_some hidx
    rw [h.length_available] at hbd
    exact ⟨firstAvailable + offset, by omega, add_eq_some.mpr ⟨by omega, rfl⟩, rfl⟩

include hranged

theorem dynamicCandidatesLoopChecked_eq (fuel : Nat) :
    ∀ searchFrom : Nat, sched.dynamicCandidatesLoopChecked fuel searchFrom =
      some (sched.dynamicCandidatesLoop fuel searchFrom) := by
  induction fuel with
  | zero => exact fun _ => rfl
  | succ fuel ih =>
    intro searchFrom
    have hlen := h.length_available
    unfold dynamicCandidatesLoopChecked dynamicCandidatesLoop
    split
    · rw [if_neg (by omega)]
      cases hidx : (sched.availablePieces.drop searchFrom).findIdx? id with
      | none => rfl
      | some offset =>
        obtain ⟨hfst, -⟩ := findIdx?_drop_some hidx
        obtain ⟨availableEnd, hle, hchkd, rfl⟩ :=
          availableEndChecked_eq h hcount (searchFrom + offset)
        simp only [add_eq_some.mpr ⟨show searchFrom + offset < u64Limit by omega, rfl⟩,
          bind_eq_bind, bind_some, hchkd, ih]
        rw [cutRunChecked_eq (by omega) fun i hi => hranged i (by omega)]
        · rfl
        · intro i hi
          have hi' := (mem_filter.mp hi).2
          rw [Bool.and_eq_true, decide_eq_true_eq, decide_eq_true_eq] at hi'
          exact hi'.2
    · rfl

omit hcount in
private theorem assignToChecked_eq (workerId : Nat) :
    sched.assignToChecked workerId = sched.assignTo workerId := by
  unfold assignToChecked
  split
  case h_1 => rfl
  case h_2 pieceId hnext =>
    split
    case isTrue => rfl
    case isFalse =>
      rw [hranged pieceId (h.lt_of_available (nextAvailablePiece_available hnext))]
      rfl

omit hcount hranged in
theorem assignDynamicRequestChecked_eq
    (hround : sched.pieceMap.pieceCount * sched.pieceMap.pieceSize < u64Limit)
    (hu64 : sched.pieceMap.totalSize < u64Limit) (workerId occupied : Nat) {slots : Nat}
    (hslots : slots < u64Limit) (splitSize maxSize : Nat) (collect : Bool) :
    sched.assignDynamicRequestChecked workerId occupied slots splitSize maxSize collect =
      sched.assignDynamicRequest workerId occupied slots splitSize maxSize collect := by
  have hcount : sched.pieceMap.pieceCount < u64Limit :=
    lt_of_le_of_lt (h.map.count_le.trans (divCeil_le _ h.map.size_pos)) hu64
  have hranged : sched.Ranged sched.pieceMap.pieceCount := fun i hi =>
    pieceRangeChecked_of_fits (h.map.fits_of_rounded hround hi) (by omega)
  have hcands : ∀ candidate ∈ sched.dynamicCandidates, Fits candidate :=
    fun candidate hcand =>
      (dynamicCandidates_untouched h hcand).fits h hu64
  unfold assignDynamicRequestChecked assignDynamicRequest
  rw [dynamicCandidatesChecked, dynamicCandidatesLoopChecked_eq h hcount hranged,
    ← dynamicCandidates, assignToChecked_eq h hranged]
  simp only [bind_eq_bind, bind_some]
  split
  · rfl
  · rename_i hemp
    rw [sched.planDynamicShareChecked_eq hcands hslots]
    by_cases hzero : slots = 0
    · subst hzero
      simp [planDynamicShare]
    · obtain ⟨plan, hplan, hmem⟩ := planDynamicShare_spec sched (by simpa using hemp) hzero
        (effectiveDynamicMinSplitSize sched.pieceMap.pieceSize splitSize) collect
      rw [hplan]
      have hend := (dynamicCandidates_untouched h hmem).endPiece_le h
      have hbelow : sched.Ranged plan.candidate.endPiece := fun i hi => hranged i (by omega)
      have hends := requestEndsChecked_eq sched (hcands _ hmem) hbelow
        (effectiveDynamicMinSplitSize sched.pieceMap.pieceSize splitSize) maxSize
      simp only [bind_some, hends]
      exact congrArg (Option.bind · _) (issueDynamicCandidateChecked_eq hbelow _ _)

end Candidates

/-- `assign_request_with_trace` in dynamic mode with batches. -/
def assignRequestChecked (workerId : Nat) (params : RequestParams) :
    Checked (Option RequestAssignment × SchedulerState) :=
  let availableRequestSlots := params.maxRequests - params.occupiedRequests
  if availableRequestSlots = 0 ∨ sched.availableRangeCount = 0 then some (none, sched)
  else
    sched.assignDynamicRequestChecked workerId params.occupiedRequests availableRequestSlots
      params.dynamicMinSplitSize params.dynamicMaxRequestSize params.collectCandidateShares

end SchedulerState

namespace History

/-- A dynamic request is granted whole untouched consecutive pieces from the front of a maximal
run, within the limits of a request, and without a panic of machine arithmetic. -/
theorem dynamic_requests_are_well_shaped {map : PieceMap} (horigin : Origin map) {calls : List Call}
    {last : History} (hrun : (History.start map).run calls = some last)
    (hrunning : last.sched.stopped = false) (huntouched : ∃ i, last.sched.isUntouchedPiece i = true)
    (hround : divCeil last.sched.pieceMap.totalSize last.sched.pieceMap.pieceSize *
      last.sched.pieceMap.pieceSize < u64Limit) (workerId : Nat)
    (params : SchedulerState.RequestParams) (hmode : params.mode = .dynamic)
    (hbatch : params.allowBatch = true) (hfree : params.occupiedRequests < params.maxRequests)
    (husize : params.maxRequests < u64Limit) : ∃ run assignment next, last.sched.MaximalRun run ∧
      last.sched.assignRequestWithTrace workerId params = some (some assignment, next) ∧
      last.sched.assignRequestChecked workerId params = some (some assignment, next) ∧
      last.sched.WellShaped run params.dynamicMaxRequestSize assignment := by
  obtain ⟨reached, hrchd, h⟩ := run_conserved calls _ (start_conserved horigin.valid)
  obtain rfl := some.inj (hrun.symm.trans hrchd)
  obtain ⟨i, hi⟩ := huntouched
  have hrngs := h.availableRangeCount_ne_zero ((h.isUntouchedPiece_iff i).mp hi).1
  have hgrd : last.sched.hasAvailable = true := by simp [hasAvailable, hrunning, hrngs]
  have hne := dynamicCandidates_ne_nil h hi
  obtain ⟨plan, out, -, hmem, hout, hprog, htakes⟩ :=
    assignDynamicRequest_takes h hne workerId params.occupiedRequests
      (show params.maxRequests - params.occupiedRequests ≠ 0 by omega)
      params.dynamicMinSplitSize params.dynamicMaxRequestSize params.collectCandidateShares
  obtain ⟨granted, next⟩ := out
  obtain ⟨assignment, rfl⟩ := ne_none_iff_exists'.mp (hprog hgrd)
  have hmax := (mem_dynamicCandidates_iff h).mp hmem
  obtain ⟨hlt, hle, hls⟩ := requestEndPiece_bounds last.sched
    hmax.nonempty (last.sched.dynamicShareEndPiece plan.candidate plan.candidateSlots
      (effectiveDynamicMinSplitSize last.sched.pieceMap.pieceSize params.dynamicMinSplitSize))
    (effectiveDynamicMinSplitSize last.sched.pieceMap.pieceSize params.dynamicMinSplitSize)
    params.dynamicMaxRequestSize
  have hbyt := hmax.toUntouchedRun.requestEndPiece_bytes h
    (last.sched.dynamicShareEndPiece plan.candidate plan.candidateSlots
      (effectiveDynamicMinSplitSize last.sched.pieceMap.pieceSize params.dynamicMinSplitSize))
    (effectiveDynamicMinSplitSize last.sched.pieceMap.pieceSize params.dynamicMinSplitSize)
    params.dynamicMaxRequestSize
  have hcount : ¬(params.maxRequests - params.occupiedRequests = 0 ∨
      last.sched.availableRangeCount = 0) := by
    omega
  refine ⟨plan.candidate, assignment, next, hmax, ?_, ?_,
    (htakes assignment rfl).wellShaped h hmax.toUntouchedRun hlt hle hls hbyt⟩
  · simp only [assignRequestWithTrace, if_neg hcount, hbatch, hmode, Bool.not_true,
      Bool.false_eq_true, if_false]
    exact hout
  · simp only [assignRequestChecked, if_neg hcount]
    rw [assignDynamicRequestChecked_eq h
      ((mul_le_mul_right _ h.map.count_le).trans_lt hround)
      ((le_divCeil_mul h.map.size_pos).trans_lt hround) _ _ (by omega)]
    exact hout

theorem nine_pieces_are_well_shaped :
    ∃ last run assignment next, (History.start (new 38 4)).run [.assignTo 0] = some last ∧
      last.sched.MaximalRun run ∧
      last.sched.assignRequestChecked 1 ⟨4, 1, 1, .dynamic, 8, 8, 16, true, false, true⟩ =
        some (some assignment, next) ∧
      last.sched.WellShaped run 16 assignment := by
  have hvalue : ((History.start (new 38 4)).run [.assignTo 0]).map (fun last =>
      (last.sched.stopped, last.sched.isUntouchedPiece 1,
        decide (divCeil last.sched.pieceMap.totalSize last.sched.pieceMap.pieceSize *
          last.sched.pieceMap.pieceSize < u64Limit))) = some (false, true, true) := by
    decide
  obtain ⟨last, hrun, hview⟩ := map_eq_some_iff.mp hvalue
  simp only [Prod.mk.injEq, decide_eq_true_eq] at hview
  obtain ⟨hlive, hunt, hround⟩ := hview
  have horig : Origin (new 38 4) := Origin.fresh (by decide)
  obtain ⟨run, assignment, next, hmax, -, hchkd, hshaped⟩ :=
    dynamic_requests_are_well_shaped horig hrun hlive ⟨1, hunt⟩ hround 1
      ⟨4, 1, 1, .dynamic, 8, 8, 16, true, false, true⟩ rfl rfl (by decide) (by decide)
  exact ⟨last, run, assignment, next, hrun, hmax, hchkd, hshaped⟩

def freeSlots : SchedulerState.RequestParams := ⟨2, 0, 1, .dynamic, 1, 1, 1, true, false, true⟩

/-- The second piece would end beyond `u64`; a restored map has a piece more than the object. -/
theorem rounded_total_overflows :
    ((new (new (2 ^ 64 - 1) (2 ^ 63))).isUntouchedPiece 1 = true ∧
      (new (new (2 ^ 64 - 1) (2 ^ 63))).assignRequestChecked 0 freeSlots = none) ∧
    ∃ last, (History.start (fromBitset 4 4 [0] 2)).run [.assignTo 0] = some last ∧
      last.sched.isUntouchedPiece 1 = true ∧
      ((last.sched.assignRequestChecked 0 freeSlots).map fun out => out.1.isNone) = some true := by
  have hview : ((History.start (fromBitset 4 4 [0] 2)).run [.assignTo 0]).map (fun last =>
      (last.sched.isUntouchedPiece 1,
        (last.sched.assignRequestChecked 0 freeSlots).map fun out => out.1.isNone)) =
      some (true, some true) := by
    decide
  obtain ⟨last, hrun, heq⟩ := map_eq_some_iff.mp hview
  obtain ⟨hunt, hnone⟩ := Prod.mk.inj heq
  exact ⟨by decide, last, hrun, hunt, hnone⟩

end History

end Bytehaul.Scheduler
