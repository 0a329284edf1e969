import Bytehaul.Scheduler.State

/-!
# Assignment

How `SchedulerState` chooses the leases of one request.
-/

namespace Bytehaul.Scheduler

open Foundation Storage

def maxRequestLeases : Nat := 64

inductive RangeSchedulingMode where
  | fixed
  | dynamic
  deriving DecidableEq, Repr

/-- `truncation_reason`, one constructor for each text of the source. -/
inductive TruncationReason where
  | none
  | recoveredOrRetried
  | firstLeaseNotFound
  | firstLeaseNotWhole
  | batchDisabled
  | candidateExhausted
  | leaseLimit
  | requestSlotsReserved
  | candidateBoundary
  | maxRequestBytes
  | leaseIssueFailed
  | maxRequestBytesAndLeaseLimit
  | maxRequestBytesAndLeaseLimitAndMinSplit
  | maxRequestBytesAndLeaseLimitAndMinSplitConflict
  | maxRequestBytesAndMinSplit
  | maxRequestBytesAndMinSplitConflict
  | leaseLimitAndMinSplit
  | leaseLimitAndMinSplitConflict
  | minSplitBoundary
  | minSplitConflict
  | recoveredBatch
  deriving DecidableEq, Repr

structure DynamicCandidateShare where
  start : Nat
  stop : Nat
  slots : Nat
  shareBytes : Nat
  deriving DecidableEq, Repr

structure RequestAssignment where
  segments : List Segment
  candidateStart : Nat
  candidateEnd : Nat
  candidateBoundaryScanned : Bool
  candidateSlots : Nat
  targetEnd : Nat
  candidateShares : Option (List DynamicCandidateShare)
  finalStart : Nat
  finalEnd : Nat
  availableRequestSlots : Nat
  occupiedRequests : Nat
  plannedRanges : Nat
  truncationReason : TruncationReason
  deriving DecidableEq, Repr

def RequestAssignment.single (segment : Segment)
    (availableRequestSlots occupiedRequests : Nat) : RequestAssignment where
  segments := [segment]
  candidateStart := segment.start
  candidateEnd := segment.stop
  candidateBoundaryScanned := false
  candidateSlots := 1
  targetEnd := segment.stop
  candidateShares := none
  finalStart := segment.start
  finalEnd := segment.stop
  availableRequestSlots := availableRequestSlots
  occupiedRequests := occupiedRequests
  plannedRanges := 1
  truncationReason := .none

structure AllocationCandidate where
  start : Nat
  stop : Nat
  firstPiece : Nat
  endPiece : Nat
  deriving DecidableEq, Repr

def AllocationCandidate.len (candidate : AllocationCandidate) : Nat :=
  candidate.stop - candidate.start

structure DynamicPlan where
  candidate : AllocationCandidate
  candidateSlots : Nat
  plannedRanges : Nat
  candidateShares : Option (List DynamicCandidateShare)

def effectiveDynamicMinSplitSize (pieceSize configured : Nat) : Nat :=
  let pieceSize := max pieceSize 1
  max (min (divCeil (max configured pieceSize) pieceSize * pieceSize) (u64Limit - 1)) pieceSize

/-- `Iterator::max_by`, which keeps the last of several maxima. -/
def maxBy {α : Type} (cmp : α → α → Ordering) : List α → Option α
  | [] => none
  | x :: xs => some (xs.foldl (fun best y => if cmp best y = .gt then best else y) x)

namespace SchedulerState

variable (sched : SchedulerState)

def assignmentRangeFor (range : ByteRange) (maxActiveLeases minSegmentSize : Nat) : ByteRange :=
  if maxActiveLeases ≤ 1 ∨ minSegmentSize = 0 then range
  else
    let totalWorkUnits := sched.activeLeaseCount + sched.availableRangeCount
    if totalWorkUnits ≥ maxActiveLeases then range
    else
      let rangeLen := range.stop - range.start
      if rangeLen ≤ minSegmentSize then range
      else
        let desiredUnitsFromRange := (maxActiveLeases - totalWorkUnits) + 1
        if desiredUnitsFromRange ≤ 1 then range
        else
          let targetLen := divCeil rangeLen desiredUnitsFromRange
          let segmentLen := max targetLen minSegmentSize
          if segmentLen ≥ rangeLen ∨ rangeLen - segmentLen < minSegmentSize then range
          else ⟨range.start, range.start + segmentLen⟩

def nextAvailablePiece : Option Nat :=
  ((sched.availablePieces.drop sched.nextCandidate).findIdx? id).map (sched.nextCandidate + ·) |>.or
    ((sched.availablePieces.take sched.nextCandidate).findIdx? id)

def candidateRange (pieceId : Nat) : Option ByteRange :=
  match sched.pieces[pieceId]? with
  | some piece => piece.nextAssignableRange
  | none => some (sched.pieceMap.pieceRange pieceId)

def assignToWithSplit (workerId maxActiveLeases minSegmentSize : Nat) :
    Checked (Option Segment × SchedulerState) :=
  if sched.availableRangeCount = 0 then some (none, sched)
  else
    match sched.nextAvailablePiece with
    | none => some (none, sched)
    | some pieceId =>
      match sched.candidateRange pieceId with
      | none => some (none, sched)
      | some range => do
          let range := sched.assignmentRangeFor range maxActiveLeases minSegmentSize
          match ← sched.issueLease pieceId range workerId with
          | (none, sched) => some (none, sched)
          | (some segment, sched) =>
            some (some segment, { sched with
              nextCandidate := (pieceId + 1) % sched.pieceMap.pieceCount })

def assignTo (workerId : Nat) : Checked (Option Segment × SchedulerState) :=
  sched.assignToWithSplit workerId 1 (2 ^ 64 - 1)

def isUntouchedPiece (pieceId : Nat) : Bool :=
  decide (pieceId < sched.pieceMap.pieceCount) && sched.available pieceId &&
    !sched.pieceMap.isComplete pieceId && !sched.pieces.contains pieceId

def isFreshWholeLease (segment : Segment) : Bool :=
  if sched.pieceMap.pieceRange segment.pieceId ≠ segment.span then false
  else
    match sched.pieces[segment.pieceId]? with
    | none => false
    | some piece =>
      piece.activeLeases.size == 1 && !piece.hasCompletedRanges &&
        piece.activeLeases[segment.leaseId]? == some segment.span &&
        piece.missingRanges.ranges.isEmpty

def freshRunEnd (firstPiece : Nat) : Nat :=
  let later := List.range' (firstPiece + 1) (sched.pieceMap.pieceCount - (firstPiece + 1))
  let endPiece := firstPiece + 1 + (later.takeWhile sched.isUntouchedPiece).length
  (sched.pieceMap.pieceRange (endPiece - 1)).stop

def extendBatchLoop (first : Segment) (workerId reservedForPeers byteCap : Nat) :
    List Nat → List Segment → Nat → SchedulerState →
      Checked (List Segment × TruncationReason × SchedulerState)
  | [], additional, _, sched => some (additional, .candidateExhausted, sched)
  | pieceId :: rest, additional, requestEnd, sched =>
    if additional.length + 1 ≥ maxRequestLeases then
      some (additional, .leaseLimit, sched)
    else if sched.availableRangeCount ≤ reservedForPeers then
      some (additional, .requestSlotsReserved, sched)
    else if !sched.available pieceId || sched.pieces.contains pieceId then
      some (additional, .candidateBoundary, sched)
    else
      let range := sched.pieceMap.pieceRange pieceId
      if range.start ≠ requestEnd ∨ range.stop - first.start > byteCap then
        some (additional, .maxRequestBytes, sched)
      else do
        match ← sched.issueLease pieceId range workerId with
        | (none, sched) => some (additional, .leaseIssueFailed, sched)
        | (some segment, sched) =>
          extendBatchLoop first workerId reservedForPeers byteCap rest
            (additional ++ [segment]) range.stop
            { sched with nextCandidate := (pieceId + 1) % sched.pieceMap.pieceCount }

def extendBatchWithOccupied (first : Segment)
    (workerId maxConnections occupiedRequests byteCap : Nat) :
    Checked (List Segment × TruncationReason × SchedulerState) :=
  match sched.pieces[first.pieceId]? with
  | none => some ([], .firstLeaseNotFound, sched)
  | some piece =>
    match piece.activeLeases[first.leaseId]? with
    | none => some ([], .firstLeaseNotFound, sched)
    | some active =>
      let range := sched.pieceMap.pieceRange first.pieceId
      if first.ownerWorkerId ≠ workerId ∨ first.span ≠ range ∨ active ≠ range then
        some ([], .firstLeaseNotWhole, sched)
      else if byteCap = 0 then
        some ([], .batchDisabled, sched)
      else
        extendBatchLoop first workerId (maxConnections - (occupiedRequests + 1)) byteCap
          (List.range' (first.pieceId + 1) (sched.pieceMap.pieceCount - (first.pieceId + 1)))
          [] first.stop sched

def extendBatch (first : Segment) (workerId maxConnections byteCap : Nat) :
    Checked (List Segment × SchedulerState) := do
  let (additional, _, sched) ← sched.extendBatchWithOccupied first workerId maxConnections 0 byteCap
  some (additional, sched)

/-- Only a first attempt is batched. -/
def fixedBatch (first : Segment) (workerId maxRequests occupiedRequests requestBatchSize : Nat) :
    Checked (List Segment × TruncationReason × SchedulerState) :=
  if first.attempt == 1 then
    sched.extendBatchWithOccupied first workerId maxRequests occupiedRequests requestBatchSize
  else some ([], .recoveredOrRetried, sched)

def assignFixedRequest (workerId maxRequests minSegmentSize occupiedRequests requestBatchSize
      availableRequestSlots : Nat) (collectDiagnostics : Bool) :
    Checked (Option RequestAssignment × SchedulerState) := do
  let maxActiveLeases := sched.activeLeaseCount + availableRequestSlots
  match ← sched.assignToWithSplit workerId maxActiveLeases minSegmentSize with
  | (none, sched) => some (none, sched)
  | (some first, sched) =>
    let scanCandidateBoundary := collectDiagnostics && first.attempt == 1 &&
      decide (requestBatchSize > first.stop - first.start) &&
      sched.isFreshWholeLease first
    let candidateEnd :=
      if scanCandidateBoundary then sched.freshRunEnd first.pieceId else first.stop
    let (additional, truncationReason, sched) ←
      sched.fixedBatch first workerId maxRequests occupiedRequests requestBatchSize
    let segments := first :: additional
    some (some {
      segments := segments
      finalStart := first.start
      finalEnd := (segments.getLast?.map Segment.stop).getD 0
      candidateStart := first.start
      candidateEnd := candidateEnd
      candidateBoundaryScanned := scanCandidateBoundary
      candidateSlots := 1
      targetEnd := candidateEnd
      candidateShares := none
      availableRequestSlots := availableRequestSlots
      occupiedRequests := occupiedRequests
      plannedRanges :=
        min availableRequestSlots (sched.availableRangeCount + segments.length)
      truncationReason := truncationReason }, sched)

def pieceRunCandidate (firstPiece endPiece : Nat) : AllocationCandidate :=
  ⟨(sched.pieceMap.pieceRange firstPiece).start,
    (sched.pieceMap.pieceRange (endPiece - 1)).stop, firstPiece, endPiece⟩

def cutRun (sched : SchedulerState) (availableEnd : Nat) :
    List Nat → Nat → List AllocationCandidate
  | [], firstPiece =>
    if firstPiece < availableEnd then [sched.pieceRunCandidate firstPiece availableEnd]
    else []
  | touchedPiece :: rest, firstPiece =>
    (if firstPiece < touchedPiece then [sched.pieceRunCandidate firstPiece touchedPiece]
      else []) ++ sched.cutRun availableEnd rest (touchedPiece + 1)

/-- The outer loop.  Each turn advances `searchFrom`, so `pieceCount` turns suffice. -/
def dynamicCandidatesLoop (sched : SchedulerState) :
    Nat → Nat → List AllocationCandidate
  | 0, _ => []
  | fuel + 1, searchFrom =>
    if searchFrom < sched.pieceMap.pieceCount then
      match (sched.availablePieces.drop searchFrom).findIdx? id with
      | none => []
      | some offset =>
        let firstAvailable := searchFrom + offset
        let availableEnd :=
          match (sched.availablePieces.drop firstAvailable).findIdx? (!·) with
          | none => sched.pieceMap.pieceCount
          | some offset => firstAvailable + offset
        let touched := sched.pieces.keys.filter fun pieceId =>
          decide (firstAvailable ≤ pieceId) && decide (pieceId < availableEnd)
        sched.cutRun availableEnd touched firstAvailable ++
          sched.dynamicCandidatesLoop fuel availableEnd
    else []

def dynamicCandidates : List AllocationCandidate :=
  sched.dynamicCandidatesLoop sched.pieceMap.pieceCount 0

def dynamicLegalSplitBounds (candidate : AllocationCandidate)
    (minSplitSize : Nat) : Option (Nat × Nat) :=
  if candidate.endPiece ≤ candidate.firstPiece + 1 ∨ minSplitSize = 0 ∨
      candidate.len / minSplitSize < 2 then none
  else
    let pieceSize := max sched.pieceMap.pieceSize 1
    let minPieces := divCeil minSplitSize pieceSize
    let firstLegalPiece := candidate.firstPiece + minPieces
    let lastLegalPiece :=
      min ((candidate.stop - minSplitSize) / pieceSize) (candidate.endPiece - 1)
    if firstLegalPiece ≤ lastLegalPiece then some (firstLegalPiece, lastLegalPiece) else none

def maxDynamicSlots (candidate : AllocationCandidate) (minSplitSize : Nat) : Nat :=
  let pieceCount := candidate.endPiece - candidate.firstPiece
  let byMinimum :=
    if minSplitSize = 0 then pieceCount else max (candidate.len / minSplitSize) 1
  if byMinimum < 2 ∨ (sched.dynamicLegalSplitBounds candidate minSplitSize).isNone then 1
  else max (min pieceCount byMinimum) 1

def compareDynamicShares (left : AllocationCandidate) (leftSlots : Nat)
    (right : AllocationCandidate) (rightSlots : Nat) : Ordering :=
  (compare (left.len * rightSlots) (right.len * leftSlots)).then
    (compare right.start left.start)

/-- Candidates paired with their slot counts; `slot_counts` of the source. -/
abbrev Shares := List (AllocationCandidate × Nat)

def compareShares (left right : Nat × AllocationCandidate × Nat) : Ordering :=
  compareDynamicShares left.2.1 left.2.2 right.2.1 right.2.2

def indexedShares (shares : Shares) : List (Nat × AllocationCandidate × Nat) :=
  shares.zipIdx.map fun entry => (entry.2, entry.1)

/-- The `while extra_slots != 0` loop. -/
def distributeSlots (sched : SchedulerState) (minSplitSize : Nat) : Nat → Shares → Shares
  | 0, shares => shares
  | extraSlots + 1, shares =>
    let growable := (indexedShares shares).filter fun entry =>
      decide (entry.2.2 < sched.maxDynamicSlots entry.2.1 minSplitSize)
    match maxBy compareShares growable with
    | none => shares
    | some (index, candidate, slots) =>
      sched.distributeSlots minSplitSize extraSlots (shares.set index (candidate, slots + 1))

def shareTable (shares : Shares) : List DynamicCandidateShare :=
  shares.map fun entry =>
    ⟨entry.1.start, entry.1.stop, entry.2, divCeil entry.1.len entry.2⟩

def planDynamicShare (candidates : List AllocationCandidate)
    (requestedRanges minSplitSize : Nat) (collectCandidateShares : Bool) :
    Option DynamicPlan :=
  if requestedRanges = 0 ∨ candidates.isEmpty then none
  else
    let nominal : Shares := candidates.map fun candidate => (candidate, 1)
    if candidates.length ≥ requestedRanges then do
      let (_, candidate, _) ← maxBy compareShares (indexedShares nominal)
      some {
        candidate := candidate
        candidateSlots := 1
        plannedRanges := requestedRanges
        candidateShares := if collectCandidateShares then some (shareTable nominal) else none }
    else do
      let shares :=
        sched.distributeSlots minSplitSize (requestedRanges - candidates.length) nominal
      let (_, candidate, slots) ← maxBy compareShares (indexedShares shares)
      some {
        candidate := candidate
        candidateSlots := slots
        plannedRanges := (shares.map Prod.snd).sum
        candidateShares := if collectCandidateShares then some (shareTable shares) else none }

def dynamicShareEndPiece (candidate : AllocationCandidate) (slots minSplitSize : Nat) : Nat :=
  if slots ≤ 1 then candidate.endPiece
  else
    match sched.dynamicLegalSplitBounds candidate minSplitSize with
    | none => candidate.endPiece
    | some (firstLegalPiece, lastLegalPiece) =>
      let pieceSize := max sched.pieceMap.pieceSize 1
      let targetEnd := candidate.start + divCeil candidate.len slots
      let idealPiece :=
        targetEnd / pieceSize + if targetEnd % pieceSize > pieceSize / 2 then 1 else 0
      min (max idealPiece firstLegalPiece) lastLegalPiece

def dynamicTruncationReason (byteLimited leaseLimited minSplitAdjusted minSplitConflict : Bool) :
    TruncationReason :=
  match byteLimited, leaseLimited with
  | true, true =>
    match minSplitAdjusted, minSplitConflict with
    | true, false => .maxRequestBytesAndLeaseLimitAndMinSplit
    | false, true => .maxRequestBytesAndLeaseLimitAndMinSplitConflict
    | _, _ => .maxRequestBytesAndLeaseLimit
  | true, false =>
    match minSplitAdjusted, minSplitConflict with
    | true, false => .maxRequestBytesAndMinSplit
    | false, true => .maxRequestBytesAndMinSplitConflict
    | _, _ => .maxRequestBytes
  | false, true =>
    match minSplitAdjusted, minSplitConflict with
    | true, false => .leaseLimitAndMinSplit
    | false, true => .leaseLimitAndMinSplitConflict
    | _, _ => .leaseLimit
  | false, false =>
    match minSplitAdjusted, minSplitConflict with
    | true, false => .minSplitBoundary
    | false, true => .minSplitConflict
    | _, _ => .none

def legalEndPiece (sched : SchedulerState) (candidate : AllocationCandidate)
    (minSplitSize rawEndPiece : Nat) : Nat × Bool × Bool :=
  if rawEndPiece < candidate.endPiece then
    match sched.dynamicLegalSplitBounds candidate minSplitSize with
    | some (firstLegalPiece, lastLegalPiece) =>
      if rawEndPiece ≥ firstLegalPiece then
        let legalEndPiece := min rawEndPiece lastLegalPiece
        (legalEndPiece, decide (legalEndPiece < rawEndPiece), false)
      else
        (rawEndPiece, false, true)
    | none => (rawEndPiece, false, false)
  else (rawEndPiece, false, false)

def dynamicRequestEnd (candidate : AllocationCandidate)
    (desiredEndPiece minSplitSize configuredMaxRequestSize : Nat) :
    Nat × TruncationReason :=
  let pieceSize := max sched.pieceMap.pieceSize 1
  let maxRequestSize := max (max configuredMaxRequestSize pieceSize) 1
  let byteBound := candidate.start + maxRequestSize
  let desiredEndPiece :=
    min (max desiredEndPiece (candidate.firstPiece + 1)) candidate.endPiece
  let byteEndPiece :=
    if byteBound ≥ candidate.stop then candidate.endPiece
    else min (max (byteBound / pieceSize) (candidate.firstPiece + 1)) candidate.endPiece
  let leaseEndPiece := min (candidate.firstPiece + maxRequestLeases) desiredEndPiece
  let rawEndPiece :=
    min (max (min (min desiredEndPiece byteEndPiece) leaseEndPiece)
      (candidate.firstPiece + 1)) candidate.endPiece
  let (endPiece, minSplitAdjusted, minSplitConflict) :=
    sched.legalEndPiece candidate minSplitSize rawEndPiece
  (min (sched.pieceMap.pieceRange (endPiece - 1)).stop candidate.stop,
    dynamicTruncationReason (decide (desiredEndPiece > byteEndPiece))
      (decide (desiredEndPiece > leaseEndPiece)) minSplitAdjusted minSplitConflict)

def rollBack : List Segment → SchedulerState → Checked SchedulerState
  | [], sched => some sched
  | segment :: rest, sched => do
      let sched ← rollBack rest sched
      let (_, sched) ← sched.reclaim segment.leaseKey
      some sched

/-- One lease for each listed range, all rolled back as soon as one is refused. -/
def issueAll (workerId : Nat) :
    List (Nat × ByteRange) → List Segment → SchedulerState →
      Checked (Option (List Segment) × SchedulerState)
  | [], issued, sched => some (some issued, sched)
  | (pieceId, range) :: rest, issued, sched => do
      match ← sched.issueLease pieceId range workerId with
      | (none, sched) =>
        let sched ← rollBack issued sched
        some (none, sched)
      | (some segment, sched) => issueAll workerId rest (issued ++ [segment]) sched

def wholePieces (candidate : AllocationCandidate) (stop : Nat) : List (Nat × ByteRange) :=
  ((List.range' candidate.firstPiece (candidate.endPiece - candidate.firstPiece)).map
    fun pieceId => (pieceId, sched.pieceMap.pieceRange pieceId)).takeWhile
      fun entry => decide (entry.2.stop ≤ stop)

def issueDynamicCandidate (candidate : AllocationCandidate)
    (stop workerId : Nat) : Checked (Option (List Segment) × SchedulerState) :=
  if sched.stopped ∨ stop ≤ candidate.start then some (none, sched)
  else do
    match ← issueAll workerId (sched.wholePieces candidate stop) [] sched with
    | (none, sched) => some (none, sched)
    | (some segments, sched) =>
      some (if segments.isEmpty then none else some segments, sched)

def assignDynamicRequest (workerId occupiedRequests availableRequestSlots dynamicMinSplitSize
      dynamicMaxRequestSize : Nat) (collectCandidateShares : Bool) :
    Checked (Option RequestAssignment × SchedulerState) := do
  let candidates := sched.dynamicCandidates
  if candidates.isEmpty then
    let (segment, sched) ← sched.assignTo workerId
    some (segment.map (RequestAssignment.single · availableRequestSlots occupiedRequests), sched)
  else
    let minSplitSize :=
      effectiveDynamicMinSplitSize sched.pieceMap.pieceSize dynamicMinSplitSize
    match sched.planDynamicShare candidates availableRequestSlots minSplitSize
        collectCandidateShares with
    | none => some (none, sched)
    | some plan =>
      let desiredEndPiece :=
        sched.dynamicShareEndPiece plan.candidate plan.candidateSlots minSplitSize
      let targetEnd := (sched.pieceMap.pieceRange (desiredEndPiece - 1)).stop
      let (finalEnd, truncationReason) :=
        sched.dynamicRequestEnd plan.candidate desiredEndPiece minSplitSize dynamicMaxRequestSize
      match ← sched.issueDynamicCandidate plan.candidate finalEnd workerId with
      | (none, sched) => some (none, sched)
      | (some segments, sched) =>
        some (do
          let first ← segments.head?
          let last ← segments.getLast?
          some {
            segments := segments
            candidateStart := plan.candidate.start
            candidateEnd := plan.candidate.stop
            candidateBoundaryScanned := true
            candidateSlots := plan.candidateSlots
            targetEnd := targetEnd
            candidateShares := plan.candidateShares
            finalStart := first.start
            finalEnd := last.stop
            availableRequestSlots := availableRequestSlots
            occupiedRequests := occupiedRequests
            plannedRanges := plan.plannedRanges
            truncationReason := truncationReason }, sched)

/-- The parameters of `assign_request_with_trace`, in the order of the source. -/
structure RequestParams where
  maxRequests : Nat
  minSegmentSize : Nat
  occupiedRequests : Nat
  mode : RangeSchedulingMode
  requestBatchSize : Nat
  dynamicMinSplitSize : Nat
  dynamicMaxRequestSize : Nat
  allowBatch : Bool
  collectDiagnostics : Bool
  collectCandidateShares : Bool
  deriving DecidableEq, Repr

def assignRequestWithTrace (workerId : Nat)
    (params : RequestParams) : Checked (Option RequestAssignment × SchedulerState) :=
  let availableRequestSlots := params.maxRequests - params.occupiedRequests
  if availableRequestSlots = 0 ∨ sched.availableRangeCount = 0 then some (none, sched)
  else if !params.allowBatch then do
    let (segment, sched) ← sched.assignTo workerId
    some (segment.map
      (RequestAssignment.single · availableRequestSlots params.occupiedRequests), sched)
  else
    match params.mode with
    | .fixed =>
      sched.assignFixedRequest workerId params.maxRequests params.minSegmentSize
        params.occupiedRequests params.requestBatchSize availableRequestSlots
        params.collectDiagnostics
    | .dynamic =>
      sched.assignDynamicRequest workerId params.occupiedRequests availableRequestSlots
        params.dynamicMinSplitSize params.dynamicMaxRequestSize
        params.collectCandidateShares

def assignSubrange (pieceId start stop workerId : Nat) :
    Checked (Option Segment × SchedulerState) :=
  if pieceId ≥ sched.pieceMap.pieceCount ∨ sched.pieceMap.isComplete pieceId then
    some (none, sched)
  else
    match ByteRange.new start stop with
    | none => some (none, sched)
    | some range =>
      let pieceRange := sched.pieceMap.pieceRange pieceId
      if start < pieceRange.start ∨ stop > pieceRange.stop then some (none, sched)
      else sched.issueLease pieceId range workerId

def isWholePieceSegment (segment : Segment) : Bool :=
  decide (segment.pieceId < sched.pieceMap.pieceCount) &&
    decide (sched.pieceMap.pieceRange segment.pieceId = segment.span)

def recoveryChain (sched : SchedulerState) :
    Option (Nat × Nat) → List (Nat × ByteRange) → Bool
  | _, [] => true
  | previous, (pieceId, range) :: rest =>
    let pieceRange := sched.pieceMap.pieceRange pieceId
    decide (pieceId < sched.pieceMap.pieceCount) &&
      decide (range.start < range.stop) && decide (pieceRange.start ≤ range.start) &&
      decide (range.stop ≤ pieceRange.stop) && !sched.pieceMap.isComplete pieceId &&
      (match previous with
        | none => true
        | some (previousPiece, previousEnd) =>
          decide (pieceId = previousPiece + 1) && decide (range.start = previousEnd)) &&
      sched.recoveryChain (some (pieceId, range.stop)) rest

def assignRecoveryBatch (pieces : List (Nat × ByteRange))
    (workerId : Nat) : Checked (Option (List Segment) × SchedulerState) :=
  if pieces.isEmpty || decide (pieces.length > maxRequestLeases) then some (none, sched)
  else if sched.recoveryChain none pieces then issueAll workerId pieces [] sched
  else some (none, sched)

end SchedulerState

end Bytehaul.Scheduler
