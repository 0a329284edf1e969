import Bytehaul.Foundation.Checked
import Bytehaul.Foundation.OrderedMap
import Bytehaul.Scheduler.RangeSet
import Bytehaul.Storage.PieceMap
import Bytehaul.Storage.Segment

/-!
# Scheduler state

`PieceRuntimeState` and the lease operations of `SchedulerState`. `none` is the panic of an
underflow of a counter; `next_lease_id` agrees with the saturating `u64` below `2^64`
leases.
-/

namespace Bytehaul.Scheduler

open Foundation Storage Std

def checkedSub (a b : Nat) : Checked Nat := if b ≤ a then some (a - b) else none

theorem checkedSub_eq {a b : Nat} (h : b ≤ a) : checkedSub a b = some (a - b) := if_pos h

structure PieceRuntimeState where
  missingRanges : RangeSet
  hasCompletedRanges : Bool
  activeLeases : TreeMap Nat ByteRange
  attemptCounter : Nat

namespace PieceRuntimeState

def new (fullRange : ByteRange) : PieceRuntimeState where
  missingRanges := RangeSet.newFull fullRange.start fullRange.stop
  hasCompletedRanges := false
  activeLeases := ∅
  attemptCounter := 0

def nextAssignableRange (piece : PieceRuntimeState) : Option ByteRange :=
  piece.missingRanges.first

def missingRangeCount (piece : PieceRuntimeState) : Nat := piece.missingRanges.len

/-- `u32::saturating_add(1)`. -/
def bumpAttempt (attempt : Nat) : Nat := min (attempt + 1) (2 ^ 32 - 1)

def issueLease (piece : PieceRuntimeState) (range : ByteRange)
    (workerId nextLeaseId pieceId : Nat) :
    Option (Segment × PieceRuntimeState × Nat) :=
  match piece.missingRanges.remove range with
  | none => none
  | some missingRanges =>
    let attempt := bumpAttempt piece.attemptCounter
    some
      (⟨pieceId, nextLeaseId, range.start, range.stop, workerId, attempt⟩,
        { piece with
          missingRanges := missingRanges
          attemptCounter := attempt
          activeLeases := piece.activeLeases.insert nextLeaseId range },
        nextLeaseId + 1)

def renew (piece : PieceRuntimeState) (leaseKey : LeaseKey)
    (workerId nextLeaseId pieceId : Nat) :
    Option (Segment × PieceRuntimeState × Nat) :=
  match piece.activeLeases[leaseKey.leaseId]? with
  | none => none
  | some previous =>
    let attempt := bumpAttempt piece.attemptCounter
    some
      (⟨pieceId, nextLeaseId, previous.start, previous.stop, workerId, attempt⟩,
        { piece with
          attemptCounter := attempt
          activeLeases :=
            (piece.activeLeases.erase leaseKey.leaseId).insert nextLeaseId previous },
        nextLeaseId + 1)

def complete (piece : PieceRuntimeState) (leaseKey : LeaseKey) :
    Option (Bool × PieceRuntimeState) :=
  match piece.activeLeases[leaseKey.leaseId]? with
  | none => none
  | some _ =>
    let activeLeases := piece.activeLeases.erase leaseKey.leaseId
    some
      (piece.missingRanges.ranges.isEmpty && activeLeases.isEmpty,
        { piece with activeLeases := activeLeases, hasCompletedRanges := true })

def reclaim (piece : PieceRuntimeState) (leaseKey : LeaseKey) :
    Option PieceRuntimeState :=
  match piece.activeLeases[leaseKey.leaseId]? with
  | none => none
  | some range =>
    some { piece with
      activeLeases := piece.activeLeases.erase leaseKey.leaseId
      missingRanges := piece.missingRanges.insert range }

end PieceRuntimeState

structure SchedulerState where
  pieceMap : PieceMap
  pieces : TreeMap Nat PieceRuntimeState
  availablePieces : List Bool
  activeLeaseCount : Nat
  availableRangeCount : Nat
  nextCandidate : Nat
  nextLeaseId : Nat
  snapshotSeq : Nat
  stopped : Bool

namespace SchedulerState

variable (sched : SchedulerState)

def new (pieceMap : PieceMap) : SchedulerState where
  pieceMap := pieceMap
  pieces := ∅
  availablePieces := pieceMap.missingBitset
  activeLeaseCount := 0
  availableRangeCount := pieceMap.remainingCount
  nextCandidate := pieceMap.firstMissing.getD 0
  nextLeaseId := 1
  snapshotSeq := 0
  stopped := false

def available (pieceId : Nat) : Bool :=
  sched.availablePieces.getD pieceId false

def runtimePiece (pieceId : Nat) : PieceRuntimeState :=
  (sched.pieces[pieceId]?).getD (PieceRuntimeState.new (sched.pieceMap.pieceRange pieceId))

def issueLease (sched : SchedulerState) (pieceId : Nat) (range : ByteRange)
    (workerId : Nat) : Checked (Option Segment × SchedulerState) :=
  if sched.stopped then
    some (none, sched)
  else
    let piece := sched.runtimePiece pieceId
    let previousRanges := piece.missingRangeCount
    match piece.issueLease range workerId sched.nextLeaseId pieceId with
    | none =>
      some (none, { sched with pieces := sched.pieces.insert pieceId piece })
    | some (segment, piece, nextLeaseId) => do
        let remaining ← checkedSub sched.availableRangeCount previousRanges
        some (some segment, { sched with
          pieces := sched.pieces.insert pieceId piece
          nextLeaseId := nextLeaseId
          availableRangeCount := remaining + piece.missingRangeCount
          activeLeaseCount := sched.activeLeaseCount + 1
          availablePieces :=
            sched.availablePieces.set pieceId (piece.missingRangeCount != 0) })

def retainPrefix (leaseKey : LeaseKey) (confirmedEnd : Nat) : Bool × SchedulerState :=
  match sched.pieces[leaseKey.pieceId]? with
  | none => (false, sched)
  | some piece =>
    match piece.activeLeases[leaseKey.leaseId]? with
    | none => (false, sched)
    | some active =>
      if confirmedEnd ≤ active.start ∨ confirmedEnd ≥ active.stop then
        (false, sched)
      else
        (true, { sched with
          pieces := sched.pieces.insert leaseKey.pieceId { piece with
            activeLeases :=
              piece.activeLeases.insert leaseKey.leaseId ⟨confirmedEnd, active.stop⟩
            hasCompletedRanges := true } })

def renew (sched : SchedulerState) (leaseKey : LeaseKey) (workerId : Nat) :
    Option Segment × SchedulerState :=
  if sched.pieceMap.isComplete leaseKey.pieceId then
    (none, sched)
  else
    match sched.pieces[leaseKey.pieceId]? with
    | none => (none, sched)
    | some piece =>
      match piece.renew leaseKey workerId sched.nextLeaseId leaseKey.pieceId with
      | none => (none, sched)
      | some (segment, piece, nextLeaseId) =>
        (some segment, { sched with
          pieces := sched.pieces.insert leaseKey.pieceId piece
          nextLeaseId := nextLeaseId })

def complete (sched : SchedulerState) (leaseKey : LeaseKey) :
    Checked (Bool × SchedulerState) :=
  match sched.pieces[leaseKey.pieceId]? with
  | none => some (false, sched)
  | some piece =>
    match piece.complete leaseKey with
    | none => some (false, sched)
    | some (pieceComplete, piece) => do
        let activeLeaseCount ← checkedSub sched.activeLeaseCount 1
        if pieceComplete then
          some (true, { sched with
            activeLeaseCount := activeLeaseCount
            pieceMap := sched.pieceMap.markComplete leaseKey.pieceId
            pieces := sched.pieces.erase leaseKey.pieceId })
        else
          some (true, { sched with
            activeLeaseCount := activeLeaseCount
            pieces := sched.pieces.insert leaseKey.pieceId piece })

def reclaim (sched : SchedulerState) (leaseKey : LeaseKey) :
    Checked (Bool × SchedulerState) :=
  match sched.pieces[leaseKey.pieceId]? with
  | none => some (false, sched)
  | some piece =>
    let previousRanges := piece.missingRangeCount
    match piece.reclaim leaseKey with
    | none => some (false, sched)
    | some piece => do
        let activeLeaseCount ← checkedSub sched.activeLeaseCount 1
        let remaining ← checkedSub sched.availableRangeCount previousRanges
        some (true, { sched with
          pieces := sched.pieces.insert leaseKey.pieceId piece
          activeLeaseCount := activeLeaseCount
          availableRangeCount := remaining + piece.missingRangeCount
          availablePieces := sched.availablePieces.set leaseKey.pieceId true
          nextCandidate :=
            if leaseKey.pieceId < sched.nextCandidate then leaseKey.pieceId
            else sched.nextCandidate })

def stopAndReclaim (leaseKey : LeaseKey) : Checked SchedulerState := do
  let (_, sched) ← reclaim { sched with stopped := true } leaseKey
  some sched

def hasAvailable : Bool :=
  !sched.stopped && sched.availableRangeCount != 0

def allDone (sched : SchedulerState) : Bool := sched.pieceMap.allDone

def completedBytes (sched : SchedulerState) : Nat := sched.pieceMap.completedBytes

def pieceCount (sched : SchedulerState) : Nat := sched.pieceMap.pieceCount

def snapshotBitset : List UInt8 := sched.pieceMap.toBitsetBytes

end SchedulerState

end Bytehaul.Scheduler
