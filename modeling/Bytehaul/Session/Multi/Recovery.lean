import Bytehaul.Session.Multi.Pending
import Bytehaul.Session.Retry
import Bytehaul.Scheduler.Leases

/-!
# Recovery state

`session/multi/worker.rs`: a lineage carries the retry history of a range through splits and
hand-offs; its index in a list plays the part of the shared pointer. Which request counts as
slow is left open.
-/

namespace Bytehaul.Session

open Foundation Storage Scheduler List

def cooldown : Nat := 10 * nanosPerSec

def maxExtra : Nat := 16 * 1024 * 1024

def maxHedge : Nat := 1024 * 1024

structure Lineage where
  retries : RetryState
  recoveries : Nat
  deriving DecidableEq, Repr

abbrev LineageId := Nat

structure Recovered where
  piece : Nat
  start : Nat
  stop : Nat
  remaining : Nat
  lineage : LineageId
  deriving DecidableEq, Repr

structure Reservation where
  bound : Nat
  cost : Nat
  deriving DecidableEq, Repr

inductive ReserveRefusal
  | challengerActive
  | globalBackoff
  | cooldown
  | budget
  | lineageLimit
  deriving DecidableEq, Repr

structure RecoveryState where
  recovered : List Recovered
  pending : List PendingRange
  reserved : Nat
  consumedExtra : Nat
  retries : Nat
  actions : Nat
  hedge : Bool
  lastAction : Option Nat
  blockedUntil : Option Nat
  deriving DecidableEq, Repr

namespace RecoveryState

variable (state : RecoveryState)

def new : RecoveryState where
  recovered := []
  pending := []
  reserved := 0
  consumedExtra := 0
  retries := 0
  actions := 0
  hedge := false
  lastAction := none
  blockedUntil := none

def pendingBackoff (now : Nat) : Bool :=
  !state.pending.isEmpty && state.blockedUntil.any (now < ·)

def lineageIn (recovered : List Recovered) (segment : Segment) : Option LineageId :=
  (recovered.find? fun record => record.piece == segment.pieceId &&
    decide (record.start ≤ segment.start) && decide (segment.stop ≤ record.stop)).map (·.lineage)

def lineageOf (segment : Segment) : Option LineageId :=
  lineageIn state.recovered segment

def sameOrigin (piece : Nat) (lineage : LineageId) (record : Recovered) : Bool :=
  record.piece == piece && record.lineage == lineage

/-- The first record of a piece under a lineage covers what was released of it then. -/
def noteRecovered (lineage : LineageId) (recovered : List Recovered) (segment : Segment) :
    List Recovered :=
  if recovered.any (sameOrigin segment.pieceId lineage) then recovered
  else recovered ++ [{
    piece := segment.pieceId
    start := segment.start
    stop := segment.stop
    remaining := segment.stop - segment.start
    lineage := lineage }]

def recoveredBatchWithSplit (segments : List Segment)
    (lineage : LineageId) (requestCap : Nat) (splitMinSize : Option Nat) : RecoveryState :=
  if segments = [] then state
  else { state with
    pending := state.pending ++ PendingRange.fromSegments segments requestCap splitMinSize
    recovered := segments.foldl (noteRecovered lineage) state.recovered }

def creditFirst (piece : Nat) (lineage : LineageId) (bytes : Nat) :
    List Recovered → List Recovered
  | [] => []
  | record :: records =>
    if sameOrigin piece lineage record then
      { record with remaining := record.remaining - bytes } :: records
    else record :: creditFirst piece lineage bytes records

def credited (segment : Segment) (lineage : LineageId) (recovered : List Recovered) :
    List Recovered :=
  (creditFirst segment.pieceId lineage (segment.stop - segment.start) recovered).filter
    (0 < ·.remaining)

def completed (segment : Segment) (lineage : LineageId) : RecoveryState :=
  { state with recovered := credited segment lineage state.recovered }

def backoff (until' : Option Nat) : RecoveryState :=
  { state with blockedUntil := max state.blockedUntil until' }

def refund (reservation : Reservation) : RecoveryState :=
  { state with
    reserved := state.reserved - reservation.bound
    consumedExtra := state.consumedExtra + reservation.cost }

/-- The checks of `reserve_result` that need only the shared state. -/
def reserveRefusal (extraLimit len now : Nat) : Option ReserveRefusal :=
  if state.hedge then some .challengerActive
  else if state.blockedUntil.any (now < ·) then some .globalBackoff
  else if state.lastAction.any (now - · < Session.cooldown) then some .cooldown
  else if extraLimit - (state.reserved + state.consumedExtra) < len then some .budget
  else none

def reserveResult (extraLimit len : Nat) (lineage : Lineage) (hedge : Bool) (now : Nat) :
    Except ReserveRefusal (Reservation × RecoveryState × Lineage) :=
  match state.reserveRefusal extraLimit len now with
  | some reason => .error reason
  | none =>
    if 2 ≤ lineage.recoveries then .error .lineageLimit
    else .ok (⟨len, len⟩,
      { state with
        reserved := state.reserved + len
        actions := state.actions + 1
        hedge := hedge
        lastAction := some now },
      { lineage with recoveries := lineage.recoveries + 1 })

end RecoveryState

/-- May `segment` join the group that ends with `last`? -/
def joinsGroup (sched : SchedulerState) (group : List Segment × Bool) (segment : Segment) :
    Bool :=
  sched.isWholePieceSegment segment && group.2 &&
    group.1.getLast?.any fun last => sched.isWholePieceSegment last &&
      last.pieceId + 1 == segment.pieceId && last.stop == segment.start

def groupLoop (sched : SchedulerState) :
    List (List Segment × Bool) → List Segment × Bool → List Segment →
      List (List Segment × Bool)
  | groups, group, [] => groups ++ [group]
  | groups, group, segment :: segments =>
    if joinsGroup sched group segment then
      groupLoop sched groups (group.1 ++ [segment], group.2) segments
    else
      groupLoop sched (groups ++ [group]) ([segment], sched.isWholePieceSegment segment) segments

def recoverGroups (sched : SchedulerState) : List Segment → List (List Segment × Bool)
  | [] => []
  | segment :: segments =>
    groupLoop sched [] ([segment], sched.isWholePieceSegment segment) segments

def enqueueGroups (state : RecoveryState) (groups : List (List Segment × Bool))
    (lineage : LineageId) (requestCap minSegmentSize : Nat) : RecoveryState :=
  groups.foldl (fun state (group, wholePiece) =>
    state.recoveredBatchWithSplit group lineage requestCap
      (if wholePiece then none else some minSegmentSize)) state

def reclaimAll : List Segment → SchedulerState → Checked SchedulerState
  | [], sched => some sched
  | segment :: segments, sched => do
      let (_, sched) ← sched.reclaim segment.leaseKey
      reclaimAll segments sched

/-- Pending work becomes visible before the leases are given back. -/
def recoverSegments (sched : SchedulerState) (state : RecoveryState)
    (segments : List Segment) (lineage : LineageId) (requestCap minSegmentSize : Nat) :
    Checked (SchedulerState × RecoveryState) :=
  (reclaimAll segments sched).map fun next =>
    (next, enqueueGroups state (recoverGroups sched segments) lineage requestCap minSegmentSize)

private theorem groupLoop_flatten (sched : SchedulerState) (groups : List (List Segment × Bool))
    (group : List Segment × Bool) (segments : List Segment) :
    (groupLoop sched groups group segments).flatMap Prod.fst =
      groups.flatMap Prod.fst ++ group.1 ++ segments := by
  induction segments generalizing groups group with
  | nil => simp [groupLoop]
  | cons segment segments ih =>
    unfold groupLoop
    split
    · rw [ih]
      simp
    · rw [ih]
      simp

theorem recoverGroups_flatten (sched : SchedulerState) (segments : List Segment) :
    (recoverGroups sched segments).flatMap Prod.fst = segments := by
  cases segments with
  | nil => rfl
  | cons segment segments =>
    unfold recoverGroups
    rw [groupLoop_flatten]
    simp

theorem enqueueGroups_spec (groups : List (List Segment × Bool)) (state : RecoveryState)
    (lin : LineageId) (requestCap minSize : Nat)
    (hpos : ∀ seg ∈ groups.flatMap Prod.fst, seg.start < seg.stop) :
    ∃ added, enqueueGroups state groups lin requestCap minSize = { state with
          pending := state.pending ++ added
          recovered := (groups.flatMap Prod.fst).foldl
            (RecoveryState.noteRecovered lin) state.recovered } ∧
      PendingRange.allPieces added = (groups.flatMap Prod.fst).map PendingPiece.ofSegment ∧
      ∀ range ∈ added, range.Waiting := by
  induction groups generalizing state with
  | nil => exact ⟨[], by simp [enqueueGroups], rfl, by simp⟩
  | cons group groups ih =>
    obtain ⟨segs, wholePiece⟩ := group
    have hhead : ∀ seg ∈ segs, seg.start < seg.stop := fun seg hseg => hpos seg (by simp [hseg])
    have htail : ∀ seg ∈ groups.flatMap Prod.fst, seg.start < seg.stop :=
      fun seg hseg => hpos seg (by
        rw [flatMap_cons, mem_append]
        exact .inr hseg)
    let split := if wholePiece then none else some minSize
    obtain ⟨added, heq, hps, hwait⟩ :=
      ih (state.recoveredBatchWithSplit segs lin requestCap split) htail
    refine ⟨PendingRange.fromSegments segs requestCap split ++ added, ?_, ?_, ?_⟩
    · change enqueueGroups (state.recoveredBatchWithSplit segs lin requestCap split)
        groups lin requestCap minSize = _
      rw [heq]
      unfold RecoveryState.recoveredBatchWithSplit
      split
      · rename_i hnil
        simp [hnil, PendingRange.fromSegments]
      · simp
    · simp only [PendingRange.allPieces, flatMap_append, flatMap_cons, map_append] at hps ⊢
      rw [hps]
      congr 1
      exact PendingRange.fromSegments_pieces segs requestCap split
    · intro range hrng
      rcases mem_append.mp hrng with hrng | hrng
      · exact PendingRange.fromSegments_waiting hhead range hrng
      · exact hwait range hrng

structure Released (sched next : SchedulerState) (segments : List Segment) : Prop where
  pieceMap : next.pieceMap = sched.pieceMap
  stopped : next.stopped = sched.stopped
  nextLeaseId : next.nextLeaseId = sched.nextLeaseId
  missing : ∀ b, b ∈ next.custody.missing ↔
    b ∈ sched.custody.missing ∨ ∃ segment ∈ segments, b ∈ segment.span
  gone : ∀ segment ∈ segments, next.leaseRange segment.leaseKey = none
  kept : ∀ key, (∀ segment ∈ segments, segment.leaseKey ≠ key) →
    next.leaseRange key = sched.leaseRange key

theorem reclaimAll_spec {sched : SchedulerState} {acked : List Span} {segments : List Segment}
    (h : sched.Conserved acked)
    (hheld : ∀ segment ∈ segments, sched.leaseRange segment.leaseKey = some segment.span)
    (hkeys : segments.Pairwise fun first second => first.leaseKey ≠ second.leaseKey) :
    ∃ next, reclaimAll segments sched = some next ∧ next.Conserved acked ∧
      Released sched next segments := by
  induction segments generalizing sched with
  | nil => exact ⟨sched, rfl, h, ⟨rfl, rfl, rfl, by simp, by simp, by simp⟩⟩
  | cons segment segments ih =>
    have hkey := hheld segment mem_cons_self
    obtain ⟨mid, hrecl, hmid, hcust, hmap, hstpd, hnext⟩ := SchedulerState.reclaim_spec h hkey
    have hrng : ∀ key, mid.leaseRange key =
        if key = segment.leaseKey then none else sched.leaseRange key := by
      intro key
      have hheld := congrFun (congrArg Custody.held hcust) key
      simp only [Custody.reclaim, Function.update_apply] at hheld
      exact hheld
    rw [pairwise_cons] at hkeys
    have hoths : ∀ other ∈ segments, mid.leaseRange other.leaseKey = some other.span := by
      intro other ho
      rw [hrng, if_neg (hkeys.1 other ho).symm]
      exact hheld other (mem_cons_of_mem _ ho)
    obtain ⟨next, hall, hcons, hrel⟩ := ih hmid hoths hkeys.2
    refine ⟨next, by simp [reclaimAll, hrecl, hall], hcons, ?_⟩
    constructor
    · exact hrel.pieceMap.trans hmap
    · exact hrel.stopped.trans hstpd
    · exact hrel.nextLeaseId.trans hnext
    · intro b
      have hmiss : b ∈ mid.custody.missing ↔ b ∈ sched.custody.missing ∨ b ∈ segment.span := by
        rw [hcust]
        rfl
      rw [hrel.missing b, hmiss, exists_mem_cons_iff, or_assoc]
    · intro other ho
      rcases mem_cons.mp ho with rfl | ho
      · rw [hrel.kept _ fun found hf => (hkeys.1 found hf).symm, hrng, if_pos rfl]
      · exact hrel.gone other ho
    · intro key hne
      rw [hrel.kept key fun found hf => hne found (mem_cons_of_mem _ hf),
        hrng, if_neg (hne segment mem_cons_self).symm]

theorem recoverSegments_spec {sched : SchedulerState} {acked : List Span}
    {segments : List Segment} (h : sched.Conserved acked) (state : RecoveryState)
    (hheld : ∀ segment ∈ segments, sched.leaseRange segment.leaseKey = some segment.span)
    (hkeys : segments.Pairwise fun first second => first.leaseKey ≠ second.leaseKey)
    (lineage : LineageId) (requestCap minSize : Nat) :
    ∃ next added, recoverSegments sched state segments lineage requestCap minSize =
        some (next, { state with
          pending := state.pending ++ added
          recovered := segments.foldl (RecoveryState.noteRecovered lineage) state.recovered }) ∧
      next.Conserved acked ∧ Released sched next segments ∧
      PendingRange.allPieces added = segments.map PendingPiece.ofSegment ∧
      ∀ range ∈ added, range.Waiting := by
  obtain ⟨next, hall, hcons, hrel⟩ := reclaimAll_spec h hheld hkeys
  have hpos : ∀ segment ∈ (recoverGroups sched segments).flatMap Prod.fst,
      segment.start < segment.stop := by
    intro segment hseg
    rw [recoverGroups_flatten] at hseg
    obtain ⟨-, -, hpos, -, -⟩ := h.leaseRange_spec (hheld segment hseg)
    exact hpos
  obtain ⟨added, heq, hps, hwait⟩ :=
    enqueueGroups_spec (recoverGroups sched segments) state lineage requestCap minSize hpos
  rw [recoverGroups_flatten] at heq hps
  exact ⟨next, added, by simp [recoverSegments, hall, heq], hcons, hrel, hps, hwait⟩

end Bytehaul.Session
