import Bytehaul.Scheduler.Frame
import Bytehaul.Scheduler.Run

/-!
# Recovery batches are atomic

`assign_recovery_batch` reclaims all leases when one is refused, which merges the ranges
that issuing has split.
-/

namespace Bytehaul.Scheduler

open Foundation Storage List Option SchedulerState

namespace SchedulerState

/-- The same but for counters, the rotating candidate and the presence of entries. -/
structure Unchanged (sched next : SchedulerState) : Prop where
  pieceMap : next.pieceMap = sched.pieceMap
  missing : ∀ i < sched.pieceMap.pieceCount, next.missingSpans i = sched.missingSpans i
  leases : ∀ key, next.leaseRange key = sched.leaseRange key
  availablePieces : next.availablePieces = sched.availablePieces
  availableRangeCount : next.availableRangeCount = sched.availableRangeCount
  activeLeaseCount : next.activeLeaseCount = sched.activeLeaseCount
  completedRanges : ∀ i, (next.runtimePiece i).hasCompletedRanges =
    (sched.runtimePiece i).hasCompletedRanges
  stopped : next.stopped = sched.stopped
  snapshotSeq : next.snapshotSeq = sched.snapshotSeq

section Unchanged

variable {sched next : SchedulerState} {acked : List Span}

def leasesAt (sched : SchedulerState) (i : Nat) : List (Nat × Span) :=
  match sched.pieces[i]? with
  | some piece => piece.activeLeases.toList
  | none => []

theorem mem_leasesAt {i leaseId : Nat} {span : Span} :
    (leaseId, span) ∈ sched.leasesAt i ↔ sched.leaseRange ⟨i, leaseId⟩ = some span := by
  unfold leasesAt leaseRange
  cases sched.pieces[i]? with
  | none | some piece => simp

theorem nodup_leasesAt {i : Nat} : (sched.leasesAt i).Nodup := by
  unfold leasesAt
  split
  · exact toList_nodup _
  · exact nodup_nil

theorem length_activeSpans {i : Nat} :
    (sched.activeSpans i).length = (sched.leasesAt i).length := by
  unfold activeSpans leasesAt
  cases sched.pieces[i]? with
  | none => rfl
  | some piece => exact length_map _

theorem Lends.unchanged (hlnd : Lends sched next []) (h : sched.Conserved acked)
    (hnext : next.Conserved acked) {touched : Nat → Prop} (hframe : Frame touched sched next) :
    Unchanged sched next := by
  have hmap := hlnd.pieceMap
  have hmiss : ∀ i < sched.pieceMap.pieceCount, next.missingSpans i = sched.missingSpans i := by
    intro i hi
    have hi' : i < next.pieceMap.pieceCount := hmap ▸ hi
    refine (History.missingSpans_normal hnext hi').ext (History.missingSpans_normal h hi) ?_
    intro b
    rw [hnext.hits_missing_iff hi', h.hits_missing_iff hi, hmap, hlnd.missing]
    simp
  have hls : ∀ key, next.leaseRange key = sched.leaseRange key :=
    fun key => hlnd.held_old key (by simp)
  refine ⟨hmap, hmiss, hls, ?_, ?_, ?_, hframe.flags, hlnd.stopped, hframe.snapshotSeq⟩
  · apply ext_getElem
    · rw [hnext.length_available, h.length_available, hmap]
    · intro i hi hi'
      have hc : i < sched.pieceMap.pieceCount := h.length_available ▸ hi'
      have hiff : next.available i = true ↔ sched.available i = true := by
        rw [hnext.available_iff i (hmap ▸ hc), h.available_iff i hc, hmiss i hc]
      simpa [available, getElem?_eq_getElem, hi, hi', ← Bool.eq_iff_iff] using hiff
  · rw [hnext.availableRangeCount_eq, h.availableRangeCount_eq, hmap]
    exact Finset.sum_congr rfl fun i hi => by rw [hmiss i (Finset.mem_range.mp hi)]
  · rw [hnext.activeLeaseCount_eq, h.activeLeaseCount_eq, hmap]
    refine Finset.sum_congr rfl fun i _ => ?_
    rw [length_activeSpans, length_activeSpans]
    refine List.Perm.length_eq ((perm_ext_iff_of_nodup (nodup_leasesAt) (nodup_leasesAt)).mpr ?_)
    rintro ⟨leaseId, span⟩
    rw [mem_leasesAt, mem_leasesAt, hls]

end Unchanged

def InPiece (sched : SchedulerState) (entry : Nat × ByteRange) : Prop :=
  entry.1 < sched.pieceMap.pieceCount ∧ entry.2.start < entry.2.stop ∧
    (sched.pieceMap.pieceRange entry.1).start ≤ entry.2.start ∧
    entry.2.stop ≤ (sched.pieceMap.pieceRange entry.1).stop

def InPieceChain (sched : SchedulerState) (pieces : List (Nat × ByteRange)) : Prop :=
  (∀ entry ∈ pieces, sched.InPiece entry) ∧ pieces.IsChain Consecutive

section Batch

variable {sched : SchedulerState} {acked : List Span} {pieces : List (Nat × ByteRange)}

theorem InPieceChain.apart (h : sched.InPieceChain pieces) (hcons : sched.Conserved acked) :
    pieces.Pairwise fun first second => first.2.Apart second.2 := by
  have hps : (pieces.map Prod.fst).IsChain (· < ·) := by
    rw [isChain_map]
    exact h.2.imp fun first second hnext => by
      have := hnext.1
      omega
  have hsort := pairwise_map.mp (isChain_iff_pairwise.mp hps)
  refine hsort.imp_of_mem ?_
  intro first second hfst hsnd hlt b hb hb'
  obtain ⟨hi, -, hstart, hstop⟩ := h.1 first hfst
  obtain ⟨hj, -, hstart', hstop'⟩ := h.1 second hsnd
  have := hcons.piece_unique hi hj ⟨hstart.trans hb.1, hb.2.trans_le hstop⟩
    ⟨hstart'.trans hb'.1, hb'.2.trans_le hstop'⟩
  omega

end Batch

end SchedulerState

namespace History

end History

end Bytehaul.Scheduler
