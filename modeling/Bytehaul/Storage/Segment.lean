import Bytehaul.Foundation.Span

/-!
# Leases

`storage/segment.rs`: the identity of a scheduler-issued lease and the byte range
currently assigned under it.
-/

namespace Bytehaul.Storage

open Foundation List Option

structure LeaseKey where
  pieceId : Nat
  leaseId : Nat
  deriving DecidableEq, Repr

instance : Ord LeaseKey :=
  ⟨compareLex (compareOn LeaseKey.pieceId) (compareOn LeaseKey.leaseId)⟩

instance : Std.TransOrd LeaseKey :=
  inferInstanceAs
    (Std.TransCmp (compareLex (compareOn LeaseKey.pieceId) (compareOn LeaseKey.leaseId)))

instance : Std.LawfulEqOrd LeaseKey where
  eq_of_compare {first second} h := by
    cases first
    cases second
    change compareLex _ _ _ _ = _ at h
    simp only [compareLex, compareOn] at h
    simp_all [Ordering.then_eq_eq]

structure Segment where
  pieceId : Nat
  leaseId : Nat
  start : Nat
  stop : Nat
  ownerWorkerId : Nat
  attempt : Nat
  deriving DecidableEq, Repr

def Segment.leaseKey (segment : Segment) : LeaseKey := ⟨segment.pieceId, segment.leaseId⟩

def Segment.span (segment : Segment) : Span := ⟨segment.start, segment.stop⟩

def Segment.Follows (first second : Segment) : Prop :=
  first.pieceId + 1 = second.pieceId ∧ first.stop = second.start

/-- Leases that one request can serve: consecutive pieces, contiguous bytes. -/
def Batch (segments : List Segment) : Prop := segments.IsChain Segment.Follows

theorem Batch.singleton (seg : Segment) : Batch [seg] :=
  List.IsChain.singleton seg

variable {segments : List Segment}

theorem Batch.tail {seg : Segment} (h : Batch (seg :: segments)) : Batch segments :=
  List.IsChain.tail h

theorem Batch.snoc {last next : Segment} (h : Batch segments)
    (hlast : segments.getLast? = some last) (hfol : last.Follows next) :
    Batch (segments ++ [next]) := by
  unfold Batch
  rw [isChain_append]
  refine ⟨h, .singleton next, ?_⟩
  intro other ho head hhead
  rw [mem_def, hlast, some.injEq] at ho
  rw [mem_def, head?_cons, some.injEq] at hhead
  subst ho hhead
  exact hfol

private theorem Batch.pairwise (h : Batch segments) :
    segments.Pairwise fun first second => first.pieceId < second.pieceId := by
  have htrans : segments.IsChain fun first second => first.pieceId < second.pieceId :=
    List.IsChain.imp (fun first second hfol => by have := hfol.1; omega) h
  exact isChain_iff_pairwise.mp htrans

theorem Batch.nodup (h : Batch segments) : (segments.map Segment.pieceId).Nodup := by
  rw [nodup_iff_pairwise_ne, pairwise_map]
  exact h.pairwise.imp Nat.ne_of_lt

end Bytehaul.Storage
