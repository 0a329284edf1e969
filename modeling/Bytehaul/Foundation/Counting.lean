import Bytehaul.Foundation.Span

/-!
# Sums that change at one index

How a sum over an index range moves when the summand changes at one index only.
-/

namespace Bytehaul.Foundation

open Finset

theorem sum_exchange {ι M : Type} [DecidableEq ι] [AddCommMonoid M] {s : Finset ι} {f g : ι → M}
    {i : ι} (hi : i ∈ s) (h : ∀ j, j ≠ i → g j = f j) :
    ∑ j ∈ s, g j + f i = ∑ j ∈ s, f j + g i := by
  have hrest : ∑ j ∈ s.erase i, g j = ∑ j ∈ s.erase i, f j :=
    sum_congr rfl fun j hj => h j (ne_of_mem_erase hj)
  rw [← add_sum_erase s f hi, ← add_sum_erase s g hi, hrest, add_right_comm, add_comm (g i),
    add_right_comm]

variable {f : Nat → Nat} {n : Nat}

theorem sum_range_exchange {g : Nat → Nat} {i : Nat} (hi : i < n) (h : ∀ j, j ≠ i → g j = f j) :
    ∑ j ∈ range n, g j + f i = ∑ j ∈ range n, f j + g i :=
  sum_exchange (mem_range.mpr hi) h

theorem le_sum_range (f : Nat → Nat) {i : Nat} (hi : i < n) : f i ≤ ∑ j ∈ range n, f j :=
  single_le_sum (fun _ _ => Nat.zero_le _) (mem_range.mpr hi)

theorem sum_range_eq_zero_iff : ∑ j ∈ range n, f j = 0 ↔ ∀ j < n, f j = 0 := by
  simp only [sum_eq_zero_iff, mem_range]

theorem exists_pos_of_sum_range_pos (h : 0 < ∑ j ∈ range n, f j) : ∃ j < n, 0 < f j := by
  by_contra hnone
  push Not at hnone
  have hzero := sum_range_eq_zero_iff.mpr fun j hj => Nat.le_zero.mp (hnone j hj)
  omega

theorem sum_map_filter_range (p : Nat → Bool) (f : Nat → Nat) (n : Nat) :
    (((List.range n).filter p).map f).sum = ∑ i ∈ range n, if p i then f i else 0 := by
  induction n with
  | zero => rfl
  | succ n ih =>
    rw [List.range_succ, List.filter_append, List.map_append, List.sum_append, ih, sum_range_succ]
    cases hp : p n <;> simp [hp]

theorem sum_range_hits {spans : List Span} (h : ∀ span ∈ spans, span.stop ≤ n) :
    ∑ b ∈ range n, hits spans b = (spans.map Span.len).sum := by
  induction spans with
  | nil => simp
  | cons span spans ih =>
    have hspan : span.stop ≤ n := h span List.mem_cons_self
    have hlen : ∑ b ∈ range n, (if b ∈ span then 1 else 0) = span.len := by
      rw [← card_filter]
      have hfilter : (range n).filter (fun b => b ∈ span) = Ico span.start span.stop := by
        ext b
        simp only [mem_filter, mem_range, Span.mem_iff, mem_Ico]
        omega
      rw [hfilter, Nat.card_Ico]
      rfl
    simp only [hits_cons, sum_add_distrib, hlen, List.map_cons, List.sum_cons,
      ih fun other ho => h other (List.mem_cons_of_mem _ ho)]
    omega

end Bytehaul.Foundation
