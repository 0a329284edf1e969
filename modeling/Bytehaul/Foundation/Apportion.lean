import Mathlib

/-!
# Apportionment under caps

Items of different weight share slots under caps. Handing them out one at a time, always to
an item with the largest weight per slot, makes that weight as small as possible.
-/

namespace Bytehaul.Foundation

open Finset

/-- Taking a slot back from `i` would make its share at least that of any open item. -/
structure Apportioned {ι : Type} (items : Finset ι) (weight cap slots : ι → Nat) : Prop where
  pos : ∀ i ∈ items, 0 < slots i
  le_cap : ∀ i ∈ items, slots i ≤ cap i
  exchange : ∀ i ∈ items, ∀ j ∈ items, 1 < slots i → slots j < cap j →
    weight j * (slots i - 1) ≤ weight i * slots j

namespace Apportioned

variable {ι : Type} {items : Finset ι} {weight cap slots : ι → Nat}

theorem ones (hcap : ∀ i ∈ items, 0 < cap i) (hones : ∀ i ∈ items, slots i = 1) :
    Apportioned items weight cap slots where
  pos := fun i hi => by rw [hones i hi]; exact Nat.one_pos
  le_cap := fun i hi => by rw [hones i hi]; exact hcap i hi
  exchange := fun i hi _ _ hlt _ => by rw [hones i hi] at hlt; exact absurd hlt (lt_irrefl 1)

theorem grow [DecidableEq ι] (h : Apportioned items weight cap slots) {k : ι}
    (hopen : slots k < cap k)
    (hlarge : ∀ j ∈ items, slots j < cap j → weight j * slots k ≤ weight k * slots j) :
    Apportioned items weight cap (Function.update slots k (slots k + 1)) := by
  have hle : ∀ j, slots j ≤ Function.update slots k (slots k + 1) j := by
    intro j
    by_cases hj : j = k
    · subst hj
      simp
    · simp [hj]
  refine ⟨fun i hi => (h.pos i hi).trans_le (hle i), ?_, ?_⟩
  · intro i hi
    by_cases hik : i = k
    · subst hik
      rw [Function.update_self]
      exact hopen
    · simpa [hik] using h.le_cap i hi
  · intro i hi j hj hlt hjopen
    have hjopen' := (hle j).trans_lt hjopen
    refine le_trans ?_ (Nat.mul_le_mul_left (weight i) (hle j))
    by_cases hik : i = k
    · subst hik
      simpa using hlarge j hj hjopen'
    · simp only [Function.update_of_ne hik] at hlt ⊢
      exact h.exchange i hi j hj hlt hjopen'

/-- No other allocation has a smaller largest share. -/
theorem optimal (h : Apportioned items weight cap slots) {other : ι → Nat}
    (hcap : ∀ i ∈ items, other i ≤ cap i)
    (hfull : ∑ i ∈ items, other i ≤ ∑ i ∈ items, slots i ∨ ∀ i ∈ items, cap i ≤ slots i) {j : ι}
    (hj : j ∈ items) : ∃ i ∈ items, weight j * other i ≤ weight i * slots j := by
  by_cases hle : other j ≤ slots j
  · exact ⟨j, hj, Nat.mul_le_mul_left _ hle⟩
  have hlt : slots j < other j := Nat.not_le.mp hle
  have hopen : slots j < cap j := hlt.trans_le (hcap j hj)
  rcases hfull with hsum | hclos
  · have hless : ∃ i ∈ items, other i < slots i := by
      by_contra hnone
      simp only [not_exists, not_and, Nat.not_lt] at hnone
      exact absurd (sum_lt_sum hnone ⟨j, hj, hlt⟩) (Nat.not_lt.mpr hsum)
    obtain ⟨i, hi, hless⟩ := hless
    by_cases hone : 1 < slots i
    · exact ⟨i, hi, (Nat.mul_le_mul_left _ (Nat.le_sub_one_of_lt hless)).trans
        (h.exchange i hi j hj hone hopen)⟩
    · have hzero : other i = 0 := by omega
      exact ⟨i, hi, by simp [hzero]⟩
  · exact absurd (hclos j hj) (Nat.not_le.mpr hopen)

end Apportioned

end Bytehaul.Foundation
