import Mathlib

/-!
# The maximal runs of a predicate

A scan from left to right collects the intervals that cannot be extended.
-/

namespace Bytehaul.Foundation

open List Nat

def closeRun (first i : Nat) : List (Nat × Nat) :=
  if first < i then [(first, i)] else []

/-- The scan at `i`, with `left` numbers to go; the predicate holds from `first` up to `i`. -/
def scanRuns (p : Nat → Bool) : Nat → Nat → Nat → List (Nat × Nat)
  | 0, first, i => closeRun first i
  | left + 1, first, i =>
    if p i then scanRuns p left first (i + 1)
    else closeRun first i ++ scanRuns p left (i + 1) (i + 1)

def runsBelow (p : Nat → Bool) (n : Nat) : List (Nat × Nat) := scanRuns p n 0 0

/-- An interval on which the predicate holds and which cannot be extended on either side. -/
structure IsRun (p : Nat → Bool) (run : Nat × Nat) : Prop where
  nonempty : run.1 < run.2
  holds : ∀ i, run.1 ≤ i → i < run.2 → p i = true
  before : ∀ i, i + 1 = run.1 → p i = false
  after : p run.2 = false

variable {p : Nat → Bool} {n first i : Nat} {run : Nat × Nat} {left : Nat}

theorem mem_closeRun : run ∈ closeRun first i ↔ first < i ∧ run = (first, i) := by
  unfold closeRun
  split
  · rename_i hlt
    simp [hlt]
  · rename_i hlt
    simp [hlt]

theorem scanRuns_of_true (left : Nat) : ∀ (k i : Nat), (∀ j, i ≤ j → j < i + k → p j = true) →
      scanRuns p (k + left) first i = scanRuns p left first (i + k)
  | 0, i, _ => by simp
  | k + 1, i, h => by
    rw [add_right_comm, scanRuns, if_pos (h i (le_refl i) (by omega)),
      scanRuns_of_true left k (i + 1) fun j hj hlt => h j (by omega) (by omega)]
    congr 1
    omega

theorem scanRuns_of_false (left : Nat) : ∀ (k i : Nat), (∀ j, i ≤ j → j < i + k → p j = false) →
      scanRuns p (k + left) i i = scanRuns p left (i + k) (i + k)
  | 0, i, _ => by simp
  | k + 1, i, h => by
    rw [add_right_comm, scanRuns, h i (le_refl i) (by omega),
      scanRuns_of_false left k (i + 1) fun j hj hlt => h j (by omega) (by omega)]
    simp [closeRun, add_comm, add_left_comm]

theorem scanRuns_close (h : left = 0 ∨ p i = false) :
    scanRuns p left first i = closeRun first i ++ scanRuns p left i i := by
  cases left with
  | zero => simp [scanRuns, closeRun]
  | succ left =>
    have hi : p i = false := h.resolve_left (succ_ne_zero left)
    simp [scanRuns, hi, closeRun]

theorem isRun_of_mem_scanRuns :
    ∀ first i : Nat, (∀ j, first ≤ j → j < i → p j = true) →
      (∀ j, j + 1 = first → p j = false) → p (i + left) = false →
      run ∈ scanRuns p left first i → IsRun p run := by
  induction left with
  | zero =>
    intro first i hopen hbef hlast hrun
    obtain ⟨hlt, rfl⟩ := mem_closeRun.mp hrun
    exact ⟨hlt, hopen, hbef, hlast⟩
  | succ left ih =>
    intro first i hopen hbef hlast hrun
    have hlast' : p (i + 1 + left) = false := by
      rw [add_right_comm]
      exact hlast
    unfold scanRuns at hrun
    split at hrun
    · rename_i hi
      refine ih first (i + 1) (fun j hj hlt => ?_) hbef hlast' hrun
      rcases Nat.lt_succ_iff_lt_or_eq.mp hlt with hlt | rfl
      · exact hopen j hj hlt
      · exact hi
    · rename_i hi
      rcases mem_append.mp hrun with hrun | hrun
      · obtain ⟨hlt, rfl⟩ := mem_closeRun.mp hrun
        exact ⟨hlt, hopen, hbef, Bool.eq_false_iff.mpr hi⟩
      · exact ih (i + 1) (i + 1) (fun j hj hlt => by omega)
          (fun j hj => add_right_cancel hj ▸ Bool.eq_false_iff.mpr hi) hlast' hrun

private theorem exists_mem_scanRuns {j : Nat} (hj : p j = true) :
    ∀ first i : Nat, first ≤ j → j < i + left →
      ∃ run ∈ scanRuns p left first i, run.1 ≤ j ∧ j < run.2 := by
  induction left with
  | zero =>
    intro first i hfst hlt
    exact ⟨(first, i), mem_closeRun.mpr ⟨by omega, rfl⟩, hfst, hlt⟩
  | succ left ih =>
    intro first i hfst hlt
    unfold scanRuns
    split
    · exact ih first (i + 1) hfst (by omega)
    · rename_i hi
      have hne : j ≠ i := by
        rintro rfl
        exact hi hj
      by_cases hopen : j < i
      · exact ⟨(first, i), mem_append_left _ (mem_closeRun.mpr ⟨by omega, rfl⟩), hfst, hopen⟩
      · obtain ⟨run, hrun, hin⟩ := ih (i + 1) (i + 1) (by omega) (by omega)
        exact ⟨run, mem_append_right _ hrun, hin⟩

private theorem IsRun.eq_of_common {other : Nat × Nat} (h : IsRun p run) (ho : IsRun p other)
    (hi : run.1 ≤ i ∧ i < run.2) (hi' : other.1 ≤ i ∧ i < other.2) : run = other := by
  have hstart {run other : Nat × Nat} (h : IsRun p run) (ho : IsRun p other)
      (hi : run.1 ≤ i ∧ i < run.2) (hi' : other.1 ≤ i ∧ i < other.2) : run.1 ≤ other.1 := by
    by_contra hlt
    have hfalse := h.before (run.1 - 1) (by omega)
    rw [ho.holds (run.1 - 1) (by omega) (by omega)] at hfalse
    cases hfalse
  have hstop {run other : Nat × Nat} (h : IsRun p run) (ho : IsRun p other)
      (hi : run.1 ≤ i ∧ i < run.2) (hi' : other.1 ≤ i ∧ i < other.2) : run.2 ≤ other.2 := by
    by_contra hlt
    have hfalse := ho.after
    rw [h.holds other.2 (by omega) (by omega)] at hfalse
    cases hfalse
  exact Prod.ext (le_antisymm (hstart h ho hi hi') (hstart ho h hi' hi))
    (le_antisymm (hstop h ho hi hi') (hstop ho h hi' hi))

theorem exists_mem_runsBelow (hi : p i = true) (hlt : i < n) :
    ∃ run ∈ runsBelow p n, run.1 ≤ i ∧ i < run.2 :=
  exists_mem_scanRuns hi 0 0 (zero_le i) (by omega)

theorem mem_runsBelow_iff (hlast : ∀ j, n ≤ j → p j = false) :
    run ∈ runsBelow p n ↔ IsRun p run := by
  have hmax {run : Nat × Nat} (hrun : run ∈ runsBelow p n) : IsRun p run :=
    isRun_of_mem_scanRuns 0 0 (fun j _ hlt => by omega) (fun j hj => by omega)
      (hlast _ (by omega)) hrun
  refine ⟨hmax, fun h => ?_⟩
  have hfst := h.holds run.1 (le_refl _) h.nonempty
  have hlt : run.1 < n := by
    by_contra hle
    rw [hlast run.1 (by omega)] at hfst
    cases hfst
  obtain ⟨found, hf, hin⟩ := exists_mem_runsBelow hfst hlt
  exact h.eq_of_common (hmax hf) ⟨le_refl _, h.nonempty⟩ hin ▸ hf

section Search

variable {bits : List Bool} {q : Bool → Bool} {start : Nat}

theorem findIdx?_drop_some {offset : Nat} (h : (bits.drop start).findIdx? q = some offset) :
    start + offset < bits.length ∧ q (bits.getD (start + offset) false) = true ∧
      ∀ i, start ≤ i → i < start + offset → q (bits.getD i false) = false := by
  obtain ⟨hlt, hf, hbef⟩ := findIdx?_eq_some_iff_getElem.mp h
  rw [length_drop] at hlt
  rw [getElem_drop] at hf
  refine ⟨by omega, by rwa [getD_eq_getElem _ _ (by omega)], fun i hi hlt' => ?_⟩
  have hbit := hbef (i - start) (by omega)
  rw [getElem_drop, Bool.not_eq_true] at hbit
  rw [getD_eq_getElem _ _ (by omega)]
  simpa [Nat.add_sub_cancel' hi] using hbit

theorem findIdx?_drop_none (h : (bits.drop start).findIdx? q = none) :
    ∀ i, start ≤ i → i < bits.length → q (bits.getD i false) = false := by
  intro i hi hlt
  have hmem : bits[i] ∈ bits.drop start :=
    mem_drop_iff_getElem.mpr ⟨i - start, by omega, by congr 1; omega⟩
  rw [getD_eq_getElem _ _ hlt]
  exact findIdx?_eq_none_iff.mp h _ hmem

end Search

end Bytehaul.Foundation
