import Mathlib

/-!
# Checked machine arithmetic

`none` is a computation on `u64` that panicked.
-/

namespace Bytehaul.Foundation

open List

def u64Limit : Nat := 2 ^ 64

abbrev Checked (α : Type) := Option α

namespace Checked

def fit (n : Nat) : Checked Nat := if n < u64Limit then some n else none

def add (a b : Nat) : Checked Nat := fit (a + b)

def mul (a b : Nat) : Checked Nat := fit (a * b)

def sub (a b : Nat) : Checked Nat := if b ≤ a then some (a - b) else none

def saturatingAdd (a b : Nat) : Nat := min (a + b) (u64Limit - 1)

def clamp (n low high : Nat) : Checked Nat :=
  if low ≤ high then some (min (max n low) high) else none

def sum (ns : List Nat) : Checked Nat := ns.foldlM add 0

def mapList {α β : Type} (f : α → Checked β) : List α → Checked (List β)
  | [] => some []
  | x :: xs => do
      let y ← f x
      let ys ← mapList f xs
      some (y :: ys)

def filterList {α : Type} (p : α → Checked Bool) : List α → Checked (List α)
  | [] => some []
  | x :: xs => do
      let keep ← p x
      let ys ← filterList p xs
      some (if keep then x :: ys else ys)

variable {a b c : Nat}

theorem fit_eq_some : fit a = some c ↔ a < u64Limit ∧ a = c := by
  simp [fit]

theorem add_eq_some : add a b = some c ↔ a + b < u64Limit ∧ a + b = c := fit_eq_some

theorem mul_eq_some : mul a b = some c ↔ a * b < u64Limit ∧ a * b = c := fit_eq_some

theorem sub_eq_some : sub a b = some c ↔ b ≤ a ∧ a - b = c := by
  simp [sub]

theorem sum_of_lt {ns : List Nat} (h : ns.sum < u64Limit) : sum ns = some ns.sum := by
  suffices hfold : ∀ (ns : List Nat) (acc : Nat), acc + ns.sum < u64Limit →
      ns.foldlM add acc = some (acc + ns.sum) by
    simpa [sum] using hfold ns 0 (by omega)
  intro ns
  induction ns with
  | nil => simp
  | cons n ns ih =>
    intro acc hacc
    rw [sum_cons] at hacc
    rw [foldlM_cons, add_eq_some.mpr ⟨by omega, rfl⟩, Option.bind_eq_bind, Option.bind_some,
      ih (acc + n) (by omega), sum_cons, Nat.add_assoc]

theorem mapList_of_forall {α β : Type} {f : α → Checked β} {g : α → β} {xs : List α}
    (h : ∀ x ∈ xs, f x = some (g x)) : mapList f xs = some (xs.map g) := by
  induction xs with
  | nil => rfl
  | cons x xs ih =>
    rw [forall_mem_cons] at h
    simp [mapList, h.1, ih h.2]

theorem filterList_of_forall {α : Type} {p : α → Checked Bool} {q : α → Bool} {xs : List α}
    (h : ∀ x ∈ xs, p x = some (q x)) : filterList p xs = some (xs.filter q) := by
  induction xs with
  | nil => rfl
  | cons x xs ih =>
    rw [forall_mem_cons] at h
    simp [filterList, h.1, ih h.2, filter_cons]

end Checked

end Bytehaul.Foundation
