import Bytehaul.Foundation.Counting

/-!
# A budget with reservations

A share is set aside with a bound on its cost and settled later with the cost it had. An
exclusive share keeps others out while it lasts.
-/

namespace Bytehaul.Foundation

open List Function

structure Budget (ι ρ : Type) where
  reserved : Nat
  spent : Nat
  exclusive : Bool
  held : ι → List ρ
  alone : ι → Bool

namespace Budget

section Definitions

variable {ι ρ : Type} (bound cost : ρ → Nat) (limit : Nat)

/-- One transaction, with the shares it settles. -/
inductive Move [DecidableEq ι] (budget : Budget ι ρ) : List ρ → Budget ι ρ → Prop
  | idle : Move budget [] budget
  | observe (i : ι) (held : List ρ) (hbound : held.map bound = (budget.held i).map bound) :
      Move budget [] { budget with held := update budget.held i held }
  | grant (i : ι) (share : ρ) (exclusive : Bool) (hfree : budget.held i = [])
      (halone : budget.alone i = false) (hnone : budget.exclusive = false)
      (hroom : bound share ≤ limit - (budget.reserved + budget.spent)) :
      Move budget [] { budget with
        reserved := budget.reserved + bound share
        exclusive := exclusive
        held := update budget.held i [share]
        alone := update budget.alone i exclusive }
  | relax (i : ι) (halone : budget.alone i = true) :
      Move budget [] { budget with
        exclusive := false
        alone := update budget.alone i false }
  | settle (i : ι) (shares : List ρ) (hbound : shares.map bound = (budget.held i).map bound)
      (hcost : ∀ share ∈ shares, cost share ≤ bound share) :
      Move budget shares { budget with
        reserved := budget.reserved - (shares.map bound).sum
        spent := budget.spent + (shares.map cost).sum
        exclusive := budget.exclusive && !budget.alone i
        held := update budget.held i []
        alone := update budget.alone i false }

def owed (budget : Budget ι ρ) (i : ι) : Nat := ((budget.held i).map bound).sum

structure Balanced [Fintype ι] (budget : Budget ι ρ) : Prop where
  reserved : budget.reserved = ∑ i, budget.owed bound i
  within : budget.reserved + budget.spent ≤ limit
  exclusive : ∑ i, (budget.alone i).toNat = budget.exclusive.toNat

end Definitions

variable {ι ρ : Type} {bound cost : ρ → Nat} {limit : Nat} {budget next : Budget ι ρ}

private theorem sum_cost_le {shares : List ρ} (h : ∀ share ∈ shares, cost share ≤ bound share) :
    (shares.map cost).sum ≤ (shares.map bound).sum := by
  induction shares with
  | nil => exact Nat.le_refl _
  | cons share shares ih =>
    simp only [map_cons, sum_cons]
    have hshare := h share mem_cons_self
    have hrest := ih fun other ho => h other (mem_cons_of_mem _ ho)
    omega

section Move

variable [DecidableEq ι] {shares : List ρ}

variable (hmove : Move bound cost limit budget shares next)
include hmove

theorem Move.spent : next.spent = budget.spent + (shares.map cost).sum := by
  cases hmove <;> rfl

theorem Move.reserved : next.reserved = budget.reserved - (shares.map bound).sum ∨
      shares = [] ∧ budget.reserved ≤ next.reserved := by
  cases hmove with
  | settle i _ hbd hcost => exact .inl rfl
  | grant i share exclusive hfree halone hnone hroom => exact .inr ⟨rfl, Nat.le_add_right _ _⟩
  | _ => exact .inl rfl

theorem Move.cost_le : ∀ share ∈ shares, cost share ≤ bound share := by
  cases hmove with
  | settle i _ hbd hcost => exact hcost
  | _ => exact fun _ h => absurd h not_mem_nil

end Move

section Balanced

variable [Fintype ι]

theorem owed_le (h : budget.Balanced bound limit) (i : ι) :
    budget.owed bound i ≤ budget.reserved := by
  rw [h.reserved]
  exact Finset.single_le_sum (fun _ _ => Nat.zero_le _) (Finset.mem_univ i)

theorem Balanced.alone_unique (h : budget.Balanced bound limit) {i j : ι}
    (hi : budget.alone i = true) (hj : budget.alone j = true) : i = j := by
  classical
  by_contra hne
  have hpair : (budget.alone i).toNat + (budget.alone j).toNat ≤ ∑ k, (budget.alone k).toNat := by
    rw [← Finset.sum_pair (f := fun k => (budget.alone k).toNat) hne]
    exact Finset.sum_le_sum_of_subset (Finset.subset_univ _)
  have hone := Bool.toNat_le budget.exclusive
  rw [h.exclusive, hi, hj] at hpair
  simp only [Bool.toNat_true] at hpair
  omega

theorem Balanced.exclusive_of_alone (h : budget.Balanced bound limit) {i : ι}
    (hi : budget.alone i = true) : budget.exclusive = true := by
  have hle : (budget.alone i).toNat ≤ ∑ k, (budget.alone k).toNat :=
    Finset.single_le_sum (f := fun k => (budget.alone k).toNat) (fun _ _ => Nat.zero_le _)
      (Finset.mem_univ i)
  rw [h.exclusive, hi] at hle
  cases hexcl : budget.exclusive with
  | true => rfl
  | false => simp [hexcl] at hle

variable [DecidableEq ι]

theorem sum_owed_update (bound : ρ → Nat) (budget : Budget ι ρ) (i : ι) (held : List ρ) :
    ∑ j, ((update budget.held i held j).map bound).sum + budget.owed bound i =
      ∑ j, budget.owed bound j + (held.map bound).sum := by
  have hsum := sum_exchange (s := Finset.univ) (Finset.mem_univ i)
    (f := budget.owed bound) (g := fun j => ((update budget.held i held j).map bound).sum)
    fun j hj => by rw [update_of_ne hj, owed]
  simpa using hsum

theorem sum_alone_update (budget : Budget ι ρ) (i : ι) (alone : Bool) :
    ∑ j, (update budget.alone i alone j).toNat + (budget.alone i).toNat =
      ∑ j, (budget.alone j).toNat + alone.toNat := by
  have hsum := sum_exchange (s := Finset.univ) (Finset.mem_univ i)
    (g := fun j => (update budget.alone i alone j).toNat)
    fun j hj => by rw [update_of_ne hj]
  simpa using hsum

theorem Move.settled_le {shares : List ρ} (hmove : Move bound cost limit budget shares next)
    (h : budget.Balanced bound limit) : (shares.map bound).sum ≤ budget.reserved := by
  cases hmove with
  | settle i _ hbd hcost =>
    rw [hbd]
    exact owed_le h i
  | _ => exact Nat.zero_le _

theorem Move.balanced {shares : List ρ} (hmove : Move bound cost limit budget shares next)
    (h : budget.Balanced bound limit) : next.Balanced bound limit := by
  have hresd := h.reserved
  have hwith := h.within
  have hexcl := h.exclusive
  cases hmove with
  | idle => exact h
  | observe i held hbd =>
    refine ⟨?_, hwith, hexcl⟩
    have hsum := sum_owed_update bound budget i held
    rw [hbd] at hsum
    simp only [owed] at *
    omega
  | grant i share exclusive hfree halone hnone hroom =>
    have hsum := sum_owed_update bound budget i [share]
    have hc := sum_alone_update budget i exclusive
    refine ⟨?_, ?_, ?_⟩
    · simp only [owed, hfree, map_nil, sum_nil, map_cons, sum_cons] at *
      omega
    · dsimp only
      omega
    · rw [halone] at hc
      rw [hnone] at hexcl
      dsimp only
      omega
  | relax i halone =>
    have hc := sum_alone_update budget i false
    refine ⟨hresd, hwith, ?_⟩
    rw [halone] at hc
    rw [h.exclusive_of_alone halone] at hexcl
    simp only [Bool.toNat_false, Bool.toNat_true] at *
    omega
  | settle i _ hbd hcost =>
    have hsum := sum_owed_update bound budget i []
    have hc := sum_alone_update budget i false
    have howed : (shares.map bound).sum = budget.owed bound i := by rw [hbd, owed]
    have hle := owed_le h i
    have hpaid := sum_cost_le hcost
    refine ⟨?_, ?_, ?_⟩
    · simp only [owed, map_nil, sum_nil] at *
      omega
    · dsimp only
      omega
    · cases halone : budget.alone i with
      | false =>
        rw [halone] at hc
        simpa [hexcl] using hc
      | true =>
        rw [halone] at hc
        rw [h.exclusive_of_alone halone] at hexcl
        simp only [Bool.toNat_false, Bool.toNat_true, Bool.not_true, Bool.and_false] at *
        omega

end Balanced

end Budget

end Bytehaul.Foundation
