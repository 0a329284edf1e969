import Mathlib

/-!
# Entries of an ordered map

The entries of a `Std.TreeMap`, up to order, when one key is inserted, replaced or erased.
-/

namespace Bytehaul.Foundation

open Std List TreeMap

variable {κ : Type} {β : Type} [Ord κ] [TransOrd κ] [LawfulEqOrd κ] {map : TreeMap κ β} {key : κ}

theorem getElem?_insert_eq [DecidableEq κ] (map : TreeMap κ β) (key other : κ) (value : β) :
    (map.insert key value)[other]? = if other = key then some value else map[other]? := by
  rw [TreeMap.getElem?_insert]
  by_cases h : other = key
  · simp [h]
  · simp [h, Ne.symm h]

theorem getElem?_erase_eq [DecidableEq κ] (map : TreeMap κ β) (key other : κ) :
    (map.erase key)[other]? = if other = key then none else map[other]? := by
  rw [getElem?_erase]
  by_cases h : other = key
  · simp [h]
  · simp [h, Ne.symm h]

theorem mem_erase_of_ne [DecidableEq κ] {other : κ} (hne : other ≠ key) (h : other ∈ map) :
    other ∈ map.erase key := by
  rw [mem_iff_isSome_getElem?] at h ⊢
  rw [getElem?_erase_eq, if_neg hne]
  exact h

theorem toList_nodup (map : TreeMap κ β) : map.toList.Nodup := by
  refine map.distinct_keys_toList.imp ?_
  rintro first second hkeys rfl
  exact hkeys compare_self

theorem mem_toList_iff (map : TreeMap κ β) (key : κ) (value : β) :
    (key, value) ∈ map.toList ↔ map[key]? = some value :=
  mem_toList_iff_getElem?_eq_some

theorem toList_perm_cons_erase {value : β} (h : map[key]? = some value) :
    map.toList.Perm ((key, value) :: (map.erase key).toList) := by
  rw [perm_ext_iff_of_nodup (toList_nodup map)]
  · rintro ⟨other, found⟩
    rw [mem_cons, mem_toList_iff, mem_toList_iff, getElem?_erase]
    by_cases heq : key = other
    · subst heq
      simp [h, eq_comm]
    · simp [heq, Ne.symm heq]
  · refine nodup_cons.mpr ⟨?_, toList_nodup _⟩
    simp

theorem toList_insert_perm_cons_erase (map : TreeMap κ β) (key : κ) (value : β) :
    (map.insert key value).toList.Perm ((key, value) :: (map.erase key).toList) := by
  have hself : (map.insert key value)[key]? = some value := TreeMap.getElem?_insert_self
  apply (toList_perm_cons_erase hself).trans (List.Perm.cons _ _)
  rw [perm_ext_iff_of_nodup (toList_nodup _) (toList_nodup _)]
  rintro ⟨other, found⟩
  simp only [mem_toList_iff, TreeMap.getElem?_erase, TreeMap.getElem?_insert]
  by_cases heq : key = other <;> simp [heq]

theorem toList_erase_perm_of_none (h : map[key]? = none) :
    (map.erase key).toList.Perm map.toList := by
  rw [perm_ext_iff_of_nodup (toList_nodup _) (toList_nodup _)]
  rintro ⟨other, found⟩
  simp only [mem_toList_iff, getElem?_erase]
  by_cases heq : key = other
  · subst heq
    simp [h]
  · simp [heq]

theorem toList_insert_perm_of_none {value : β} (h : map[key]? = none) :
    (map.insert key value).toList.Perm ((key, value) :: map.toList) :=
  (toList_insert_perm_cons_erase map key value).trans ((toList_erase_perm_of_none h).cons _)

def countAt (pred : κ × β → Bool) (map : TreeMap κ β) (key : κ) : Nat :=
  match map[key]? with
  | some value => if pred (key, value) then 1 else 0
  | none => 0

variable (pred : κ × β → Bool)
include pred

theorem countP_eq_erase (map : TreeMap κ β) (key : κ) :
    map.toList.countP pred = (map.erase key).toList.countP pred + countAt pred map key := by
  unfold countAt
  cases h : map[key]? with
  | none => rw [(toList_erase_perm_of_none h).countP_eq, Nat.add_zero]
  | some value => rw [(toList_perm_cons_erase h).countP_eq, countP_cons]

theorem countP_of_agree {map' : TreeMap κ β}
    (h : ∀ other, other ≠ key → map'[other]? = map[other]?) :
    map'.toList.countP pred + countAt pred map key =
      map.toList.countP pred + countAt pred map' key := by
  have hrest : (map'.erase key).toList.Perm (map.erase key).toList := by
    rw [perm_ext_iff_of_nodup (toList_nodup _) (toList_nodup _)]
    rintro ⟨other, found⟩
    simp only [mem_toList_iff, getElem?_erase]
    by_cases heq : key = other
    · simp [heq]
    · simp [heq, h other (Ne.symm heq)]
  rw [countP_eq_erase pred map key, countP_eq_erase pred map' key, hrest.countP_eq]
  omega

theorem countP_insert [DecidableEq κ] (map : TreeMap κ β) (key : κ) (value : β) :
    (map.insert key value).toList.countP pred + countAt pred map key =
      map.toList.countP pred + if pred (key, value) then 1 else 0 := by
  have hagree : ∀ other, other ≠ key → (map.insert key value)[other]? = map[other]? :=
    fun other hne => by rw [getElem?_insert_eq, if_neg hne]
  simpa [countAt] using countP_of_agree pred hagree

def keysWhere (pred : κ × β → Bool) (map : TreeMap κ β) : List κ :=
  (map.toList.filter pred).map Prod.fst

omit [TransOrd κ] [LawfulEqOrd κ] in
theorem length_keysWhere (map : TreeMap κ β) :
    (keysWhere pred map).length = map.toList.countP pred := by
  rw [keysWhere, length_map, countP_eq_length_filter]

omit pred in
theorem mem_keysWhere {pred : κ × β → Bool} :
    key ∈ keysWhere pred map ↔ ∃ value, map[key]? = some value ∧ pred (key, value) = true := by
  simp [keysWhere]

theorem nodup_keysWhere (map : TreeMap κ β) : (keysWhere pred map).Nodup := by
  refine pairwise_map.mpr ((map.distinct_keys_toList.filter pred).imp ?_)
  intro first second hkeys heq
  exact hkeys (heq ▸ compare_self)

end Bytehaul.Foundation
