import Mathlib

/-!
# Records found by a key

A lookup finds the first record with a key, whatever the order as long as the keys are
distinct.
-/

namespace Bytehaul.Foundation.Keyed

open List

variable {α κ : Type} [DecidableEq κ] (key : α → κ)

def lookup (wanted : κ) (table : List α) : Option α :=
  table.find? fun record => decide (key record = wanted)

def alter (wanted : κ) (change : α → α) : List α → List α
  | [] => []
  | record :: table =>
    if key record = wanted then change record :: table
    else record :: alter wanted change table

abbrev Distinct (table : List α) : Prop := (table.map key).Nodup

variable {key} {wanted other : κ} {record : α} {table table' : List α}

theorem key_of_lookup (h : lookup key wanted table = some record) : key record = wanted := by
  simpa using find?_some h

theorem mem_of_lookup (h : lookup key wanted table = some record) : record ∈ table :=
  mem_of_find?_eq_some h

theorem lookup_cons : lookup key wanted (record :: table) =
    if key record = wanted then some record else lookup key wanted table := by
  by_cases h : key record = wanted <;> simp [lookup, h]

theorem lookup_eq_none : lookup key wanted table = none ↔ wanted ∉ table.map key := by
  simp [lookup, find?_eq_none]

variable (h : Distinct key table)
include h

theorem Distinct.lookup_eq_some :
    lookup key wanted table = some record ↔ record ∈ table ∧ key record = wanted := by
  refine ⟨fun hlook => ⟨mem_of_lookup hlook, key_of_lookup hlook⟩, ?_⟩
  rintro ⟨hmem, rfl⟩
  cases hlook : lookup key (key record) table with
  | none => exact absurd (mem_map_of_mem hmem) (lookup_eq_none.mp hlook)
  | some found =>
    have hsame := inj_on_of_nodup_map h (mem_of_lookup hlook) hmem (key_of_lookup hlook)
    rw [hsame]

theorem Distinct.lookup_perm (hperm : table.Perm table') :
    lookup key wanted table' = lookup key wanted table := by
  have h' : Distinct key table' := (hperm.map key).nodup_iff.mp h
  apply Option.ext
  intro record
  rw [h.lookup_eq_some, h'.lookup_eq_some, hperm.mem_iff]

omit [DecidableEq κ] in
theorem Distinct.filter (keep : α → Bool) : Distinct key (table.filter keep) :=
  h.sublist (filter_sublist.map key)

theorem Distinct.lookup_filter (keep : α → Bool) :
    lookup key wanted (table.filter keep) = (lookup key wanted table).filter keep := by
  apply Option.ext
  intro record
  rw [(h.filter keep).lookup_eq_some, mem_filter, Option.filter_eq_some_iff, h.lookup_eq_some]
  tauto

omit h

theorem lookup_append_singleton : lookup key wanted (table ++ [record]) =
    (lookup key wanted table).or (if key record = wanted then some record else none) := by
  unfold lookup
  by_cases h : key record = wanted <;> simp [h]

variable {change : α → α}

theorem map_alter {β : Type} {view : α → β} (hview : ∀ record, view (change record) = view record) :
    (alter key wanted change table).map view = table.map view := by
  induction table with
  | nil => rfl
  | cons record table ih =>
    unfold alter
    split
    · rw [map_cons, map_cons, hview]
    · rw [map_cons, map_cons, ih]

theorem lookup_alter (hkey : ∀ record, key (change record) = key record) :
    lookup key other (alter key wanted change table) =
      if other = wanted then (lookup key other table).map change
      else lookup key other table := by
  induction table with
  | nil => simp [alter, lookup]
  | cons record table ih =>
    unfold alter
    by_cases hrec : key record = wanted
    · rw [if_pos hrec, lookup_cons, lookup_cons, hkey, hrec]
      by_cases ho : other = wanted
      · simp [ho]
      · simp [ho, Ne.symm ho]
    · rw [if_neg hrec, lookup_cons, lookup_cons, ih]
      by_cases hsame : key record = other
      · have hne : other ≠ wanted := hsame ▸ hrec
        simp [hsame, hne]
      · simp [hsame]

theorem lookup_map (hkey : ∀ record, key (change record) = key record) :
    lookup key wanted (table.map change) = (lookup key wanted table).map change := by
  induction table with
  | nil => rfl
  | cons record table ih =>
    rw [map_cons, lookup_cons, lookup_cons, hkey, ih]
    split <;> rfl

/-- The first record to pass a test has the first key of which this can be said. -/
theorem Distinct.find?_of_ordered {order : List κ} {test : α → Bool} (h : Distinct key table)
    (hordered : (table.map key).Pairwise fun first second =>
      first ∈ order → second ∈ order → order.idxOf first ≤ order.idxOf second)
    (hlist : key record ∈ order) (hf : table.find? test = some record) :
    order.find? (fun wanted => (lookup key wanted table).any test) = some (key record) := by
  have hrec : lookup key (key record) table = some record :=
    h.lookup_eq_some.mpr ⟨mem_of_find?_eq_some hf, rfl⟩
  obtain ⟨htest, before, after, rfl, hbef⟩ := find?_eq_some_iff_append.mp hf
  have hspl : order = order.take (order.idxOf (key record)) ++
      key record :: order.drop (order.idxOf (key record) + 1) := by
    have hlt := idxOf_lt_length_of_mem hlist
    conv_lhs => rw [← take_append_drop (order.idxOf (key record)) order,
      drop_eq_getElem_cons hlt, getElem_idxOf hlt]
  refine find?_eq_some_iff_append.mpr ⟨by rwa [hrec], _, _, hspl, fun other ho => ?_⟩
  have hin := mem_of_mem_take ho
  have hlt := (mem_take_iff_idxOf_lt hin).mp ho
  rw [Bool.not_eq_true', ← Bool.not_eq_true, Option.any_eq_true]
  rintro ⟨found, hlook, hpasses⟩
  obtain rfl := key_of_lookup hlook
  rcases mem_append.mp (mem_of_lookup hlook) with hmem | hmem
  · have hfails := hbef found hmem
    rw [hpasses] at hfails
    cases hfails
  · rcases mem_cons.mp hmem with rfl | hmem
    · exact Nat.lt_irrefl _ hlt
    · rw [map_append] at hordered
      have haft := (pairwise_cons.mp (pairwise_append.mp hordered).2.1).1
      exact absurd hlt (Nat.not_lt.mpr (haft _ (mem_map_of_mem hmem) hlist hin))

end Bytehaul.Foundation.Keyed
