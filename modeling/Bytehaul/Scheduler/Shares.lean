import Bytehaul.Foundation.Apportion
import Bytehaul.Scheduler.Assignment

/-!
# Slot planning

`plan_dynamic_share` hands virtual slots to the candidates and takes one with the largest
share.
-/

namespace Bytehaul.Scheduler

open Foundation Storage List Option Function SchedulerState Nat Prod

section MaxBy

variable {α : Type} {cmp : α → α → Ordering} {p : α → Prop}
  (htotal : ∀ x y, cmp x y = .gt → (cmp y x).isLE = true)
  (htrans : ∀ x y z, p x → p y → p z → (cmp x y).isLE = true → (cmp y z).isLE = true →
    (cmp x z).isLE = true)

include htotal in
private theorem isLE_self {x : α} : (cmp x x).isLE = true := by
  cases hcmp : cmp x x with
  | gt => exact hcmp ▸ htotal x x hcmp
  | lt | eq => rfl

include htotal htrans in
private theorem foldl_max {xs : List α} : ∀ best, p best → (∀ x ∈ xs, p x) →
      let last := xs.foldl (fun best y => if cmp best y = .gt then best else y) best
      p last ∧ (cmp best last).isLE = true ∧ ∀ x ∈ xs, (cmp x last).isLE = true := by
  induction xs with
  | nil => exact fun best hbest _ => ⟨hbest, isLE_self htotal, by simp⟩
  | cons y ys ih =>
    intro best hbest hp
    obtain ⟨hy, hys⟩ := forall_mem_cons.mp hp
    rw [foldl_cons]
    split
    · rename_i hgt
      obtain ⟨hlast, hle, hrest⟩ := ih best hbest hys
      exact ⟨hlast, hle, forall_mem_cons.mpr
        ⟨htrans y best _ hy hbest hlast (htotal best y hgt) hle, hrest⟩⟩
    · rename_i hgt
      obtain ⟨hlast, hle, hrest⟩ := ih y hy hys
      have hbesty : (cmp best y).isLE = true := by
        cases hcmp : cmp best y with
        | gt => exact absurd hcmp hgt
        | lt | eq => rfl
      exact ⟨hlast, htrans best y _ hbest hy hlast hbesty hle, forall_mem_cons.mpr ⟨hle, hrest⟩⟩

include htotal htrans in
private theorem maxBy_max {xs : List α} (hp : ∀ x ∈ xs, p x) {best : α}
    (hbest : maxBy cmp xs = some best) : ∀ x ∈ xs, (cmp x best).isLE = true := by
  cases xs with
  | nil => simp
  | cons first rest =>
    obtain ⟨hfst, hrest⟩ := forall_mem_cons.mp hp
    obtain ⟨_, hle, hmax⟩ := foldl_max htotal htrans first hfst hrest
    simp only [maxBy, some.injEq] at hbest
    exact hbest ▸ forall_mem_cons.mpr ⟨hle, hmax⟩

end MaxBy

namespace SchedulerState

def share (entry : AllocationCandidate × Nat) : ℚ := (entry.1.len : ℚ) / entry.2

def largestShare (shares : Shares) : ℚ := (shares.map share).foldr max 0

theorem share_le_iff {first second : AllocationCandidate × Nat} (hfst : 0 < first.2)
    (hsnd : 0 < second.2) :
    share first ≤ share second ↔ first.1.len * second.2 ≤ second.1.len * first.2 := by
  rw [share, share, div_le_div_iff₀ (by exact_mod_cast hfst) (by exact_mod_cast hsnd)]
  exact_mod_cast Iff.rfl

variable {shares : Shares} {entry : AllocationCandidate × Nat}

theorem share_le_largestShare (he : entry ∈ shares) :
    share entry ≤ largestShare shares := by
  induction shares with
  | nil => simp at he
  | cons first rest ih =>
    rcases mem_cons.mp he with rfl | he
    · exact le_max_left _ _
    · exact (ih he).trans (le_max_right _ _)

private theorem largestShare_nonneg : 0 ≤ largestShare shares := by
  induction shares with
  | nil => exact le_refl 0
  | cons first rest ih => exact ih.trans (le_max_right _ _)

theorem largestShare_le {bound : ℚ} (hbd : 0 ≤ bound)
    (h : ∀ entry ∈ shares, share entry ≤ bound) : largestShare shares ≤ bound := by
  induction shares with
  | nil => exact hbd
  | cons first rest ih =>
    obtain ⟨hfst, hrest⟩ := forall_mem_cons.mp h
    exact max_le hfst (ih hrest)

private theorem share_nonneg : 0 ≤ share entry :=
  div_nonneg (cast_nonneg _) (cast_nonneg _)

theorem compareShares_isLE {left right : Nat × AllocationCandidate × Nat}
    (hleft : 0 < left.2.2) (hright : 0 < right.2.2) :
    (compareShares left right).isLE = true ↔ share left.2 < share right.2 ∨
      share left.2 = share right.2 ∧ right.2.1.start ≤ left.2.1.start := by
  have hle := share_le_iff hleft hright
  have hge := share_le_iff hright hleft
  rw [compareShares, compareDynamicShares]
  rcases Nat.lt_trichotomy (left.2.1.len * right.2.2) (right.2.1.len * left.2.2) with
    hlt | heq | hgt
  · have hshare : share left.2 < share right.2 := not_le.mp fun h => Nat.not_le.mpr hlt (hge.mp h)
    simp [Nat.compare_eq_lt.mpr hlt, hshare]
  · have hshare : share left.2 = share right.2 := le_antisymm (hle.mpr heq.le) (hge.mpr heq.ge)
    simp [heq, hshare, Nat.isLE_compare]
  · have hshare : share right.2 < share left.2 := not_le.mp fun h => Nat.not_le.mpr hgt (hle.mp h)
    simp [Nat.compare_eq_gt.mpr hgt, hshare.le.not_gt, hshare.ne']

private theorem compareShares_total (left right : Nat × AllocationCandidate × Nat)
    (hgt : compareShares left right = .gt) : (compareShares right left).isLE = true := by
  have hswap : compareShares right left = (compareShares left right).swap := by
    simp only [compareShares, compareDynamicShares, Ordering.swap_then, Nat.compare_swap]
  rw [hswap, hgt]
  rfl

private theorem compareShares_trans (first second third : Nat × AllocationCandidate × Nat)
    (hfst : 0 < first.2.2) (hsnd : 0 < second.2.2) (hthird : 0 < third.2.2)
    (h : (compareShares first second).isLE = true) (h' : (compareShares second third).isLE = true) :
    (compareShares first third).isLE = true := by
  rw [compareShares_isLE hfst hsnd] at h
  rw [compareShares_isLE hsnd hthird] at h'
  rw [compareShares_isLE hfst hthird]
  rcases h with hlt | ⟨heq, hstart⟩
  · rcases h' with hlt' | ⟨heq', _⟩
    · exact .inl (hlt.trans hlt')
    · exact .inl (heq' ▸ hlt)
  · rcases h' with hlt' | ⟨heq', hstart'⟩
    · exact .inl (heq ▸ hlt')
    · exact .inr ⟨heq.trans heq', hstart'.trans hstart⟩

theorem mem_indexedShares {entry : Nat × AllocationCandidate × Nat} :
    entry ∈ indexedShares shares ↔ shares[entry.1]? = some entry.2 := by
  constructor
  · exact fun h => indexedShares_spec h
  · intro h
    exact mem_map.mpr ⟨(entry.2, entry.1), mem_zipIdx_iff_getElem?.mpr h, rfl⟩

theorem exists_indexed (he : entry ∈ shares) :
    ∃ i, (i, entry) ∈ indexedShares shares := by
  obtain ⟨i, hget⟩ := mem_iff_getElem?.mp he
  exact ⟨i, mem_indexedShares.mpr hget⟩

theorem mem_of_indexed {entry : Nat × AllocationCandidate × Nat}
    (he : entry ∈ indexedShares shares) : entry.2 ∈ shares :=
  mem_of_getElem? (mem_indexedShares.mp he)

theorem maxBy_compareShares {entries : List (Nat × AllocationCandidate × Nat)}
    (hpos : ∀ entry ∈ entries, 0 < entry.2.2) {best : Nat × AllocationCandidate × Nat}
    (hbest : maxBy compareShares entries = some best) :
    ∀ entry ∈ entries, share entry.2 < share best.2 ∨
      share entry.2 = share best.2 ∧ best.2.1.start ≤ entry.2.1.start :=
  fun entry he => (compareShares_isLE (hpos entry he) (hpos best (maxBy_mem hbest))).mp
    (maxBy_max compareShares_total compareShares_trans hpos hbest entry he)

def slotsAt (shares : Shares) (i : Nat) : Nat := (shares[i]?.map snd).getD 0

def lenAt (shares : Shares) (i : Nat) : Nat :=
  (shares[i]?.map fun entry => entry.1.len).getD 0

def capAt (sched : SchedulerState) (minSplitSize : Nat) (shares : Shares) (i : Nat) : Nat :=
  (shares[i]?.map fun entry => sched.maxDynamicSlots entry.1 minSplitSize).getD 0

/-- The loop invariant of the `while extra_slots != 0` loop. -/
def Apportions (sched : SchedulerState) (minSplitSize : Nat) (shares : Shares) : Prop :=
  Apportioned (Finset.range shares.length) (lenAt shares) (sched.capAt minSplitSize shares)
    (slotsAt shares)

section Loop

variable {sched : SchedulerState} {minSplitSize : Nat} {shares : Shares}
  {cand : AllocationCandidate}

theorem slotsAt_of_getElem? {i : Nat}
    (h : shares[i]? = some entry) : slotsAt shares i = entry.2 := by
  simp [slotsAt, h]

theorem lenAt_of_getElem? {i : Nat}
    (h : shares[i]? = some entry) : lenAt shares i = entry.1.len := by
  simp [lenAt, h]

theorem capAt_of_getElem? {i : Nat}
    (h : shares[i]? = some entry) :
    sched.capAt minSplitSize shares i = sched.maxDynamicSlots entry.1 minSplitSize := by
  simp [capAt, h]

theorem sum_slotsAt :
    ∑ i ∈ Finset.range shares.length, slotsAt shares i = (shares.map snd).sum := by
  induction shares with
  | nil => rfl
  | cons first rest ih =>
    rw [length_cons, Finset.sum_range_succ', map_cons, sum_cons, ← ih, add_comm]
    rfl

private theorem one_le_maxDynamicSlots (sched : SchedulerState) :
    1 ≤ sched.maxDynamicSlots cand minSplitSize := by
  unfold maxDynamicSlots
  extract_lets
  split
  · exact le_refl 1
  · exact le_max_right _ _

private theorem apportions_ones (sched : SchedulerState) (minSplitSize : Nat)
    (hones : ∀ entry ∈ shares, entry.2 = 1) : sched.Apportions minSplitSize shares := by
  refine Apportioned.ones ?_ ?_
  · intro i hi
    have hget := getElem?_eq_getElem (Finset.mem_range.mp hi)
    rw [capAt_of_getElem? hget]
    exact sched.one_le_maxDynamicSlots
  · intro i hi
    have hget := getElem?_eq_getElem (Finset.mem_range.mp hi)
    rw [slotsAt_of_getElem? hget]
    exact hones _ (getElem_mem _)

theorem Apportions.slots (h : sched.Apportions minSplitSize shares)
    (he : entry ∈ shares) :
    1 ≤ entry.2 ∧ entry.2 ≤ sched.maxDynamicSlots entry.1 minSplitSize := by
  obtain ⟨i, hi, hget⟩ := mem_iff_getElem.mp he
  have hget := getElem?_eq_some_iff.mpr ⟨hi, hget⟩
  have hpos := h.pos i (Finset.mem_range.mpr hi)
  have hle := h.le_cap i (Finset.mem_range.mpr hi)
  rw [slotsAt_of_getElem? hget] at hpos hle
  rw [capAt_of_getElem? hget] at hle
  exact ⟨hpos, hle⟩

theorem Apportions.grow (h : sched.Apportions minSplitSize shares) {index slots : Nat}
    (hbest : maxBy compareShares ((indexedShares shares).filter fun entry =>
      decide (entry.2.2 < sched.maxDynamicSlots entry.2.1 minSplitSize)) =
        some (index, cand, slots)) :
    sched.Apportions minSplitSize (shares.set index (cand, slots + 1)) ∧
      ((shares.set index (cand, slots + 1)).map snd).sum = (shares.map snd).sum + 1 := by
  have hpos : ∀ entry ∈ shares, 0 < entry.2 := fun entry he => (h.slots he).1
  have hlarge := maxBy_compareShares
    (fun entry he => hpos entry.2 (mem_of_indexed (mem_of_mem_filter he))) hbest
  obtain ⟨hmem, hopen⟩ := mem_filter.mp (maxBy_mem hbest)
  have hget : shares[index]? = some (cand, slots) := mem_indexedShares.mp hmem
  obtain ⟨hindex, -⟩ := List.getElem?_eq_some_iff.mp hget
  have hset : ∀ i, (shares.set index (cand, slots + 1))[i]? =
      if i = index then some (cand, slots + 1) else shares[i]? := by
    intro i
    by_cases hi : i = index
    · subst hi
      simp [hindex]
    · simp [hi, Ne.symm hi]
  have hslots : slotsAt (shares.set index (cand, slots + 1)) =
      update (slotsAt shares) index (slotsAt shares index + 1) := by
    funext i
    rw [slotsAt, hset, update_apply, slotsAt_of_getElem? hget]
    split <;> rfl
  have hlen : lenAt (shares.set index (cand, slots + 1)) = lenAt shares := by
    funext i
    rw [lenAt, lenAt, hset]
    split
    · rename_i hi
      rw [hi, hget]
      rfl
    · rfl
  have hcap : sched.capAt minSplitSize (shares.set index (cand, slots + 1)) =
      sched.capAt minSplitSize shares := by
    funext i
    rw [capAt, capAt, hset]
    split
    · rename_i hi
      rw [hi, hget]
      rfl
    · rfl
  have hitems : Finset.range (shares.set index (cand, slots + 1)).length =
      Finset.range shares.length := by rw [length_set]
  constructor
  · rw [Apportions, hslots, hlen, hcap, hitems]
    refine Apportioned.grow h ?_ ?_
    · rw [slotsAt_of_getElem? hget, capAt_of_getElem? hget]
      exact of_decide_eq_true hopen
    · intro j hj hjopen
      obtain ⟨entry, hgetj⟩ : ∃ entry, shares[j]? = some entry :=
        ⟨_, getElem?_eq_getElem (Finset.mem_range.mp hj)⟩
      rw [slotsAt_of_getElem? hgetj, capAt_of_getElem? hgetj] at hjopen
      rw [slotsAt_of_getElem? hgetj, slotsAt_of_getElem? hget, lenAt_of_getElem? hgetj,
        lenAt_of_getElem? hget]
      refine (share_le_iff (hpos _ (mem_of_getElem? hgetj)) (hpos _ (mem_of_getElem? hget))).mp ?_
      have hmemj : (j, entry) ∈ (indexedShares shares).filter fun entry =>
          decide (entry.2.2 < sched.maxDynamicSlots entry.2.1 minSplitSize) :=
        mem_filter.mpr ⟨mem_indexedShares.mpr hgetj, decide_eq_true hjopen⟩
      rcases hlarge _ hmemj with hlt | ⟨heq, -⟩
      · exact hlt.le
      · exact heq.le
  · rw [← sum_slotsAt, ← sum_slotsAt, hslots, hitems, Finset.sum_update_of_mem
      (Finset.mem_range.mpr hindex), ← Finset.add_sum_erase _ _ (Finset.mem_range.mpr hindex),
      Finset.sdiff_singleton_eq_erase]
    omega

theorem Apportions.distributeSlots (extraSlots : Nat) :
    ∀ shares : Shares, sched.Apportions minSplitSize shares →
      let planned := sched.distributeSlots minSplitSize extraSlots shares
      sched.Apportions minSplitSize planned ∧
        (planned.map snd).sum ≤ (shares.map snd).sum + extraSlots ∧
        ((planned.map snd).sum = (shares.map snd).sum + extraSlots ∨
          ∀ entry ∈ planned, sched.maxDynamicSlots entry.1 minSplitSize ≤ entry.2) := by
  induction extraSlots with
  | zero => exact fun shares h => ⟨h, le_refl _, .inl rfl⟩
  | succ extraSlots ih =>
    intro shares h
    unfold SchedulerState.distributeSlots
    dsimp only
    split
    · rename_i hnone
      refine ⟨h, le_add_right _ _, .inr fun entry he => ?_⟩
      obtain ⟨i, hi⟩ := exists_indexed he
      by_contra hlt
      exact maxBy_isSome (List.ne_nil_of_mem (List.mem_filter.mpr
        ⟨hi, decide_eq_true (not_le.mp hlt)⟩)) hnone
    · rename_i index cand slots hbest
      obtain ⟨hgrown, hsum⟩ := h.grow hbest
      obtain ⟨happ, hle, hfull⟩ := ih _ hgrown
      rw [hsum] at hle hfull
      exact ⟨happ, by omega, hfull.imp_left (by omega)⟩

end Loop

def plannedShares (sched : SchedulerState) (candidates : List AllocationCandidate)
    (requestedRanges minSplitSize : Nat) : Shares :=
  let nominal : Shares := candidates.map fun candidate => (candidate, 1)
  if candidates.length ≥ requestedRanges then nominal
  else sched.distributeSlots minSplitSize (requestedRanges - candidates.length) nominal

section Plan

variable (sched : SchedulerState) {candidates : List AllocationCandidate}

theorem plannedShares_candidates (requested minSplitSize : Nat) :
    (sched.plannedShares candidates requested minSplitSize).map fst =
      candidates := by
  have hnom : (candidates.map fun cand => (cand, 1)).map fst =
      candidates := by simp [comp_def]
  unfold plannedShares
  split
  · exact hnom
  · exact (distributeSlots_candidates _ _ _ _).trans hnom

theorem nominal_sum (candidates : List AllocationCandidate) :
    ((candidates.map fun cand => (cand, 1)).map snd).sum = candidates.length := by
  simp [comp_def]

theorem nominal_ones (candidates : List AllocationCandidate) :
    ∀ entry ∈ candidates.map fun cand => (cand, 1), entry.2 = 1 := by
  simp

theorem plannedShares_apportions (candidates : List AllocationCandidate)
    (requested minSplitSize : Nat) :
    let shares := sched.plannedShares candidates requested minSplitSize
    sched.Apportions minSplitSize shares ∧ (candidates.length ≤ requested →
        (shares.map snd).sum ≤ requested ∧
        ((shares.map snd).sum = requested ∨
          ∀ entry ∈ shares, sched.maxDynamicSlots entry.1 minSplitSize ≤ entry.2)) := by
  have hones := sched.apportions_ones minSplitSize (nominal_ones candidates)
  unfold plannedShares
  dsimp only
  split
  · rw [nominal_sum]
    exact ⟨hones, fun hle => ⟨hle, .inl (by omega)⟩⟩
  · obtain ⟨happ, hle, hfull⟩ := Apportions.distributeSlots (requested - candidates.length) _ hones
    rw [nominal_sum] at hle hfull
    exact ⟨happ, fun hlt => ⟨by omega, hfull.imp_left (by omega)⟩⟩

theorem planDynamicShare_eq (hne : candidates ≠ []) {requested : Nat}
    (hrequested : 1 ≤ requested) (minSplitSize : Nat) (collect : Bool) :
    ∃ plan best, sched.planDynamicShare candidates requested minSplitSize collect = some plan ∧
      maxBy compareShares
        (indexedShares (sched.plannedShares candidates requested minSplitSize)) = some best ∧
      (plan.candidate, plan.candidateSlots) = best.2 ∧
      plan.candidateShares = (if collect then
        some (shareTable (sched.plannedShares candidates requested minSplitSize))
        else none) ∧
      plan.plannedRanges = if candidates.length ≥ requested then requested else
        ((sched.plannedShares candidates requested minSplitSize).map snd).sum := by
  obtain ⟨best, hbest, -⟩ :=
    maxBy_shares (sched.plannedShares_candidates requested minSplitSize) hne
  unfold planDynamicShare
  rw [if_neg (by simp [hne]; omega)]
  dsimp only
  by_cases hfew : candidates.length ≥ requested
  · have hplan : sched.plannedShares candidates requested minSplitSize =
        candidates.map fun cand => (cand, 1) := if_pos hfew
    have hslots : best.2.2 = 1 := nominal_ones candidates best.2
      (hplan ▸ mem_of_indexed (maxBy_mem hbest))
    rw [if_pos hfew, ← hplan, hbest]
    exact ⟨_, best, rfl, rfl, by rw [← hslots], rfl, (if_pos hfew).symm⟩
  · have hplan : sched.plannedShares candidates requested minSplitSize =
        sched.distributeSlots minSplitSize (requested - candidates.length)
          (candidates.map fun cand => (cand, 1)) := if_neg hfew
    rw [if_neg hfew, ← hplan, hbest]
    exact ⟨_, best, rfl, rfl, rfl, rfl, (if_neg hfew).symm⟩

theorem Apportions.largestShare_le {sched : SchedulerState} {minSplitSize : Nat} {other : Shares}
    (h : sched.Apportions minSplitSize shares)
    (hcands : other.map fst = shares.map fst)
    (hslots : ∀ entry ∈ other, 1 ≤ entry.2 ∧ entry.2 ≤ sched.maxDynamicSlots entry.1 minSplitSize)
    (hfull : (other.map snd).sum ≤ (shares.map snd).sum ∨
      ∀ entry ∈ shares, sched.maxDynamicSlots entry.1 minSplitSize ≤ entry.2) :
    largestShare shares ≤ largestShare other := by
  have hlen : other.length = shares.length := by simpa using congrArg length hcands
  have hpair : ∀ i ∈ Finset.range shares.length, ∃ cand slots slots',
      other[i]? = some (cand, slots) ∧ shares[i]? = some (cand, slots') := by
    intro i hi
    have hi := Finset.mem_range.mp hi
    have hfst := congrArg (·[i]?) hcands
    simp only [getElem?_map, getElem?_eq_getElem hi,
      getElem?_eq_getElem (hlen ▸ hi : i < other.length), map_some,
      some.injEq] at hfst
    exact ⟨shares[i].1, other[i].2, shares[i].2,
      by rw [getElem?_eq_getElem (hlen ▸ hi), ← hfst], getElem?_eq_getElem hi⟩
  refine SchedulerState.largestShare_le (largestShare_nonneg) fun entry he => ?_
  obtain ⟨j, hj, hget⟩ := mem_iff_getElem.mp he
  have hget := getElem?_eq_some_iff.mpr ⟨hj, hget⟩
  have hoptimal : ∃ i ∈ Finset.range shares.length,
      lenAt shares j * slotsAt other i ≤ lenAt shares i * slotsAt shares j := by
    refine h.optimal ?_ ?_ (Finset.mem_range.mpr hj)
    · intro i hi
      obtain ⟨cand, slots, slots', ho, hshs⟩ := hpair i hi
      rw [slotsAt_of_getElem? ho, capAt_of_getElem? hshs]
      exact (hslots _ (mem_of_getElem? ho)).2
    · rw [sum_slotsAt, ← hlen, sum_slotsAt, hlen]
      refine hfull.imp_right fun hclos i hi => ?_
      obtain ⟨cand, slots, slots', -, hshs⟩ := hpair i hi
      rw [slotsAt_of_getElem? hshs, capAt_of_getElem? hshs]
      exact hclos _ (mem_of_getElem? hshs)
  obtain ⟨i, hi, hshare⟩ := hoptimal
  obtain ⟨cand, slots, slots', ho, hshs⟩ := hpair i hi
  rw [lenAt_of_getElem? hget, lenAt_of_getElem? hshs, slotsAt_of_getElem? hget,
    slotsAt_of_getElem? ho] at hshare
  have hmem := mem_of_getElem? ho
  calc share entry ≤ share (cand, slots) :=
        (share_le_iff (h.slots he).1 (hslots _ hmem).1).mpr hshare
    _ ≤ largestShare other := share_le_largestShare hmem

/-- The slot counts have the smallest possible largest share, which the chosen candidate attains;
with too few requests a longest candidate is chosen, the first of them. -/
theorem plan_is_min_max (hne : candidates ≠ []) {requestedRanges : Nat}
    (hrequested : 1 ≤ requestedRanges) (minSplitSize : Nat) (collectCandidateShares : Bool) :
    ∃ plan, sched.planDynamicShare candidates requestedRanges minSplitSize
        collectCandidateShares = some plan ∧
      let shares := sched.plannedShares candidates requestedRanges minSplitSize
      shares.map fst = candidates ∧
      (plan.candidate, plan.candidateSlots) ∈ shares ∧
      plan.candidateShares = (if collectCandidateShares then some (shareTable shares) else none) ∧
      (candidates.length < requestedRanges → plan.plannedRanges = (shares.map snd).sum ∧
        (∀ entry ∈ shares, 1 ≤ entry.2 ∧ entry.2 ≤ sched.maxDynamicSlots entry.1 minSplitSize) ∧
        (shares.map snd).sum ≤ requestedRanges ∧
        (∀ other : Shares, other.map fst = candidates → (∀ entry ∈ other, 1 ≤ entry.2 ∧
            entry.2 ≤ sched.maxDynamicSlots entry.1 minSplitSize) →
          (other.map snd).sum ≤ requestedRanges →
          largestShare shares ≤ largestShare other) ∧
        share (plan.candidate, plan.candidateSlots) = largestShare shares) ∧
      (requestedRanges ≤ candidates.length → (∀ entry ∈ shares, entry.2 = 1) ∧
        ∀ candidate ∈ candidates, candidate.len < plan.candidate.len ∨
          candidate.len = plan.candidate.len ∧ plan.candidate.start ≤ candidate.start) := by
  obtain ⟨plan, best, hplan, hbest, hchos, hcollected, hrngs⟩ :=
    sched.planDynamicShare_eq hne hrequested minSplitSize collectCandidateShares
  have hcands : (sched.plannedShares candidates requestedRanges minSplitSize).map
      fst = candidates := sched.plannedShares_candidates requestedRanges minSplitSize
  obtain ⟨happ, htotal⟩ := sched.plannedShares_apportions candidates requestedRanges minSplitSize
  have hlarge := maxBy_compareShares (fun entry he => (happ.slots (mem_of_indexed he)).1) hbest
  have hmem := mem_of_indexed (maxBy_mem hbest)
  rw [← hchos] at hmem hlarge
  refine ⟨plan, hplan, hcands, hmem, hcollected, fun hmany => ?_, fun hfew => ?_⟩
  · rw [if_neg (Nat.not_le.mpr hmany)] at hrngs
    obtain ⟨hsum, hfull⟩ := htotal hmany.le
    refine ⟨hrngs, fun entry he => happ.slots he, hsum, ?_, ?_⟩
    · intro other ho hslots hother_sum
      refine happ.largestShare_le (ho.trans hcands.symm) hslots ?_
      exact hfull.imp_left fun hall => hother_sum.trans hall.ge
    · refine le_antisymm (share_le_largestShare hmem) (largestShare_le (share_nonneg) ?_)
      intro entry he
      obtain ⟨i, hi⟩ := exists_indexed he
      rcases hlarge _ hi with hlt | ⟨heq, -⟩
      · exact hlt.le
      · exact heq.le
  · have hones : ∀ entry ∈ sched.plannedShares candidates requestedRanges minSplitSize,
        entry.2 = 1 := by
      rw [plannedShares, if_pos hfew]
      exact nominal_ones candidates
    refine ⟨hones, fun candidate hcand => ?_⟩
    rw [← hcands] at hcand
    obtain ⟨entry, he, rfl⟩ := mem_map.mp hcand
    obtain ⟨i, hi⟩ := exists_indexed he
    have hone : plan.candidateSlots = 1 := hones _ hmem
    have hlarger := hlarge _ hi
    simpa only [share, hones entry he, hone, Nat.cast_one, div_one, Nat.cast_lt,
      Nat.cast_inj] using hlarger

theorem seven_slots_for_two_candidates :
    ∃ plan, (new (PieceMap.new 80 4)).planDynamicShare
        [⟨0, 40, 0, 10⟩, ⟨48, 80, 12, 20⟩] 7 8 true = some plan ∧
      (plan.candidate, plan.candidateSlots) = (⟨48, 80, 12, 20⟩, 3) ∧
      ∀ other : Shares, other.map fst = [⟨0, 40, 0, 10⟩, ⟨48, 80, 12, 20⟩] →
        (∀ entry ∈ other, 1 ≤ entry.2 ∧ entry.2 ≤
          (new (PieceMap.new 80 4)).maxDynamicSlots entry.1 8) →
        (other.map snd).sum ≤ 7 →
        largestShare [(⟨0, 40, 0, 10⟩, 4), (⟨48, 80, 12, 20⟩, 3)] ≤ largestShare other := by
  obtain ⟨plan, hplan, -, -, -, hmany, -⟩ :=
    (new (PieceMap.new 80 4)).plan_is_min_max
      (show [⟨0, 40, 0, 10⟩, ⟨48, 80, 12, 20⟩] ≠ [] by decide) (show 1 ≤ 7 by decide) 8 true
  have hchos : ((new (PieceMap.new 80 4)).planDynamicShare
      [⟨0, 40, 0, 10⟩, ⟨48, 80, 12, 20⟩] 7 8 true).map
        (fun plan => (plan.candidate, plan.candidateSlots)) = some (⟨48, 80, 12, 20⟩, 3) := by
    decide
  have hshs : (new (PieceMap.new 80 4)).plannedShares [⟨0, 40, 0, 10⟩, ⟨48, 80, 12, 20⟩] 7 8 =
        [(⟨0, 40, 0, 10⟩, 4), (⟨48, 80, 12, 20⟩, 3)] := by decide
  rw [hplan] at hchos
  refine ⟨plan, hplan, some.inj hchos, ?_⟩
  exact (hmany (by decide)).2.2.2.1

end Plan

end SchedulerState

end Bytehaul.Scheduler
