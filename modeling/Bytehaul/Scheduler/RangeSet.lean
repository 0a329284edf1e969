import Bytehaul.Foundation.Span

/-!
# The missing ranges of a piece

`RangeSet` of `scheduler.rs`: a sorted vector of byte ranges, its loops transcribed as walks
over the list.
-/

namespace Bytehaul.Scheduler

open Foundation List Option

abbrev ByteRange := Span

def ByteRange.new (start stop : Nat) : Option ByteRange :=
  if start < stop then some ⟨start, stop⟩ else none

structure RangeSet where
  ranges : List ByteRange
  deriving DecidableEq, Repr

namespace RangeSet

variable {ranges : List ByteRange} {range : ByteRange} {set : RangeSet}

def newFull (start stop : Nat) : RangeSet :=
  ⟨(ByteRange.new start stop).toList⟩

def first (set : RangeSet) : Option ByteRange := set.ranges.head?

def len (set : RangeSet) : Nat := set.ranges.length

/-- The `while` loop of `insert` from the current index on. -/
def insertLoop : List ByteRange → ByteRange → List ByteRange
  | [], range => [range]
  | current :: rest, range =>
    if current.stop < range.start then
      current :: insertLoop rest range
    else if range.stop < current.start then
      range :: current :: rest
    else
      insertLoop rest ⟨min range.start current.start, max range.stop current.stop⟩

def insert (set : RangeSet) (range : ByteRange) : RangeSet :=
  ⟨insertLoop set.ranges range⟩

def split (current range : ByteRange) : List ByteRange :=
  (if current.start < range.start then [⟨current.start, range.start⟩] else []) ++
    (if range.stop < current.stop then [⟨range.stop, current.stop⟩] else [])

def removeLoop : List ByteRange → ByteRange → Option (List ByteRange)
  | [], _ => none
  | current :: rest, range =>
    if current.start ≤ range.start ∧ current.stop ≥ range.stop then
      some (split current range ++ rest)
    else
      (removeLoop rest range).map (current :: ·)

/-- `none` is the `false` of the source, which leaves the set unchanged. -/
def remove (set : RangeSet) (range : ByteRange) : Option RangeSet :=
  (removeLoop set.ranges range).map RangeSet.mk

theorem lt_start_of_mem_insertLoop {lo : Nat} (hrngs : ∀ current ∈ ranges, lo < current.start)
    (hrng : lo < range.start) : ∀ current ∈ insertLoop ranges range, lo < current.start := by
  fun_induction insertLoop ranges range with
  | case1 range => simpa using hrng
  | case2 current rest range _ ih =>
    simp only [forall_mem_cons] at hrngs ⊢
    exact ⟨hrngs.1, ih hrngs.2 hrng⟩
  | case3 current rest range _ _ =>
    simp only [forall_mem_cons] at hrngs ⊢
    exact ⟨hrng, hrngs⟩
  | case4 current rest range _ _ ih =>
    simp only [forall_mem_cons] at hrngs
    exact ih hrngs.2 (Nat.lt_min.mpr ⟨hrng, hrngs.1⟩)

private theorem insertLoop_normal (hrngs : Normal ranges) (hrng : range.start < range.stop) :
    Normal (insertLoop ranges range) := by
  fun_induction insertLoop ranges range with
  | case1 range => exact Normal.singleton hrng
  | case2 current rest range hbef ih =>
    obtain ⟨hcurr, hgap, hrest⟩ := normal_cons.mp hrngs
    exact normal_cons.mpr ⟨hcurr, lt_start_of_mem_insertLoop hgap hbef, ih hrest hrng⟩
  | case3 current rest range _ haft =>
    obtain ⟨hcurr, hgap, _⟩ := normal_cons.mp hrngs
    refine normal_cons.mpr ⟨hrng, ?_, hrngs⟩
    intro other ho
    rcases mem_cons.mp ho with rfl | ho
    · exact haft
    · have := hgap other ho
      omega
  | case4 current rest range _ _ ih =>
    refine ih hrngs.tail ?_
    change min range.start current.start < max range.stop current.stop
    omega

theorem hits_insertLoop_pos {b : Nat} :
    0 < hits (insertLoop ranges range) b ↔ 0 < hits ranges b ∨ b ∈ range := by
  fun_induction insertLoop ranges range with
  | case1 range => by_cases hb : b ∈ range <;> simp [hb]
  | case2 current rest range _ ih =>
    rw [hits_cons, hits_cons]
    by_cases hb : b ∈ current <;> simp only [hb, if_true, if_false] <;> omega
  | case3 current rest range _ _ => by_cases hb : b ∈ range <;> simp [hb]
  | case4 current rest range hbef haft ih =>
    rw [ih, hits_cons]
    simp only [Span.mem_iff]
    split <;> omega

theorem insert_normal (hset : Normal set.ranges) (hrng : range.start < range.stop) :
    Normal (set.insert range).ranges :=
  insertLoop_normal hset hrng

theorem hits_insert (hset : Normal set.ranges) (hrng : range.start < range.stop)
    (hfresh : ∀ b ∈ range, hits set.ranges b = 0) (b : Nat) : hits (set.insert range).ranges b =
      hits set.ranges b + if b ∈ range then 1 else 0 := by
  have hpos : 0 < hits (set.insert range).ranges b ↔ _ := hits_insertLoop_pos
  have hnew := (insert_normal hset hrng).hits_le_one b
  have hold := hset.hits_le_one b
  by_cases hb : b ∈ range
  · have := hfresh b hb
    simp only [hb, or_true, iff_true, if_true] at hpos ⊢
    omega
  · simp only [hb, or_false, if_false] at hpos ⊢
    omega

theorem insert_ne_nil (set : RangeSet) (range : ByteRange) : (set.insert range).ranges ≠ [] := by
  unfold insert
  generalize set.ranges = ranges
  fun_induction insertLoop ranges range <;> simp_all

private theorem hits_split {current : ByteRange} (hstart : current.start ≤ range.start)
    (hstop : range.stop ≤ current.stop) (hrng : range.start < range.stop) (b : Nat) :
    (hits (split current range) b + if b ∈ range then 1 else 0) = if b ∈ current then 1 else 0 := by
  simp only [split, hits_append]
  split <;> split <;>
    simp only [hits_cons, hits_nil, Span.mem_iff] <;> grind

private theorem hits_removeLoop {rest : List ByteRange} (hrng : range.start < range.stop)
    (hrem : removeLoop ranges range = some rest) (b : Nat) :
    (hits rest b + if b ∈ range then 1 else 0) = hits ranges b := by
  fun_induction removeLoop ranges range generalizing rest with
  | case1 => simp at hrem
  | case2 current tail range henclose =>
    obtain rfl := some.inj hrem
    have := hits_split henclose.1 henclose.2 hrng b
    rw [hits_append, hits_cons]
    omega
  | case3 current tail range _ ih =>
    obtain ⟨tail', htail, rfl⟩ := map_eq_some_iff.mp hrem
    have := ih hrng htail
    rw [hits_cons, hits_cons]
    omega

theorem mem_split {current part : ByteRange} (hpart : part ∈ split current range)
    (hstart : current.start ≤ range.start) (hstop : range.stop ≤ current.stop)
    (hrng : range.start < range.stop) :
    current.start ≤ part.start ∧ part.start < part.stop ∧ part.stop ≤ current.stop := by
  simp only [split, mem_append] at hpart
  rcases hpart with hpart | hpart <;> split at hpart <;> simp at hpart <;>
    subst hpart <;> simp only <;> omega

private theorem split_normal (current : ByteRange) (hrng : range.start < range.stop) :
    Normal (split current range) := by
  unfold split
  split <;> split <;> simp [normal_cons, Normal.nil] <;> omega

theorem removeLoop_normal {rest : List ByteRange} (hrngs : Normal ranges)
    (hrng : range.start < range.stop) (hrem : removeLoop ranges range = some rest) :
    Normal rest ∧ ∀ lo, (∀ current ∈ ranges, lo < current.start) →
      ∀ current ∈ rest, lo < current.start := by
  fun_induction removeLoop ranges range generalizing rest with
  | case1 => simp at hrem
  | case2 current tail range henclose =>
    obtain rfl := some.inj hrem
    obtain ⟨_, hgap, htail⟩ := normal_cons.mp hrngs
    have hspl := split_normal current hrng
    constructor
    · refine ⟨?_, pairwise_append.mpr ⟨hspl.gaps, htail.gaps, ?_⟩⟩
      · intro part hpart
        rcases mem_append.mp hpart with hpart | hpart
        · exact hspl.nonempty part hpart
        · exact htail.nonempty part hpart
      · intro part hpart other ho
        have := mem_split hpart henclose.1 henclose.2 hrng
        have := hgap other ho
        omega
    · intro lo hlo part hpart
      simp only [forall_mem_cons] at hlo
      rcases mem_append.mp hpart with hpart | hpart
      · have := mem_split hpart henclose.1 henclose.2 hrng
        omega
      · exact hlo.2 part hpart
  | case3 current tail range _ ih =>
    obtain ⟨tail', htail', rfl⟩ := map_eq_some_iff.mp hrem
    obtain ⟨hcurr, hgap, htail⟩ := normal_cons.mp hrngs
    obtain ⟨hnormal, hbd⟩ := ih htail hrng htail'
    refine ⟨normal_cons.mpr ⟨hcurr, hbd _ hgap, hnormal⟩, ?_⟩
    intro lo hlo
    simp only [forall_mem_cons] at hlo ⊢
    exact ⟨hlo.1, hbd lo hlo.2⟩

private theorem removeLoop_isSome {host : ByteRange} (hhost : host ∈ ranges)
    (hstart : host.start ≤ range.start) (hstop : range.stop ≤ host.stop) :
    (removeLoop ranges range).isSome := by
  fun_induction removeLoop ranges range with
  | case1 => simp at hhost
  | case2 => rfl
  | case3 current tail range hnot ih =>
    rcases mem_cons.mp hhost with rfl | hhost
    · exact absurd ⟨hstart, hstop⟩ hnot
    · simpa using ih hhost hstart hstop

theorem remove_spec {rest : RangeSet} (hset : Normal set.ranges) (hrng : range.start < range.stop)
    (hrem : set.remove range = some rest) : Normal rest.ranges ∧
      ∀ b, (hits rest.ranges b + if b ∈ range then 1 else 0) = hits set.ranges b := by
  obtain ⟨ranges, hloop, rfl⟩ := map_eq_some_iff.mp hrem
  exact ⟨(removeLoop_normal hset hrng hloop).1, hits_removeLoop hrng hloop⟩

theorem remove_isSome (hset : Normal set.ranges) (hrng : range.start < range.stop)
    (hcover : ∀ b ∈ range, 0 < hits set.ranges b) : (set.remove range).isSome := by
  obtain ⟨host, hhost, hstart, hstop⟩ := hset.exists_enclosing hrng hcover
  simpa [remove] using removeLoop_isSome hhost hstart hstop

def insertFrom (ranges : List ByteRange) (index : Nat) (range : ByteRange) : List ByteRange :=
  if h : index < ranges.length then
    let current := ranges[index]
    if current.stop < range.start then insertFrom ranges (index + 1) range
    else if range.stop < current.start then ranges.insertIdx index range
    else
      insertFrom (ranges.eraseIdx index) index
        ⟨min range.start current.start, max range.stop current.stop⟩
  else ranges.insertIdx index range
termination_by ranges.length - index
decreasing_by
  · omega
  · rw [List.length_eraseIdx_of_lt h]
    omega

def removeInPlace (ranges : List ByteRange) (range : ByteRange) : Bool × List ByteRange :=
  match ranges.findIdx? fun current => current.start ≤ range.start ∧ current.stop ≥ range.stop with
  | none => (false, ranges)
  | some index =>
    let current := ranges.getD index range
    let ranges := ranges.eraseIdx index
    let (ranges, insertAt) :=
      if current.start < range.start then
        (ranges.insertIdx index ⟨current.start, range.start⟩, index + 1)
      else (ranges, index)
    if range.stop < current.stop then (true, ranges.insertIdx insertAt ⟨range.stop, current.stop⟩)
    else (true, ranges)

theorem insertIdx_append_length (before after : List ByteRange) (range : ByteRange) :
    (before ++ after).insertIdx before.length range = before ++ range :: after := by
  induction before with
  | nil => rfl
  | cons head before ih => simp [ih]

private theorem insertFrom_append (before : List ByteRange) :
    insertFrom (before ++ ranges) before.length range = before ++ insertLoop ranges range := by
  fun_induction insertLoop ranges range generalizing before with
  | case1 range =>
    rw [insertFrom]
    simp
  | case2 current rest range hbef ih =>
    have hnext := ih (before ++ [current])
    rw [insertFrom]
    simpa [hbef] using hnext
  | case3 current rest range hbef haft =>
    rw [insertFrom]
    simp [hbef, haft, insertIdx_append_length]
  | case4 current rest range hbef haft ih =>
    rw [insertFrom]
    simp [hbef, haft, eraseIdx_append_of_length_le, ih]

theorem insert_ranges : (set.insert range).ranges = insertFrom set.ranges 0 range :=
  (insertFrom_append []).symm

theorem removeInPlace_append {before : List ByteRange}
    (hbef : ∀ other ∈ before, ¬ (other.start ≤ range.start ∧ other.stop ≥ range.stop)) :
    removeInPlace (before ++ ranges) range = ((removeLoop ranges range).isSome,
        before ++ (removeLoop ranges range).getD ranges) := by
  have hnone : before.findIdx? (fun current =>
      decide (current.start ≤ range.start ∧ current.stop ≥ range.stop)) = none :=
    findIdx?_eq_none_iff.mpr fun other ho => decide_eq_false (hbef other ho)
  fun_induction removeLoop ranges range generalizing before with
  | case1 range =>
    unfold removeInPlace
    rw [append_nil, hnone]
    simp
  | case2 current rest range henclose =>
    have herase : (before ++ current :: rest).eraseIdx before.length = before ++ rest := by
      simp [eraseIdx_append_of_length_le]
    have hcurr : (before ++ current :: rest).getD before.length range = current := by simp
    have hright (left right : ByteRange) :
        (before ++ left :: rest).insertIdx (before.length + 1) right =
          before ++ left :: right :: rest := by
      simpa using insertIdx_append_length (before ++ [left]) rest right
    unfold removeInPlace
    rw [findIdx?_append, hnone, findIdx?_cons, decide_eq_true henclose]
    simp only [none_or, if_true, map_some, Nat.zero_add, herase, hcurr, split]
    split <;> split <;> simp [insertIdx_append_length, hright]
  | case3 current rest range hnot ih =>
    have hlonger : ∀ other ∈ before ++ [current],
        ¬ (other.start ≤ range.start ∧ other.stop ≥ range.stop) := by
      intro other ho
      rcases mem_append.mp ho with ho | ho
      · exact hbef other ho
      · exact mem_singleton.mp ho ▸ hnot
    have hnext := ih hlonger (findIdx?_eq_none_iff.mpr fun other ho =>
      decide_eq_false (hlonger other ho))
    cases hrest : removeLoop rest range <;> simpa [hrest] using hnext

def bytes (set : RangeSet) : Set Nat := {b | ∃ current ∈ set.ranges, b ∈ current}

theorem mem_bytes {b : Nat} : b ∈ set.bytes ↔ 0 < hits set.ranges b := hits_pos_iff.symm

private theorem remove_isSome_iff (hset : Normal set.ranges) (hrng : range.start < range.stop) :
    (set.remove range).isSome = true ↔ ∀ b ∈ range, b ∈ set.bytes := by
  simp only [mem_bytes]
  constructor
  · intro hsome b hb
    obtain ⟨rest, hrem⟩ := isSome_iff_exists.mp hsome
    have hhits := (remove_spec hset hrng hrem).2 b
    rw [if_pos hb] at hhits
    omega
  · exact remove_isSome hset hrng

private theorem removeInPlace_eq : removeInPlace set.ranges range =
    ((set.remove range).isSome, ((set.remove range).getD set).ranges) := by
  have h : removeInPlace ([] ++ set.ranges) range = _ := removeInPlace_append (by simp)
  rw [nil_append] at h
  rw [h, remove]
  cases removeLoop set.ranges range <;> rfl

private theorem insert_remove {rest : RangeSet} (hset : Normal set.ranges)
    (hrng : range.start < range.stop) (hrem : set.remove range = some rest) :
    rest.insert range = set := by
  obtain ⟨hnormal, hhits⟩ := remove_spec hset hrng hrem
  have hsame : (rest.insert range).ranges = set.ranges := by
    refine (insert_normal hnormal hrng).ext hset fun b => ?_
    have hb := hhits b
    have hins : 0 < hits (rest.insert range).ranges b ↔ _ := hits_insertLoop_pos
    rw [hins]
    by_cases hmem : b ∈ range
    · simp only [hmem, if_true, or_true, true_iff] at hb ⊢
      omega
    · simp only [hmem, if_false, or_false] at hb ⊢
      omega
  exact congrArg RangeSet.mk hsame

/-- Insertion is the union and removal the difference, if all the bytes are there; both keep the
normal form, and undo each other. -/
theorem range_set_is_a_set_of_bytes (hset : Normal set.ranges) (hrange : range.start < range.stop) :
    (Normal (insertFrom set.ranges 0 range) ∧
      bytes ⟨insertFrom set.ranges 0 range⟩ = set.bytes ∪ {b | b ∈ range}) ∧
    ((removeInPlace set.ranges range).1 = true ↔ {b | b ∈ range} ⊆ set.bytes) ∧
    ((removeInPlace set.ranges range).1 = true → Normal (removeInPlace set.ranges range).2 ∧
      bytes ⟨(removeInPlace set.ranges range).2⟩ = set.bytes \ {b | b ∈ range} ∧
      insertFrom (removeInPlace set.ranges range).2 0 range = set.ranges) ∧
    ((removeInPlace set.ranges range).1 = false →
      (removeInPlace set.ranges range).2 = set.ranges) := by
  rw [removeInPlace_eq, ← insert_ranges]
  refine ⟨⟨insert_normal hset hrange, ?_⟩, remove_isSome_iff hset hrange, ?_, ?_⟩
  · ext b
    exact mem_bytes.trans (hits_insertLoop_pos.trans (or_congr mem_bytes.symm Iff.rfl))
  · intro hsome
    obtain ⟨rest, hrem⟩ := isSome_iff_exists.mp hsome
    obtain ⟨hnormal, hhits⟩ := remove_spec hset hrange hrem
    rw [hrem, getD_some, ← insert_ranges, insert_remove hset hrange hrem]
    refine ⟨hnormal, ?_, rfl⟩
    ext b
    have hb := hhits b
    have hle := hset.hits_le_one b
    simp only [mem_bytes, Set.mem_sdiff, Set.mem_ofPred_eq]
    by_cases hmem : b ∈ range
    · simp only [hmem, if_true, not_true_eq_false, and_false, iff_false] at hb ⊢
      omega
    · simp only [hmem, if_false, not_false_eq_true, and_true] at hb ⊢
      omega
  · intro hnone
    rw [isSome_eq_false_iff, isNone_iff_eq_none] at hnone
    rw [hnone, getD_none]

theorem middle_of_a_range_is_removed : removeInPlace [⟨0, 9⟩] ⟨3, 5⟩ = (true, [⟨0, 3⟩, ⟨5, 9⟩]) ∧
      insertFrom [⟨0, 3⟩, ⟨5, 9⟩] 0 ⟨3, 5⟩ = [⟨0, 9⟩] := by
  have hrem : removeInPlace [⟨0, 9⟩] ⟨3, 5⟩ = (true, [⟨0, 3⟩, ⟨5, 9⟩]) := by decide
  have hset := @range_set_is_a_set_of_bytes ⟨3, 5⟩ ⟨[⟨0, 9⟩]⟩ (Normal.singleton (by decide))
    (by decide)
  exact ⟨hrem, (hset.2.2.1 rfl).2.2⟩

end RangeSet

end Bytehaul.Scheduler
