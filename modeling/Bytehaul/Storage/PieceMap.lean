import Bytehaul.Foundation.Counting
import Bytehaul.Foundation.Span
import Bytehaul.Storage.Bitset

/-!
# Piece completion map

`storage/piece_map.rs`. `PieceMap.Valid` states what each incrementally updated value stands
for.
-/

namespace Bytehaul.Storage

open Foundation Option Finset Nat
open Finset (range)

structure PieceMap where
  pieceSize : Nat
  totalSize : Nat
  pieceCount : Nat
  completed : List Bool
  completedPieces : Nat
  completedBytes : Nat
  nextCandidate : Nat
  highestCompletedPiece : Option Nat
  deriving DecidableEq, Repr

namespace PieceMap

variable {i : Nat} {map : PieceMap} {pieceId : Nat}

/-- `piece_len`; the subtraction is exact for every piece below the total size. -/
def pieceLen (totalSize pieceSize pieceId : Nat) : Nat :=
  min ((pieceId + 1) * pieceSize) totalSize - pieceId * pieceSize

def new (totalSize pieceSize : Nat) : PieceMap where
  pieceSize := pieceSize
  totalSize := totalSize
  pieceCount := divCeil totalSize pieceSize
  completed := List.replicate (divCeil totalSize pieceSize) false
  completedPieces := 0
  completedBytes := 0
  nextCandidate := 0
  highestCompletedPiece := none

structure Restored where
  completedPieces : Nat
  completedBytes : Nat
  nextCandidate : Nat
  highestCompletedPiece : Option Nat

/-- The `for piece_id in 0..piece_count` loop over the bits from `pieceId` on. -/
def restoreLoop (totalSize pieceSize pieceCount : Nat) :
    List Bool → Nat → Restored → Restored
  | [], _, acc => acc
  | true :: bits, pieceId, acc =>
    restoreLoop totalSize pieceSize pieceCount bits (pieceId + 1)
      { acc with
        completedPieces := acc.completedPieces + 1
        completedBytes := acc.completedBytes + pieceLen totalSize pieceSize pieceId
        highestCompletedPiece := some pieceId }
  | false :: bits, pieceId, acc =>
    restoreLoop totalSize pieceSize pieceCount bits (pieceId + 1)
      (if acc.nextCandidate = pieceCount then { acc with nextCandidate := pieceId }
        else acc)

def fromBitset (totalSize pieceSize : Nat) (bitset : List UInt8) (pieceCount : Nat) :
    PieceMap :=
  let completed := resize (fromSlice bitset) pieceCount
  let restored := restoreLoop totalSize pieceSize pieceCount completed 0
    ⟨0, 0, pieceCount, none⟩
  { pieceSize, totalSize, pieceCount, completed,
    completedPieces := restored.completedPieces
    completedBytes := restored.completedBytes
    nextCandidate := restored.nextCandidate
    highestCompletedPiece := restored.highestCompletedPiece }

def pieceRange (map : PieceMap) (pieceId : Nat) : Span :=
  let start := pieceId * map.pieceSize
  ⟨start, start + pieceLen map.totalSize map.pieceSize pieceId⟩

def bit (map : PieceMap) (pieceId : Nat) : Bool := map.completed.getD pieceId false

def isComplete (map : PieceMap) (pieceId : Nat) : Bool :=
  pieceId < map.pieceCount && map.bit pieceId

/-- The loop of `advance_next_candidate` over the bits from `pieceId` on. -/
def skipCompleted : List Bool → Nat → Nat
  | true :: bits, pieceId => skipCompleted bits (pieceId + 1)
  | _, pieceId => pieceId

def advanceNextCandidate (completed : List Bool) (nextCandidate : Nat) : Nat :=
  skipCompleted (completed.drop nextCandidate) nextCandidate

def markComplete (map : PieceMap) (pieceId : Nat) : PieceMap :=
  if pieceId < map.pieceCount && !map.bit pieceId then
    let completed := map.completed.set pieceId true
    { map with
      completed := completed
      completedPieces := map.completedPieces + 1
      completedBytes :=
        map.completedBytes + pieceLen map.totalSize map.pieceSize pieceId
      highestCompletedPiece :=
        some (map.highestCompletedPiece.elim pieceId (max · pieceId))
      nextCandidate :=
        if pieceId = map.nextCandidate then
          advanceNextCandidate completed map.nextCandidate
        else map.nextCandidate }
  else map

def firstMissing (map : PieceMap) : Option Nat :=
  if map.nextCandidate < map.pieceCount then some map.nextCandidate else none

def allDone (map : PieceMap) : Bool := map.completedPieces == map.pieceCount

def remainingCount (map : PieceMap) : Nat := map.pieceCount - map.completedPieces

def toBitsetBytes (map : PieceMap) : List UInt8 := rawSlice map.completed

def missingBitset (map : PieceMap) : List Bool := map.completed.map (!·)

/-- Each derived value is the one computed from the completion bits. -/
structure Valid (map : PieceMap) : Prop where
  size_pos : 0 < map.pieceSize
  count_le : map.pieceCount ≤ divCeil map.totalSize map.pieceSize
  length_completed : map.completed.length = map.pieceCount
  completedPieces_eq :
    map.completedPieces = ∑ i ∈ range map.pieceCount, if map.bit i then 1 else 0
  completedBytes_eq :
    map.completedBytes = ∑ i ∈ range map.pieceCount, if map.bit i then (map.pieceRange i).len else 0
  candidate_le : map.nextCandidate ≤ map.pieceCount
  before_candidate : ∀ i < map.nextCandidate, map.bit i = true
  at_candidate : map.nextCandidate < map.pieceCount → map.bit map.nextCandidate = false
  highest_none : map.highestCompletedPiece = none → ∀ i, map.bit i = false
  highest_some : ∀ top, map.highestCompletedPiece = some top →
    map.bit top = true ∧ ∀ i, map.bit i = true → i ≤ top

theorem lt_divCeil_iff {a b : Nat} (hb : 0 < b) : i < divCeil a b ↔ i * b < a := by
  rw [divCeil, lt_iff_add_one_le, le_div_iff_mul_le hb, succ_mul]
  omega

theorem divCeil_le_iff {a b c : Nat} (hb : 0 < b) : divCeil a b ≤ c ↔ a ≤ c * b := by
  rw [← not_lt, ← not_lt, lt_divCeil_iff hb]

theorem le_divCeil_mul {a b : Nat} (hb : 0 < b) : a ≤ divCeil a b * b :=
  (divCeil_le_iff hb).mp (le_refl _)

private theorem bit_eq_false_of_le (h : map.completed.length ≤ i) : map.bit i = false := by
  simp [bit, List.getD, List.getElem?_eq_none h]

theorem Valid.lt_count_of_bit (h : map.Valid) (hbit : map.bit i = true) : i < map.pieceCount := by
  by_contra hge
  have hlen : map.completed.length ≤ i := by
    rw [h.length_completed]
    omega
  rw [bit_eq_false_of_le hlen] at hbit
  contradiction

theorem Valid.start_lt_total (h : map.Valid) (hi : i < map.pieceCount) :
    i * map.pieceSize < map.totalSize :=
  (lt_divCeil_iff h.size_pos).mp (lt_of_lt_of_le hi h.count_le)

theorem Valid.pieceRange_nonempty (h : map.Valid) (hi : i < map.pieceCount) :
    (map.pieceRange i).start < (map.pieceRange i).stop := by
  have hstart := h.start_lt_total hi
  have hsize := h.size_pos
  simp only [pieceRange, pieceLen, succ_mul]
  omega

theorem Valid.pieceRange_stop (h : map.Valid) (hi : i < map.pieceCount) :
    (map.pieceRange i).stop = min ((i + 1) * map.pieceSize) map.totalSize := by
  have hstart := h.start_lt_total hi
  simp only [pieceRange, pieceLen, succ_mul]
  omega

theorem Valid.pieceRange_stop_eq_start (h : map.Valid) (hi : i + 1 < map.pieceCount) :
    (map.pieceRange i).stop = (map.pieceRange (i + 1)).start := by
  rw [h.pieceRange_stop (by omega), min_eq_left (h.start_lt_total hi).le]
  rfl

@[simp] theorem pieceRange_start (map : PieceMap) (i : Nat) :
    (map.pieceRange i).start = i * map.pieceSize := rfl

theorem Valid.mem_pieceRange_iff (h : map.Valid) (hi : i < map.pieceCount) (b : Nat) :
    b ∈ map.pieceRange i ↔ b < map.totalSize ∧ b / map.pieceSize = i := by
  rw [Span.mem_iff, h.pieceRange_stop hi, pieceRange_start, Nat.div_eq_iff h.size_pos, Nat.succ_mul]
  have hsize := h.size_pos
  omega

@[simp] theorem bit_new (totalSize pieceSize i : Nat) :
    (new totalSize pieceSize).bit i = false := by
  simp only [bit, new, List.getD, List.getElem?_replicate]
  split <;> rfl

theorem new_valid {totalSize pieceSize : Nat} (hsize : 0 < pieceSize) :
    (new totalSize pieceSize).Valid where
  size_pos := hsize
  count_le := le_refl _
  length_completed := List.length_replicate
  completedPieces_eq := by simp; rfl
  completedBytes_eq := by simp; rfl
  candidate_le := zero_le _
  before_candidate i hi := absurd hi (not_lt_zero i)
  at_candidate _ := bit_new _ _ _
  highest_none _ := bit_new _ _
  highest_some top htop := by simp [new] at htop

/-- What the loop accumulators say about the bits already visited. -/
structure Describes (totalSize pieceSize pieceCount : Nat) (bits : List Bool)
    (acc : Restored) : Prop where
  pieces : acc.completedPieces = ∑ i ∈ range bits.length, if bits.getD i false then 1 else 0
  bytes : acc.completedBytes = ∑ i ∈ range bits.length,
    if bits.getD i false then pieceLen totalSize pieceSize i else 0
  candidate :
    (acc.nextCandidate = pieceCount ∧ ∀ i < bits.length, bits.getD i false = true) ∨
    (acc.nextCandidate < bits.length ∧ bits.getD acc.nextCandidate false = false ∧
      ∀ i < acc.nextCandidate, bits.getD i false = true)
  none : acc.highestCompletedPiece = none → ∀ i, bits.getD i false = false
  some : ∀ top, acc.highestCompletedPiece = some top →
    bits.getD top false = true ∧ ∀ i, bits.getD i false = true → i ≤ top

private theorem getD_append_last (bits : List Bool) (last : Bool) (i : Nat) :
    (bits ++ [last]).getD i false = if i = bits.length then last else bits.getD i false := by
  grind

private theorem sum_append_last (bits : List Bool) (last : Bool) (weight : Nat → Nat) :
    (∑ i ∈ range (bits ++ [last]).length, if (bits ++ [last]).getD i false then weight i else 0) =
      (∑ i ∈ range bits.length, if bits.getD i false then weight i else 0) +
        if last then weight bits.length else 0 := by
  rw [List.length_append, List.length_singleton, sum_range_succ]
  congr 1
  · apply sum_congr rfl
    intro i hi
    rw [getD_append_last, if_neg (Nat.ne_of_lt (mem_range.mp hi))]
  · simp

theorem restoreLoop_describes {totalSize pieceSize pieceCount : Nat} (bits done : List Bool)
    (acc : Restored) (hc : (done ++ bits).length = pieceCount)
    (h : Describes totalSize pieceSize pieceCount done acc) :
    Describes totalSize pieceSize pieceCount (done ++ bits)
      (restoreLoop totalSize pieceSize pieceCount bits done.length acc) := by
  induction bits generalizing done acc with
  | nil => simpa [restoreLoop] using h
  | cons bit bits ih =>
    have hassoc : done ++ bit :: bits = (done ++ [bit]) ++ bits := by simp
    have hlen : (done ++ [bit]).length = done.length + 1 := by simp
    rw [hassoc] at hc ⊢
    cases bit with
    | true =>
      rw [restoreLoop, ← hlen]
      apply ih _ _ hc
      exact {
        pieces := by rw [sum_append_last, ← h.pieces]; rfl
        bytes := by rw [sum_append_last, ← h.bytes]; rfl
        candidate := by
          have := h.candidate
          grind
        none := fun hnone => by simp at hnone
        some := fun top htop => by
          simp only [some.injEq] at htop
          grind }
    | false =>
      rw [restoreLoop, ← hlen]
      apply ih _ _ hc
      have hnone := h.none
      have hsome := h.some
      have hcand := h.candidate
      split <;> exact {
        pieces := by rw [sum_append_last, ← h.pieces]; rfl
        bytes := by rw [sum_append_last, ← h.bytes]; rfl
        candidate := by
          grind
        none := fun htop => by simp only [getD_append_last]; grind
        some := fun top htop => by simp only [getD_append_last]; grind }

theorem restored_describes (totalSize pieceSize pieceCount : Nat) (bitset : List UInt8) :
    Describes totalSize pieceSize pieceCount (resize (fromSlice bitset) pieceCount)
      (restoreLoop totalSize pieceSize pieceCount (resize (fromSlice bitset) pieceCount) 0
        ⟨0, 0, pieceCount, none⟩) := by
  have hemp : Describes totalSize pieceSize pieceCount [] ⟨0, 0, pieceCount, none⟩ := by
    constructor <;> simp
  exact restoreLoop_describes (resize (fromSlice bitset) pieceCount) [] _
    (length_resize (fromSlice bitset) pieceCount) hemp

theorem fromBitset_valid {totalSize pieceSize pieceCount : Nat} (bitset : List UInt8)
    (hsize : 0 < pieceSize) (hc : pieceCount ≤ divCeil totalSize pieceSize) :
    (fromBitset totalSize pieceSize bitset pieceCount).Valid := by
  have hlen := length_resize (fromSlice bitset) pieceCount
  have h := restored_describes totalSize pieceSize pieceCount bitset
  have hcand := h.candidate
  exact {
    size_pos := hsize
    count_le := hc
    length_completed := hlen
    completedPieces_eq := by have := h.pieces; rwa [hlen] at this
    completedBytes_eq := by
      have := h.bytes
      simpa [hlen, Span.len, pieceRange, bit, fromBitset] using this
    candidate_le := by
      change (restoreLoop _ _ _ _ _ _).nextCandidate ≤ pieceCount
      omega
    before_candidate := by
      intro i hi
      rcases hcand with ⟨heq, hall⟩ | ⟨_, _, hbef⟩
      · exact hall i (by rw [hlen, ← heq]; exact hi)
      · exact hbef i hi
    at_candidate := by
      intro hlt
      rcases hcand with ⟨heq, _⟩ | ⟨_, hgap, _⟩
      · exact absurd heq (Nat.ne_of_lt hlt)
      · exact hgap
    highest_none := h.none
    highest_some := h.some }

theorem bit_fromBitset (h : map.Valid) (totalSize pieceSize i : Nat) :
    (fromBitset totalSize pieceSize map.toBitsetBytes map.pieceCount).bit i = map.bit i := by
  simp only [bit, fromBitset, toBitsetBytes]
  rw [← h.length_completed, resize_fromSlice_rawSlice]

theorem bit_markComplete (h : map.Valid) (pieceId i : Nat) : (map.markComplete pieceId).bit i =
      (map.bit i || decide (i = pieceId ∧ pieceId < map.pieceCount)) := by
  have hlen := h.length_completed
  simp only [markComplete, bit]
  grind

theorem skipCompleted_spec {bits : List Bool} {first : Nat} : first ≤ skipCompleted bits first ∧
    skipCompleted bits first ≤ first + bits.length ∧
    (∀ i, first ≤ i → i < skipCompleted bits first → bits.getD (i - first) false = true) ∧
    (skipCompleted bits first < first + bits.length →
      bits.getD (skipCompleted bits first - first) false = false) := by
  fun_induction skipCompleted bits first with
  | case1 bits pieceId ih =>
    obtain ⟨hle, hbd, hall, hgap⟩ := ih
    simp only [List.length_cons]
    refine ⟨by omega, by omega, ?_, ?_⟩
    · intro i hi hlt
      rcases eq_or_lt_of_le hi with rfl | hi
      · simp
      · have := hall i hi hlt
        rwa [show i - pieceId = (i - (pieceId + 1)) + 1 by omega, List.getD_cons_succ]
    · intro hlt
      have := hgap (by omega)
      rwa [show skipCompleted bits (pieceId + 1) - pieceId =
        (skipCompleted bits (pieceId + 1) - (pieceId + 1)) + 1 by omega,
        List.getD_cons_succ]
  | case2 bits pieceId hfalse =>
    refine ⟨le_refl _, le_add_right _ _, by omega, ?_⟩
    intro hlt
    cases bits with
    | nil => simp at hlt
    | cons bit rest =>
      cases bit with
      | true => exact absurd rfl (hfalse rest)
      | false => simp

private theorem advanceNextCandidate_spec {completed : List Bool} {next : Nat}
    (hnext : next ≤ completed.length) : next ≤ advanceNextCandidate completed next ∧
    advanceNextCandidate completed next ≤ completed.length ∧
    (∀ i, next ≤ i → i < advanceNextCandidate completed next → completed.getD i false = true) ∧
    (advanceNextCandidate completed next < completed.length →
      completed.getD (advanceNextCandidate completed next) false = false) := by
  have hdrop : ∀ i, next ≤ i →
      (completed.drop next).getD (i - next) false = completed.getD i false := by
    intro i hi
    simp [List.getD_eq_getElem?_getD, List.getElem?_drop, Nat.add_sub_cancel' hi]
  obtain ⟨hle, hbd, hall, hgap⟩ := skipCompleted_spec
  rw [List.length_drop] at hbd hgap
  unfold advanceNextCandidate
  refine ⟨hle, by omega, ?_, ?_⟩
  · intro i hi hlt
    rw [← hdrop i hi]
    exact hall i hi hlt
  · intro hlt
    rw [← hdrop _ hle]
    exact hgap (by omega)

theorem markComplete_of_fresh (hlt : pieceId < map.pieceCount) (hfresh : map.bit pieceId = false) :
    map.markComplete pieceId = { map with
      completed := map.completed.set pieceId true
      completedPieces := map.completedPieces + 1
      completedBytes :=
        map.completedBytes + pieceLen map.totalSize map.pieceSize pieceId
      highestCompletedPiece :=
        some (map.highestCompletedPiece.elim pieceId (max · pieceId))
      nextCandidate :=
        if pieceId = map.nextCandidate then
          advanceNextCandidate (map.completed.set pieceId true) map.nextCandidate
        else map.nextCandidate } := by
  simp only [markComplete]
  rw [if_pos (by simp [hlt, hfresh])]

theorem markComplete_of_marked (h : ¬(pieceId < map.pieceCount ∧ map.bit pieceId = false)) :
    map.markComplete pieceId = map := by
  simp only [markComplete]
  rw [if_neg]
  simpa using h

@[simp] theorem markComplete_pieceCount (map : PieceMap) (pieceId : Nat) :
    (map.markComplete pieceId).pieceCount = map.pieceCount := by
  unfold markComplete
  split <;> rfl

@[simp] theorem markComplete_totalSize (map : PieceMap) (pieceId : Nat) :
    (map.markComplete pieceId).totalSize = map.totalSize := by
  unfold markComplete
  split <;> rfl

@[simp] theorem markComplete_pieceSize (map : PieceMap) (pieceId : Nat) :
    (map.markComplete pieceId).pieceSize = map.pieceSize := by
  unfold markComplete
  split <;> rfl

@[simp] theorem markComplete_pieceRange (map : PieceMap) (pieceId i : Nat) :
    (map.markComplete pieceId).pieceRange i = map.pieceRange i := by
  simp [pieceRange]

variable (h : map.Valid)
include h

private theorem sum_mark (hlt : pieceId < map.pieceCount) (hfresh : map.bit pieceId = false)
    (weight : Nat → Nat) : (∑ i ∈ range map.pieceCount,
        if (map.markComplete pieceId).bit i then weight i else 0) =
      (∑ i ∈ range map.pieceCount, if map.bit i then weight i else 0) + weight pieceId := by
  have hexch := sum_range_exchange (f := fun i => if map.bit i then weight i else 0)
    (g := fun i => if (map.markComplete pieceId).bit i then weight i else 0) hlt
    (fun j hj => by simp [bit_markComplete h, hj])
  simpa [bit_markComplete h, hfresh, hlt] using hexch

private theorem highest_mark {top : Nat}
    (htop : map.highestCompletedPiece.elim pieceId (max · pieceId) = top) :
    (map.bit top || decide (top = pieceId)) = true ∧
      ∀ i, (map.bit i || decide (i = pieceId)) = true → i ≤ top := by
  cases hhigh : map.highestCompletedPiece with
  | none =>
    have hnone := h.highest_none hhigh
    simp only [hhigh, elim_none] at htop
    simp [hnone, htop]
  | some current =>
    have hcurr := h.highest_some current hhigh
    grind

theorem markComplete_valid (pieceId : Nat) : (map.markComplete pieceId).Valid := by
  by_cases hmarked : pieceId < map.pieceCount ∧ map.bit pieceId = false
  swap
  · rw [markComplete_of_marked hmarked]
    exact h
  obtain ⟨hlt, hfresh⟩ := hmarked
  have hbits : ∀ i, (map.completed.set pieceId true).getD i false =
      (map.bit i || decide (i = pieceId)) := by
    intro i
    have hmark := bit_markComplete h pieceId i
    rw [markComplete_of_fresh hlt hfresh] at hmark
    simpa [bit, hlt] using hmark
  have hlen : (map.completed.set pieceId true).length = map.pieceCount := by
    rw [List.length_set, h.length_completed]
  have hadvance := advanceNextCandidate_spec (hlen ▸ h.candidate_le)
  have hbef := h.before_candidate
  rw [hlen] at hadvance
  have hps := sum_mark h hlt hfresh fun _ => 1
  have hbyt := sum_mark h hlt hfresh fun i => (map.pieceRange i).len
  rw [← h.completedPieces_eq] at hps
  rw [← h.completedBytes_eq] at hbyt
  rw [markComplete_of_fresh hlt hfresh] at hps hbyt ⊢
  exact {
    size_pos := h.size_pos
    count_le := h.count_le
    length_completed := hlen
    completedPieces_eq := hps.symm
    completedBytes_eq := by
      refine Eq.trans ?_ hbyt.symm
      simp [Span.len, pieceRange]
    candidate_le := by
      split
      · exact hadvance.2.1
      · exact h.candidate_le
    before_candidate := by
      intro i hi
      simp only [bit] at hi ⊢
      split at hi
      · by_cases hle : map.nextCandidate ≤ i
        · exact hadvance.2.2.1 i hle hi
        · rw [hbits, hbef i (Nat.lt_of_not_le hle), Bool.true_or]
      · rw [hbits, hbef i hi, Bool.true_or]
    at_candidate := by
      simp only [bit]
      split
      · exact hadvance.2.2.2
      · rename_i hne
        intro hcand
        rw [hbits, h.at_candidate hcand]
        simpa using Ne.symm hne
    highest_none := by simp
    highest_some := by
      intro top htop
      obtain ⟨hmem, hmax⟩ := highest_mark h (some.inj htop)
      refine ⟨(hbits top).trans hmem, fun i hi => hmax i ?_⟩
      exact (hbits i).symm.trans hi }

theorem Valid.bit_of_allDone (hdone : map.allDone = true)
    (hi : i < map.pieceCount) : map.bit i = true := by
  have hall : map.completedPieces = map.pieceCount := by simpa [allDone] using hdone
  rw [h.completedPieces_eq, ← card_filter] at hall
  have hcard : ((range map.pieceCount).filter fun i => map.bit i = true).card =
      (range map.pieceCount).card := by rw [hall, card_range]
  exact filter_card_eq hcard i (mem_range.mpr hi)

/-- The completed pieces come first. -/
def Initial (map : PieceMap) : Prop := ∀ i j, i < j → map.bit j = true → map.bit i = true

theorem Valid.sum_len {k : Nat} (hk : k ≤ map.pieceCount) :
    ∑ i ∈ range k, (map.pieceRange i).len = min (k * map.pieceSize) map.totalSize := by
  induction k with
  | zero => simp
  | succ k ih =>
    have hstop := h.pieceRange_stop hk
    have hnext := Nat.add_one_mul k map.pieceSize
    rw [sum_range_succ, ih (le_of_lt hk), Span.len, hstop, pieceRange_start]
    omega

theorem Valid.completedBytes_of_initial (hinit : map.Initial) :
    map.completedBytes = min (map.nextCandidate * map.pieceSize) map.totalSize := by
  have hmiss : ∀ i < map.pieceCount, map.nextCandidate ≤ i → map.bit i = false := by
    intro i hi hle
    have hcand := h.at_candidate (lt_of_le_of_lt hle hi)
    rcases eq_or_lt_of_le hle with rfl | hlt
    · exact hcand
    · by_contra hbit
      rw [hinit _ i hlt (Bool.eq_true_of_not_eq_false hbit)] at hcand
      exact Bool.noConfusion hcand
  rw [← h.sum_len h.candidate_le, h.completedBytes_eq]
  symm
  calc ∑ i ∈ range map.nextCandidate, (map.pieceRange i).len
      = ∑ i ∈ range map.nextCandidate, if map.bit i then (map.pieceRange i).len else 0 := by
        refine sum_congr rfl fun i hi => ?_
        rw [if_pos (h.before_candidate i (mem_range.mp hi))]
    _ = ∑ i ∈ range map.pieceCount, if map.bit i then (map.pieceRange i).len else 0 := by
        refine sum_subset (range_mono h.candidate_le) fun i hi hout => ?_
        rw [mem_range, not_lt] at hout
        rw [hmiss i (mem_range.mp hi) hout]
        rfl

theorem Valid.candidate_lt_completedBytes {j : Nat} (hij : i < j) (hgap : map.bit i = false)
    (hbit : map.bit j = true) : map.nextCandidate * map.pieceSize < map.completedBytes := by
  have hj := h.lt_count_of_bit hbit
  have hle : map.nextCandidate ≤ i := by
    by_contra hlt
    rw [h.before_candidate i (not_le.mp hlt)] at hgap
    exact Bool.noConfusion hgap
  have hstart := h.start_lt_total (lt_of_le_of_lt hle (hij.trans hj))
  have hsum := h.sum_len h.candidate_le
  have hnemp := h.pieceRange_nonempty hj
  have hpart : ∑ k ∈ insert j (range map.nextCandidate),
      (if map.bit k then (map.pieceRange k).len else 0) ≤ map.completedBytes := by
    rw [h.completedBytes_eq]
    refine sum_le_sum_of_subset fun k hk => ?_
    rw [mem_insert, mem_range] at hk
    rw [mem_range]
    omega
  rw [sum_insert (by rw [mem_range]; omega), if_pos hbit] at hpart
  have hbef : ∑ k ∈ range map.nextCandidate, (if map.bit k then (map.pieceRange k).len else 0) =
        ∑ k ∈ range map.nextCandidate, (map.pieceRange k).len :=
    sum_congr rfl fun k hk => if_pos (h.before_candidate k (mem_range.mp hk))
  rw [hbef, Span.len] at hpart
  omega

theorem Valid.completedBytes_lt_stop {top : Nat} (hlt : i < top) (hgap : map.bit i = false)
    (hbit : map.bit top = true) (htop : ∀ k, map.bit k = true → k ≤ top) :
    map.completedBytes < (map.pieceRange top).stop := by
  have hc := h.lt_count_of_bit hbit
  have hbelow : map.completedBytes =
      ∑ k ∈ range (top + 1), if map.bit k then (map.pieceRange k).len else 0 := by
    rw [h.completedBytes_eq]
    symm
    refine sum_subset (range_mono hc) fun k _ hout => if_neg fun hk => ?_
    rw [mem_range] at hout
    exact hout (lt_succ_of_le (htop k hk))
  rw [hbelow, h.pieceRange_stop hc, ← h.sum_len hc]
  refine sum_lt_sum (fun k _ => ?_) ⟨i, mem_range.mpr (by omega), ?_⟩
  · split
    · exact le_refl _
    · exact zero_le _
  · have hnemp := h.pieceRange_nonempty (hlt.trans hc)
    rw [hgap, if_neg Bool.false_ne_true, Span.len]
    omega

omit h

/-- The same pieces, and none of them incomplete again. -/
structure Grows (map next : PieceMap) : Prop where
  pieceSize : next.pieceSize = map.pieceSize
  totalSize : next.totalSize = map.totalSize
  pieceCount : next.pieceCount = map.pieceCount
  bit : ∀ i, map.bit i = true → next.bit i = true

theorem Grows.refl (map : PieceMap) : Grows map map := ⟨rfl, rfl, rfl, fun _ h => h⟩

theorem Grows.trans {next last : PieceMap} (h : Grows map next) (hlast : Grows next last) :
    Grows map last where
  pieceSize := hlast.pieceSize.trans h.pieceSize
  totalSize := hlast.totalSize.trans h.totalSize
  pieceCount := hlast.pieceCount.trans h.pieceCount
  bit i hi := hlast.bit i (h.bit i hi)

theorem Grows.pieceRange {next : PieceMap} (h : Grows map next) (i : Nat) :
    next.pieceRange i = map.pieceRange i := by
  simp only [PieceMap.pieceRange, h.pieceSize, h.totalSize]

theorem markComplete_grows (h : map.Valid) (pieceId : Nat) :
    Grows map (map.markComplete pieceId) where
  pieceSize := markComplete_pieceSize map pieceId
  totalSize := markComplete_totalSize map pieceId
  pieceCount := markComplete_pieceCount map pieceId
  bit i hi := by rw [bit_markComplete h, hi, Bool.true_or]

end PieceMap

end Bytehaul.Storage
