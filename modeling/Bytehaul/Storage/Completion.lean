import Bytehaul.Storage.PieceArithmetic

/-!
# Completion sets

A piece map stands for a set of completed pieces, whatever bytes it was restored from and in
whatever order pieces were marked.
-/

namespace Bytehaul.Storage

open Foundation Option Finset Checked Nat
open Finset (range)

namespace PieceMap

def markCompleteChecked (map : PieceMap) (pieceId : Nat) : Checked PieceMap :=
  if pieceId < map.pieceCount && !map.bit pieceId then do
    let completed := map.completed.set pieceId true
    let completedPieces ← Checked.add map.completedPieces 1
    let len ← pieceLenChecked map.totalSize map.pieceSize pieceId
    let completedBytes ← Checked.add map.completedBytes len
    some { map with
      completed, completedPieces, completedBytes
      highestCompletedPiece :=
        some (map.highestCompletedPiece.elim pieceId (max · pieceId))
      nextCandidate :=
        if pieceId = map.nextCandidate then
          advanceNextCandidate completed map.nextCandidate
        else map.nextCandidate }
  else some map

def completedSet (map : PieceMap) : Finset Nat :=
  (range map.pieceCount).filter fun i => map.isComplete i = true

section Rounded

variable {map : PieceMap}

variable (h : map.Valid)
include h

private theorem Valid.completedPieces_le : map.completedPieces ≤ map.pieceCount := by
  rw [h.completedPieces_eq, ← card_filter]
  exact (card_filter_le _ _).trans_eq (card_range _)

private theorem Valid.completedBytes_le : map.completedBytes ≤ map.totalSize := by
  calc map.completedBytes
      = ∑ i ∈ range map.pieceCount, if map.bit i then (map.pieceRange i).len else 0 :=
        h.completedBytes_eq
    _ ≤ ∑ i ∈ range map.pieceCount, (map.pieceRange i).len := by
        refine sum_le_sum fun i _ => ?_
        split
        · exact le_refl _
        · exact zero_le _
    _ = min (map.pieceCount * map.pieceSize) map.totalSize := h.sum_len (le_refl _)
    _ ≤ map.totalSize := min_le_right _ _

variable (hround : map.pieceCount * map.pieceSize < u64Limit)
include hround

theorem Valid.count_lt_of_rounded : map.pieceCount < u64Limit :=
  Nat.lt_of_le_of_lt (Nat.le_mul_of_pos_right _ h.size_pos) hround

theorem Valid.fits_of_rounded {i : Nat} (hi : i < map.pieceCount) :
    Fits map.totalSize map.pieceSize i where
  start_le := (h.start_lt_total hi).le
  stop_lt := lt_of_le_of_lt (mul_le_mul_right _ hi) hround

private theorem Valid.pieceRangeChecked_eq {i : Nat} (hi : i < map.pieceCount) :
    map.pieceRangeChecked i = some (map.pieceRange i) := by
  have hc := h.count_lt_of_rounded hround
  exact pieceRangeChecked_of_fits (h.fits_of_rounded hround hi) (by omega)

omit hround

theorem Valid.markCompleteChecked_eq (htot : map.totalSize < u64Limit)
    (hround : map.pieceCount * map.pieceSize < u64Limit) {p : Nat} :
    map.markCompleteChecked p = some (map.markComplete p) := by
  have hc := h.count_lt_of_rounded hround
  unfold markCompleteChecked
  split
  · rename_i hfresh
    rw [Bool.and_eq_true, decide_eq_true_eq, Bool.not_eq_true'] at hfresh
    have hmark := markComplete_valid h p
    have hps := hmark.completedPieces_le
    have hbyt := hmark.completedBytes_le
    rw [markComplete_of_fresh hfresh.1 hfresh.2] at hps hbyt ⊢
    dsimp only at hps hbyt
    have hadd : add map.completedPieces 1 = some (map.completedPieces + 1) :=
      add_eq_some.mpr ⟨by omega, rfl⟩
    have hlen := pieceLenChecked_of_fits (h.fits_of_rounded hround hfresh.1) (by omega)
    have hsum : add map.completedBytes (pieceLen map.totalSize map.pieceSize p) =
        some (map.completedBytes + pieceLen map.totalSize map.pieceSize p) :=
      add_eq_some.mpr ⟨by omega, rfl⟩
    simp only [hadd, hlen, hsum, bind_eq_bind, bind_some]
  · rename_i hmark
    rw [markComplete_of_marked]
    simpa using hmark

end Rounded

section Marks

variable {map : PieceMap}

def markAll (map : PieceMap) (ids : List Nat) : PieceMap := ids.foldl markComplete map

@[simp] theorem markAll_cons (map : PieceMap) (id : Nat) (ids : List Nat) :
    map.markAll (id :: ids) = (map.markComplete id).markAll ids := rfl

private theorem markAll_valid (h : map.Valid) (ids : List Nat) : (map.markAll ids).Valid := by
  induction ids generalizing map with
  | nil => exact h
  | cons id ids ih => exact ih (markComplete_valid h id)

private theorem markAll_sizes (map : PieceMap) (ids : List Nat) :
    (map.markAll ids).pieceSize = map.pieceSize ∧ (map.markAll ids).totalSize = map.totalSize ∧
      (map.markAll ids).pieceCount = map.pieceCount := by
  induction ids generalizing map with
  | nil => exact ⟨rfl, rfl, rfl⟩
  | cons id ids ih => simpa using ih (map.markComplete id)

private theorem bit_markAll (h : map.Valid) (ids : List Nat) (i : Nat) :
    (map.markAll ids).bit i = (map.bit i || decide (i ∈ ids ∧ i < map.pieceCount)) := by
  induction ids generalizing map with
  | nil => simp [markAll]
  | cons id ids ih =>
    rw [markAll_cons, ih (markComplete_valid h id), bit_markComplete h, markComplete_pieceCount]
    grind

private theorem foldlM_markCompleteChecked (h : map.Valid) (htot : map.totalSize < u64Limit)
    (hround : map.pieceCount * map.pieceSize < u64Limit) (ids : List Nat) :
    ids.foldlM markCompleteChecked map = some (map.markAll ids) := by
  induction ids generalizing map with
  | nil => rfl
  | cons id ids ih =>
    rw [List.foldlM_cons, h.markCompleteChecked_eq htot hround]
    exact ih (markComplete_valid h id) (by simpa using htot) (by simpa using hround)

end Marks

section Sets

variable {map : PieceMap}

variable (h : map.Valid)
include h

theorem Valid.isComplete_iff (i : Nat) : map.isComplete i = true ↔ map.bit i = true := by
  rw [isComplete, Bool.and_eq_true, decide_eq_true_eq, and_iff_right_iff_imp]
  exact h.lt_count_of_bit

theorem Valid.mem_completedSet (i : Nat) : i ∈ map.completedSet ↔ map.bit i = true := by
  rw [completedSet, mem_filter, h.isComplete_iff, mem_range, and_iff_right_iff_imp]
  exact h.lt_count_of_bit

theorem Valid.completedSet_eq :
    map.completedSet = (range map.pieceCount).filter fun i => map.bit i = true := by
  ext i
  rw [completedSet, mem_filter, mem_filter, h.isComplete_iff]

theorem Valid.completedPieces_eq_card : map.completedPieces = map.completedSet.card := by
  rw [h.completedSet_eq, card_filter, h.completedPieces_eq]

theorem Valid.completedBytes_eq_sum :
    map.completedBytes = ∑ i ∈ map.completedSet, (map.pieceRange i).len := by
  rw [h.completedSet_eq, sum_filter, h.completedBytes_eq]

private theorem Valid.remainingCount_eq_card :
    map.remainingCount = (range map.pieceCount \ map.completedSet).card := by
  have hsubset : map.completedSet ⊆ range map.pieceCount := filter_subset _ _
  rw [remainingCount, h.completedPieces_eq_card, card_sdiff_of_subset hsubset, card_range]

private theorem Valid.firstMissing_eq_some (i : Nat) :
    map.firstMissing = some i ↔ IsLeast {j | j < map.pieceCount ∧ j ∉ map.completedSet} i := by
  have hgap {j : Nat} (hj : j < map.pieceCount) (hmiss : j ∉ map.completedSet) :
      map.nextCandidate ≤ j := by
    by_contra hlt
    exact hmiss ((h.mem_completedSet j).mpr (h.before_candidate j (not_le.mp hlt)))
  have hat (hlt : map.nextCandidate < map.pieceCount) : map.nextCandidate ∉ map.completedSet := by
    rw [h.mem_completedSet, h.at_candidate hlt]
    exact Bool.false_ne_true
  unfold firstMissing
  split
  · rename_i hlt
    rw [some.injEq]
    constructor
    · rintro rfl
      exact ⟨⟨hlt, hat hlt⟩, fun j hj => hgap hj.1 hj.2⟩
    · rintro ⟨hi, hleast⟩
      exact le_antisymm (hgap hi.1 hi.2) (hleast ⟨hlt, hat hlt⟩)
  · constructor
    · intro hnone
      contradiction
    · rintro ⟨hi, -⟩
      have := hgap hi.1 hi.2
      have := hi.1
      omega

theorem Valid.highestCompletedPiece_eq_some (i : Nat) :
    map.highestCompletedPiece = some i ↔ IsGreatest (map.completedSet : Set Nat) i := by
  have hmem (j : Nat) : j ∈ (map.completedSet : Set Nat) ↔ map.bit j = true := h.mem_completedSet j
  constructor
  · intro hhigh
    obtain ⟨hbit, hmax⟩ := h.highest_some i hhigh
    exact ⟨(hmem i).mpr hbit, fun j hj => hmax j ((hmem j).mp hj)⟩
  · rintro ⟨hi, hgreatest⟩
    have hbit := (hmem i).mp hi
    cases hhigh : map.highestCompletedPiece with
    | none =>
      rw [h.highest_none hhigh i] at hbit
      contradiction
    | some top =>
      obtain ⟨htop, hmax⟩ := h.highest_some top hhigh
      rw [le_antisymm (hmax i hbit) (hgreatest ((hmem top).mpr htop))]

theorem Valid.allDone_iff : map.allDone = true ↔ map.completedSet = range map.pieceCount := by
  have hsubset : map.completedSet ⊆ range map.pieceCount := filter_subset _ _
  rw [allDone, beq_iff_eq, h.completedPieces_eq_card]
  constructor
  · intro hcard
    exact eq_of_subset_of_card_le hsubset (by rw [card_range, hcard])
  · intro hset
    rw [hset, card_range]

theorem Valid.ext {other : PieceMap} (ho : other.Valid)
    (hsize : map.pieceSize = other.pieceSize) (htot : map.totalSize = other.totalSize)
    (hc : map.pieceCount = other.pieceCount) (hbits : map.completed = other.completed) :
    map = other := by
  have hbit (i : Nat) : map.bit i = other.bit i := congrArg (List.getD · i false) hbits
  have hset : map.completedSet = other.completedSet := by
    ext i
    rw [h.mem_completedSet, ho.mem_completedSet, hbit]
  have hrng (i : Nat) : map.pieceRange i = other.pieceRange i := by
    simp only [pieceRange, hsize, htot]
  have hps : map.completedPieces = other.completedPieces := by
    rw [h.completedPieces_eq_card, ho.completedPieces_eq_card, hset]
  have hbyt : map.completedBytes = other.completedBytes := by
    rw [h.completedBytes_eq_sum, ho.completedBytes_eq_sum, hset]
    exact sum_congr rfl fun i _ => by rw [hrng]
  have hhigh : map.highestCompletedPiece = other.highestCompletedPiece := by
    refine Option.ext fun i => ?_
    rw [h.highestCompletedPiece_eq_some, ho.highestCompletedPiece_eq_some, hset]
  have hcand : map.nextCandidate = other.nextCandidate := by
    have hle := h.candidate_le
    have hle' := ho.candidate_le
    rcases lt_trichotomy map.nextCandidate other.nextCandidate with hlt | heq | hlt
    · have hgap := h.at_candidate (by omega)
      rw [hbit, ho.before_candidate _ hlt] at hgap
      contradiction
    · exact heq
    · have hgap := ho.at_candidate (by omega)
      rw [← hbit, h.before_candidate _ hlt] at hgap
      contradiction
  cases map
  simp_all

end Sets

/-- A map as a session opens it: fresh, or restored from any bytes. -/
inductive Opened (totalSize pieceSize : Nat) : PieceMap → Prop
  | fresh : Opened totalSize pieceSize (new totalSize pieceSize)
  | restored (bitset : List UInt8) :
      Opened totalSize pieceSize
        (fromBitset totalSize pieceSize bitset (divCeil totalSize pieceSize))

variable {totalSize pieceSize : Nat} {map : PieceMap}

theorem Opened.valid (hsize : 0 < pieceSize) (h : Opened totalSize pieceSize map) : map.Valid := by
  cases h with
  | fresh => exact new_valid hsize
  | restored bitset => exact fromBitset_valid bitset hsize (le_refl _)

private theorem Opened.sizes (h : Opened totalSize pieceSize map) :
    map.pieceSize = pieceSize ∧ map.totalSize = totalSize ∧
      map.pieceCount = divCeil totalSize pieceSize := by
  cases h with
  | fresh | restored bitset => exact ⟨rfl, rfl, rfl⟩

/-- The ranges of the pieces cut the file into consecutive non-empty parts. -/
structure Partitions (map : PieceMap) (totalSize : Nat) : Prop where
  computed : ∀ i < map.pieceCount, map.pieceRangeChecked i = some (map.pieceRange i)
  nonempty : ∀ i < map.pieceCount, (map.pieceRange i).start < (map.pieceRange i).stop
  first : (map.pieceRange 0).start = 0
  consecutive : ∀ i, i + 1 < map.pieceCount →
    (map.pieceRange i).stop = (map.pieceRange (i + 1)).start
  cover : ∀ b, b < totalSize ↔ ∃! i, i < map.pieceCount ∧ b ∈ map.pieceRange i

structure Reflects (map : PieceMap) (completed : Finset Nat) : Prop where
  completedCount : map.completedPieces = completed.card
  completedBytes : map.completedBytes = ∑ i ∈ completed, (map.pieceRange i).len
  remainingCount : map.remainingCount = (range map.pieceCount \ completed).card
  firstMissing : ∀ i, map.firstMissing = some i ↔
    IsLeast {j | j < map.pieceCount ∧ j ∉ completed} i
  highestCompletedPiece : ∀ i, map.highestCompletedPiece = some i ↔
    IsGreatest (completed : Set Nat) i
  allDone : map.allDone = true ↔ completed = range map.pieceCount

private theorem Valid.reflects (h : map.Valid) : map.Reflects map.completedSet where
  completedCount := h.completedPieces_eq_card
  completedBytes := h.completedBytes_eq_sum
  remainingCount := h.remainingCount_eq_card
  firstMissing := h.firstMissing_eq_some
  highestCompletedPiece := h.highestCompletedPiece_eq_some
  allDone := h.allDone_iff

private theorem Valid.partitions (h : map.Valid)
    (hc : map.pieceCount = divCeil map.totalSize map.pieceSize)
    (hround : map.pieceCount * map.pieceSize < u64Limit) : map.Partitions map.totalSize where
  computed i hi := h.pieceRangeChecked_eq hround hi
  nonempty i hi := h.pieceRange_nonempty hi
  first := by simp
  consecutive i hi := h.pieceRange_stop_eq_start hi
  cover b := by
    constructor
    · intro hb
      have hlt : b / map.pieceSize < map.pieceCount := by
        rw [hc, lt_divCeil_iff h.size_pos]
        exact lt_of_le_of_lt (div_mul_le_self b map.pieceSize) hb
      refine ⟨b / map.pieceSize, ⟨hlt, (h.mem_pieceRange_iff hlt b).mpr ⟨hb, rfl⟩⟩, ?_⟩
      rintro i ⟨hi, hmem⟩
      exact ((h.mem_pieceRange_iff hi b).mp hmem).2.symm
    · rintro ⟨i, ⟨hi, hmem⟩, -⟩
      exact ((h.mem_pieceRange_iff hi b).mp hmem).1

private theorem resize_fromSlice_unused (bits unused : List Bool) :
    resize (fromSlice (rawSlice (bits ++ unused))) bits.length = bits := by
  obtain ⟨padding, hslice⟩ := fromSlice_rawSlice (bits ++ unused)
  rw [hslice, resize, List.append_assoc]
  simp

/-- What was restored is what the bytes were taken from, unused bits or not. -/
theorem Valid.restore_eq (h : map.Valid) (unused : List Bool) :
    fromBitset map.totalSize map.pieceSize (rawSlice (map.completed ++ unused))
      map.pieceCount = map := by
  have hbits := resize_fromSlice_unused map.completed unused
  rw [h.length_completed] at hbits
  exact (fromBitset_valid _ h.size_pos h.count_le).ext h rfl rfl rfl hbits

theorem fromBitsetChecked_of_rounded (hsize : 0 < pieceSize)
    (hround : divCeil totalSize pieceSize * pieceSize < u64Limit) (bitset : List UInt8) :
    fromBitsetChecked totalSize pieceSize bitset (divCeil totalSize pieceSize) =
      some (fromBitset totalSize pieceSize bitset (divCeil totalSize pieceSize)) := by
  have hval := fromBitset_valid bitset hsize (le_refl (divCeil totalSize pieceSize))
  refine fromBitsetChecked_of_fits ?_ ?_ fun i hi => ?_
  · exact lt_of_le_of_lt (le_divCeil_mul hsize) hround
  · exact hval.count_lt_of_rounded hround
  · exact hval.fits_of_rounded hround (hval.lt_count_of_bit hi)

/-- Pieces may be completed in any order and any number of times. -/
theorem piece_map_reflects_completed_set {totalSize pieceSize : Nat} (hsize : 1 ≤ pieceSize)
    (hround : divCeil totalSize pieceSize * pieceSize < u64Limit) {start : PieceMap}
    (hstart : Opened totalSize pieceSize start) (ids : List Nat) :
    (∀ bitset, fromBitsetChecked totalSize pieceSize bitset (divCeil totalSize pieceSize) =
      some (fromBitset totalSize pieceSize bitset (divCeil totalSize pieceSize))) ∧
    ∃ map, ids.foldlM markCompleteChecked start = some map ∧
      map.pieceCount = divCeil totalSize pieceSize ∧
      map.Partitions totalSize ∧
      (∀ i, i ∈ map.completedSet ↔ i < map.pieceCount ∧ (start.isComplete i = true ∨ i ∈ ids)) ∧
      map.Reflects map.completedSet ∧
      fromBitsetChecked totalSize pieceSize map.toBitsetBytes map.pieceCount = some map ∧
      ∀ unused, fromBitsetChecked totalSize pieceSize (rawSlice (map.completed ++ unused))
        map.pieceCount = some map := by
  have hval := hstart.valid hsize
  obtain ⟨hpieceSize, htotalSize, hc⟩ := hstart.sizes
  obtain ⟨hmarkedSize, hmarkedTotal, hmarks⟩ := start.markAll_sizes ids
  rw [hpieceSize] at hmarkedSize
  rw [htotalSize] at hmarkedTotal
  rw [hc] at hmarks
  have hmark := markAll_valid hval ids
  have hrstd (unused : List Bool) :
      fromBitsetChecked totalSize pieceSize (rawSlice ((start.markAll ids).completed ++ unused))
        (start.markAll ids).pieceCount = some (start.markAll ids) := by
    have hrestore := hmark.restore_eq unused
    rw [hmarkedSize, hmarkedTotal, hmarks] at hrestore
    rw [hmarks, fromBitsetChecked_of_rounded hsize hround, hrestore]
  refine ⟨fromBitsetChecked_of_rounded hsize hround, start.markAll ids, ?_, hmarks, ?_, ?_,
    hmark.reflects, ?_, hrstd⟩
  · refine foldlM_markCompleteChecked hval ?_ ?_ ids
    · rw [htotalSize]
      exact lt_of_le_of_lt (le_divCeil_mul hsize) hround
    · rw [hc, hpieceSize]
      exact hround
  · have hparts := hmark.partitions (by rw [hmarks, hmarkedTotal, hmarkedSize])
      (by rw [hmarks, hmarkedSize]; exact hround)
    rw [hmarkedTotal] at hparts
    exact hparts
  · intro i
    have hlt := hval.lt_count_of_bit (i := i)
    rw [hmark.mem_completedSet, bit_markAll hval, hval.isComplete_iff, hmarks,
      ← hc, Bool.or_eq_true, decide_eq_true_eq]
    tauto
  · have hbyt := hrstd []
    rw [List.append_nil] at hbyt
    exact hbyt

theorem ten_bytes_restored_and_marked : Opened 10 4 (fromBitset 10 4 [0xf2] 3) ∧
    ∃ map, [2, 7, 2].foldlM markCompleteChecked (fromBitset 10 4 [0xf2] 3) = some map ∧
      map.Reflects {1, 2} ∧
      fromBitsetChecked 10 4 map.toBitsetBytes map.pieceCount = some map := by
  have hopened : Opened 10 4 (fromBitset 10 4 [0xf2] 3) := .restored [0xf2]
  obtain ⟨-, map, hmap, -, -, hset, hreflects, hrstd, -⟩ :=
    piece_map_reflects_completed_set (by decide) (by decide) hopened [2, 7, 2]
  have hf : some map = some ((fromBitset 10 4 [0xf2] 3).markAll [2, 7, 2]) := by
    rw [← hmap]
    decide
  have heq : map.completedSet = {1, 2} := by
    rw [some.inj hf]
    decide
  rw [heq] at hreflects
  exact ⟨hopened, map, hmap, hreflects, hrstd⟩

end PieceMap

end Bytehaul.Storage
