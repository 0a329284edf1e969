import Bytehaul.Foundation.Checked
import Bytehaul.Storage.Control

/-!
# Piece arithmetic in `u64`

The functions of `storage/piece_map.rs` in checked arithmetic agree with the unbounded ones
exactly as long as every piece starts within the file and ends below the `u64` limit.
-/

namespace Bytehaul.Storage

open Foundation Option Checked Nat PieceMap

namespace PieceMap

def pieceLenChecked (totalSize pieceSize pieceId : Nat) : Checked Nat := do
  let start ← mul pieceId pieceSize
  let next ← add pieceId 1
  let stop ← mul next pieceSize
  sub (min stop totalSize) start

def restoreLoopChecked (totalSize pieceSize pieceCount : Nat) :
    List Bool → Nat → Restored → Checked Restored
  | [], _, acc => some acc
  | true :: bits, pieceId, acc => do
      let completedPieces ← add acc.completedPieces 1
      let len ← pieceLenChecked totalSize pieceSize pieceId
      let completedBytes ← add acc.completedBytes len
      restoreLoopChecked totalSize pieceSize pieceCount bits (pieceId + 1)
        { acc with completedPieces, completedBytes, highestCompletedPiece := some pieceId }
  | false :: bits, pieceId, acc =>
    restoreLoopChecked totalSize pieceSize pieceCount bits (pieceId + 1)
      (if acc.nextCandidate = pieceCount then { acc with nextCandidate := pieceId }
        else acc)

def fromBitsetChecked (totalSize pieceSize : Nat) (bitset : List UInt8) (pieceCount : Nat) :
    Checked PieceMap := do
  let completed := resize (fromSlice bitset) pieceCount
  let restored ← restoreLoopChecked totalSize pieceSize pieceCount completed 0
    ⟨0, 0, pieceCount, none⟩
  some ⟨pieceSize, totalSize, pieceCount, completed, restored.completedPieces,
    restored.completedBytes, restored.nextCandidate, restored.highestCompletedPiece⟩

def pieceRangeChecked (map : PieceMap) (pieceId : Nat) : Checked Span := do
  let start ← mul pieceId map.pieceSize
  let len ← pieceLenChecked map.totalSize map.pieceSize pieceId
  let stop ← add start len
  some ⟨start, stop⟩

structure Fits (totalSize pieceSize pieceId : Nat) : Prop where
  start_le : pieceId * pieceSize ≤ totalSize
  stop_lt : (pieceId + 1) * pieceSize < u64Limit

variable {totalSize pieceSize pieceCount pieceId : Nat} {map : PieceMap}

variable (h : Fits totalSize pieceSize pieceId)
include h

theorem Fits.start_lt : pieceId * pieceSize < u64Limit :=
  lt_of_le_of_lt (mul_le_mul_right pieceSize (le_succ pieceId)) h.stop_lt

theorem Fits.pieceLen_eq : pieceId * pieceSize + pieceLen totalSize pieceSize pieceId =
      min ((pieceId + 1) * pieceSize) totalSize := by
  have hstart := h.start_le
  have hnext : pieceId * pieceSize ≤ (pieceId + 1) * pieceSize :=
    mul_le_mul_right pieceSize (le_succ pieceId)
  unfold pieceLen
  omega

theorem pieceLenChecked_of_fits (hid : pieceId + 1 < u64Limit) :
    pieceLenChecked totalSize pieceSize pieceId = some (pieceLen totalSize pieceSize pieceId) := by
  have hlen := h.pieceLen_eq
  have hsub : sub (min ((pieceId + 1) * pieceSize) totalSize) (pieceId * pieceSize) =
      some (pieceLen totalSize pieceSize pieceId) :=
    sub_eq_some.mpr ⟨by omega, rfl⟩
  simp only [pieceLenChecked, mul_eq_some.mpr ⟨h.start_lt, rfl⟩,
    add_eq_some.mpr ⟨hid, rfl⟩, mul_eq_some.mpr ⟨h.stop_lt, rfl⟩, hsub,
    bind_eq_bind, bind_some]

omit h

theorem pieceLenChecked_eq_some {len : Nat}
    (h : pieceLenChecked totalSize pieceSize pieceId = some len) :
    Fits totalSize pieceSize pieceId ∧ len = pieceLen totalSize pieceSize pieceId := by
  simp only [pieceLenChecked, bind_eq_bind, bind_eq_some_iff, mul_eq_some,
    add_eq_some, sub_eq_some] at h
  obtain ⟨_, ⟨-, rfl⟩, _, ⟨-, rfl⟩, _, ⟨hstop, rfl⟩, hle, rfl⟩ := h
  exact ⟨⟨hle.trans (min_le_right _ _), hstop⟩, rfl⟩

theorem pieceRangeChecked_of_fits (h : Fits map.totalSize map.pieceSize pieceId)
    (hid : pieceId + 1 < u64Limit) :
    map.pieceRangeChecked pieceId = some (map.pieceRange pieceId) := by
  have hlen := h.pieceLen_eq
  have hstop := h.stop_lt
  have hadd : add (pieceId * map.pieceSize)
      (pieceLen map.totalSize map.pieceSize pieceId) = some (map.pieceRange pieceId).stop :=
    add_eq_some.mpr ⟨by omega, rfl⟩
  simp only [pieceRangeChecked, mul_eq_some.mpr ⟨h.start_lt, rfl⟩,
    pieceLenChecked_of_fits h hid, hadd, bind_eq_bind, bind_some]
  rfl

theorem fits_of_pieceRangeChecked {span : Span} (h : map.pieceRangeChecked pieceId = some span) :
    Fits map.totalSize map.pieceSize pieceId := by
  simp only [pieceRangeChecked, bind_eq_bind, bind_eq_some_iff] at h
  obtain ⟨_, -, _, hlen, -⟩ := h
  exact (pieceLenChecked_eq_some hlen).1

theorem restoreLoopChecked_of_fits (htot : totalSize < u64Limit) {bits : List Bool}
    {acc : Restored} (hids : pieceId + bits.length < u64Limit)
    (hfits : ∀ i, bits.getD i false = true → Fits totalSize pieceSize (pieceId + i))
    (hps : acc.completedPieces ≤ pieceId)
    (hbyt : acc.completedBytes ≤ min (pieceId * pieceSize) totalSize) :
    restoreLoopChecked totalSize pieceSize pieceCount bits pieceId acc =
      some (restoreLoop totalSize pieceSize pieceCount bits pieceId acc) := by
  induction bits generalizing pieceId acc with
  | nil => rfl
  | cons bit bits ih =>
    have hnext : pieceId * pieceSize ≤ (pieceId + 1) * pieceSize :=
      mul_le_mul_right pieceSize (le_succ pieceId)
    have htail : ∀ i, bits.getD i false = true → Fits totalSize pieceSize (pieceId + 1 + i) := by
      intro i hi
      have hshift := hfits (i + 1) hi
      rwa [add_comm i 1, ← add_assoc] at hshift
    rw [List.length_cons] at hids
    cases bit with
    | true =>
      have hfit : Fits totalSize pieceSize pieceId := hfits 0 rfl
      have hlen := hfit.pieceLen_eq
      have hc : add acc.completedPieces 1 = some (acc.completedPieces + 1) :=
        add_eq_some.mpr ⟨by omega, rfl⟩
      have hsum : add acc.completedBytes (pieceLen totalSize pieceSize pieceId) =
          some (acc.completedBytes + pieceLen totalSize pieceSize pieceId) :=
        add_eq_some.mpr ⟨by omega, rfl⟩
      simp only [restoreLoopChecked, hc, pieceLenChecked_of_fits hfit (by omega), hsum,
        bind_eq_bind, bind_some]
      exact ih (by omega) htail (succ_le_succ hps) (by simp only; omega)
    | false =>
      refine ih (by omega) htail ?_ ?_
      · split <;> exact le_succ_of_le hps
      · have hbytes' : acc.completedBytes ≤ min ((pieceId + 1) * pieceSize) totalSize := by omega
        split <;> exact hbytes'

theorem restoreLoopChecked_eq_some {bits : List Bool} {acc last : Restored}
    (h : restoreLoopChecked totalSize pieceSize pieceCount bits pieceId acc = some last) :
    (∀ i, bits.getD i false = true → Fits totalSize pieceSize (pieceId + i)) ∧
      last = restoreLoop totalSize pieceSize pieceCount bits pieceId acc := by
  induction bits generalizing pieceId acc with
  | nil =>
    cases h
    exact ⟨fun i hi => by simp at hi, rfl⟩
  | cons bit bits ih =>
    cases bit with
    | true =>
      simp only [restoreLoopChecked, bind_eq_bind, bind_eq_some_iff, add_eq_some] at h
      obtain ⟨_, ⟨-, rfl⟩, _, hlen, _, ⟨-, rfl⟩, hrest⟩ := h
      obtain ⟨hfit, rfl⟩ := pieceLenChecked_eq_some hlen
      obtain ⟨hfits, hlast⟩ := ih hrest
      refine ⟨fun i hi => ?_, hlast⟩
      cases i with
      | zero => exact hfit
      | succ i =>
        have hshift := hfits i hi
        rwa [add_assoc, add_comm 1 i] at hshift
    | false =>
      obtain ⟨hfits, hlast⟩ := ih h
      refine ⟨fun i hi => ?_, hlast⟩
      cases i with
      | zero => exact Bool.noConfusion hi
      | succ i =>
        have hshift := hfits i hi
        rwa [add_assoc, add_comm 1 i] at hshift

theorem fromBitsetChecked_of_fits (htot : totalSize < u64Limit) (hc : pieceCount < u64Limit)
    {bitset : List UInt8}
    (hfits : ∀ i, (fromBitset totalSize pieceSize bitset pieceCount).bit i = true →
      Fits totalSize pieceSize i) :
    fromBitsetChecked totalSize pieceSize bitset pieceCount =
      some (fromBitset totalSize pieceSize bitset pieceCount) := by
  have hlen := length_resize (fromSlice bitset) pieceCount
  have hloop : restoreLoopChecked totalSize pieceSize pieceCount
      (resize (fromSlice bitset) pieceCount) 0 ⟨0, 0, pieceCount, none⟩ =
        some (restoreLoop totalSize pieceSize pieceCount (resize (fromSlice bitset) pieceCount) 0
          ⟨0, 0, pieceCount, none⟩) := by
    refine restoreLoopChecked_of_fits htot (by omega) (fun i hi => ?_) (le_refl 0) (zero_le _)
    rw [zero_add]
    exact hfits i hi
  rw [fromBitsetChecked, hloop]
  rfl

private theorem fromBitsetChecked_eq_some {bitset : List UInt8}
    (h : fromBitsetChecked totalSize pieceSize bitset pieceCount = some map) :
    (∀ i, map.bit i = true → Fits totalSize pieceSize i) ∧
      map = fromBitset totalSize pieceSize bitset pieceCount := by
  simp only [fromBitsetChecked, bind_eq_bind, bind_eq_some_iff] at h
  obtain ⟨_, hloop, hmap⟩ := h
  obtain ⟨hfits, rfl⟩ := restoreLoopChecked_eq_some hloop
  cases hmap
  refine ⟨fun i hi => ?_, rfl⟩
  have hfit := hfits i hi
  rwa [zero_add] at hfit

end PieceMap

namespace ControlSnapshot

/-- `from_bitset` on the fields of a snapshot; `resize` panics beyond `MAX_BITS`. -/
def pieceMapChecked (snapshot : ControlSnapshot) : Checked PieceMap :=
  if maxBits < snapshot.pieceCount then none
  else
    fromBitsetChecked snapshot.totalSize snapshot.pieceSize snapshot.completedBitset
      snapshot.pieceCount

/-- The numbers of a snapshot have the width of their fields. -/
structure FitsU64 (snapshot : ControlSnapshot) : Prop where
  totalSize : snapshot.totalSize < u64Limit
  pieceSize : snapshot.pieceSize < u64Limit
  pieceCount : snapshot.pieceCount < u64Limit
  downloadedBytes : snapshot.downloadedBytes < u64Limit

variable {snap : ControlSnapshot}

theorem FitsU64.pieceMapChecked_of_fits (h : snap.FitsU64)
    (hbits : snap.pieceCount ≤ maxBits)
    (hfits : ∀ i, snap.pieceMap.bit i = true →
      PieceMap.Fits snap.totalSize snap.pieceSize i) :
    snap.pieceMapChecked = some snap.pieceMap := by
  rw [pieceMapChecked, if_neg (not_lt.mpr hbits)]
  exact fromBitsetChecked_of_fits h.totalSize h.pieceCount hfits

theorem pieceMapChecked_eq_some {map : PieceMap} (h : snap.pieceMapChecked = some map) :
    snap.pieceCount ≤ maxBits ∧ map = snap.pieceMap ∧
      ∀ i, map.bit i = true → PieceMap.Fits snap.totalSize snap.pieceSize i := by
  unfold pieceMapChecked at h
  split at h
  case isTrue => cases h
  case isFalse hbits =>
    obtain ⟨hfits, hmap⟩ := fromBitsetChecked_eq_some h
    exact ⟨Nat.le_of_not_lt hbits, hmap, hfits⟩

def Marks (snapshot : ControlSnapshot) (i : Nat) : Prop :=
  i < snapshot.pieceCount ∧
    (snapshot.completedBitset.getD (i / 8) 0).toNat.testBit (i % 8) = true

instance (snapshot : ControlSnapshot) (i : Nat) : Decidable (snapshot.Marks i) := by
  unfold Marks
  infer_instance

theorem bit_pieceMap (snap : ControlSnapshot) (i : Nat) :
    snap.pieceMap.bit i = decide (snap.Marks i) := by
  change (resize (fromSlice snap.completedBitset) snap.pieceCount).getD i false = _
  rw [getD_resize, getD_fromSlice]
  simp [Marks]

theorem firstMissing_iff (snap : ControlSnapshot) (i : Nat) :
    snap.pieceMap.firstMissing = some i ↔
      i < snap.pieceCount ∧ ¬ snap.Marks i ∧ ∀ j < i, snap.Marks j := by
  have hbit : ∀ j, (resize (fromSlice snap.completedBitset) snap.pieceCount).getD j false =
      decide (snap.Marks j) := snap.bit_pieceMap
  have hcand := (restored_describes snap.totalSize snap.pieceSize
    snap.pieceCount snap.completedBitset).candidate
  change (if snap.pieceMap.nextCandidate < snap.pieceCount then
    some snap.pieceMap.nextCandidate else none) = some i ↔ _
  change (snap.pieceMap.nextCandidate = _ ∧ _) ∨
    (snap.pieceMap.nextCandidate < _ ∧ _) at hcand
  simp only [hbit, length_resize, decide_eq_true_eq, decide_eq_false_iff_not] at hcand
  rcases hcand with ⟨hnone, hall⟩ | ⟨hlt, hgap, hbef⟩
  · rw [if_neg (by omega)]
    exact iff_of_false nofun fun ⟨hi, hunm, _⟩ => hunm (hall i hi)
  · rw [if_pos hlt, some.injEq]
    constructor
    · rintro rfl
      exact ⟨hlt, hgap, hbef⟩
    · rintro ⟨-, hunm, hmark⟩
      rcases lt_trichotomy snap.pieceMap.nextCandidate i with hless | heq | hmore
      · exact absurd (hmark _ hless) hgap
      · exact heq
      · exact absurd (hbef i hmore) hunm

theorem completedBytes_eq (snap : ControlSnapshot) : snap.pieceMap.completedBytes =
    ∑ i ∈ Finset.range snap.pieceCount, if snap.Marks i then
      pieceLen snap.totalSize snap.pieceSize i else 0 := by
  have hbyt := (restored_describes snap.totalSize snap.pieceSize
    snap.pieceCount snap.completedBitset).bytes
  rw [length_resize] at hbyt
  refine hbyt.trans (Finset.sum_congr rfl fun i _ => ?_)
  have hbit : (resize (fromSlice snap.completedBitset) snap.pieceCount).getD i false =
      decide (snap.Marks i) := snap.bit_pieceMap i
  simp only [hbit, decide_eq_true_eq]

theorem highest_is_marked (snap : ControlSnapshot) {top : Nat}
    (h : snap.pieceMap.highestCompletedPiece = some top) :
    snap.Marks top ∧ ∀ i, snap.Marks i → i ≤ top := by
  obtain ⟨hbit, hmax⟩ := (restored_describes snap.totalSize snap.pieceSize
    snap.pieceCount snap.completedBitset).some top h
  change snap.pieceMap.bit top = true at hbit
  change ∀ i, snap.pieceMap.bit i = true → i ≤ top at hmax
  simp only [bit_pieceMap, decide_eq_true_eq] at hbit hmax
  exact ⟨hbit, hmax⟩

end ControlSnapshot

end Bytehaul.Storage
