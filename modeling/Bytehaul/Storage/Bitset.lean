import Mathlib

/-!
# Bits and bytes

The `BitVec<u8, Lsb0>` of `storage/piece_map.rs`: a list of bits, and the bytes it is
stored as.
-/

namespace Bytehaul.Storage

open List Nat

def divCeil (a b : Nat) : Nat := (a + b - 1) / b

def byteBits (byte : UInt8) : List Bool :=
  (range 8).map fun i => byte.toNat.testBit i

def packed (bits : List Bool) : Nat := bits.foldr (fun bit acc => bit.toNat + 2 * acc) 0

def packByte (bits : List Bool) : UInt8 := UInt8.ofNat (packed bits)

def fromSlice (bytes : List UInt8) : List Bool := bytes.flatMap byteBits

/-- `as_raw_slice`, with the unused bits of the last byte zero. -/
def rawSlice (bits : List Bool) : List UInt8 :=
  (range (divCeil bits.length 8)).map fun i => packByte ((bits.drop (8 * i)).take 8)

/-- `MAX_BITS` of the bit vectors on a 64-bit machine. -/
def maxBits : Nat := 2 ^ 61 - 1

def resize (bits : List Bool) (count : Nat) : List Bool :=
  bits.take count ++ replicate (count - bits.length) false

theorem length_resize (bits : List Bool) (count : Nat) : (resize bits count).length = count := by
  simp only [resize, length_append, length_take, length_replicate]
  omega

theorem getD_fromSlice (bytes : List UInt8) (i : Nat) :
    (fromSlice bytes).getD i false = (bytes.getD (i / 8) 0).toNat.testBit (i % 8) := by
  induction bytes generalizing i with
  | nil => simp [fromSlice]
  | cons byte bytes ih =>
    have hlen : (byteBits byte).length = 8 := by simp [byteBits]
    have hspl : fromSlice (byte :: bytes) = byteBits byte ++ fromSlice bytes := rfl
    rw [hspl]
    by_cases hi : i < 8
    · rw [getD_append _ _ _ _ (by omega), div_eq_of_lt hi, mod_eq_of_lt hi, getD_cons_zero]
      simp [byteBits, getD, hi]
    · obtain ⟨k, rfl⟩ := Nat.exists_eq_add_of_le' (Nat.le_of_not_lt hi)
      rw [getD_append_right _ _ _ _ (by omega), hlen, Nat.add_sub_cancel, ih,
        add_mod_right, add_div_right _ (by omega)]
      rfl

theorem getD_resize (bits : List Bool) (count i : Nat) :
    (resize bits count).getD i false = (decide (i < count) && bits.getD i false) := by
  unfold resize
  grind

variable {bits : List Bool}

theorem packed_cons {bit : Bool} :
    packed (bit :: bits) = bit.toNat + 2 * packed bits := rfl

private theorem packed_lt : packed bits < 2 ^ bits.length := by
  induction bits with
  | nil => simp [packed]
  | cons bit bits ih =>
    have hbit := bit.toNat_lt
    rw [packed_cons, length_cons]
    omega

private theorem testBit_packed {i : Nat} : (packed bits).testBit i = bits.getD i false := by
  induction bits generalizing i with
  | nil => simp [packed]
  | cons bit bits ih =>
    rw [packed_cons]
    cases i with
    | zero => cases bit <;> simp [testBit_zero]
    | succ i =>
      rw [testBit_succ, getD_cons_succ, ← ih]
      congr 1
      have hbit := bit.toNat_lt
      omega

private theorem byteBits_packByte (h : bits.length ≤ 8) :
    byteBits (packByte bits) = bits ++ replicate (8 - bits.length) false := by
  have hlt : packed bits < 256 := Nat.lt_of_lt_of_le (packed_lt) (Nat.pow_le_pow_right (by omega) h)
  have hnat : (packByte bits).toNat = packed bits := by exact mod_eq_of_lt hlt
  apply ext_getElem
  · simp only [byteBits, length_map, length_range, length_append, length_replicate]
    omega
  · intro i hi hi'
    simp only [byteBits, getElem_map, getElem_range, hnat, testBit_packed,
      getElem_append, getElem_replicate]
    split
    · rename_i hlt
      exact getD_eq_getElem bits false hlt
    · rename_i hge
      exact getD_eq_default bits false (Nat.le_of_not_lt hge)

private theorem rawSlice_nil : rawSlice [] = [] := rfl

private theorem rawSlice_of_ne_nil (h : bits ≠ []) :
    rawSlice bits = packByte (bits.take 8) :: rawSlice (bits.drop 8) := by
  have hpos := length_pos_iff.mpr h
  have hc : divCeil bits.length 8 = divCeil (bits.drop 8).length 8 + 1 := by
    simp only [divCeil, length_drop]
    omega
  rw [rawSlice, hc, range_succ_eq_map, map_cons, map_map]
  congr 1
  apply map_congr_left
  intro i _
  simp only [Function.comp_apply, drop_drop, succ_eq_add_one]
  congr 3
  omega

theorem fromSlice_rawSlice (bits : List Bool) :
    ∃ padding, fromSlice (rawSlice bits) = bits ++ replicate padding false := by
  by_cases hnil : bits = []
  · exact ⟨0, by simp [hnil, rawSlice_nil, fromSlice]⟩
  · obtain ⟨padding, hrest⟩ := fromSlice_rawSlice (bits.drop 8)
    have hfst : byteBits (packByte (bits.take 8)) =
        bits.take 8 ++ replicate (8 - (bits.take 8).length) false :=
      byteBits_packByte (length_take_le 8 bits)
    have hspl : fromSlice (rawSlice bits) =
        byteBits (packByte (bits.take 8)) ++ fromSlice (rawSlice (bits.drop 8)) := by
      rw [rawSlice_of_ne_nil hnil, fromSlice]
      rfl
    rw [hspl, hfst, hrest]
    by_cases hlong : 8 ≤ bits.length
    · refine ⟨padding, ?_⟩
      rw [length_take, Nat.min_eq_left hlong, Nat.sub_self, replicate_zero,
        append_nil, ← append_assoc, take_append_drop]
    · refine ⟨8 - bits.length + padding, ?_⟩
      rw [take_of_length_le (by omega), drop_of_length_le (by omega), nil_append,
        append_assoc, replicate_append_replicate]
termination_by bits.length
decreasing_by
  have hpos := length_pos_iff.mpr hnil
  rw [length_drop]
  omega

theorem resize_fromSlice_rawSlice (bits : List Bool) :
    resize (fromSlice (rawSlice bits)) bits.length = bits := by
  obtain ⟨padding, h⟩ := fromSlice_rawSlice bits
  rw [h, resize, take_left, length_append, Nat.sub_add_eq, Nat.sub_self, Nat.zero_sub,
    replicate_zero, append_nil]

end Bytehaul.Storage
