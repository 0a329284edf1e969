import Mathlib

/-!
# Byte encodings

A prefix-free encoding of the values it fits, in the layout of `bincode`: fixed-width
little-endian numbers, lists after their length, options after a tag.
-/

namespace Bytehaul.Foundation

open List

def toLe : Nat → Nat → List UInt8
  | 0, _ => []
  | width + 1, n => UInt8.ofNat n :: toLe width (n / 2 ^ 8)

def fromLe (bytes : List UInt8) : Nat :=
  bytes.foldr (fun byte rest => byte.toNat + 2 ^ 8 * rest) 0

abbrev toLe32 (n : Nat) : List UInt8 := toLe 4 n

@[simp] theorem length_toLe (width n : Nat) : (toLe width n).length = width := by
  induction width generalizing n with
  | zero => rfl
  | succ width ih => rw [toLe, length_cons, ih]

theorem fromLe_toLe (width n : Nat) : fromLe (toLe width n) = n % (2 ^ 8) ^ width := by
  induction width generalizing n with
  | zero => rw [pow_zero, Nat.mod_one]; rfl
  | succ width ih =>
    change (UInt8.ofNat n).toNat + 2 ^ 8 * fromLe (toLe width (n / 2 ^ 8)) = _
    rw [ih, UInt8.toNat_ofNat', pow_succ' (2 ^ 8) width, Nat.mod_mul]

theorem fromLe_toLe32 (n : Nat) : fromLe (toLe32 n) = n % 2 ^ 32 := fromLe_toLe 4 n

structure Codec (α : Type) where
  Fits : α → Prop
  encode : α → List UInt8
  decode : List UInt8 → Except String (α × List UInt8)
  decode_encode : ∀ value rest, Fits value → decode (encode value ++ rest) = .ok (value, rest)

namespace Codec

variable {α β : Type}

theorem decode_self (codec : Codec α) {value : α} (h : codec.Fits value) :
    codec.decode (codec.encode value) = .ok (value, []) := by
  simpa using codec.decode_encode value [] h

/-- Values read through another codec, some of whose values may be refused. -/
def via (codec : Codec β) (to' : α → β) (from' : β → Except String α)
    (h : ∀ value, from' (to' value) = .ok value) : Codec α where
  Fits value := codec.Fits (to' value)
  encode value := codec.encode (to' value)
  decode bytes := do
    let (value, rest) ← codec.decode bytes
    let value ← from' value
    .ok (value, rest)
  decode_encode value rest hfits := by
    rw [codec.decode_encode _ rest hfits]
    change (from' (to' value) >>= fun value => Except.ok (value, rest)) = _
    rw [h]
    rfl

def byte : Codec UInt8 where
  Fits _ := True
  encode value := [value]
  decode
    | [] => .error "unexpected end of file"
    | value :: rest => .ok (value, rest)
  decode_encode _ _ _ := rfl

def word (width : Nat) : Codec Nat where
  Fits value := value < (2 ^ 8) ^ width
  encode value := toLe width value
  decode bytes :=
    if bytes.length < width then .error "unexpected end of file"
    else .ok (fromLe (bytes.take width), bytes.drop width)
  decode_encode value rest hfits := by
    have hlen : ¬ (toLe width value ++ rest).length < width := by simp
    rw [if_neg hlen, take_left' (length_toLe width value), drop_left' (length_toLe width value),
      fromLe_toLe, Nat.mod_eq_of_lt hfits]

def pair (first : Codec α) (second : Codec β) : Codec (α × β) where
  Fits value := first.Fits value.1 ∧ second.Fits value.2
  encode value := first.encode value.1 ++ second.encode value.2
  decode bytes := do
    let (left, rest) ← first.decode bytes
    let (right, rest) ← second.decode rest
    .ok ((left, right), rest)
  decode_encode value rest hfits := by
    rw [List.append_assoc, first.decode_encode _ _ hfits.1]
    change (second.decode (second.encode value.2 ++ rest) >>= fun (right, rest) =>
      Except.ok ((value.1, right), rest)) = _
    rw [second.decode_encode _ _ hfits.2]
    rfl

def readMany (codec : Codec α) : Nat → List UInt8 → Except String (List α × List UInt8)
  | 0, bytes => .ok ([], bytes)
  | count + 1, bytes => do
      let (value, rest) ← codec.decode bytes
      let (values, rest) ← readMany codec count rest
      .ok (value :: values, rest)

private theorem readMany_encode {codec : Codec α} {values : List α} {rest : List UInt8}
    (h : ∀ value ∈ values, codec.Fits value) :
    readMany codec values.length (values.flatMap codec.encode ++ rest) = .ok (values, rest) := by
  induction values with
  | nil => rfl
  | cons value values ih =>
    rw [flatMap_cons, append_assoc, length_cons, readMany,
      codec.decode_encode _ _ (h value mem_cons_self)]
    change (readMany codec values.length (values.flatMap codec.encode ++ rest) >>=
      fun (values, rest) => Except.ok (value :: values, rest)) = _
    rw [ih fun other hmem => h other (mem_cons_of_mem value hmem)]
    rfl

def list (codec : Codec α) : Codec (List α) where
  Fits values := (word 8).Fits values.length ∧ ∀ value ∈ values, codec.Fits value
  encode values := (word 8).encode values.length ++ values.flatMap codec.encode
  decode bytes := do
    let (count, rest) ← (word 8).decode bytes
    readMany codec count rest
  decode_encode values rest hfits := by
    rw [List.append_assoc, (word 8).decode_encode _ _ hfits.1]
    exact readMany_encode hfits.2

def option (codec : Codec α) : Codec (Option α) where
  Fits value := ∀ inner ∈ value, codec.Fits inner
  encode
    | none => [0]
    | some value => 1 :: codec.encode value
  decode bytes := do
    let (tag, rest) ← byte.decode bytes
    if tag = 0 then .ok (none, rest)
    else if tag = 1 then
      let (value, rest) ← codec.decode rest
      .ok (some value, rest)
    else .error "invalid option tag"
  decode_encode value rest hfits := by
    cases value with
    | none => rfl
    | some value =>
      change (codec.decode (codec.encode value ++ rest) >>= fun (value, rest) =>
        Except.ok (some value, rest)) = _
      rw [codec.decode_encode _ _ (hfits value rfl)]
      rfl

def text : Codec String :=
  byte.list.via (fun value => value.toUTF8.data.toList)
    (fun bytes => (String.fromUTF8? ⟨bytes.toArray⟩).elim (.error "invalid utf-8") .ok)
    fun value => by
      have hvalid : String.fromUTF8? value.toUTF8 = some value := dif_pos value.isValidUTF8
      rw [Array.toArray_toList]
      change (String.fromUTF8? value.toUTF8).elim _ _ = _
      rw [hvalid]
      rfl

end Codec

/-- CRC-32, reflected, with the polynomial of IEEE 802.3. -/
def crc32 (bytes : List UInt8) : UInt32 :=
  let shift (crc : UInt32) := if crc % 2 = 1 then (crc >>> 1) ^^^ 0xEDB88320 else crc >>> 1
  ~~~ bytes.foldl (fun crc byte => shift^[8] (crc ^^^ byte.toUInt32)) 0xFFFFFFFF

example : crc32 "123456789".toUTF8.data.toList = 0xCBF43926 := by decide +kernel

end Bytehaul.Foundation
