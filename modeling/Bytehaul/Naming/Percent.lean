import Mathlib

/-!
# Percent decoding

`percent_decode_bytes` of `filename.rs`. Its digits are read by `u8::from_str_radix`, which
also takes a plus sign.
-/

namespace Bytehaul.Naming

open List Option

def percent : UInt8 := 37
def plus : UInt8 := 43

def hexDigit (byte : UInt8) : Option Nat :=
  if 48 ≤ byte.toNat ∧ byte.toNat ≤ 57 then some (byte.toNat - 48)
  else if 65 ≤ byte.toNat ∧ byte.toNat ≤ 70 then some (byte.toNat - 55)
  else if 97 ≤ byte.toNat ∧ byte.toNat ≤ 102 then some (byte.toNat - 87)
  else none

def hexValue (digits : List UInt8) : Option Nat :=
  digits.foldlM (fun value digit => (hexDigit digit).map (value * 16 + ·)) 0

/-- `u8::from_str_radix(digits, 16)`: a plus sign may precede the digits. -/
def fromStrRadix (digits : List UInt8) : Option UInt8 :=
  let digits := match digits with
    | sign :: digit :: rest => if sign = plus then digit :: rest else sign :: digit :: rest
    | _ => digits
  if digits.isEmpty then none
  else ((hexValue digits).filter (· < 256)).map UInt8.ofNat

def percentDecodeBytes : List UInt8 → Option (List UInt8)
  | [] => some []
  | byte :: rest =>
    if byte = percent then
      match rest with
      | high :: low :: rest => do
        let value ← fromStrRadix [high, low]
        let decoded ← percentDecodeBytes rest
        some (value :: decoded)
      | _ => none
    else (percentDecodeBytes rest).map (byte :: ·)

/-- Every triple is replaced by its value, every other byte is copied. -/
inductive Decodes : List UInt8 → List UInt8 → Prop
  | nil : Decodes [] []
  | plain {byte : UInt8} {rest decoded : List UInt8} : byte ≠ percent → Decodes rest decoded →
      Decodes (byte :: rest) (byte :: decoded)
  | triple {high low : UInt8} {rest decoded : List UInt8} {h l : Nat} :
      hexDigit high = some h → hexDigit low = some l → Decodes rest decoded →
      Decodes (percent :: high :: low :: rest) (UInt8.ofNat (16 * h + l) :: decoded)

def Triples (first : UInt8 → Prop) (bytes : List UInt8) : Prop :=
  ∀ before rest, bytes = before ++ percent :: rest → ∃ high low tail,
    rest = high :: low :: tail ∧ first high ∧ (hexDigit low).isSome = true

def WellFormed (bytes : List UInt8) : Prop :=
  Triples (fun high => (hexDigit high).isSome = true) bytes

/-- Every percent sign is followed by a digit or a plus sign and by a digit, and a plus sign
does occur. -/
def Signed (bytes : List UInt8) : Prop :=
  Triples (fun high => (hexDigit high).isSome = true ∨ high = plus) bytes ∧
    [percent, plus] <:+: bytes

/-- A way to encode bytes: at least the percent sign and all bytes that are not ASCII. -/
inductive Encodes : List UInt8 → List UInt8 → Prop
  | nil : Encodes [] []
  | plain {byte : UInt8} {bytes encoded : List UInt8} : byte ≠ percent → byte.toNat < 128 →
      Encodes bytes encoded → Encodes (byte :: bytes) (byte :: encoded)
  | triple {byte high low : UInt8} {bytes encoded : List UInt8} :
      hexDigit high = some (byte.toNat / 16) → hexDigit low = some (byte.toNat % 16) →
      Encodes bytes encoded → Encodes (byte :: bytes) (percent :: high :: low :: encoded)

variable {byte : UInt8} {bytes decoded : List UInt8}

theorem hexDigit_lt {h : Nat} (hdigit : hexDigit byte = some h) : h < 16 := by
  unfold hexDigit at hdigit
  split at hdigit
  · cases hdigit
    omega
  · split at hdigit
    · cases hdigit
      omega
    · split at hdigit
      · cases hdigit
        omega
      · cases hdigit

theorem fromStrRadix_pair {high low : UInt8} (hplus : high ≠ plus) : fromStrRadix [high, low] =
      (hexDigit high).bind fun h => (hexDigit low).map fun l => UInt8.ofNat (16 * h + l) := by
  unfold fromStrRadix hexValue
  simp only [hplus, if_false, isEmpty_cons, Bool.false_eq_true, foldlM_cons,
    foldlM_nil, Nat.zero_mul, Nat.zero_add, Option.map_id']
  cases hhigh : hexDigit high with
  | none => rfl
  | some h =>
    cases hlow : hexDigit low with
    | none => rfl
    | some l =>
      have hh := hexDigit_lt hhigh
      have hl := hexDigit_lt hlow
      have hlt : h * 16 + l < 256 := by omega
      simp [Option.filter, hlt, Nat.mul_comm]

private theorem ne_plus_of_hexDigit {h : Nat} (hdigit : hexDigit byte = some h) : byte ≠ plus := by
  rintro rfl
  cases hdigit

private theorem percentDecodeBytes_plain {rest : List UInt8} (hbyte : byte ≠ percent) :
    percentDecodeBytes (byte :: rest) = (percentDecodeBytes rest).map (byte :: ·) := by
  rw [percentDecodeBytes.eq_def]
  exact if_neg hbyte

theorem percentDecodeBytes_of_decodes (h : Decodes bytes decoded) :
    percentDecodeBytes bytes = some decoded := by
  induction h with
  | nil => rfl
  | plain hbyte _ ih => rw [percentDecodeBytes_plain hbyte, ih, map_some]
  | triple hhigh hlow _ ih =>
    rw [percentDecodeBytes, if_pos rfl]
    simp [fromStrRadix_pair (ne_plus_of_hexDigit hhigh), hhigh, hlow, ih]

section Triples

variable {first : UInt8 → Prop} {high low : UInt8} {rest : List UInt8}

private theorem triples_nil : Triples first [] := by
  intro before rest heq
  cases before <;> cases heq

theorem triples_plain (hbyte : byte ≠ percent) :
    Triples first (byte :: rest) ↔ Triples first rest := by
  refine ⟨fun h before after heq => h (byte :: before) after (by rw [heq, cons_append]), ?_⟩
  intro h before after heq
  cases before with
  | nil => exact absurd (cons.inj heq).1 hbyte
  | cons _ before => exact h before after (cons.inj heq).2

theorem triples_triple (hfst : ¬ first percent) :
    Triples first (percent :: high :: low :: rest) ↔
      first high ∧ (hexDigit low).isSome = true ∧ Triples first rest := by
  constructor
  · intro h
    obtain ⟨_, _, _, heq, hhigh, hlow⟩ := h [] _ rfl
    cases heq
    exact ⟨hhigh, hlow, fun before after heq =>
      h (percent :: high :: low :: before) after (by rw [heq]; rfl)⟩
  · rintro ⟨hhigh, hlow, hrest⟩ before after heq
    match before with
    | [] => exact ⟨high, low, rest, (cons.inj heq).2.symm, hhigh, hlow⟩
    | [_] =>
        obtain ⟨-, rfl, -⟩ := by simpa using heq
        exact absurd hhigh hfst
    | [_, _] =>
        obtain ⟨-, -, rfl, -⟩ := by simpa using heq
        cases hlow
    | _ :: _ :: _ :: before =>
        obtain ⟨-, -, -, hrest'⟩ := by simpa using heq
        exact hrest before after hrest'

end Triples

private theorem isSome_fromStrRadix {high low : UInt8} : (fromStrRadix [high, low]).isSome = true ↔
    ((hexDigit high).isSome = true ∨ high = plus) ∧ (hexDigit low).isSome = true := by
  by_cases hplus : high = plus
  · subst hplus
    unfold fromStrRadix hexValue
    cases hlow : hexDigit low with
    | none => simp [hlow]
    | some l =>
        have hl := hexDigit_lt hlow
        have hlt : l < 256 := by omega
        simp [hlow, Option.filter, hlt]
  · rw [fromStrRadix_pair hplus]
    cases hexDigit high <;> cases hexDigit low <;> simp [hplus]

theorem isSome_percentDecodeBytes (bytes : List UInt8) :
    (percentDecodeBytes bytes).isSome = true ↔
      Triples (fun high => (hexDigit high).isSome = true ∨ high = plus) bytes := by
  fun_induction percentDecodeBytes bytes with
  | case1 => exact iff_of_true rfl triples_nil
  | case2 high low rest ih =>
      rw [triples_triple (by decide), ← ih, ← and_assoc, ← isSome_fromStrRadix]
      cases fromStrRadix [high, low] <;> cases percentDecodeBytes rest <;> simp
  | case3 rest hshort =>
      refine iff_of_false (by simp) fun h => ?_
      obtain ⟨high, low, tail, heq, -⟩ := h [] _ rfl
      exact hshort high low tail heq
  | case4 byte rest hbyte ih => rw [triples_plain hbyte, ← ih, isSome_map]

theorem WellFormed.decodes (h : WellFormed bytes) : ∃ decoded, Decodes bytes decoded := by
  fun_induction percentDecodeBytes bytes with
  | case1 => exact ⟨[], .nil⟩
  | case2 high low rest ih =>
      obtain ⟨hhigh, hlow, hrest⟩ := (triples_triple (by decide)).mp h
      obtain ⟨hi, hhi⟩ := isSome_iff_exists.mp hhigh
      obtain ⟨lo, hlo⟩ := isSome_iff_exists.mp hlow
      obtain ⟨decoded, hdecoded⟩ := ih hrest
      exact ⟨_, .triple hhi hlo hdecoded⟩
  | case3 rest hshort =>
      obtain ⟨high, low, tail, heq, -⟩ := h [] _ rfl
      exact (hshort high low tail heq).elim
  | case4 byte rest hbyte ih =>
      obtain ⟨decoded, hdecoded⟩ := ih ((triples_plain hbyte).mp h)
      exact ⟨_, .plain hbyte hdecoded⟩

theorem not_signed_of_wellFormed (h : WellFormed bytes) : ¬ Signed bytes := by
  rintro ⟨-, before, after, heq⟩
  obtain ⟨high, low, tail, hrest, hhigh, -⟩ := h before (plus :: after) (by simp [← heq])
  cases hrest
  cases hhigh

theorem wellFormed_of_not_signed (h : ¬ Signed bytes)
    (hsome : (percentDecodeBytes bytes).isSome = true) : WellFormed bytes := by
  have htriples := (isSome_percentDecodeBytes bytes).mp hsome
  intro before rest heq
  obtain ⟨high, low, tail, rfl, hdigit | rfl, hlow⟩ := htriples before rest heq
  · exact ⟨high, low, tail, rfl, hdigit, hlow⟩
  · exact absurd ⟨htriples, before, low :: tail, by simp [heq]⟩ h

theorem Encodes.decodes {encoded : List UInt8} (h : Encodes bytes encoded) :
    Decodes encoded bytes := by
  induction h with
  | nil => exact .nil
  | plain hbyte _ _ ih => exact .plain hbyte ih
  | @triple byte _ _ _ _ hhigh hlow _ ih =>
    have hbyte : UInt8.ofNat (16 * (byte.toNat / 16) + byte.toNat % 16) = byte := by
      rw [Nat.div_add_mod, UInt8.ofNat_toNat]
    rw [← hbyte]
    convert Decodes.triple hhigh hlow ih using 2

/-- The decoder reads the well-formed strings, and the signed ones, and inverts every encoding. -/
theorem percent_decoding_is_exact (bytes : List UInt8) :
    ((∀ decoded, percentDecodeBytes bytes = some decoded ↔ Decodes bytes decoded) ∧
      ((percentDecodeBytes bytes).isSome = true ↔ WellFormed bytes) ↔ ¬ Signed bytes) ∧
    ∀ encoded, Encodes bytes encoded → percentDecodeBytes encoded = some bytes := by
  have hdecodes : WellFormed bytes → ∃ decoded, Decodes bytes decoded ∧
      percentDecodeBytes bytes = some decoded := by
    intro h
    obtain ⟨decoded, hdecoded⟩ := h.decodes
    exact ⟨decoded, hdecoded, percentDecodeBytes_of_decodes hdecoded⟩
  refine ⟨⟨?_, fun h => ⟨fun decoded => ⟨fun hsome => ?_, percentDecodeBytes_of_decodes⟩,
    wellFormed_of_not_signed h, fun hformed => ?_⟩⟩,
    fun encoded h => percentDecodeBytes_of_decodes h.decodes⟩
  · rintro ⟨-, hiff⟩ hsigned
    exact not_signed_of_wellFormed (hiff.mp ((isSome_percentDecodeBytes bytes).mpr hsigned.1))
      hsigned
  · obtain ⟨other, ho, hread⟩ := hdecodes (wellFormed_of_not_signed h (by rw [hsome]; rfl))
    cases hread.symm.trans hsome
    exact ho
  · obtain ⟨decoded, -, hread⟩ := hdecodes hformed
    rw [hread, isSome_some]

theorem digits_of_both_cases_are_decoded :
    percentDecodeBytes [97, 37, 50, 70, 37, 99, 51] = some [97, 47, 195] ∧
      WellFormed [97, 37, 50, 70, 37, 99, 51] := by
  have hsigned : ¬ Signed [97, 37, 50, 70, 37, 99, 51] := fun h => absurd h.2 (by decide)
  exact ⟨(percent_decoding_is_exact [97, 47, 195]).2 _
      (.plain (by decide) (by decide) (.triple (by decide) (by decide)
        (.triple (by decide) (by decide) .nil))),
    ((percent_decoding_is_exact [97, 37, 50, 70, 37, 99, 51]).1.mpr hsigned).2.mp (by decide)⟩

/-- The signed string `%+5` is read as the byte five, although a plus sign is no digit. -/
theorem signed_digit_is_decoded :
    percentDecodeBytes [37, 43, 53] = some [5] ∧ Signed [37, 43, 53] ∧
      ¬ WellFormed [37, 43, 53] := by
  have hsigned : Signed [37, 43, 53] :=
    ⟨(isSome_percentDecodeBytes _).mp (by decide), [], [53], rfl⟩
  exact ⟨by decide, hsigned, fun h => not_signed_of_wellFormed h hsigned⟩

end Bytehaul.Naming
