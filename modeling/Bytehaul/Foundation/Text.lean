import Mathlib

/-!
# Text in bytes

Lossy UTF-8 decoding as a machine over the bytes, and the text operations of header lines
and names.
-/

namespace Bytehaul.Foundation

open List

abbrev Text := List Char

namespace Text

def replacement : Char := Char.ofNat 0xFFFD

/-- A character that has begun: its bits so far, the bytes it lacks, and the range of the
next one. -/
structure Pending where
  bits : Nat
  owed : Nat
  low : Nat
  high : Nat

def Pending.lead (byte : Nat) : Option Pending :=
  if 0xC2 ≤ byte ∧ byte ≤ 0xDF then some ⟨byte - 0xC0, 1, 0x80, 0xBF⟩
  else if byte = 0xE0 then some ⟨0, 2, 0xA0, 0xBF⟩
  else if byte = 0xED then some ⟨0xD, 2, 0x80, 0x9F⟩
  else if 0xE1 ≤ byte ∧ byte ≤ 0xEF then some ⟨byte - 0xE0, 2, 0x80, 0xBF⟩
  else if byte = 0xF0 then some ⟨0, 3, 0x90, 0xBF⟩
  else if 0xF1 ≤ byte ∧ byte ≤ 0xF3 then some ⟨byte - 0xF0, 3, 0x80, 0xBF⟩
  else if byte = 0xF4 then some ⟨4, 3, 0x80, 0x8F⟩
  else none

def enter (byte : Nat) : Text × Option Pending :=
  if byte < 0x80 then ([Char.ofNat byte], none)
  else match Pending.lead byte with
    | some pending => ([], some pending)
    | none => ([replacement], none)

def decodeFrom : Option Pending → List UInt8 → Text
  | none, [] => []
  | some _, [] => [replacement]
  | none, byte :: rest =>
    (enter byte.toNat).1 ++ decodeFrom (enter byte.toNat).2 rest
  | some pending, byte :: rest =>
    if pending.low ≤ byte.toNat ∧ byte.toNat ≤ pending.high then
      let bits := pending.bits * 64 + (byte.toNat - 0x80)
      if pending.owed = 1 then Char.ofNat bits :: decodeFrom none rest
      else decodeFrom (some ⟨bits, pending.owed - 1, 0x80, 0xBF⟩) rest
    else
      replacement :: ((enter byte.toNat).1 ++ decodeFrom (enter byte.toNat).2 rest)

def fromUtf8Lossy (bytes : List UInt8) : Text := decodeFrom none bytes

def utf8Bytes (text : Text) : List UInt8 := text.flatMap String.utf8EncodeChar

/-- Bytes that are text decode to it, and no replacement has the bytes it stands for. -/
def fromUtf8 (bytes : List UInt8) : Option Text :=
  let text := fromUtf8Lossy bytes
  if utf8Bytes text = bytes then some text else none

def utf8Len (text : Text) : Nat := (text.map Char.utf8Size).sum

def isWhitespace (c : Char) : Bool :=
  (9 ≤ c.toNat && c.toNat ≤ 13) || (0x2000 ≤ c.toNat && c.toNat ≤ 0x200A) ||
    c.toNat ∈ [0x20, 0x85, 0xA0, 0x1680, 0x2028, 0x2029, 0x202F, 0x205F, 0x3000]

def trimStart (text : Text) : Text := text.dropWhile isWhitespace

def trim (text : Text) : Text := (trimStart (trimStart text).reverse).reverse

def asciiLowercase (c : Char) : Char :=
  if 65 ≤ c.toNat ∧ c.toNat ≤ 90 then Char.ofNat (c.toNat + 32) else c

def splitOnce (kind : Char → Bool) (text : Text) : Option (Text × Text) :=
  match text.span fun c => !kind c with
  | (_, []) => none
  | (before, _ :: after) => some (before, after)

def rsplitOnce (c : Char) (text : Text) : Option (Text × Text) :=
  (splitOnce (· == c) text.reverse).map fun (after, before) => (before.reverse, after.reverse)

def trimEndMatches (c : Char) (text : Text) : Text := text.rdropWhile (· == c)

def trimMatches (c : Char) (text : Text) : Text := trimEndMatches c (text.dropWhile (· == c))

def eqIgnoreAsciiCase (first second : Text) : Bool :=
  first.map asciiLowercase == second.map asciiLowercase

def digitsFrom : Nat → Text → Option Nat
  | value, [] => some value
  | value, c :: rest =>
    if 48 ≤ c.toNat ∧ c.toNat ≤ 57 then digitsFrom (value * 10 + (c.toNat - 48)) rest
    else none

def parseBelow (bound : Nat) (text : Text) : Option Nat :=
  let digits := match text with
    | '+' :: rest => rest
    | _ => text
  match digits with
  | [] => none
  | _ => (digitsFrom 0 digits).filter (· < bound)

variable {text : Text}

theorem mem_of_mem_trim {c : Char} (h : c ∈ trim text) : c ∈ text := by
  have hback := (dropWhile_sublist _).subset (mem_reverse.mp h)
  exact (dropWhile_sublist _).subset (mem_reverse.mp hback)

theorem mem_of_mem_trimEndMatches {c end' : Char} (h : c ∈ trimEndMatches end' text) : c ∈ text :=
  List.IsPrefix.subset ( rdropWhile_prefix _ _) h

theorem getLast?_trimEndMatches (c : Char) (text : Text) :
    (trimEndMatches c text).getLast? ≠ some c := by
  intro hlast
  have hne : trimEndMatches c text ≠ [] := by
    intro hnil
    rw [hnil] at hlast
    cases hlast
  rw [getLast?_eq_some_getLast hne, Option.some.injEq] at hlast
  exact rdropWhile_last_not _ _ hne (beq_iff_eq.mpr hlast)

theorem exists_trimEndMatches (c : Char) (text : Text) :
    ∃ n, text = trimEndMatches c text ++ replicate n c := by
  have hall : ∀ d ∈ text.rtakeWhile (· == c), d = c := by
    intro d hd
    have hd' : (d == c) = true := mem_takeWhile_imp (p := (· == c)) (mem_reverse.mp hd)
    exact beq_iff_eq.mp hd'
  refine ⟨(text.rtakeWhile (· == c)).length, ?_⟩
  rw [← eq_replicate_of_mem hall]
  exact rdropWhile_append_rtakeWhile.symm

theorem trimEndMatches_append_replicate {c : Char} (h : text.getLast? ≠ some c) (n : Nat) :
    trimEndMatches c (text ++ replicate n c) = text := by
  induction n with
  | zero =>
      rw [replicate_zero, append_nil]
      refine rdropWhile_eq_self_iff.mpr fun hne heq => h ?_
      rw [getLast?_eq_some_getLast hne, beq_iff_eq.mp heq]
  | succ n ih =>
      rw [replicate_succ', ← append_assoc, trimEndMatches, rdropWhile_concat_pos _ _ _ (by simp)]
      exact ih

theorem exists_rsplitOnce {c : Char} (h : c ∈ text) :
    ∃ before after, rsplitOnce c text = some (before, after) := by
  unfold rsplitOnce splitOnce
  rw [span_eq_takeWhile_dropWhile]
  cases hdrop : text.reverse.dropWhile fun d => !(d == c) with
  | nil =>
      have hnone := dropWhile_eq_nil_iff.mp hdrop c (mem_reverse.mpr h)
      simp at hnone
  | cons d rest => exact ⟨_, _, rfl⟩

theorem rsplitOnce_eq_some {c : Char} {before after : Text}
    (h : rsplitOnce c text = some (before, after)) : text = before ++ c :: after ∧ c ∉ after := by
  unfold rsplitOnce splitOnce at h
  rw [span_eq_takeWhile_dropWhile] at h
  have hspl := takeWhile_append_dropWhile (p := fun d => !(d == c)) (l := text.reverse)
  cases hdrop : text.reverse.dropWhile fun d => !(d == c) with
  | nil => simp [hdrop] at h
  | cons d rest =>
    simp only [hdrop, Option.map_some, Option.some.injEq, Prod.mk.injEq] at h
    obtain ⟨rfl, rfl⟩ := h
    have hd : d = c := by
      have hhead := head?_dropWhile_not (fun d => !(d == c)) text.reverse
      rw [hdrop] at hhead
      simpa using hhead
    subst hd
    refine ⟨?_, fun hmem => ?_⟩
    · rw [hdrop] at hspl
      simpa using (congrArg reverse hspl).symm
    · simpa using mem_takeWhile_imp (mem_reverse.mp hmem)

theorem utf8Len_append (first second : Text) :
    utf8Len (first ++ second) = utf8Len first + utf8Len second := by
  simp [utf8Len]

theorem utf8Len_cons (c : Char) (text : Text) : utf8Len (c :: text) = c.utf8Size + utf8Len text :=
  by simp [utf8Len]

theorem length_le_utf8Len (text : Text) : text.length ≤ utf8Len text := by
  induction text with
  | nil => exact Nat.zero_le _
  | cons c text ih =>
    have hc := c.utf8Size_pos
    rw [utf8Len_cons, length_cons]
    omega

theorem utf8Len_le_length (text : Text) : utf8Len text ≤ 4 * text.length := by
  induction text with
  | nil => exact Nat.zero_le _
  | cons c text ih =>
    have hc := c.utf8Size_le_four
    rw [utf8Len_cons, length_cons]
    omega

/-- A cut after `n` characters keeps at most `n` bytes exactly when it keeps single bytes. -/
theorem utf8Len_take_le_iff {n : Nat} (hlong : n < utf8Len text) :
    utf8Len (text.take n) ≤ n ↔ ∀ c ∈ text.take n, c.utf8Size = 1 := by
  induction n generalizing text with
  | zero => simp [utf8Len]
  | succ n ih =>
    cases text with
    | nil => cases hlong
    | cons c text =>
      rw [utf8Len_cons] at hlong
      rw [take_succ_cons, utf8Len_cons, forall_mem_cons]
      have hc := c.utf8Size_pos
      by_cases hone : c.utf8Size = 1
      · rw [← ih (by omega), hone]
        omega
      · have hrest : min n (utf8Len text) ≤ utf8Len (text.take n) := by
          by_cases hshort : text.length ≤ n
          · rw [take_of_length_le hshort]
            omega
          · have hkept := length_le_utf8Len (text.take n)
            rw [length_take] at hkept
            omega
        omega

end Text

end Bytehaul.Foundation
