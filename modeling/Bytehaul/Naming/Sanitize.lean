import Bytehaul.Foundation.Text
import Bytehaul.Naming.Percent

/-!
# File names

The names `filename.rs` derives from a `Content-Disposition` header, a URL and a relative
path. The URL parser is a parameter.
-/

namespace Bytehaul.Naming

open Foundation List Text

def windowsReservedNames : List Text :=
  ["CON", "PRN", "AUX", "NUL", "COM1", "COM2", "COM3", "COM4", "COM5", "COM6", "COM7", "COM8",
    "COM9", "LPT1", "LPT2", "LPT3", "LPT4", "LPT5", "LPT6", "LPT7", "LPT8", "LPT9"].map
      String.toList

def forbidden : Text := "/\\:*?\"<>|".toList

def isControl (c : Char) : Bool := c.toNat < 0x20 || (0x7F ≤ c.toNat && c.toNat < 0xA0)

def filterChar (c : Char) : Char := if c ∈ forbidden ∨ isControl c = true then '_' else c

def trimmedName (value : Text) : Text :=
  trimEndMatches ' ' (trimEndMatches '.' (trim (value.map filterChar)))

def isReserved (name : Text) : Bool := windowsReservedNames.any (eqIgnoreAsciiCase name)

def fullName (value : Text) : Text :=
  if isReserved (trimmedName value) then trimmedName value ++ ['_'] else trimmedName value

def stemAndExtension (name : Text) : Option (Text × Text) :=
  (rsplitOnce '.' name).filter fun (stem, extension) => !stem.isEmpty && !extension.isEmpty

def trimToBoundary (value : Text) (maxLen : Nat) : Text := value.take maxLen

/-- The length is measured in bytes and cut in characters. -/
def truncate (name : Text) : Text :=
  if 255 < utf8Len name then
    match stemAndExtension name with
    | some (stem, extension) =>
      trimToBoundary stem (255 - (utf8Len extension + 1)) ++ '.' :: extension
    | none => trimToBoundary name 255
  else name

def sanitizeFilenameComponent (value : Text) : Text :=
  if (trimmedName value).isEmpty then [] else truncate (fullName value)

/-! ## Where names come from -/

def percentDecode (value : Text) : Option Text := do
  fromUtf8 (← percentDecodeBytes (utf8Bytes value))

def splitRfc5987Parts (value : Text) : Option (Text × Text × Text) := do
  let (charset, rest) ← splitOnce (· == '\'') value
  let (language, encoded) ← splitOnce (· == '\'') rest
  some (charset, language, encoded)

def decodeRfc5987Value (value : Text) : Option Text := do
  let (charset, _, encoded) ← splitRfc5987Parts value
  let bytes ← percentDecodeBytes (utf8Bytes encoded)
  if eqIgnoreAsciiCase charset "utf-8".toList then fromUtf8 bytes
  else if eqIgnoreAsciiCase charset "iso-8859-1".toList ||
      eqIgnoreAsciiCase charset "latin1".toList then
    some (bytes.map fun byte => Char.ofNat byte.toNat)
  else none

def nonempty (name : Text) : Option Text := if name.isEmpty then none else some name

def headerParts (header : Text) : List Text := (header.splitOn ';').map trim

def extendedName (part : Text) : Option Text :=
  (part.dropPrefix? "filename*=".toList).bind fun value =>
    decodeRfc5987Value (trimMatches '"' value)

def plainName (part : Text) : Option Text :=
  (part.dropPrefix? "filename=".toList).map (trimMatches '"')

def parseContentDisposition (header : Text) : Option Text :=
  ((headerParts header).findSome? fun part =>
      (extendedName part).bind (nonempty ∘ sanitizeFilenameComponent)).or
    ((headerParts header).findSome? fun part =>
      (plainName part).bind (nonempty ∘ sanitizeFilenameComponent))

def segmentName (segments : Text → Option (List Text)) (url : Text) : Option Text := do
  percentDecode (← (← segments url).reverse.find? fun segment => !segment.isEmpty)

def filenameFromUrl (segments : Text → Option (List Text)) (url : Text) : Option Text :=
  (segmentName segments url).bind (nonempty ∘ sanitizeFilenameComponent)

def detectFilename (segments : Text → Option (List Text)) (contentDisposition : Option Text)
    (url : Text) : Text :=
  (((contentDisposition.bind parseContentDisposition).or (filenameFromUrl segments url)).filter
    fun value => !value.isEmpty).getD "download".toList

inductive Component where
  | normal (value : Text)
  | curDir
  | parentDir
  | rootDir
  | driveRoot
  deriving DecidableEq

/-- A part has no separator, so that pushing it adds it as the last one. -/
def sanitizeParts : List Component → List Text → Option (List Text)
  | [], sanitized => some sanitized
  | .normal value :: path, sanitized =>
    let part := sanitizeFilenameComponent value
    sanitizeParts path (if part.isEmpty then sanitized else sanitized ++ [part])
  | .curDir :: path, sanitized => sanitizeParts path sanitized
  | _, _ => none

def sanitizeRelativePath (path : List Component) : Option (List Text) :=
  (sanitizeParts path []).filter fun sanitized => !sanitized.isEmpty

/-! ## Safe names -/

/-- A name that is one component of a path, on every platform. -/
@[mk_iff]
structure Safe (name : Text) : Prop where
  nonempty : name ≠ []
  clean : ∀ c ∈ name, c ∉ forbidden ∧ isControl c = false
  not_current : name ≠ ['.']
  not_parent : name ≠ ['.', '.']
  no_dot : name.getLast? ≠ some '.'
  no_space : name.getLast? ≠ some ' '
  not_reserved : isReserved name = false

instance : DecidablePred Safe := fun name =>
  haveI : Decidable (∀ c ∈ name, c ∉ forbidden ∧ isControl c = false) := decidableBAll _ _
  decidable_of_iff' _ (safe_iff name)

/-! ## Conditions on the raw text -/

def isBlank (c : Char) : Bool := isWhitespace c && !isControl c

def bare (value : Text) : Text := (value.dropWhile isBlank).rdropWhile isBlank

/-- Spaces and then dots, as a name loses them at its end. -/
def Trail (rest : Text) : Prop := ∃ spaces dots, rest = replicate spaces ' ' ++ replicate dots '.'

/-- The text ends in a dot, one or more spaces, and one or more dots. -/
def Dangling (text : Text) : Prop := ∃ front spaces dots,
  text = front ++ '.' :: (replicate (spaces + 1) ' ' ++ replicate (dots + 1) '.')

/-- A dot that is neither the first character nor part of what is lost at the end. -/
def Dotted (text : Text) : Prop :=
  ∃ stem extension, text = stem ++ '.' :: extension ∧ stem ≠ [] ∧ ¬ Trail extension

/-- No dots, spaces and dots at the end; a long text is not cut after a dot or space, or has an
extension to keep. -/
def Settled (value : Text) : Prop :=
  (Trail ((bare value).drop 255) → ¬ Dangling (bare value)) ∧
  (¬ Trail ((bare value).drop 255) →
    (bare value)[254]? ≠ some '.' ∧ (bare value)[254]? ≠ some ' ' ∨
      Dotted (bare value) ∧ ¬ Dangling (bare value))

/-- The name fits, or the cut keeps single bytes and leaves room for the dot. -/
def Narrow (value : Text) : Prop :=
  utf8Len (fullName value) ≤ 255 ∨
    match stemAndExtension (fullName value) with
    | some (stem, extension) => utf8Len extension ≤ 254 ∧
        ∀ c ∈ stem.take (254 - utf8Len extension), c.utf8Size = 1
    | none => ∀ c ∈ (fullName value).take 255, c.utf8Size = 1

private theorem filterChar_clean {c : Char} :
    filterChar c ∉ forbidden ∧ isControl (filterChar c) = false := by
  unfold filterChar
  split
  · decide
  · next h =>
    rw [not_or, Bool.not_eq_true] at h
    exact h

variable {c : Char} {value name : Text} {parts : List Text}

private theorem mem_fullName (h : c ∈ fullName value) : c = '_' ∨ c ∈ value.map filterChar := by
  have htrimmed : ∀ d ∈ trimmedName value, d ∈ value.map filterChar := fun d hd =>
    mem_of_mem_trim (mem_of_mem_trimEndMatches (mem_of_mem_trimEndMatches hd))
  unfold fullName at h
  split at h
  · rcases mem_append.mp h with h | h
    · exact .inr (htrimmed c h)
    · exact .inl (mem_singleton.mp h)
  · exact .inr (htrimmed c h)

private theorem fullName_clean (h : c ∈ fullName value) : c ∉ forbidden ∧ isControl c = false := by
  rcases mem_fullName h with rfl | h
  · decide
  · obtain ⟨d, -, rfl⟩ := mem_map.mp h
    exact filterChar_clean

theorem fullName_no_space (value : Text) : (fullName value).getLast? ≠ some ' ' := by
  unfold fullName
  split
  · rw [getLast?_concat]
    decide
  · exact getLast?_trimEndMatches ' ' _

theorem isReserved_iff : isReserved name = true ↔ name.map asciiLowercase ∈
      windowsReservedNames.map fun reserved => reserved.map asciiLowercase := by
  unfold isReserved eqIgnoreAsciiCase
  rw [any_eq_true, mem_map]
  exact exists_congr fun reserved => and_congr_right fun _ => beq_iff_eq.trans eq_comm

theorem length_of_isReserved (h : isReserved name = true) : name.length ≤ 4 := by
  have hall : ∀ reserved ∈ windowsReservedNames.map fun reserved =>
      reserved.map asciiLowercase, reserved.length ≤ 4 := by decide
  have hname := hall _ (isReserved_iff.mp h)
  rwa [length_map] at hname

theorem not_mem_of_isReserved (hc : c = '.' ∨ c = '_') (h : isReserved name = true) : c ∉ name := by
  have hall : ∀ reserved ∈ windowsReservedNames.map fun reserved =>
      reserved.map asciiLowercase, '.' ∉ reserved ∧ '_' ∉ reserved := by decide
  have hname := hall _ (isReserved_iff.mp h)
  intro hmem
  rcases hc with rfl | rfl
  · exact hname.1 (mem_map_of_mem hmem)
  · exact hname.2 (mem_map_of_mem hmem)

private theorem fullName_not_reserved {value : Text} : isReserved (fullName value) = false := by
  unfold fullName
  split
  · rw [← Bool.not_eq_true]
    intro h
    exact not_mem_of_isReserved (.inr rfl) h (mem_append_right _ (mem_singleton_self _))
  · next h => exact (Bool.not_eq_true _).mp h

theorem stemAndExtension_eq_some {stem extension : Text}
    (h : stemAndExtension name = some (stem, extension)) :
    name = stem ++ '.' :: extension ∧ '.' ∉ extension ∧ extension ≠ [] := by
  obtain ⟨hspl, hne⟩ := Option.filter_eq_some_iff.mp h
  obtain ⟨hname, hdot⟩ := rsplitOnce_eq_some hspl
  refine ⟨hname, hdot, ?_⟩
  rintro rfl
  simp at hne

private theorem mem_truncate (h : c ∈ truncate name) : c ∈ name := by
  unfold truncate at h
  split at h
  · split at h
    · next stem extension heq =>
      rw [(stemAndExtension_eq_some heq).1]
      rcases mem_append.mp h with h | h
      · exact mem_append_left _ (mem_of_mem_take h)
      · exact mem_append_right _ h
    · exact mem_of_mem_take h
  · exact h

private theorem truncate_ne_nil (hname : name ≠ []) : truncate name ≠ [] := by
  unfold truncate
  split
  · split
    · simp
    · simpa [trimToBoundary] using hname
  · exact hname

private theorem truncate_not_reserved (hname : isReserved name = false) :
    isReserved (truncate name) = false := by
  unfold truncate
  split
  · split
    · rw [← Bool.not_eq_true]
      intro h
      exact not_mem_of_isReserved (.inl rfl) h (mem_append_right _ (mem_cons_self))
    · by_cases hshort : name.length ≤ 255
      · rwa [trimToBoundary, take_of_length_le hshort]
      · rw [← Bool.not_eq_true]
        intro h
        have hlen := length_of_isReserved h
        rw [trimToBoundary, length_take] at hlen
        omega
  · exact hname

/-! ## From the raw text to the end of the name -/

private def core (text : Text) : Text := trimEndMatches ' ' (trimEndMatches '.' text)

private theorem core_split (text : Text) : ∃ spaces dots,
    text = core text ++ (replicate spaces ' ' ++ replicate dots '.') ∧
      (spaces = 0 → (core text).getLast? ≠ some '.') := by
  obtain ⟨dots, hdots⟩ := exists_trimEndMatches '.' text
  obtain ⟨spaces, hspaces⟩ := exists_trimEndMatches ' ' (trimEndMatches '.' text)
  refine ⟨spaces, dots, ?_, ?_⟩
  · rw [← append_assoc]
    exact hdots.trans (congrArg (· ++ replicate dots '.') hspaces)
  · rintro rfl
    rw [replicate_zero, append_nil] at hspaces
    rw [core, ← hspaces]
    exact getLast?_trimEndMatches '.' text

private theorem core_no_space (text : Text) : (core text).getLast? ≠ some ' ' :=
  getLast?_trimEndMatches ' ' _

private theorem core_of_split {front : Text} {spaces dots : Nat}
    (hspace : front.getLast? ≠ some ' ') (hdot : spaces = 0 → front.getLast? ≠ some '.') :
    core (front ++ (replicate spaces ' ' ++ replicate dots '.')) = front := by
  have hlast : (front ++ replicate spaces ' ').getLast? ≠ some '.' := by
    cases spaces with
    | zero => simpa using hdot rfl
    | succ spaces => simp [replicate_succ', ← append_assoc]
  rw [core, ← append_assoc, trimEndMatches_append_replicate hlast,
    trimEndMatches_append_replicate hspace]

private theorem Trail.drop {rest : Text} (h : Trail rest) (n : Nat) : Trail (rest.drop n) := by
  obtain ⟨spaces, dots, rfl⟩ := h
  rw [drop_append, drop_replicate, drop_replicate]
  exact ⟨_, _, rfl⟩

private theorem Trail.mem {rest : Text} (h : Trail rest) (hc : c ∈ rest) : c = ' ' ∨ c = '.' := by
  obtain ⟨spaces, dots, rfl⟩ := h
  exact (mem_append.mp hc).imp eq_of_mem_replicate eq_of_mem_replicate

private theorem Trail.not_dot_space {rest : Text} (h : Trail rest) (front after : Text)
    (heq : rest = front ++ '.' :: ' ' :: after) : False := by
  obtain ⟨spaces, dots, rfl⟩ := h
  have hdot := congrArg (·[front.length]?) heq
  have hspace := congrArg (·[front.length + 1]?) heq
  simp only [getElem?_append, length_replicate, getElem?_replicate, Nat.lt_irrefl, if_false,
    Nat.sub_self, getElem?_cons_zero] at hdot
  have hlater : ¬ front.length + 1 < front.length := by omega
  simp only [getElem?_append, length_replicate, getElem?_replicate, hlater, if_false,
    Nat.add_sub_cancel_left, getElem?_cons_succ, getElem?_cons_zero] at hspace
  split_ifs at hdot hspace
  all_goals first
    | omega
    | exact absurd hdot (by decide)
    | exact absurd hspace (by decide)

private theorem dangling_iff {text : Text} (hend : text.getLast? ≠ some ' ') :
    Dangling text ↔ (core text).getLast? = some '.' := by
  constructor
  · rintro ⟨front, spaces, dots, rfl⟩
    have hcore : core ((front ++ ['.']) ++
        (replicate (spaces + 1) ' ' ++ replicate (dots + 1) '.')) = front ++ ['.'] :=
      core_of_split (by simp) (by simp)
    rw [append_assoc, singleton_append] at hcore
    simp [hcore]
  · intro hlast
    obtain ⟨spaces, dots, heq, hdot⟩ := core_split text
    obtain ⟨front, hfront⟩ := getLast?_eq_some_iff.mp hlast
    cases spaces with
    | zero => exact absurd hlast (hdot rfl)
    | succ spaces =>
        cases dots with
        | zero =>
            rw [heq, replicate_zero, append_nil, replicate_succ', ← append_assoc,
              getLast?_concat] at hend
            exact absurd rfl hend
        | succ dots =>
            exact ⟨front, spaces, dots, by rw [heq, hfront, append_assoc, singleton_append]⟩

private theorem trail_drop_iff {text : Text} {n : Nat} :
    Trail (text.drop n) ↔ (core text).length ≤ n := by
  obtain ⟨spaces, dots, heq, hdot⟩ := core_split text
  constructor
  · intro h
    by_contra hlong
    have hne : (core text).drop n ≠ [] := by simpa using hlong
    have hspl : text.drop n =
        (core text).drop n ++ (replicate spaces ' ' ++ replicate dots '.') := by
      conv_lhs => rw [heq]
      rw [drop_append_of_le_length (by omega)]
    obtain ⟨last, hlast⟩ : ∃ last, ((core text).drop n).getLast? = some last :=
      ⟨_, getLast?_eq_some_getLast hne⟩
    have hend : (core text).getLast? = some last := by
      rw [← hlast, getLast?_drop, if_neg (by omega)]
    have hmem : last ∈ text.drop n := by
      rw [hspl]
      exact mem_append_left _ (mem_of_getLast? hlast)
    rcases h.mem hmem with rfl | rfl
    · exact core_no_space text hend
    · obtain ⟨front, hfront⟩ := getLast?_eq_some_iff.mp hlast
      cases spaces with
      | zero => exact hdot rfl hend
      | succ spaces =>
          apply h.not_dot_space front (replicate spaces ' ' ++ replicate dots '.')
          rw [hspl, hfront, replicate_succ]
          simp only [append_assoc, cons_append, nil_append]
  · intro h
    have hdrop : text.drop n =
        (replicate spaces ' ' ++ replicate dots '.').drop (n - (core text).length) := by
      conv_lhs => rw [heq]
      rw [drop_append, drop_eq_nil_of_le h, nil_append]
    rw [hdrop]
    exact Trail.drop ⟨spaces, dots, rfl⟩ _

private theorem filterChar_eq {d : Char} (hd : d ≠ '_') (hplain : filterChar d = d) :
    filterChar c = d ↔ c = d := by
  unfold filterChar at *
  constructor
  · split
    · exact fun h => absurd h.symm hd
    · exact id
  · rintro rfl
    exact hplain

private theorem isWhitespace_filterChar (c : Char) :
    isWhitespace (filterChar c) = isBlank c := by
  unfold filterChar isBlank
  split
  · next h =>
    rcases h with h | h
    · have hnone : forbidden.any isWhitespace = false := by decide
      rw [← Bool.not_eq_true, any_eq_true] at hnone
      have hc : isWhitespace c = false := by
        rw [← Bool.not_eq_true]
        exact fun hspace => hnone ⟨c, h, hspace⟩
      rw [hc]
      rfl
    · rw [h]
      exact (Bool.and_false _).symm
  · next h =>
    rw [not_or, Bool.not_eq_true] at h
    rw [h.2]
    exact (Bool.and_true _).symm

private theorem rdropWhile_map (p : Char → Bool) (f : Char → Char) (text : Text) :
    (text.map f).rdropWhile p = (text.rdropWhile (p ∘ f)).map f := by
  rw [rdropWhile, rdropWhile, ← map_reverse, dropWhile_map, map_reverse]

private theorem trimmedName_eq (value : Text) :
    trimmedName value = (core (bare value)).map filterChar := by
  have htrim : trim (value.map filterChar) = (bare value).map filterChar := by
    change ((value.map filterChar).dropWhile isWhitespace).rdropWhile isWhitespace = _
    have hblank : isWhitespace ∘ filterChar = isBlank := funext isWhitespace_filterChar
    rw [dropWhile_map, rdropWhile_map, hblank]
    rfl
  have hmatch : ∀ (d : Char) (text : Text), d ≠ '_' → filterChar d = d →
      trimEndMatches d (text.map filterChar) = (trimEndMatches d text).map filterChar := by
    intro d text hd hplain
    have hsame : ((· == d) ∘ filterChar) = (· == d) := by
      funext c
      rw [Function.comp_apply, Bool.eq_iff_iff, beq_iff_eq, beq_iff_eq, filterChar_eq hd hplain]
    rw [trimEndMatches, rdropWhile_map, hsame]
    rfl
  rw [trimmedName, htrim, hmatch '.' _ (by decide) (by decide),
    hmatch ' ' _ (by decide) (by decide)]
  rfl

private theorem bare_no_space (value : Text) : (bare value).getLast? ≠ some ' ' := by
  intro hlast
  have hne : bare value ≠ [] := by
    intro hnil
    rw [hnil] at hlast
    cases hlast
  rw [getLast?_eq_some_getLast hne, Option.some.injEq] at hlast
  exact rdropWhile_last_not _ _ hne (hlast ▸ (by decide : isBlank ' ' = true))

private theorem fullName_of_long (h : 4 < (trimmedName value).length) :
    fullName value = trimmedName value := by
  unfold fullName
  split
  · next hresd =>
    have hlen := length_of_isReserved hresd
    omega
  · rfl

private theorem trimmedName_last (value : Text) :
    (trimmedName value).getLast? = some '.' ↔ Dangling (bare value) := by
  rw [dangling_iff (bare_no_space value), trimmedName_eq, getLast?_map, Option.map_eq_some_iff]
  constructor
  · rintro ⟨c, hlast, hc⟩
    rwa [(filterChar_eq (by decide) (by decide)).mp hc] at hlast
  · intro hlast
    exact ⟨'.', hlast, by decide⟩

private theorem fullName_last (value : Text) :
    (fullName value).getLast? = some '.' ↔ Dangling (bare value) := by
  rw [← trimmedName_last]
  unfold fullName
  split
  · next hresd =>
    refine iff_of_false (by simp) fun hlast => ?_
    exact not_mem_of_isReserved (.inl rfl) hresd (mem_of_getLast? hlast)
  · rfl

theorem stemAndExtension_of_rsplitOnce {stem extension : Text}
    (h : rsplitOnce '.' name = some (stem, extension)) (hstem : stem ≠ [])
    (hext : extension ≠ []) : stemAndExtension name = some (stem, extension) := by
  rw [stemAndExtension, h]
  simp [hstem, hext]

private theorem getLast?_extension {before extension : Text} (h : extension ≠ []) :
    (before ++ '.' :: extension).getLast? = extension.getLast? := by
  rw [getLast?_append_cons, getLast?_cons, getLast?_eq_some_getLast h]
  rfl

private theorem dotted_of_stem {stem extension : Text}
    (h : stemAndExtension (trimmedName value) = some (stem, extension)) :
    Dotted (bare value) ∧ ¬ Dangling (bare value) := by
  obtain ⟨hname, hdot, hne⟩ := stemAndExtension_eq_some h
  have hstem : stem ≠ [] := by
    rintro rfl
    simp [stemAndExtension, Option.filter_eq_some_iff] at h
  obtain ⟨spaces, dots, hspl, -⟩ := core_split (bare value)
  have hmap := (trimmedName_eq value).symm.trans hname
  obtain ⟨front, rest, hcore, hfront, hrest⟩ := map_eq_append_iff.mp hmap
  obtain ⟨c, after, rfl, hc, haft⟩ := map_eq_cons_iff.mp hrest
  rw [filterChar_eq (by decide) (by decide)] at hc
  subst hc
  constructor
  · refine ⟨front, after ++ (replicate spaces ' ' ++ replicate dots '.'), ?_, ?_, ?_⟩
    · conv_lhs => rw [hspl, hcore]
      rw [append_assoc, cons_append]
    · rintro rfl
      exact hstem hfront.symm
    · intro htrail
      have hne' : after ≠ [] := by
        rintro rfl
        exact hne haft.symm
      have hmem := getLast_mem hne'
      rcases htrail.mem (mem_append_left _ hmem) with hlast | hlast
      · apply core_no_space (bare value)
        rw [hcore, getLast?_extension hne', getLast?_eq_some_getLast hne', hlast]
      · rw [hlast] at hmem
        exact hdot (haft ▸ mem_map.mpr ⟨'.', hmem, by decide⟩)
  · rw [← trimmedName_last, hname, getLast?_extension hne]
    exact fun hlast => hdot (mem_of_getLast? hlast)

private theorem stem_of_dotted (h : Dotted (bare value)) (hdangling : ¬ Dangling (bare value)) :
    (stemAndExtension (trimmedName value)).isSome = true := by
  obtain ⟨stem, extension, hbare, hstem, htrail⟩ := h
  have hlong : stem.length + 1 < (core (bare value)).length := by
    by_contra hshort
    apply htrail
    have hdrop : extension = (bare value).drop (stem.length + 1) := by
      rw [hbare, ← drop_drop, drop_left, drop_one, tail_cons]
    rw [hdrop]
    exact trail_drop_iff.mpr (by omega)
  have hdot : (trimmedName value)[stem.length]? = some '.' := by
    obtain ⟨spaces, dots, hspl, -⟩ := core_split (bare value)
    have hbyte : (bare value)[stem.length]? = some '.' := by simp [hbare]
    rw [hspl, getElem?_append_left (by omega)] at hbyte
    rw [trimmedName_eq, getElem?_map, hbyte]
    rfl
  obtain ⟨before, after, hrsplit⟩ := exists_rsplitOnce (mem_of_getElem? hdot)
  obtain ⟨hname, hnodot⟩ := rsplitOnce_eq_some hrsplit
  have haft : after ≠ [] := by
    rintro rfl
    exact hdangling ((trimmedName_last value).mp (by simp [hname]))
  have hbef : before ≠ [] := by
    rintro rfl
    have hpos := length_pos_iff.mpr hstem
    obtain ⟨n, hn⟩ : ∃ n, stem.length = n + 1 := ⟨stem.length - 1, by omega⟩
    rw [hname, nil_append, hn, getElem?_cons_succ] at hdot
    exact hnodot (mem_of_getElem? hdot)
  rw [stemAndExtension_of_rsplitOnce hrsplit hbef haft]
  rfl

private theorem extension_ending {stem extension : Text}
    (h : stemAndExtension (fullName value) = some (stem, extension)) (before : Text) :
    (before ++ '.' :: extension).getLast? ≠ some '.' ∧
      (before ++ '.' :: extension).getLast? ≠ some ' ' := by
  obtain ⟨hname, hdot, hne⟩ := stemAndExtension_eq_some h
  have hspace := fullName_no_space value
  rw [hname, getLast?_extension hne] at hspace
  rw [getLast?_extension hne]
  exact ⟨fun hlast => hdot (mem_of_getLast? hlast), hspace⟩

private theorem length_trimmedName (value : Text) :
    (trimmedName value).length = (core (bare value)).length := by
  rw [trimmedName_eq, length_map]

private theorem short_ending (hlen : (core (bare value)).length ≤ 255) :
    (truncate (fullName value)).getLast? ≠ some '.' ∧
      (truncate (fullName value)).getLast? ≠ some ' ' ↔ ¬ Dangling (bare value) := by
  have hwh : (fullName value).getLast? ≠ some '.' ∧ (fullName value).getLast? ≠ some ' ' ↔
      ¬ Dangling (bare value) := by
    rw [ne_eq, fullName_last, and_iff_left (fullName_no_space value)]
  unfold truncate
  by_cases hlong : 255 < utf8Len (fullName value)
  · have hbyt := utf8Len_le_length (fullName value)
    have hlonger : (fullName value).length ≤ (trimmedName value).length + 1 := by
      unfold fullName
      split <;> simp
    have hname := @fullName_of_long value (by omega)
    rw [if_pos hlong]
    cases hspl : stemAndExtension (fullName value) with
    | none =>
        rw [trimToBoundary, take_of_length_le (by rw [hname, length_trimmedName]; exact hlen)]
        exact hwh
    | some pair =>
        obtain ⟨stem, extension⟩ := pair
        exact iff_of_true (extension_ending hspl _) (dotted_of_stem (hname ▸ hspl)).2
  · rw [if_neg hlong]
    exact hwh

private theorem long_ending (hlen : 255 < (core (bare value)).length) :
    (truncate (fullName value)).getLast? ≠ some '.' ∧
      (truncate (fullName value)).getLast? ≠ some ' ' ↔
    (bare value)[254]? ≠ some '.' ∧ (bare value)[254]? ≠ some ' ' ∨
      Dotted (bare value) ∧ ¬ Dangling (bare value) := by
  have hc := length_trimmedName value
  have hname := @fullName_of_long value (by omega)
  have hbyt := length_le_utf8Len (trimmedName value)
  rw [truncate, if_pos (by rw [hname]; omega)]
  cases hspl : stemAndExtension (fullName value) with
  | some pair =>
      obtain ⟨stem, extension⟩ := pair
      exact iff_of_true (extension_ending hspl _) (.inr (dotted_of_stem (hname ▸ hspl)))
  | none =>
      have hcut : (trimToBoundary (fullName value) 255).getLast? =
          (bare value)[254]?.map filterChar := by
        obtain ⟨spaces, dots, hbare, -⟩ := core_split (bare value)
        have hchar : (bare value)[254]? = (core (bare value))[254]? := by
          conv_lhs => rw [hbare]
          exact getElem?_append_left (by omega)
        rw [hchar, ← getElem?_map, ← trimmedName_eq, hname, trimToBoundary, getLast?_take,
          if_neg (by decide), getElem?_eq_getElem (by omega)]
        rfl
      have hstem : ¬ (Dotted (bare value) ∧ ¬ Dangling (bare value)) := by
        rintro ⟨hdotted, hdangling⟩
        have hsome := stem_of_dotted hdotted hdangling
        rw [← hname, hspl] at hsome
        cases hsome
      have hplain : ∀ d : Char, d ≠ '_' → filterChar d = d →
          ((bare value)[254]?.map filterChar ≠ some d ↔ (bare value)[254]? ≠ some d) := by
        intro d hd hplain
        rw [ne_eq, ne_eq, Option.map_eq_some_iff]
        simp only [filterChar_eq hd hplain, exists_eq_right]
      rw [or_iff_left hstem, hcut, hplain '.' (by decide) (by decide),
        hplain ' ' (by decide) (by decide)]

theorem truncate_ending (value : Text) : (truncate (fullName value)).getLast? ≠ some '.' ∧
      (truncate (fullName value)).getLast? ≠ some ' ' ↔ Settled value := by
  unfold Settled
  rw [trail_drop_iff]
  by_cases hlen : (core (bare value)).length ≤ 255
  · simp only [short_ending hlen, hlen, true_implies, not_true, false_implies, and_true]
  · simp only [long_ending (Nat.lt_of_not_le hlen), hlen, false_implies, not_false_iff,
      true_implies, true_and]

theorem sanitizeFilenameComponent_eq (h : trimmedName value ≠ []) :
    sanitizeFilenameComponent value = truncate (fullName value) := by
  rw [sanitizeFilenameComponent, if_neg (by simpa using h)]

private theorem fullName_ne_nil (h : trimmedName value ≠ []) : fullName value ≠ [] := by
  unfold fullName
  split
  · simp
  · exact h

theorem sanitizeFilenameComponent_ne_nil :
    sanitizeFilenameComponent value ≠ [] ↔ trimmedName value ≠ [] := by
  constructor
  · intro h hnil
    rw [sanitizeFilenameComponent, hnil] at h
    exact h rfl
  · intro h
    rw [sanitizeFilenameComponent_eq h]
    exact truncate_ne_nil (fullName_ne_nil h)

theorem isEmpty_sanitize (value : Text) :
    (sanitizeFilenameComponent value).isEmpty = (bare value).all (· == '.') := by
  have hemp : (sanitizeFilenameComponent value).isEmpty = true ↔ core (bare value) = [] := by
    rw [List.isEmpty_iff, ← not_iff_not, ← ne_eq, sanitizeFilenameComponent_ne_nil, trimmedName_eq,
      ne_eq, map_eq_nil_iff]
  rw [Bool.eq_iff_iff, hemp]
  constructor
  · intro hcore
    obtain ⟨spaces, dots, hbare, -⟩ := core_split (bare value)
    rw [hcore, nil_append] at hbare
    cases spaces with
    | zero => simp [hbare]
    | succ spaces =>
        have hhead := head?_dropWhile_not isBlank value
        obtain ⟨after, haft⟩ : bare value <+: value.dropWhile isBlank := rdropWhile_prefix _ _
        rw [← haft, hbare] at hhead
        exact absurd hhead (by simp [replicate_succ, show isBlank ' ' = true by decide])
  · intro hall
    have hdots : bare value = replicate (bare value).length '.' :=
      eq_replicate_of_mem fun c hc => beq_iff_eq.mp (all_eq_true.mp hall c hc)
    rw [hdots, ← nil_append (replicate _ '.'), ← nil_append (replicate _ '.')]
    exact @core_of_split [] 0 _ (by simp) (by simp)

private theorem settled_of_isEmpty (h : (bare value).all (· == '.') = true) : Settled value := by
  rw [← isEmpty_sanitize] at h
  have hnil : trimmedName value = [] := by
    by_contra hne
    exact sanitizeFilenameComponent_ne_nil.mpr hne (isEmpty_iff.mp h)
  rw [← truncate_ending, fullName, hnil]
  decide

theorem safe_sanitize_iff (hne : sanitizeFilenameComponent value ≠ []) :
    Safe (sanitizeFilenameComponent value) ↔ Settled value := by
  have htrimmed := sanitizeFilenameComponent_ne_nil.mp hne
  rw [← truncate_ending, ← sanitizeFilenameComponent_eq htrimmed]
  constructor
  · intro h
    exact ⟨h.no_dot, h.no_space⟩
  · rintro ⟨hdot, hspace⟩
    refine ⟨hne, fun c hc => ?_, ?_, ?_, hdot, hspace, ?_⟩
    · rw [sanitizeFilenameComponent_eq htrimmed] at hc
      exact fullName_clean (mem_truncate hc)
    · intro heq
      exact hdot (by rw [heq]; rfl)
    · intro heq
      exact hdot (by rw [heq]; rfl)
    · rw [sanitizeFilenameComponent_eq htrimmed]
      exact truncate_not_reserved (fullName_not_reserved)

/-! ## The names of a download -/

def rawNames (segments : Text → Option (List Text)) (contentDisposition : Option Text)
    (url : Text) : List Text :=
  (contentDisposition.toList.flatMap fun header =>
    (headerParts header).filterMap extendedName ++ (headerParts header).filterMap plainName) ++
  (segmentName segments url).toList

/-- The first of the texts that is more than blanks around dots. -/
def rawName (segments : Text → Option (List Text)) (contentDisposition : Option Text)
    (url : Text) : Option Text :=
  (rawNames segments contentDisposition url).find? fun raw => !(bare raw).all (· == '.')

/-- Where the parts of a path lead from a directory; both are lists of names. -/
def follow (dir parts : List Text) : List Text :=
  parts.foldl (fun here part =>
    if part = ['.', '.'] then here.dropLast else if part = ['.'] then here else here ++ [part]) dir

private theorem findSome?_nonempty (names : List Text) :
    names.findSome? (nonempty ∘ sanitizeFilenameComponent) =
      (names.find? fun raw => !(bare raw).all (· == '.')).map sanitizeFilenameComponent := by
  simp only [← isEmpty_sanitize]
  induction names with
  | nil => rfl
  | cons raw names ih =>
      cases hraw : (sanitizeFilenameComponent raw).isEmpty with
      | true => simp [nonempty, hraw, ih]
      | false => simp [nonempty, hraw]

theorem findSome?_filterMap {α β γ : Type*} (f : α → Option β) (g : β → Option γ) (l : List α) :
    (l.filterMap f).findSome? g = l.findSome? fun a => (f a).bind g := by
  induction l with
  | nil => rfl
  | cons a l ih =>
    cases hf : f a with
    | none => simp [hf, ih]
    | some b => simp only [filterMap_cons_some hf, findSome?_cons, hf, Option.bind_some, ih]

theorem findSome?_rawNames (segs : Text → Option (List Text)) (contentDisposition : Option Text)
    (url : Text) : (rawNames segs contentDisposition url).findSome?
        (nonempty ∘ sanitizeFilenameComponent) =
      (contentDisposition.bind parseContentDisposition).or (filenameFromUrl segs url) := by
  unfold rawNames filenameFromUrl parseContentDisposition
  rw [findSome?_append]
  congr 1
  · cases contentDisposition with
    | none => rfl
    | some header =>
      simp only [Option.toList_some, flatMap_cons, flatMap_nil, append_nil,
        findSome?_append, findSome?_filterMap, Option.bind_some]
  · cases segmentName segs url with
    | none => rfl
    | some raw => simp

theorem detectFilename_eq (segs : Text → Option (List Text)) (contentDisposition : Option Text)
    (url : Text) : detectFilename segs contentDisposition url =
      ((rawName segs contentDisposition url).map sanitizeFilenameComponent).getD
        "download".toList := by
  unfold detectFilename rawName
  rw [← findSome?_rawNames, findSome?_nonempty]
  cases hraw : (rawNames segs contentDisposition url).find? _ with
  | none => rfl
  | some raw =>
    have hne := find?_some hraw
    rw [← isEmpty_sanitize] at hne
    simp only [Option.map_some, Option.filter_some, hne, if_true]

def Component.part : Component → Option Text
  | .normal value => nonempty (sanitizeFilenameComponent value)
  | _ => none

private theorem sanitizeParts_eq {path : List Component} {sanitized : List Text}
    (h : sanitizeParts path sanitized = some parts) :
    parts = sanitized ++ path.filterMap Component.part := by
  induction path generalizing sanitized with
  | nil =>
    cases h
    simp
  | cons component path ih =>
    cases component with
    | normal value =>
      rw [sanitizeParts] at h
      cases hpart : (sanitizeFilenameComponent value).isEmpty with
      | true =>
        rw [hpart, if_pos rfl] at h
        rw [ih h, filterMap_cons_none (by rw [Component.part, nonempty, if_pos hpart])]
      | false =>
        rw [hpart, if_neg Bool.false_ne_true] at h
        have hsome : (Component.normal value).part = some (sanitizeFilenameComponent value) := by
          rw [Component.part, nonempty, hpart, if_neg Bool.false_ne_true]
        rw [ih h, filterMap_cons_some hsome, append_assoc, singleton_append]
    | curDir => exact ih h
    | parentDir | rootDir | driveRoot => cases h

theorem mem_sanitizeRelativePath {path : List Component}
    (h : sanitizeRelativePath path = some parts) (part : Text) :
    part ∈ parts ↔ ∃ value, .normal value ∈ path ∧ sanitizeFilenameComponent value ≠ [] ∧
      sanitizeFilenameComponent value = part := by
  have hparts := sanitizeParts_eq (Option.filter_eq_some_iff.mp h).1
  rw [nil_append] at hparts
  rw [hparts, mem_filterMap]
  constructor
  · rintro ⟨component, hmem, heq⟩
    cases component with
    | normal value =>
      replace heq : nonempty (sanitizeFilenameComponent value) = some part := heq
      unfold nonempty at heq
      split at heq
      · cases heq
      · next hne =>
        cases heq
        exact ⟨value, hmem, by simpa using hne, rfl⟩
    | _ => cases heq
  · rintro ⟨value, hmem, hne, rfl⟩
    exact ⟨.normal value, hmem, if_neg (by simpa using hne)⟩

private theorem follow_of_safe (dir : List Text) (h : ∀ part ∈ parts, Safe part) :
    follow dir parts = dir ++ parts := by
  induction parts generalizing dir with
  | nil => exact (append_nil dir).symm
  | cons part parts ih =>
    have hpart := h part mem_cons_self
    unfold follow
    rw [foldl_cons, if_neg hpart.not_parent, if_neg hpart.not_current]
    refine (ih (dir ++ [part]) fun other ho => h other (mem_cons_of_mem _ ho)).trans ?_
    rw [append_assoc, singleton_append]

/-- A derived name is safe exactly when its raw text is settled. -/
theorem derived_names_are_safe (segments : Text → Option (List Text))
    (contentDisposition : Option Text) (url : Text) (path : List Component) (dir : List Text) :
    (Safe (detectFilename segments contentDisposition url) ↔
      ∀ raw ∈ rawName segments contentDisposition url, Settled raw) ∧
    (∀ parts, sanitizeRelativePath path = some parts → parts ≠ [] ∧
      ((∀ part ∈ parts, Safe part) ↔ ∀ value, .normal value ∈ path → Settled value)) ∧
    ∀ parts, (∀ part ∈ parts, Safe part) → follow dir parts = dir ++ parts := by
  refine ⟨?_, fun parts h => ⟨?_, fun hsafe value hvalue => ?_, fun hset part hpart => ?_⟩,
    fun parts h => follow_of_safe dir h⟩
  · rw [detectFilename_eq]
    cases hraw : rawName segments contentDisposition url with
    | none => simpa using (by decide : Safe "download".toList)
    | some raw =>
      have hne := find?_some hraw
      rw [← isEmpty_sanitize] at hne
      simpa using safe_sanitize_iff (by simpa using hne)
  · rintro rfl
    simp [sanitizeRelativePath, Option.filter_eq_some_iff] at h
  · by_cases hnil : (bare value).all (· == '.') = true
    · exact settled_of_isEmpty hnil
    · rw [← isEmpty_sanitize, List.isEmpty_iff] at hnil
      rw [← safe_sanitize_iff hnil]
      exact hsafe _ ((mem_sanitizeRelativePath h _).mpr ⟨value, hvalue, hnil, rfl⟩)
  · obtain ⟨value, hvalue, hne, rfl⟩ := (mem_sanitizeRelativePath h part).mp hpart
    exact (safe_sanitize_iff hne).mpr (hset value hvalue)

theorem replaced_character_gives_a_safe_name :
    detectFilename (fun _ => none) (some "attachment; filename=\"a:b.txt\"".toList) [] =
        "a_b.txt".toList ∧
      Safe (detectFilename (fun _ => none) (some "attachment; filename=\"a:b.txt\"".toList) []) ∧
      follow ["dir".toList] [detectFilename (fun _ => none)
        (some "attachment; filename=\"a:b.txt\"".toList) []] =
        ["dir".toList, "a_b.txt".toList] := by
  have hraw : rawName (fun _ => none) (some "attachment; filename=\"a:b.txt\"".toList) [] =
      some "a:b.txt".toList := by decide
  have hset : Settled "a:b.txt".toList := by
    refine ⟨fun _ => ?_, fun hlong => absurd ⟨0, 0, by decide⟩ hlong⟩
    rw [← trimmedName_last]
    decide
  have hnames := derived_names_are_safe (fun _ => none)
    (some "attachment; filename=\"a:b.txt\"".toList) [] [] ["dir".toList]
  have hsafe := hnames.1.mpr fun raw hmem => by
    rw [hraw, Option.mem_some_iff] at hmem
    exact hmem ▸ hset
  exact ⟨by decide, hsafe, (hnames.2.2 _ (by simpa using hsafe)).trans (by decide)⟩

/-- Spaces are trimmed after the dots, and what is left is the parent directory. -/
theorem trimmed_name_is_the_parent :
    detectFilename (fun _ => none) (some "attachment; filename=\".. .\"".toList) [] = "..".toList ∧
      sanitizeRelativePath [.normal ".. .".toList, .normal "a".toList] =
        some ["..".toList, "a".toList] ∧
      follow ["home".toList, "dir".toList] ["..".toList, "a".toList] =
        ["home".toList, "a".toList] := by
  decide

/-! ## The length of a name -/

private theorem long_trimmedName (h : 255 < utf8Len (trimmedName value)) :
    fullName value = trimmedName value := by
  have hbyt := utf8Len_le_length (trimmedName value)
  exact fullName_of_long (by omega)

private theorem utf8Len_truncate_le_iff (value : Text) :
    utf8Len (truncate (fullName value)) ≤ 255 ↔ Narrow value := by
  unfold truncate Narrow
  by_cases hlong : 255 < utf8Len (fullName value)
  · rw [if_pos hlong]
    cases hspl : stemAndExtension (fullName value) with
    | none =>
      rw [trimToBoundary, utf8Len_take_le_iff hlong]
      exact (or_iff_right (by omega)).symm
    | some pair =>
      obtain ⟨stem, extension⟩ := pair
      have hname := congrArg utf8Len (stemAndExtension_eq_some hspl).1
      rw [utf8Len_append, utf8Len_cons] at hname
      simp only [trimToBoundary, utf8Len_append, utf8Len_cons]
      have hdot : ('.').utf8Size = 1 := by decide
      by_cases hext : utf8Len extension ≤ 254
      · have hkeep : 255 - (utf8Len extension + 1) = 254 - utf8Len extension := by omega
        rw [hkeep, ← utf8Len_take_le_iff (by omega)]
        omega
      · omega
  · rw [if_neg hlong]
    exact (iff_of_true (by omega) (.inl (by omega)))

/-- The name fits exactly when the cut keeps single bytes, and the cut keeps the extension. -/
theorem long_names_keep_their_extension (value : Text) :
    (utf8Len (sanitizeFilenameComponent value) ≤ 255 ↔ trimmedName value = [] ∨ Narrow value) ∧
    ∀ stem extension, 255 < utf8Len (trimmedName value) →
      rsplitOnce '.' (trimmedName value) = some (stem, extension) → stem ≠ [] →
      extension ≠ [] → utf8Len extension ≤ 250 →
      '.' :: extension <:+ sanitizeFilenameComponent value := by
  refine ⟨?_, fun stem extension hlong hspl hstem hext _ => ?_⟩
  · by_cases hnil : trimmedName value = []
    · rw [sanitizeFilenameComponent, hnil]
      simp [utf8Len]
    · rw [sanitizeFilenameComponent_eq hnil, utf8Len_truncate_le_iff, or_iff_right hnil]
  · have hne : trimmedName value ≠ [] := by
      intro hnil
      rw [hnil] at hlong
      cases hlong
    rw [sanitizeFilenameComponent_eq hne, long_trimmedName hlong, truncate, if_pos hlong,
      stemAndExtension_of_rsplitOnce hspl hstem hext]
    exact suffix_append _ _

theorem long_name_is_cut_to_the_limit :
    utf8Len (sanitizeFilenameComponent (replicate 300 'a' ++ ".txt".toList)) ≤ 255 ∧
      ".txt".toList <:+ sanitizeFilenameComponent (replicate 300 'a' ++ ".txt".toList) := by
  have hspl : stemAndExtension (fullName (replicate 300 'a' ++ ".txt".toList)) =
      some (replicate 300 'a', "txt".toList) := by decide +kernel
  refine ⟨(long_names_keep_their_extension _).1.mpr (.inr (.inr ?_)),
    (long_names_keep_their_extension _).2 (replicate 300 'a') "txt".toList
      (by decide +kernel) (by decide +kernel) (by decide) (by decide) (by decide)⟩
  rw [hspl]
  refine ⟨by decide, fun c hc => ?_⟩
  obtain rfl := eq_of_mem_replicate (mem_of_mem_take hc)
  rfl

theorem wide_name_exceeds_the_limit :
    utf8Len (sanitizeFilenameComponent (replicate 64 (Char.ofNat 0x1F600))) = 256 := by
  decide

end Bytehaul.Naming
