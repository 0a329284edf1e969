import Bytehaul.Session.Response
import Bytehaul.Storage.ControlFile
import Bytehaul.Storage.PieceArithmetic

/-!
# Resuming

`session/resume.rs`: whether a control file is believed, which range is probed, and how a
transfer goes on. `none` is a panic of the piece arithmetic.
-/

namespace Bytehaul.Session

open Foundation Storage Option PieceMap Checked Nat

inductive FileAllocation
  | none
  | prealloc
  deriving DecidableEq, Repr

structure ResumeSpec where
  maxConnections : Nat
  fileAllocation : FileAllocation
  resume : Bool
  deriving DecidableEq, Repr

inductive OutputMetadata
  | found (len : Nat)
  | notFound
  | failed (kind : IoErrorKind)
  deriving DecidableEq, Repr

def isMulti (ctrl : ControlSnapshot) (spec : ResumeSpec) : Bool :=
  1 < ctrl.pieceCount && 1 < spec.maxConnections

def mismatch (message : String) : Except DownloadError Unit := .error (.resumeMismatch message)

def minLen (map : PieceMap) : Checked Nat :=
  match map.highestCompletedPiece with
  | none => some 0
  | some pieceId => (map.pieceRangeChecked pieceId).map Span.stop

def checkMulti (actualLen : Nat) (ctrl : ControlSnapshot) (preallocated : Bool) :
    Checked (Except DownloadError Unit) := do
  let map ← ctrl.pieceMapChecked
  if ctrl.downloadedBytes < map.completedBytes then
    some (mismatch "control file marks more completed bytes than downloaded_bytes")
  else if preallocated then
    if actualLen ≠ ctrl.totalSize then
      let total := ctrl.totalSize
      some (mismatch
        s!"preallocated resume file size mismatch: expected {total} bytes, found {actualLen}")
    else some (.ok ())
  else do
    let least ← minLen map
    if actualLen < least then
      some (mismatch (s!"resume file is truncated: expected at least {least} bytes from " ++
        s!"completed pieces, found {actualLen}"))
    else if ctrl.totalSize < actualLen then
      let total := ctrl.totalSize
      some (mismatch ("resume file is larger than expected total size: expected at " ++
        s!"most {total} bytes, found {actualLen}"))
    else if actualLen < ctrl.downloadedBytes then
      let downloaded := ctrl.downloadedBytes
      some (mismatch (s!"control file records {downloaded} downloaded bytes but local " ++
        s!"file only has {actualLen} bytes"))
    else some (.ok ())

def checkSingle (actualLen : Nat) (ctrl : ControlSnapshot) (preallocated : Bool) :
    Except DownloadError Unit :=
  let expectedLen := if preallocated then ctrl.totalSize else ctrl.downloadedBytes
  if actualLen ≠ expectedLen then
    mismatch s!"resume file size mismatch: expected {expectedLen} bytes, found {actualLen}"
  else .ok ()

def validateLocalResumeState (metadata : OutputMetadata) (ctrl : ControlSnapshot)
    (spec : ResumeSpec) : Checked (Except DownloadError Unit) :=
  match metadata with
  | .notFound => some (mismatch "local download file is missing")
  | .failed kind => some (.error (.io kind))
  | .found actualLen =>
    if ctrl.totalSize < ctrl.downloadedBytes then
      some (mismatch "control file records more bytes than total_size")
    else
      let preallocated := spec.fileAllocation == .prealloc
      if isMulti ctrl spec then checkMulti actualLen ctrl preallocated
      else some (checkSingle actualLen ctrl preallocated)

inductive ResumePlan
  | multi (map : PieceMap) (probePiece : Nat)
  | single (startOffset : Nat)
  deriving DecidableEq, Repr

structure ResumeProbe where
  ctrl : ControlSnapshot
  start : Nat
  endInclusive : Nat
  plan : ResumePlan
  deriving DecidableEq, Repr

inductive ResumeDecision
  | fresh (delete : Bool)
  | probe (request : ResumeProbe)
  deriving DecidableEq, Repr

def probeFor (ctrl : ControlSnapshot) (spec : ResumeSpec) : Checked ResumeDecision :=
  if isMulti ctrl spec then do
    let map ← ctrl.pieceMapChecked
    match map.firstMissing with
    | none => some (.fresh true)
    | some probePiece =>
      let range ← map.pieceRangeChecked probePiece
      let last ← sub range.stop 1
      some (.probe ⟨ctrl, range.start, last, .multi map probePiece⟩)
  else if 0 < ctrl.downloadedBytes ∧ ctrl.downloadedBytes < ctrl.totalSize then do
    let last ← sub ctrl.totalSize 1
    some (.probe ⟨ctrl, ctrl.downloadedBytes, last, .single ctrl.downloadedBytes⟩)
  else some (.fresh true)

def resumeDecision (load : Except ControlError (ControlSnapshot × ControlHints))
    (metadata : OutputMetadata) (spec : ResumeSpec) : Checked ResumeDecision :=
  if spec.resume then
    match load with
    | .error _ => some (.fresh false)
    | .ok (ctrl, _) => do
        match ← validateLocalResumeState metadata ctrl spec with
        | .error _ => some (.fresh true)
        | .ok () => probeFor ctrl spec
  else some (.fresh false)

def validateMetadata (metadata : ResponseMeta) (ctrl : ControlSnapshot) : Bool :=
  metadata.contentRangeTotal.all (· == ctrl.totalSize) &&
    ctrl.etag.all (fun expected => metadata.etag == some expected) &&
    ctrl.lastModified.all (fun expected => metadata.lastModified == some expected)

/-- Otherwise the control file is deleted and the transfer starts afresh. -/
def ResumeProbe.accepts (request : ResumeProbe)
    (answer : Except DownloadError HttpResponse) : Bool :=
  match answer with
  | .error _ => false
  | .ok response =>
    validateRangeResponse response .resumeProbe
        ⟨request.start, request.endInclusive, some request.ctrl.totalSize⟩ == .ok .accept &&
      validateMetadata response.metadata request.ctrl

structure Requestable (ctrl : ControlSnapshot) (pieceId : Nat) : Prop where
  size_pos : 0 < ctrl.pieceSize
  start_lt : pieceId * ctrl.pieceSize < ctrl.totalSize
  stop_lt : (pieceId + 1) * ctrl.pieceSize < u64Limit

/-- The marked pieces and the length of the output file go together with what is recorded. -/
structure Plausible (ctrl : ControlSnapshot) (len : Nat) (preallocated : Bool) : Prop where
  recorded : (∑ i ∈ Finset.range ctrl.pieceCount, if ctrl.Marks i then
    pieceLen ctrl.totalSize ctrl.pieceSize i else 0) ≤ ctrl.downloadedBytes
  whole : preallocated = true → len = ctrl.totalSize
  part : preallocated = false → len ≤ ctrl.totalSize ∧ ctrl.downloadedBytes ≤ len ∧
    ∀ i, ctrl.Marks i → min ((i + 1) * ctrl.pieceSize) ctrl.totalSize ≤ len

/-- Not more pieces than a bit vector has bits; every marked one starts within the file, and the
first one that is not lies in it, if the file is plausible. -/
structure Coherent (ctrl : ControlSnapshot) (len : Nat) (preallocated : Bool) : Prop where
  count : ctrl.pieceCount ≤ maxBits
  completed : ∀ i, ctrl.Marks i → Fits ctrl.totalSize ctrl.pieceSize i
  missing : Plausible ctrl len preallocated → ∀ i < ctrl.pieceCount, ¬ ctrl.Marks i →
    (∀ j < i, ctrl.Marks j) → Requestable ctrl i

/-- A probe, if there is one, asks for a range that is not empty and lies in the file. -/
def ResumeDecision.InFile (totalSize : Nat) (decision : ResumeDecision) : Prop :=
  ∀ request, decision = .probe request →
    request.start ≤ request.endInclusive ∧ request.endInclusive < totalSize

section Arithmetic

variable {ctrl : ControlSnapshot} {spec : ResumeSpec} {actualLen pieceId : Nat}

theorem Requestable.fits (h : Requestable ctrl pieceId) :
    PieceMap.Fits ctrl.totalSize ctrl.pieceSize pieceId :=
  ⟨le_of_lt h.start_lt, h.stop_lt⟩

theorem pieceRange_stop_of_fits (h : PieceMap.Fits ctrl.totalSize ctrl.pieceSize pieceId) :
    (ctrl.pieceMap.pieceRange pieceId).stop = min ((pieceId + 1) * ctrl.pieceSize) ctrl.totalSize :=
  h.pieceLen_eq

theorem minLen_of_fits (hu64 : ctrl.FitsU64)
    (hfits : ∀ i, ctrl.Marks i → Fits ctrl.totalSize ctrl.pieceSize i) :
    ∃ least, minLen ctrl.pieceMap = some least ∧ ∀ len, least ≤ len ↔
      ∀ i, ctrl.Marks i → min ((i + 1) * ctrl.pieceSize) ctrl.totalSize ≤ len := by
  cases htop : ctrl.pieceMap.highestCompletedPiece with
  | none =>
    refine ⟨0, by rw [minLen, htop], fun len => iff_of_true (zero_le len) fun i hmark => ?_⟩
    have hbit := (restored_describes ctrl.totalSize ctrl.pieceSize ctrl.pieceCount
      ctrl.completedBitset).none htop i
    change ctrl.pieceMap.bit i = false at hbit
    rw [ctrl.bit_pieceMap, decide_eq_false_iff_not] at hbit
    exact absurd hmark hbit
  | some top =>
    obtain ⟨hmark, hmax⟩ := ctrl.highest_is_marked htop
    have hc := hu64.pieceCount
    have hlt := hmark.1
    have hrng : ctrl.pieceMap.pieceRangeChecked top = some (ctrl.pieceMap.pieceRange top) :=
      pieceRangeChecked_of_fits (hfits top hmark) (by omega)
    refine ⟨(ctrl.pieceMap.pieceRange top).stop, by simp only [minLen, htop, hrng, map_some],
      fun len => ?_⟩
    rw [pieceRange_stop_of_fits (hfits top hmark)]
    refine ⟨fun hle i hi => ?_, fun hall => hall top hmark⟩
    have hbelow : (i + 1) * ctrl.pieceSize ≤ (top + 1) * ctrl.pieceSize :=
      mul_le_mul_right _ (succ_le_succ (hmax i hi))
    omega

theorem checkMulti_of_fits (hu64 : ctrl.FitsU64) (hbits : ctrl.pieceCount ≤ maxBits)
    (hfits : ∀ i, ctrl.Marks i → Fits ctrl.totalSize ctrl.pieceSize i)
    (actualLen : Nat) (preallocated : Bool) :
    ∃ result, checkMulti actualLen ctrl preallocated = some result ∧
      (result = .ok () ↔ Plausible ctrl actualLen preallocated) := by
  obtain ⟨least, hleast, hstops⟩ := minLen_of_fits hu64 hfits
  have hmap := hu64.pieceMapChecked_of_fits hbits fun i hi =>
    hfits i (by simpa [ctrl.bit_pieceMap] using hi)
  rw [checkMulti, hmap, bind_eq_bind, bind_some, hleast, bind_eq_bind, bind_some,
    ctrl.completedBytes_eq]
  split
  case isTrue hmore =>
    exact ⟨_, rfl, iff_of_false nofun fun hplau => not_lt.mpr hplau.recorded hmore⟩
  case isFalse hrecd =>
    rw [not_lt] at hrecd
    cases preallocated with
    | true =>
      simp only [if_true]
      split
      case isTrue hlen =>
        exact ⟨_, rfl, iff_of_false nofun fun hplau => hlen (hplau.whole rfl)⟩
      case isFalse hlen =>
        exact ⟨_, rfl, iff_of_true rfl ⟨hrecd, fun _ => not_not.mp hlen, nofun⟩⟩
    | false =>
      simp only [Bool.false_eq_true, if_false]
      split
      case isTrue hshort =>
        exact ⟨_, rfl, iff_of_false nofun fun hplau =>
          not_le.mpr hshort ((hstops actualLen).mpr (hplau.part rfl).2.2)⟩
      case isFalse hlong =>
        split
        case isTrue hlarger =>
          exact ⟨_, rfl, iff_of_false nofun fun hplau =>
            not_lt.mpr (hplau.part rfl).1 hlarger⟩
        case isFalse hwith =>
          split
          case isTrue hless =>
            exact ⟨_, rfl, iff_of_false nofun fun hplau =>
              not_lt.mpr (hplau.part rfl).2.1 hless⟩
          case isFalse hcovered =>
            exact ⟨_, rfl, iff_of_true rfl ⟨hrecd, nofun, fun _ => ⟨not_lt.mp hwith,
              not_lt.mp hcovered, (hstops actualLen).mp (not_lt.mp hlong)⟩⟩⟩

private theorem coherent_of_checkMulti {preallocated : Bool} {result : Except DownloadError Unit}
    (h : checkMulti actualLen ctrl preallocated = some result) : ctrl.pieceCount ≤ maxBits ∧
      ∀ i, ctrl.Marks i → Fits ctrl.totalSize ctrl.pieceSize i := by
  obtain ⟨_, hmap, -⟩ := bind_eq_some_iff.mp h
  obtain ⟨hbits, rfl, hfits⟩ := ControlSnapshot.pieceMapChecked_eq_some hmap
  exact ⟨hbits, fun i hi => hfits i (by simpa [ctrl.bit_pieceMap] using hi)⟩

theorem firstMissing_lt (ctrl : ControlSnapshot) (h : ctrl.pieceMap.firstMissing = some pieceId) :
    pieceId < ctrl.pieceCount := by
  unfold firstMissing at h
  split at h
  · cases h
    assumption
  · cases h

theorem probeFor_multi_iff (hu64 : ctrl.FitsU64) (hmulti : isMulti ctrl spec = true)
    (hmap : ctrl.pieceMapChecked = some ctrl.pieceMap) :
    (∃ decision, probeFor ctrl spec = some decision ∧ decision.InFile ctrl.totalSize) ↔
      ∀ i, ctrl.pieceMap.firstMissing = some i → Requestable ctrl i := by
  rw [probeFor, if_pos hmulti, hmap, bind_eq_bind, bind_some]
  cases hmiss : ctrl.pieceMap.firstMissing with
  | none =>
    refine iff_of_true ⟨_, rfl, ?_⟩ ?_
    · rintro _ ⟨⟩
    · rintro _ ⟨⟩
  | some missing =>
    have hlt := firstMissing_lt ctrl hmiss
    have hc := hu64.pieceCount
    simp only [bind_eq_bind]
    constructor
    · rintro ⟨decision, hdec, hfile⟩ _ ⟨⟩
      obtain ⟨range, hrng, hlast⟩ := bind_eq_some_iff.mp hdec
      obtain ⟨last, hsub, hprobe⟩ := bind_eq_some_iff.mp hlast
      obtain ⟨hpos, rfl⟩ := sub_eq_some.mp hsub
      have hfit := fits_of_pieceRangeChecked hrng
      rw [pieceRangeChecked_of_fits hfit (by omega)] at hrng
      cases hrng
      have hstart : missing * ctrl.pieceSize ≤ (ctrl.pieceMap.pieceRange missing).stop - 1 :=
        (hfile _ (some.inj hprobe).symm).1
      rw [pieceRange_stop_of_fits hfit] at hpos hstart
      have hnext := Nat.add_one_mul missing ctrl.pieceSize
      exact ⟨by omega, by omega, hfit.stop_lt⟩
    · intro hrequestable
      have hp := hrequestable missing rfl
      have hstop := pieceRange_stop_of_fits hp.fits
      have hnext := Nat.add_one_mul missing ctrl.pieceSize
      have hpos := hp.size_pos
      have hin := hp.start_lt
      have hsub : sub (ctrl.pieceMap.pieceRange missing).stop 1 =
          some ((ctrl.pieceMap.pieceRange missing).stop - 1) :=
        sub_eq_some.mpr ⟨by omega, rfl⟩
      have hrng : ctrl.pieceMap.pieceRangeChecked missing =
          some (ctrl.pieceMap.pieceRange missing) :=
        pieceRangeChecked_of_fits hp.fits (by omega)
      rw [hrng, bind_some, hsub]
      refine ⟨_, rfl, ?_⟩
      rintro _ ⟨⟩
      change missing * ctrl.pieceSize ≤ (ctrl.pieceMap.pieceRange missing).stop - 1 ∧
        (ctrl.pieceMap.pieceRange missing).stop - 1 < ctrl.totalSize
      omega

private theorem probeFor_single (hmulti : isMulti ctrl spec = false) :
    ∃ decision, probeFor ctrl spec = some decision ∧ decision.InFile ctrl.totalSize := by
  rw [probeFor, if_neg (by simp [hmulti])]
  split
  case isTrue hin =>
    have hsub : sub ctrl.totalSize 1 = some (ctrl.totalSize - 1) := sub_eq_some.mpr ⟨by omega, rfl⟩
    rw [hsub, bind_eq_bind]
    refine ⟨_, rfl, ?_⟩
    rintro _ ⟨⟩
    change ctrl.downloadedBytes ≤ ctrl.totalSize - 1 ∧ ctrl.totalSize - 1 < ctrl.totalSize
    omega
  case isFalse =>
    refine ⟨_, rfl, ?_⟩
    rintro _ ⟨⟩

end Arithmetic

section Decision

variable {ctrl : ControlSnapshot} {hints : ControlHints} {metadata : OutputMetadata}
  {spec : ResumeSpec}

theorem fresh_inFile (totalSize : Nat) (delete : Bool) :
    (ResumeDecision.fresh delete).InFile totalSize := by
  rintro _ ⟨⟩

theorem resumeDecision_resume (h : spec.resume = true) :
    resumeDecision (.ok (ctrl, hints)) metadata spec =
      (validateLocalResumeState metadata ctrl spec).bind fun verdict =>
        match verdict with
        | .error _ => some (.fresh true)
        | .ok () => probeFor ctrl spec := by
  rw [resumeDecision, if_pos h]
  rfl

theorem resumeDecision_iff (hrsm : spec.resume = true) {verdict : Except DownloadError Unit}
    (hverd : validateLocalResumeState metadata ctrl spec = some verdict) :
    (∃ decision, resumeDecision (.ok (ctrl, hints)) metadata spec = some decision ∧
      decision.InFile ctrl.totalSize) ↔
    (verdict = .ok () →
      ∃ decision, probeFor ctrl spec = some decision ∧ decision.InFile ctrl.totalSize) := by
  rw [resumeDecision_resume hrsm, hverd]
  cases verdict with
  | error reason => exact iff_of_true ⟨_, rfl, fresh_inFile _ _⟩ (fun h => nomatch h)
  | ok _ => exact ⟨fun h _ => h, fun h => h rfl⟩

private theorem validateLocalResumeState_multi {len : Nat} (hmulti : isMulti ctrl spec = true)
    (hrecd : ctrl.downloadedBytes ≤ ctrl.totalSize) :
    validateLocalResumeState (.found len) ctrl spec =
      checkMulti len ctrl (spec.fileAllocation == .prealloc) := by
  simp only [validateLocalResumeState, not_lt.mpr hrecd, hmulti, if_false, if_true]

private theorem validateLocalResumeState_total
    (h : isMulti ctrl spec = true → ∀ len, metadata = .found len →
      ctrl.totalSize < ctrl.downloadedBytes) :
    ∃ verdict, validateLocalResumeState metadata ctrl spec = some verdict ∧
      (verdict = .ok () → isMulti ctrl spec = false) := by
  cases metadata with
  | notFound | failed kind => exact ⟨_, rfl, fun hok => nomatch hok⟩
  | found len =>
    unfold validateLocalResumeState
    dsimp only
    split
    · exact ⟨_, rfl, fun hok => nomatch hok⟩
    · split
      case isTrue hrecd hmulti => exact absurd (h hmulti len rfl) hrecd
      case isFalse hsing => exact ⟨_, rfl, fun _ => by simpa using hsing⟩

end Decision

/-- Resuming stays within `u64` and ends with a rejection or a probe of a range of the file, if and
only if the sizes are coherent wherever the pieces are looked at. -/
theorem resume_arithmetic_is_safe_iff (ctrl : ControlSnapshot) (hints : ControlHints)
    (metadata : OutputMetadata) (spec : ResumeSpec) (hu64 : ctrl.FitsU64) :
    (∃ decision, resumeDecision (.ok (ctrl, hints)) metadata spec = some decision ∧
      decision.InFile ctrl.totalSize) ↔
    (spec.resume = true → isMulti ctrl spec = true → ∀ len, metadata = .found len →
      ctrl.downloadedBytes ≤ ctrl.totalSize →
        Coherent ctrl len (spec.fileAllocation == .prealloc)) := by
  by_cases hlooked : spec.resume = true ∧ isMulti ctrl spec = true ∧
      (∃ len, metadata = .found len) ∧ ctrl.downloadedBytes ≤ ctrl.totalSize
  · obtain ⟨hrsm, hmulti, ⟨len, rfl⟩, hrecd⟩ := hlooked
    have hverd : validateLocalResumeState (.found len) ctrl spec = _ :=
      validateLocalResumeState_multi hmulti hrecd
    have hmapped (hbits : ctrl.pieceCount ≤ maxBits)
        (hfits : ∀ i, ctrl.Marks i → Fits ctrl.totalSize ctrl.pieceSize i) :=
      hu64.pieceMapChecked_of_fits hbits fun i hi =>
        hfits i (by simpa [ctrl.bit_pieceMap] using hi)
    constructor
    · rintro ⟨decision, hdec, hfile⟩ - - _ ⟨⟩ -
      obtain ⟨_, hsome, -⟩ := bind_eq_some_iff.mp ((resumeDecision_resume hrsm).symm.trans hdec)
      obtain ⟨hbits, hfits⟩ := coherent_of_checkMulti (hverd.symm.trans hsome)
      obtain ⟨verdict, hcheck, hplau⟩ := checkMulti_of_fits hu64 hbits hfits len
        (spec.fileAllocation == .prealloc)
      refine ⟨hbits, hfits, fun hbelieved i hi hunm hmark => ?_⟩
      have hprobe := (resumeDecision_iff hrsm (hverd.trans hcheck)).mp
        ⟨decision, hdec, hfile⟩ (hplau.mpr hbelieved)
      exact (probeFor_multi_iff hu64 hmulti (hmapped hbits hfits)).mp hprobe i
        ((ctrl.firstMissing_iff i).mpr ⟨hi, hunm, hmark⟩)
    · intro hcoh
      obtain ⟨hbits, hfits, hmiss⟩ := hcoh hrsm hmulti len rfl hrecd
      obtain ⟨verdict, hsome, hplau⟩ := checkMulti_of_fits hu64 hbits hfits len _
      rw [resumeDecision_iff hrsm (hverd.trans hsome)]
      intro hok
      refine (probeFor_multi_iff hu64 hmulti (hmapped hbits hfits)).mpr fun i hfst => ?_
      obtain ⟨hi, hunm, hmark⟩ := (ctrl.firstMissing_iff i).mp hfst
      exact hmiss (hplau.mp hok) i hi hunm hmark
  · refine iff_of_true ?_ fun hrsm hmulti len hlen hrecd =>
      absurd ⟨hrsm, hmulti, ⟨len, hlen⟩, hrecd⟩ hlooked
    cases hrsm : spec.resume with
    | false =>
      refine ⟨.fresh false, ?_, fresh_inFile _ _⟩
      rw [resumeDecision, if_neg (by simp [hrsm])]
    | true =>
      obtain ⟨verdict, hverd, hsing⟩ := validateLocalResumeState_total fun hmulti len hlen =>
        not_le.mp fun hrecd =>
          hlooked ⟨hrsm, hmulti, ⟨len, hlen⟩, hrecd⟩
      rw [resumeDecision_iff hrsm hverd]
      exact fun hok => probeFor_single (hsing hok)

def halfDone : ControlSnapshot := ⟨"u", 4, 2, 2, [1], 2, none, none⟩

theorem half_done_file_is_coherent : halfDone.FitsU64 ∧ Coherent halfDone 4 true := by
  have hu64 : halfDone.FitsU64 := ⟨by decide, by decide, by decide, by decide⟩
  refine ⟨hu64, (resume_arithmetic_is_safe_iff halfDone .default (.found 4) ⟨2, .prealloc, true⟩
    hu64).mp ⟨.probe ⟨halfDone, 2, 3, .multi halfDone.pieceMap 1⟩, by decide, ?_⟩ rfl rfl 4 rfl
      (by decide)⟩
  rintro _ ⟨⟩
  decide

def foreignSnapshot : ControlSnapshot := ⟨"u", 4, 4, 3, [4], 4, none, none⟩

theorem foreign_control_file_underflows : foreignSnapshot.FitsU64 ∧
    resumeDecision (.ok (foreignSnapshot, .default)) (.found 4) ⟨2, .prealloc, true⟩ = none := by
  exact ⟨⟨by decide, by decide, by decide, by decide⟩, by decide⟩

end Bytehaul.Session
