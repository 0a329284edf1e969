import Bytehaul.Session.Multi.Worker
import Bytehaul.Session.Resume

/-!
# Who wrote the control file, and who reads it

Several connections record a set of pieces, a single one a prefix; the reader takes its mode
from its own options.
-/

namespace Bytehaul.Session

open Foundation Storage Option PieceMap Nat

def multiSnapshot (url : String) (baseline : ResponseMeta) (map : PieceMap) : ControlSnapshot where
  url := url
  totalSize := map.totalSize
  pieceSize := map.pieceSize
  pieceCount := map.pieceCount
  completedBitset := map.toBitsetBytes
  downloadedBytes := map.completedBytes
  etag := baseline.etag
  lastModified := baseline.lastModified

def singleSnapshotTemplate (url : String) (totalSize : Option Nat) (downloadedBytes : Nat)
    (baseline : ResponseMeta) : ControlSnapshot where
  url := url
  totalSize := totalSize.getD 0
  pieceSize := totalSize.getD 0
  pieceCount := 1
  completedBitset := [0]
  downloadedBytes := downloadedBytes
  etag := baseline.etag
  lastModified := baseline.lastModified

/-- The transfer that saved a control file, with what it had recorded then. -/
inductive SnapshotWriter
  | multi (map : PieceMap)
  | single (totalSize : Option Nat) (downloadedBytes : Nat)

namespace SnapshotWriter

def snapshot (url : String) (baseline : ResponseMeta) : SnapshotWriter → ControlSnapshot
  | multi map => multiSnapshot url baseline map
  | single totalSize downloadedBytes =>
    singleSnapshotTemplate url totalSize downloadedBytes baseline

def Records : SnapshotWriter → Nat → Prop
  | multi map, b => ∃ i, map.bit i = true ∧ b ∈ map.pieceRange i
  | single _ downloadedBytes, b => b < downloadedBytes

def Possible : SnapshotWriter → Prop
  | multi map => map.Valid
  | single _ _ => True

end SnapshotWriter

def ResumePlan.Skips : ResumePlan → Nat → Prop
  | .multi map _, b => ∃ i, map.bit i = true ∧ b ∈ map.pieceRange i
  | .single startOffset, b => b < startOffset

/-- However the probe is answered, a transfer that resumes skips recorded bytes only. -/
def SkipsRecorded (writer : SnapshotWriter) (ctrl : ControlSnapshot) (hints : ControlHints)
    (metadata : OutputMetadata) (spec : ResumeSpec) : Prop :=
  ∀ request answer, resumeDecision (.ok (ctrl, hints)) metadata spec = some (.probe request) →
    request.accepts answer = true →
    ∀ b < ctrl.totalSize, request.plan.Skips b → writer.Records b

section Reading

variable {ctrl : ControlSnapshot} {hints : ControlHints} {metadata : OutputMetadata}
  {spec : ResumeSpec} {request : ResumeProbe} {map : PieceMap}

theorem believed_of_probe
    (h : resumeDecision (.ok (ctrl, hints)) metadata spec = some (.probe request)) :
    spec.resume = true ∧ validateLocalResumeState metadata ctrl spec = some (.ok ()) ∧
      probeFor ctrl spec = some (.probe request) := by
  cases hrsm : spec.resume with
  | false =>
    rw [resumeDecision, if_neg (by simp [hrsm])] at h
    cases h
  | true =>
    rw [resumeDecision_resume hrsm] at h
    obtain ⟨verdict, hverd, hrest⟩ := bind_eq_some_iff.mp h
    cases verdict with
    | error reason => cases hrest
    | ok _ => exact ⟨rfl, hverd, hrest⟩

private theorem plan_of_multi (hmulti : isMulti ctrl spec = true)
    (h : probeFor ctrl spec = some (.probe request)) :
    ∃ piece, request.plan = .multi ctrl.pieceMap piece := by
  rw [probeFor, if_pos hmulti] at h
  obtain ⟨map, hmap, hrest⟩ := bind_eq_some_iff.mp h
  obtain ⟨-, rfl, -⟩ := ControlSnapshot.pieceMapChecked_eq_some hmap
  cases hmiss : ctrl.pieceMap.firstMissing with
  | none =>
    rw [hmiss] at hrest
    cases hrest
  | some piece =>
    rw [hmiss] at hrest
    obtain ⟨_, -, hlast⟩ := bind_eq_some_iff.mp hrest
    obtain ⟨_, -, hprobe⟩ := bind_eq_some_iff.mp hlast
    cases hprobe
    exact ⟨piece, rfl⟩

theorem plan_of_single (hmulti : isMulti ctrl spec = false)
    (h : probeFor ctrl spec = some (.probe request)) :
    request.plan = .single ctrl.downloadedBytes ∧ 0 < ctrl.downloadedBytes ∧
      ctrl.downloadedBytes < ctrl.totalSize := by
  rw [probeFor, if_neg (by simp [hmulti])] at h
  split at h
  case isTrue hin =>
    obtain ⟨_, -, hprobe⟩ := bind_eq_some_iff.mp h
    cases hprobe
    exact ⟨rfl, hin⟩
  case isFalse => cases h

theorem believed_single_iff (hmulti : isMulti ctrl spec = false)
    (hrecd : ctrl.downloadedBytes ≤ ctrl.totalSize) (len : Nat) :
    validateLocalResumeState (.found len) ctrl spec = some (.ok ()) ↔
      len = if spec.fileAllocation = .prealloc then ctrl.totalSize else ctrl.downloadedBytes := by
  simp only [validateLocalResumeState, not_lt.mpr hrecd, hmulti, if_false,
    Bool.false_eq_true, checkSingle, mismatch, beq_iff_eq, some.injEq]
  split
  case isTrue => simp
  case isFalse => simp

def honestAnswer (request : ResumeProbe) : HttpResponse where
  status := 206
  retryAfter := none
  metadata :=
    { contentLength := none
      contentRangeStart := some request.start
      contentRangeEnd := some request.endInclusive
      contentRangeTotal := some request.ctrl.totalSize
      etag := request.ctrl.etag
      lastModified := request.ctrl.lastModified
      contentEncoding := none }
  framedLength := none
  transferEncoding := false

theorem accepts_honestAnswer (hrng : request.start ≤ request.endInclusive) :
    request.accepts (.ok (honestAnswer request)) = true := by
  simp only [ResumeProbe.accepts, validateRangeResponse, honestAnswer, validateRangeStatus,
    validateRangeBody, rangeResponseAllowed, resolveResponseTotal, resolveExpectedEnd,
    checkContentRange, checkContentLength, validateMetadata]
  have hle := not_lt.mpr hrng
  cases request.ctrl.etag <;> cases request.ctrl.lastModified <;> simp [hle]

end Reading

section Prefix

variable {map : PieceMap} {hints : ControlHints} {spec : ResumeSpec}

theorem exists_gap (h : map.Valid) (hinit : ¬ map.Initial) :
    ∃ i top, i < top ∧ map.bit i = false ∧ map.bit top = true ∧
      ∀ k, map.bit k = true → k ≤ top := by
  simp only [PieceMap.Initial, not_forall] at hinit
  obtain ⟨i, j, hij, hbit, hgap⟩ := hinit
  cases htop : map.highestCompletedPiece with
  | none =>
    rw [h.highest_none htop j] at hbit
    exact Bool.noConfusion hbit
  | some top =>
    obtain ⟨hmark, hmax⟩ := h.highest_some top htop
    exact ⟨i, top, lt_of_lt_of_le hij (hmax j hbit), Bool.eq_false_of_not_eq_true hgap, hmark, hmax⟩

private theorem records_of_initial (h : map.Valid) (hinit : map.Initial) {b : Nat}
    (hb : b < map.completedBytes) : (SnapshotWriter.multi map).Records b := by
  rw [h.completedBytes_of_initial hinit, Nat.lt_min] at hb
  have hp : b / map.pieceSize < map.nextCandidate :=
    Nat.div_lt_of_lt_mul (by rw [Nat.mul_comm]; exact hb.1)
  exact ⟨b / map.pieceSize, h.before_candidate _ hp,
    (h.mem_pieceRange_iff (lt_of_lt_of_le hp h.candidate_le) b).mpr ⟨hb.2, rfl⟩⟩

private theorem lost_of_gap (h : map.Valid) (hinit : ¬ map.Initial) :
    map.nextCandidate * map.pieceSize < map.completedBytes ∧ map.completedBytes < map.totalSize ∧
      ¬ (SnapshotWriter.multi map).Records (map.nextCandidate * map.pieceSize) := by
  obtain ⟨i, top, hlt, hgap, hbit, htop⟩ := exists_gap h hinit
  have hc := h.lt_count_of_bit hbit
  have hbelow := h.completedBytes_lt_stop hlt hgap hbit htop
  rw [h.pieceRange_stop hc] at hbelow
  refine ⟨h.candidate_lt_completedBytes hlt hgap hbit, by omega, ?_⟩
  rintro ⟨k, hk, hmem⟩
  obtain ⟨-, hdiv⟩ := (h.mem_pieceRange_iff (h.lt_count_of_bit hk) _).mp hmem
  rw [Nat.mul_div_cancel _ h.size_pos] at hdiv
  have hmiss := h.at_candidate (by rw [hdiv]; exact h.lt_count_of_bit hk)
  rw [hdiv, hk] at hmiss
  exact Bool.noConfusion hmiss

private theorem initial_of_len (h : map.Valid)
    (hfile : ∀ b, (SnapshotWriter.multi map).Records b → b < map.completedBytes) : map.Initial := by
  by_contra hinit
  obtain ⟨i, top, hlt, hgap, hbit, htop⟩ := exists_gap h hinit
  have hnemp := h.pieceRange_nonempty (h.lt_count_of_bit hbit)
  have hbelow := h.completedBytes_lt_stop hlt hgap hbit htop
  have hlast := hfile ((map.pieceRange top).stop - 1) ⟨top, hbit, by
    rw [Span.mem_iff]
    omega⟩
  omega

theorem skipsRecorded_multi {url : String} {baseline : ResponseMeta} {metadata : OutputMetadata}
    (h : map.Valid) (hmulti : isMulti (multiSnapshot url baseline map) spec = true) :
    SkipsRecorded (.multi map) (multiSnapshot url baseline map) hints metadata spec := by
  intro request answer hdec haccs b hb hskips
  obtain ⟨-, -, hprobe⟩ := believed_of_probe hdec
  obtain ⟨piece, hplan⟩ := plan_of_multi hmulti hprobe
  rw [hplan] at hskips
  obtain ⟨i, hbit, hmem⟩ := hskips
  have hrstd : (multiSnapshot url baseline map).pieceMap.bit i = map.bit i :=
    bit_fromBitset h map.totalSize map.pieceSize i
  exact ⟨i, hrstd ▸ hbit, hmem⟩

private theorem probe_of_single {ctrl : ControlSnapshot} {len : Nat} (hrsm : spec.resume = true)
    (hmulti : isMulti ctrl spec = false) (hpos : 0 < ctrl.downloadedBytes)
    (hlt : ctrl.downloadedBytes < ctrl.totalSize)
    (hlen : len = if spec.fileAllocation = .prealloc then ctrl.totalSize
      else ctrl.downloadedBytes) :
    resumeDecision (.ok (ctrl, hints)) (.found len) spec =
      some (.probe ⟨ctrl, ctrl.downloadedBytes, ctrl.totalSize - 1,
        .single ctrl.downloadedBytes⟩) := by
  have hsub : Checked.sub ctrl.totalSize 1 = some (ctrl.totalSize - 1) :=
    Checked.sub_eq_some.mpr ⟨by omega, rfl⟩
  rw [resumeDecision_resume hrsm,
    (believed_single_iff hmulti (le_of_lt hlt) len).mpr hlen, bind_some]
  rw [probeFor, if_neg (by simp [hmulti]), if_pos ⟨hpos, hlt⟩, hsub, bind_eq_bind, bind_some]

theorem skipsRecorded_single {url : String} {baseline : ResponseMeta} {metadata : OutputMetadata}
    (h : map.Valid) (hmulti : isMulti (multiSnapshot url baseline map) spec = false)
    (hfile : ∀ len, metadata = .found len → ∀ b, (SnapshotWriter.multi map).Records b → b < len) :
    SkipsRecorded (.multi map) (multiSnapshot url baseline map) hints metadata spec ↔
      (spec.resume = true → spec.maxConnections ≤ 1 → spec.fileAllocation = .prealloc →
        metadata = .found map.totalSize → map.Initial) := by
  constructor
  · rintro hskips hrsm - halloc rfl
    by_contra hinit
    obtain ⟨hbelow, hin, hmiss⟩ := lost_of_gap h hinit
    have hdec : resumeDecision (.ok (multiSnapshot url baseline map, hints))
        (.found map.totalSize) spec = _ :=
      probe_of_single hrsm hmulti (zero_lt_of_lt hbelow) hin (by rw [if_pos halloc]; rfl)
    have hrng : map.completedBytes ≤ map.totalSize - 1 := by omega
    exact hmiss (hskips _ _ hdec (accepts_honestAnswer hrng) _ (hbelow.trans hin) hbelow)
  · intro hprealloc request answer hdec haccs b hb hskips
    obtain ⟨hrsm, hbelieved, hprobe⟩ := believed_of_probe hdec
    obtain ⟨hplan, -, hin⟩ := plan_of_single hmulti hprobe
    rw [hplan] at hskips
    refine records_of_initial h ?_ hskips
    cases metadata with
    | notFound | failed kind => cases hbelieved
    | found len =>
      have hlen := (believed_single_iff hmulti (le_of_lt hin) len).mp hbelieved
      by_cases halloc : spec.fileAllocation = .prealloc
      · rw [if_pos halloc] at hlen
        by_cases hconnections : spec.maxConnections ≤ 1
        · exact hprealloc hrsm hconnections halloc (congrArg _ hlen)
        · have hc : ¬ 1 < map.pieceCount := by
            intro hlt
            have hboth : isMulti (multiSnapshot url baseline map) spec = true := by
              simp [isMulti, multiSnapshot, hlt, not_le.mp hconnections]
            rw [hboth] at hmulti
            exact Bool.noConfusion hmulti
          intro i j hij hbit
          have := h.lt_count_of_bit hbit
          omega
      · rw [if_neg halloc] at hlen
        refine initial_of_len h fun b hrecd => ?_
        have hlt := hfile len rfl b hrecd
        rwa [hlen] at hlt

end Prefix

/-- A resumed transfer skips recorded bytes only, if and only if pieces that are read as a prefix
come first. -/
theorem resume_skips_recorded_iff (writer : SnapshotWriter) (url : String)
    (baseline : ResponseMeta) (hints : ControlHints) (metadata : OutputMetadata)
    (spec : ResumeSpec) (hpossible : writer.Possible)
    (hfile : ∀ len, metadata = .found len → ∀ b, writer.Records b → b < len) :
    SkipsRecorded writer (writer.snapshot url baseline) hints metadata spec ↔
      ∀ map, writer = .multi map → spec.resume = true → spec.maxConnections ≤ 1 →
        spec.fileAllocation = .prealloc → metadata = .found map.totalSize → map.Initial := by
  cases writer with
  | single totalSize downloadedBytes =>
    refine iff_of_true ?_ fun map hmap => nomatch hmap
    intro request answer hdec haccs b hb hskips
    obtain ⟨-, -, hprobe⟩ := believed_of_probe hdec
    obtain ⟨hplan, -⟩ := plan_of_single rfl hprobe
    rw [hplan] at hskips
    exact hskips
  | multi map =>
    have hval : map.Valid := hpossible
    cases hmulti : isMulti (multiSnapshot url baseline map) spec with
    | true =>
      refine iff_of_true (skipsRecorded_multi hval hmulti) ?_
      intro _ hwri hrsm hconnections
      simp only [isMulti, Bool.and_eq_true, decide_eq_true_eq] at hmulti
      omega
    | false =>
      rw [SnapshotWriter.snapshot, skipsRecorded_single hval hmulti hfile]
      constructor
      · rintro h _ ⟨⟩
        exact h
      · exact fun h => h map rfl

def anyBaseline : ResponseMeta := ⟨none, none, none, none, none, none, none⟩

def firstByte : PieceMap := (PieceMap.new 4 1).markComplete 0

theorem first_byte_is_skipped :
    SkipsRecorded (.multi firstByte) (multiSnapshot "u" anyBaseline firstByte) .default (.found 4)
      ⟨1, .prealloc, true⟩ := by
  have hval : firstByte.Valid := markComplete_valid (new_valid (by decide)) 0
  refine (resume_skips_recorded_iff (.multi firstByte) "u" anyBaseline .default (.found 4)
    ⟨1, .prealloc, true⟩ hval ?_).mpr ?_
  · rintro _ ⟨⟩ b ⟨i, hbit, hmem⟩
    exact ((hval.mem_pieceRange_iff (hval.lt_count_of_bit hbit) b).mp hmem).1
  · rintro _ ⟨⟩ - - - - i j hij hbit
    have hrest : ∀ k < 4, 0 < k → firstByte.bit k = false := by decide
    rw [hrest j (hval.lt_count_of_bit hbit) (zero_lt_of_lt hij)] at hbit
    exact Bool.noConfusion hbit

def scattered : PieceMap := firstByte.markComplete 2

theorem scattered_pieces_are_read_as_a_prefix :
    ¬ SkipsRecorded (.multi scattered) (multiSnapshot "u" anyBaseline scattered) .default (.found 4)
      ⟨1, .prealloc, true⟩ := by
  intro h
  obtain ⟨i, hbit, hmem⟩ := h
    ⟨multiSnapshot "u" anyBaseline scattered, 2, 3, .single 2⟩ (.ok (honestAnswer _))
    (by decide) (accepts_honestAnswer (by decide)) 1 (by decide) (by decide : 1 < 2)
  have hp : i = 1 := by
    have hrng : i * 1 ≤ 1 ∧ 1 < i * 1 + pieceLen 4 1 i := (Span.mem_iff _ _).mp hmem
    unfold pieceLen at hrng
    omega
  subst hp
  revert hbit
  decide

end Bytehaul.Session
