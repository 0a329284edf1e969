import Bytehaul.Scheduler.Dynamic
import Bytehaul.Scheduler.Frame
import Bytehaul.Scheduler.Shares

/-!
# Balanced partition

While nothing completes, dynamic requests take a fresh file from its front, each rounding
its share of the remaining bytes.
-/

namespace Bytehaul.Scheduler

open Foundation Storage List Option SchedulerState Nat

variable {n pieceSize : Nat}

theorem divCeil_mul_right {b : Nat} (hb : 0 < b) : divCeil (n * b) b = n := by
  apply le_antisymm
  · exact not_lt.mp fun h => lt_irrefl _ ((PieceMap.lt_divCeil_iff hb).mp h)
  · cases n with
    | zero => exact zero_le _
    | succ n => exact (PieceMap.lt_divCeil_iff hb).mpr (mul_lt_mul_of_pos_right
        (lt_succ_self n) hb)

theorem divCeil_le_div_succ {a b : Nat} (hb : 0 < b) : divCeil a b ≤ a / b + 1 := by
  rw [PieceMap.divCeil_le_iff hb]
  exact (lt_mul_of_div_lt (lt_succ_self _) hb).le

theorem even_rest {q c a m t : Nat} (hlo : q * (a + 1) ≤ m) (hhi : m ≤ c * (a + 1))
    (htlo : m / (a + 1) ≤ t) (hthi : t ≤ divCeil m (a + 1)) :
    q ≤ t ∧ t ≤ c ∧ q * a ≤ m - t ∧ m - t ≤ c * a ∧ t ≤ m := by
  have hpos : 0 < a + 1 := succ_pos a
  have hq : q ≤ m / (a + 1) := (le_div_iff_mul_le hpos).mpr hlo
  have hc : divCeil m (a + 1) ≤ c := (PieceMap.divCeil_le_iff hpos).mpr hhi
  have hdivision : (a + 1) * (m / (a + 1)) + m % (a + 1) = m := div_add_mod _ _
  have hmod : m % (a + 1) < a + 1 := mod_lt _ hpos
  have hqa : q * a ≤ m / (a + 1) * a := mul_le_mul_right a hq
  have hexpand : (a + 1) * (m / (a + 1)) = m / (a + 1) * a + m / (a + 1) := by
    rw [mul_comm, mul_succ]
  by_cases hexact : m % (a + 1) = 0
  · have hround : divCeil m (a + 1) ≤ m / (a + 1) := by
      rw [PieceMap.divCeil_le_iff hpos, mul_comm]
      omega
    have hca : m / (a + 1) * a ≤ c * a := mul_le_mul_right a ((htlo.trans hthi).trans hc)
    omega
  · have hround := divCeil_le_div_succ (a := m) hpos
    have hup : m / (a + 1) < divCeil m (a + 1) := by
      rw [PieceMap.lt_divCeil_iff hpos, mul_comm]
      omega
    have hca : (m / (a + 1) + 1) * a ≤ c * a := mul_le_mul_right a (hup.trans_le hc)
    rw [succ_mul] at hca
    omega

theorem rounded_share {m s : Nat} (hs : 0 < s) (hsize : 0 < pieceSize) :
    let bytes := divCeil (m * pieceSize) s
    let rounded := bytes / pieceSize + if bytes % pieceSize > pieceSize / 2 then 1 else 0
    m / s ≤ rounded ∧ rounded ≤ divCeil m s := by
  intro bytes rounded
  have hlower : m / s * pieceSize ≤ bytes := by
    apply le_of_mul_le_mul_right _ hs
    calc m / s * pieceSize * s = m / s * s * pieceSize := mul_right_comm _ _ _
      _ ≤ m * pieceSize := mul_le_mul_right _ (div_mul_le_self m s)
      _ ≤ bytes * s := PieceMap.le_divCeil_mul hs
  have hupper : bytes ≤ divCeil m s * pieceSize := by
    rw [PieceMap.divCeil_le_iff hs, mul_right_comm]
    exact mul_le_mul_right _ (PieceMap.le_divCeil_mul hs)
  constructor
  · exact ((le_div_iff_mul_le hsize).mpr hlower).trans (le_add_right _ _)
  · show bytes / pieceSize + (if _ then 1 else 0) ≤ divCeil m s
    rcases hupper.eq_or_lt with heq | hlt
    · simp [heq, Nat.mul_div_cancel _ hsize]
    · have hdiv : bytes / pieceSize < divCeil m s := Nat.div_lt_of_lt_mul (Nat.mul_comm _ _ ▸ hlt)
      split <;> omega

/-- The pieces from `first` on are untouched, and the earlier ones have no missing byte. -/
structure Tail (sched : SchedulerState) (n pieceSize first : Nat) : Prop where
  conserved : ∃ acked, sched.Conserved acked
  map : sched.pieceMap = PieceMap.new (n * pieceSize) pieceSize
  size : 0 < pieceSize
  running : sched.stopped = false
  first_le : first ≤ n
  taken : ∀ i < first, sched.available i = false
  untouched : ∀ i, first ≤ i → i < n → sched.available i = true ∧ sched.pieces[i]? = none

namespace Tail

variable {sched : SchedulerState} {n pieceSize first : Nat}

variable (h : Tail sched n pieceSize first)
include h

theorem pieceCount : sched.pieceMap.pieceCount = n := by
  rw [h.map]
  exact divCeil_mul_right h.size

theorem pieceSize_eq : sched.pieceMap.pieceSize = pieceSize := by
  rw [h.map]
  rfl

theorem pieceRange {i : Nat} (hi : i < n) :
    sched.pieceMap.pieceRange i = ⟨i * pieceSize, (i + 1) * pieceSize⟩ := by
  obtain ⟨acked, hcons⟩ := h.conserved
  have hstop := hcons.map.pieceRange_stop (h.pieceCount ▸ hi)
  have hle : (i + 1) * pieceSize ≤ n * pieceSize := mul_le_mul_right _ hi
  have hrng : sched.pieceMap.pieceRange i =
      ⟨(sched.pieceMap.pieceRange i).start, (sched.pieceMap.pieceRange i).stop⟩ := rfl
  rw [hrng, hstop, h.map]
  exact congrArg (Span.mk _) (min_eq_left hle)

private theorem run_eq (hlt : first < n) :
    sched.pieceRunCandidate first n = ⟨first * pieceSize, n * pieceSize, first, n⟩ := by
  rw [pieceRunCandidate, h.pieceRange hlt, h.pieceRange (by omega : n - 1 < n),
    Nat.sub_add_cancel (by omega)]

theorem dynamicCandidates (hlt : first < n) :
    sched.dynamicCandidates = [⟨first * pieceSize, n * pieceSize, first, n⟩] := by
  obtain ⟨acked, hcons⟩ := h.conserved
  have htaken : ∀ i, 0 ≤ i → i < 0 + first → sched.isUntouchedPiece i = false := fun i _ hi =>
    isUntouchedPiece_of_unavailable (h.taken i (by omega))
  have hunt : ∀ i, first ≤ i → i < first + (n - first) → sched.isUntouchedPiece i = true :=
    fun i hi hin => (hcons.isUntouchedPiece_iff i).mpr (h.untouched i hi (by omega))
  have hscan : scanRuns sched.isUntouchedPiece (n - first + 0) first first =
      closeRun first (first + (n - first)) := scanRuns_of_true 0 (n - first) first hunt
  have hruns : runsBelow sched.isUntouchedPiece (first + (n - first + 0)) = [(first, n)] := by
    rw [runsBelow, scanRuns_of_false _ first 0 htaken, Nat.zero_add, hscan,
      Nat.add_sub_cancel' hlt.le, closeRun, if_pos hlt]
  rw [Nat.add_zero, Nat.add_sub_cancel' hlt.le] at hruns
  rw [dynamicCandidates_eq hcons, h.pieceCount, hruns]
  exact congrArg (fun cand => [cand]) (h.run_eq hlt)

def run (n pieceSize first : Nat) : AllocationCandidate :=
  ⟨first * pieceSize, n * pieceSize, first, n⟩

omit h in
theorem run_len (n pieceSize first : Nat) : (run n pieceSize first).len = (n - first) * pieceSize :=
  (Nat.sub_mul n first pieceSize).symm

private theorem effective_min {configured : Nat} (hmin : configured ≤ pieceSize) :
    effectiveDynamicMinSplitSize sched.pieceMap.pieceSize configured = pieceSize := by
  have hsize := h.size
  have hone : divCeil pieceSize pieceSize = 1 := by simpa using divCeil_mul_right (n := 1) hsize
  simp only [effectiveDynamicMinSplitSize, h.pieceSize_eq, Nat.max_eq_left hsize,
    Nat.max_eq_right hmin, hone, Nat.one_mul]
  omega

theorem bounds (hlt : first + 1 < n) :
    sched.dynamicLegalSplitBounds (run n pieceSize first) pieceSize = some (first + 1, n - 1) := by
  have hsize := h.size
  have hone : divCeil pieceSize pieceSize = 1 := by simpa using divCeil_mul_right (n := 1) hsize
  have hlast : (n * pieceSize - pieceSize) / pieceSize = n - 1 := by
    rw [← Nat.sub_one_mul, Nat.mul_div_cancel _ hsize]
  simp only [dynamicLegalSplitBounds, run_len, Nat.mul_div_cancel _ hsize,
    h.pieceSize_eq, Nat.max_eq_left hsize, hone]
  simp only [run, hlast, Nat.min_self]
  rw [if_neg (by omega), if_pos (by omega)]

theorem maxDynamicSlots (hlt : first < n) :
    sched.maxDynamicSlots (run n pieceSize first) pieceSize = n - first := by
  have hsize := h.size
  simp only [SchedulerState.maxDynamicSlots, run_len, Nat.mul_div_cancel _ hsize, hsize.ne',
    if_false]
  by_cases hspl : first + 1 < n
  · rw [h.bounds hspl, if_neg (by simp; omega)]
    simp only [run]
    omega
  · rw [if_pos (by omega)]
    omega

theorem plan (hlt : first < n) {slots : Nat}
    (hslots : 1 ≤ slots) {collect : Bool} {plan : DynamicPlan}
    (hplan : sched.planDynamicShare sched.dynamicCandidates slots pieceSize collect = some plan) :
    plan.candidate = run n pieceSize first ∧ plan.candidateSlots = min slots (n - first) := by
  rw [h.dynamicCandidates hlt] at hplan
  obtain ⟨plan', best, hplan', hbest, hchos, -⟩ := sched.planDynamicShare_eq
    (cons_ne_nil (run n pieceSize first) []) hslots pieceSize collect
  obtain rfl : plan' = plan := some.inj (hplan'.symm.trans hplan)
  have hcands : (sched.plannedShares [run n pieceSize first] slots pieceSize).map Prod.fst =
      [run n pieceSize first] := sched.plannedShares_candidates slots pieceSize
  obtain ⟨happ, hfull⟩ := sched.plannedShares_apportions [run n pieceSize first] slots pieceSize
  generalize sched.plannedShares [run n pieceSize first] slots pieceSize = shares at *
  obtain ⟨entry, hshs, he⟩ := map_eq_singleton_iff.mp hcands
  subst hshs
  have hbest : best.2 = entry := mem_singleton.mp (mem_of_indexed (maxBy_mem hbest))
  obtain ⟨hsum, hall⟩ := hfull hslots
  have hcap := (happ.slots (mem_singleton_self entry)).2
  rw [he, h.maxDynamicSlots hlt] at hcap
  simp only [map_cons, map_nil, sum_singleton, forall_mem_singleton, he,
    h.maxDynamicSlots hlt] at hsum hall
  obtain ⟨hcand, hchos⟩ := Prod.ext_iff.mp (hchos.trans hbest)
  exact ⟨hcand.trans he, by omega⟩

theorem requestEndPiece {desired maxSize : Nat}
    (hlo : first < desired) (hhi : desired ≤ n) (hls : desired - first ≤ maxRequestLeases)
    (hbyt : (desired - first) * pieceSize ≤ maxSize) :
    sched.requestEndPiece (run n pieceSize first) desired pieceSize maxSize = desired := by
  have hsize := h.size
  have hraw : sched.rawEndPiece (run n pieceSize first) desired maxSize = desired := by
    have hbd : desired ≤ (first * pieceSize + maxSize) / pieceSize := by
      rw [Nat.le_div_iff_mul_le hsize]
      have hmul : desired * pieceSize = first * pieceSize + (desired - first) * pieceSize := by
        rw [← Nat.add_mul, Nat.add_sub_cancel' hlo.le]
      omega
    have hmax : max (max maxSize pieceSize) 1 = maxSize := by
      have hone : 1 * pieceSize ≤ (desired - first) * pieceSize := Nat.mul_le_mul_right _ (by omega)
      omega
    simp only [rawEndPiece, h.pieceSize_eq, Nat.max_eq_left hsize, hmax, run]
    split <;> omega
  rw [SchedulerState.requestEndPiece, hraw, SchedulerState.legalEndPiece]
  split
  · rename_i hin
    simp only [run] at hin
    rw [h.bounds (by omega)]
    dsimp only
    rw [if_pos (by omega)]
    exact Nat.min_eq_left (by omega)
  · rfl

theorem shareEndPiece (hlt : first < n) {slots : Nat} (hslots : 1 ≤ slots) :
    let share := min slots (n - first)
    ∃ taken, sched.dynamicShareEndPiece (run n pieceSize first) share pieceSize = first + taken ∧
      (n - first) / share ≤ taken ∧ taken ≤ divCeil (n - first) share := by
  intro share
  have hsize := h.size
  have hshare : 1 ≤ share := Nat.le_min.mpr ⟨hslots, by omega⟩
  have hps : share ≤ n - first := Nat.min_le_right _ _
  unfold dynamicShareEndPiece
  split
  · obtain hone : share = 1 := by omega
    have hround := PieceMap.le_divCeil_mul (a := n - first) Nat.one_pos
    exact ⟨n - first, (Nat.add_sub_cancel' hlt.le).symm, by simp [hone],
      by simpa [hone] using hround⟩
  · obtain ⟨hfloor, hceil⟩ := rounded_share (m := n - first) (s := share) hshare hsize
    have hone : 1 ≤ (n - first) / share := (Nat.one_le_div_iff hshare).mpr hps
    have hlast : divCeil (n - first) share ≤ n - first - 1 := by
      rw [PieceMap.divCeil_le_iff hshare]
      calc n - first ≤ (n - first - 1) * 2 := by omega
        _ ≤ (n - first - 1) * share := Nat.mul_le_mul_left _ (by omega)
    rw [h.bounds (by omega), run_len]
    simp only [run, h.pieceSize_eq, Nat.max_eq_left hsize, Nat.add_comm (first * pieceSize),
      Nat.add_mul_div_right _ first hsize, Nat.add_mul_mod_self_right]
    refine ⟨_, ?_, hfloor, hceil⟩
    omega

end Tail

namespace SchedulerState

theorem assignDynamicRequest_issued {sched next : SchedulerState} {plan : DynamicPlan}
    {w occupied slots minSplit maxSize : Nat} {collect : Bool}
    {asg : RequestAssignment} (hcands : sched.dynamicCandidates ≠ [])
    (hplan : sched.planDynamicShare sched.dynamicCandidates slots
      (effectiveDynamicMinSplitSize sched.pieceMap.pieceSize minSplit) collect = some plan)
    (hout : sched.assignDynamicRequest w occupied slots minSplit
      maxSize collect = some (some asg, next)) :
    ∃ stop, sched.issueDynamicCandidate plan.candidate stop w = some (some asg.segments, next) := by
  unfold assignDynamicRequest at hout
  rw [if_neg (by simpa using hcands)] at hout
  simp only [hplan] at hout
  obtain ⟨⟨segs, after⟩, hiss, hout⟩ := bind_eq_some_iff.mp hout
  cases segs with
  | none => simp at hout
  | some segs =>
    simp only [some.injEq, Prod.mk.injEq] at hout
    obtain ⟨hasgt, rfl⟩ := hout
    obtain ⟨head, -, hasgt⟩ := bind_eq_some_iff.mp hasgt
    obtain ⟨last, -, hasgt⟩ := bind_eq_some_iff.mp hasgt
    obtain rfl := some.inj hasgt
    exact ⟨_, hiss⟩

end SchedulerState

def dynamicParams (base : SchedulerState.RequestParams)
    (k occupied minSplitSize maxRequestSize : Nat) : SchedulerState.RequestParams :=
  { base with
    maxRequests := k
    occupiedRequests := occupied
    mode := .dynamic
    dynamicMinSplitSize := minSplitSize
    dynamicMaxRequestSize := maxRequestSize
    allowBatch := true }

def spans (segments : List Segment) : List (Nat × Span) :=
  segments.map fun segment => (segment.pieceId, segment.span)

def wholeSpans (pieceSize first count : Nat) : List (Nat × Span) :=
  (range' first count).map fun i => (i, ⟨i * pieceSize, (i + 1) * pieceSize⟩)

private theorem spans_append (first second : List Segment) :
    spans (first ++ second) = spans first ++ spans second := map_append

private theorem wholeSpans_append (pieceSize first count rest : Nat) :
    wholeSpans pieceSize first count ++ wholeSpans pieceSize (first + count) rest =
      wholeSpans pieceSize first (count + rest) := by
  rw [wholeSpans, wholeSpans, wholeSpans, ← map_append]
  simp

theorem Tail.advance {sched next : SchedulerState} {first taken : Nat}
    (h : Tail sched n pieceSize first) {segments : List Segment} {acked : List Span}
    (hnext : next.Conserved acked) (hlnd : SchedulerState.Lends sched next segments)
    (hframe : SchedulerState.Frame (· ∈ segments.map Segment.pieceId) sched next)
    (hle : first + taken ≤ n) (hsegs : spans segments = wholeSpans pieceSize first taken) :
    Tail next n pieceSize (first + taken) := by
  obtain ⟨acked', hcons⟩ := h.conserved
  have hmap : next.pieceMap = PieceMap.new (n * pieceSize) pieceSize := hlnd.pieceMap.trans h.map
  have hc : next.pieceMap.pieceCount = n := by rw [hlnd.pieceMap, h.pieceCount]
  have hmem : ∀ {segment}, segment ∈ segments → first ≤ segment.pieceId ∧
      segment.pieceId < first + taken ∧
      segment.span = sched.pieceMap.pieceRange segment.pieceId := by
    intro segment hseg
    have hspans : (segment.pieceId, segment.span) ∈ spans segments := mem_map_of_mem hseg
    rw [hsegs] at hspans
    obtain ⟨i, hi, heq⟩ := mem_map.mp hspans
    obtain ⟨rfl, hspan⟩ := Prod.mk.inj heq
    rw [mem_range'_1] at hi
    exact ⟨hi.1, hi.2, hspan.symm.trans (h.pieceRange (by omega)).symm⟩
  have hcover : ∀ i, first ≤ i → i < first + taken → ∃ segment ∈ segments, segment.pieceId = i := by
    intro i hi hlt
    have hspans : (i, ⟨i * pieceSize, (i + 1) * pieceSize⟩) ∈ spans segments := by
      rw [hsegs]
      exact mem_map.mpr ⟨i, mem_range'_1.mpr ⟨hi, hlt⟩, rfl⟩
    obtain ⟨segment, hseg, heq⟩ := mem_map.mp hspans
    exact ⟨segment, hseg, congrArg Prod.fst heq⟩
  refine ⟨⟨acked, hnext⟩, hmap, h.size, hlnd.stopped.trans h.running, hle, ?_, ?_⟩
  · intro i hi
    by_contra havl
    rw [Bool.not_eq_false, hnext.available_iff_missing (by omega)] at havl
    obtain ⟨b, hb, hmiss⟩ := havl
    rw [hlnd.pieceMap] at hb
    obtain ⟨hmiss, hfree⟩ := (hlnd.missing b).mp hmiss
    by_cases hfst : i < first
    · have htaken := h.taken i hfst
      rw [(hcons.available_iff_missing (by rw [h.pieceCount]; omega)).mpr
        ⟨b, hb, hmiss⟩] at htaken
      exact absurd htaken (by simp)
    · obtain ⟨segment, hseg, rfl⟩ := hcover i (by omega) hi
      exact hfree segment hseg ((hmem hseg).2.2 ▸ hb)
  · intro i hi hin
    obtain ⟨havl, hps⟩ := h.untouched i (by omega) hin
    have hp : i ∉ segments.map Segment.pieceId := by
      intro hmem'
      obtain ⟨segment, hseg, rfl⟩ := mem_map.mp hmem'
      have := hmem hseg
      omega
    refine ⟨?_, (hframe.pieces i hp).trans hps⟩
    rw [hnext.available_iff_missing (by omega)]
    have hb : i * pieceSize ∈ sched.pieceMap.pieceRange i := by
      rw [h.pieceRange hin]
      exact ⟨le_refl _, mul_lt_mul_of_pos_right (lt_succ_self i) h.size⟩
    refine ⟨i * pieceSize, hlnd.pieceMap ▸ hb, (hlnd.missing _).mpr
      ⟨hcons.untouched_missing havl hps _ hb, fun segment hseg hin' => ?_⟩⟩
    obtain ⟨-, hlt, hspan⟩ := hmem hseg
    rw [hspan] at hin'
    have := hcons.piece_unique (by rw [h.pieceCount]; omega) (by rw [h.pieceCount]; omega) hb hin'
    omega

theorem Tail.request {sched : SchedulerState} {first : Nat} (h : Tail sched n pieceSize first)
    (hlt : first < n) {k occ : Nat} (hslots : occ < k) {minSplit maxSize : Nat}
    (hmin : minSplit ≤ pieceSize)
    (hls : divCeil (n - first) (min (k - occ) (n - first)) ≤ maxRequestLeases)
    (hbyt : divCeil (n - first) (min (k - occ) (n - first)) * pieceSize ≤ maxSize)
    (w : Nat) (base : SchedulerState.RequestParams) : ∃ asg next taken,
      sched.assignRequestWithTrace w
        (dynamicParams base k occ minSplit maxSize) = some (some asg, next) ∧
      (n - first) / min (k - occ) (n - first) ≤ taken ∧
      taken ≤ divCeil (n - first) (min (k - occ) (n - first)) ∧
      spans asg.segments = wholeSpans pieceSize first taken ∧
      Tail next n pieceSize (first + taken) := by
  obtain ⟨acked, hcons⟩ := h.conserved
  have hne : sched.dynamicCandidates ≠ [] := by simp [h.dynamicCandidates hlt]
  have hrngs := hcons.availableRangeCount_ne_zero (h.untouched first (Nat.le_refl _) hlt).1
  have hlive : sched.hasAvailable = true := by simp [hasAvailable, h.running, hrngs]
  have hslots' : k - occ ≠ 0 := by omega
  obtain ⟨plan, out, hplan, -, hout, hprog, htakes⟩ :=
    assignDynamicRequest_takes hcons hne w occ hslots' minSplit maxSize base.collectCandidateShares
  obtain ⟨out', hout', hasgd, -⟩ :=
    assignDynamicRequest_spec hcons w occ (k - occ)
      minSplit maxSize base.collectCandidateShares hslots'
  obtain rfl := some.inj (hout'.symm.trans hout)
  obtain ⟨asg, next⟩ := out'
  obtain ⟨asg, rfl⟩ := ne_none_iff_exists'.mp (hprog hlive)
  obtain ⟨hlnd, -, -⟩ := hasgd.granted asg rfl
  obtain ⟨stop, hiss⟩ := assignDynamicRequest_issued hne hplan hout
  have htaken := htakes asg rfl
  rw [h.effective_min hmin] at hplan htaken
  obtain ⟨hcand, hshare⟩ := h.plan hlt (by omega) hplan
  obtain ⟨taken, hend, hfloor, hceil⟩ := h.shareEndPiece hlt (by omega : 1 ≤ k - occ)
  have hspl : 1 ≤ min (k - occ) (n - first) := by omega
  have hpos : 1 ≤ taken := ((Nat.one_le_div_iff hspl).mpr (Nat.min_le_right _ _)).trans hfloor
  have hle : taken ≤ n - first := hceil.trans ((PieceMap.divCeil_le_iff hspl).mpr
    (Nat.le_mul_of_pos_right _ hspl))
  have hplanned : sched.plannedEndPiece plan pieceSize maxSize = first + taken := by
    rw [plannedEndPiece, hcand, hshare, hend]
    refine h.requestEndPiece (by omega) (by omega) (by omega) ?_
    rw [Nat.add_sub_cancel_left]
    exact (Nat.mul_le_mul_right _ hceil).trans hbyt
  have hsegs : spans asg.segments = wholeSpans pieceSize first taken := by
    rw [spans, htaken.segments, hplanned, hcand]
    simp only [run, Nat.add_sub_cancel_left]
    refine map_congr_left fun i hi => ?_
    rw [mem_range'_1] at hi
    rw [h.pieceRange (by omega)]
  refine ⟨asg, next, taken, ?_, hfloor, hceil, hsegs, ?_⟩
  · have hopen : ¬(k - occ = 0 ∨ sched.availableRangeCount = 0) := by omega
    exact (if_neg hopen).trans hout
  · exact h.advance hasgd.conserved hlnd (issueDynamicCandidate_frame hiss) (by omega) hsegs

def SchedulerState.assignInTurn : List (Nat × SchedulerState.RequestParams) → SchedulerState →
    Checked (List (Option RequestAssignment) × SchedulerState)
  | [], sched => some ([], sched)
  | (workerId, params) :: requests, sched => do
      let (assignment, sched) ← sched.assignRequestWithTrace workerId params
      let (rest, sched) ← assignInTurn requests sched
      some (assignment :: rest, sched)

theorem Tail.requests {k total minSplit maxSize : Nat} (htot : total ≤ k)
    (hmin : minSplit ≤ pieceSize) {low high : Nat} (hlow : 1 ≤ low)
    (hshape : total = k ∨ high = 1) (hls : high ≤ maxRequestLeases)
    (hbyt : high * pieceSize ≤ maxSize) (workers : Nat → Nat)
    (base : Nat → SchedulerState.RequestParams) (remaining : Nat) :
    ∀ {occ first : Nat} {sched : SchedulerState}, Tail sched n pieceSize first →
      occ + remaining = total → low * remaining ≤ n - first →
      n - first ≤ high * remaining →
      ∃ (assignments : List RequestAssignment) (last : SchedulerState),
        assignInTurn ((range' occ remaining).map fun j =>
          (workers j, dynamicParams (base j) k j minSplit maxSize)) sched =
            some (assignments.map some, last) ∧
        assignments.length = remaining ∧
        spans (assignments.flatMap RequestAssignment.segments) =
          wholeSpans pieceSize first (n - first) ∧
        (∀ asg ∈ assignments, low ≤ asg.segments.length ∧
          asg.segments.length ≤ high) ∧
        Tail last n pieceSize n := by
  induction remaining with
  | zero =>
    intro occ first sched h _ _ hhi
    have hfst : first = n := by
      have := h.first_le
      omega
    subst hfst
    exact ⟨[], sched, rfl, rfl, by simp [spans, wholeSpans], by simp, h⟩
  | succ remaining ih =>
    intro occ first sched h hoccupied hlo hhi
    have hmany : 1 * (remaining + 1) ≤ low * (remaining + 1) := mul_le_mul_right _ hlow
    have hshare : min (k - occ) (n - first) = remaining + 1 := by
      rcases hshape with rfl | rfl <;> omega
    have hround : divCeil (n - first) (remaining + 1) ≤ high :=
      (PieceMap.divCeil_le_iff (succ_pos _)).mpr hhi
    obtain ⟨asg, next, taken, hout, hfloor, hceil, hspans, htail⟩ :=
      h.request (by omega) (by omega : occ < k) hmin (hshare ▸ hround.trans hls)
        (hshare ▸ (mul_le_mul_right _ hround).trans hbyt) (workers occ)
        (base occ)
    rw [hshare] at hfloor hceil
    obtain ⟨htlo, hthi, hlo, hhi, htaken⟩ := even_rest hlo hhi hfloor hceil
    obtain ⟨assignments, last, hrest, hlen, hrestSpans, hsizes, hlast⟩ :=
      ih htail (by omega : occ + 1 + remaining = total) (by omega) (by omega)
    refine ⟨asg :: assignments, last, ?_, by simp [hlen], ?_, ?_, hlast⟩
    · rw [range'_succ, map_cons, assignInTurn, hout]
      simp only [bind_eq_bind, bind_some, hrest, map_cons]
    · rw [flatMap_cons, spans_append, hspans, hrestSpans, wholeSpans_append]
      congr 1
      omega
    · have hc : asg.segments.length = taken := by
        simpa [spans, wholeSpans] using congrArg length hspans
      exact forall_mem_cons.mpr ⟨hc ▸ ⟨htlo, hthi⟩, hsizes⟩

private theorem fresh_tail (hsize : 0 < pieceSize) :
    Tail (new (PieceMap.new (n * pieceSize) pieceSize)) n pieceSize 0 where
  conserved := ⟨_, History.start_conserved (PieceMap.new_valid hsize)⟩
  map := rfl
  size := hsize
  running := rfl
  first_le := zero_le n
  taken := fun i hi => absurd hi (not_lt_zero i)
  untouched := by
    intro i _ hi
    simp [available, new, PieceMap.missingBitset, PieceMap.new, divCeil_mul_right hsize, hi]

/-- A fresh file of `n` pieces is assigned in `min n k` requests whose sizes differ by at most one.
-/
theorem balanced_partition {n k pieceSize minSplitSize maxRequestSize : Nat} (hn : 1 ≤ n)
    (hk : 1 ≤ k) (hsize : 1 ≤ pieceSize) (hmin : minSplitSize ≤ pieceSize)
    (hleases : divCeil n k ≤ maxRequestLeases) (hbytes : divCeil n k * pieceSize ≤ maxRequestSize)
    (workers : Nat → Nat) (base : Nat → SchedulerState.RequestParams) :
    ∃ (assignments : List RequestAssignment) (last : SchedulerState),
      assignInTurn ((range (min n k)).map fun j =>
        (workers j, dynamicParams (base j) k j minSplitSize maxRequestSize))
        (new (PieceMap.new (n * pieceSize) pieceSize)) = some (assignments.map some, last) ∧
      assignments.length = min n k ∧
      (∀ assignment ∈ assignments, assignment.segments ≠ []) ∧
      spans (assignments.flatMap RequestAssignment.segments) = wholeSpans pieceSize 0 n ∧
      last.availableRangeCount = 0 ∧
      ∀ first ∈ assignments, ∀ second ∈ assignments,
        first.segments.length ≤ second.segments.length + 1 := by
  have hpos : 0 < min n k := by omega
  have hround : divCeil n (min n k) ≤ divCeil n k ∧ (min n k = k ∨ divCeil n (min n k) = 1) := by
    rcases le_total k n with hle | hle
    · rw [min_eq_right hle]
      exact ⟨le_refl _, .inl rfl⟩
    · have hone : divCeil n n = 1 := by simpa using divCeil_mul_right (n := 1) hn
      have hsome : 0 < divCeil n k := (PieceMap.lt_divCeil_iff hk).mpr (by omega)
      rw [min_eq_left hle, hone]
      exact ⟨hsome, .inr rfl⟩
  obtain ⟨assignments, last, hrun, hlen, hspans, hsizes, hlast⟩ :=
    Tail.requests (min_le_right n k) hmin
      ((one_le_div_iff hpos).mpr (min_le_left n k)) hround.2
      (hround.1.trans hleases) ((mul_le_mul_right _ hround.1).trans hbytes) workers base
      (min n k) (fresh_tail hsize) (zero_add _)
      (by simpa using div_mul_le_self n (min n k)) (by simpa using PieceMap.le_divCeil_mul hpos)
  rw [← range_eq_range'] at hrun
  refine ⟨assignments, last, hrun, hlen, ?_, hspans, ?_, ?_⟩
  · intro assignment hasgt hnil
    have := (hsizes assignment hasgt).1
    have hone := (one_le_div_iff hpos).mpr (min_le_left n k)
    rw [hnil] at this
    exact absurd (hone.trans this) (by simp)
  · obtain ⟨acked, hcons⟩ := hlast.conserved
    by_contra hrngs
    obtain ⟨i, hi⟩ := hcons.exists_available hrngs
    rw [hlast.taken i (hlast.pieceCount ▸ hcons.lt_of_available hi)] at hi
    exact absurd hi (by simp)
  · intro first hfst second hsnd
    have hfew := (hsizes first hfst).2
    have hmany := (hsizes second hsnd).1
    have hstep := divCeil_le_div_succ (a := n) hpos
    omega

def threeRequests : List (Nat × SchedulerState.RequestParams) :=
  (range 3).map fun j =>
    (j, dynamicParams ⟨0, 1, 0, .fixed, 8, 0, 0, true, false, false⟩ 3 j 4 100)

theorem seven_pieces_in_three_requests :
    ∃ (assignments : List RequestAssignment) (last : SchedulerState),
      assignInTurn threeRequests (new (PieceMap.new 28 4)) = some (assignments.map some, last) ∧
      assignments.map (fun assignment => assignment.segments.length) = [2, 2, 3] ∧
      spans (assignments.flatMap RequestAssignment.segments) = wholeSpans 4 0 7 ∧
      ∀ first ∈ assignments, ∀ second ∈ assignments,
        first.segments.length ≤ second.segments.length + 1 := by
  obtain ⟨assignments, last, hrun, -, -, hspans, -, hdiffer⟩ :=
    balanced_partition (n := 7) (k := 3) (show 1 ≤ 7 by decide) (show 1 ≤ 3 by decide)
      (show 1 ≤ 4 by decide) (show 4 ≤ 4 by decide) (show divCeil 7 3 ≤ maxRequestLeases by decide)
      (show divCeil 7 3 * 4 ≤ 100 by decide) id
      (fun _ => ⟨0, 1, 0, .fixed, 8, 0, 0, true, false, false⟩)
  have hrun : assignInTurn threeRequests
      (new (PieceMap.new 28 4)) = some (assignments.map some, last) := hrun
  have hsizes : (assignInTurn threeRequests (new (PieceMap.new 28 4))).map (fun out =>
        out.1.map (Option.map fun assignment => assignment.segments.length)) =
          some ([2, 2, 3].map some) := by decide
  rw [hrun] at hsizes
  refine ⟨assignments, last, hrun, ?_, hspans, hdiffer⟩
  simpa [Function.comp_def, map_eq_cons_iff] using hsizes

end Bytehaul.Scheduler
