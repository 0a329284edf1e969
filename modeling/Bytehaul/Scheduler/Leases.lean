import Bytehaul.Scheduler.Conservation

/-!
# The lease operations

Each lease operation underflows no counter, keeps the conservation invariant, and acts on
the custody of the file as its name says.
-/

namespace Bytehaul.Scheduler

open Foundation List Option PieceRuntimeState Storage Std Nat PieceMap

namespace PieceRuntimeState

/-! ## One piece -/

variable {piece : PieceRuntimeState} {nextLeaseId : Nat} {key : LeaseKey}

variable (h : piece.Valid nextLeaseId)
include h

theorem lease_fresh : piece.activeLeases[nextLeaseId]? = none := by
  cases hl : piece.activeLeases[nextLeaseId]? with
  | none => rfl
  | some span => exact absurd (h.lease _ _ hl).2 (lt_irrefl _)

omit h in
theorem activeSpans_ne_nil {span : Span} {rest : List Span}
    (h : piece.activeSpans.Perm (span :: rest)) : piece.activeSpans ≠ [] := by
  intro hnil
  simp [hnil] at h

theorem Valid.lease_erase {leaseId : Nat} {span : Span}
    (hspan : (piece.activeLeases.erase key.leaseId)[leaseId]? = some span) :
    span.start < span.stop ∧ leaseId < nextLeaseId := by
  rw [getElem?_erase_eq] at hspan
  split at hspan
  · cases hspan
  · exact h.lease leaseId span hspan

theorem issueLease_spec {after : PieceRuntimeState} {range : ByteRange}
    {w p nextLeaseId' : Nat} {segment : Segment} (hrng : range.start < range.stop)
    (hiss : piece.issueLease range w nextLeaseId p = some (segment, after, nextLeaseId')) :
    after.Valid nextLeaseId' ∧ nextLeaseId' = nextLeaseId + 1 ∧
      segment.leaseKey = ⟨p, nextLeaseId⟩ ∧ segment.span = range ∧
      segment.ownerWorkerId = w ∧
      (∀ b, (hits after.missingRanges.ranges b + if b ∈ range then 1 else 0) =
        hits piece.missingRanges.ranges b) ∧
      after.activeSpans.Perm (range :: piece.activeSpans) ∧
      ∀ leaseId : Nat, after.activeLeases[leaseId]? =
        if leaseId = nextLeaseId then some range else piece.activeLeases[leaseId]? := by
  unfold issueLease at hiss
  cases hrem : piece.missingRanges.remove range with
  | none => simp [hrem] at hiss
  | some rest =>
    simp only [hrem, some.injEq, Prod.mk.injEq] at hiss
    obtain ⟨rfl, rfl, rfl⟩ := hiss
    obtain ⟨hnormal, hhits⟩ := RangeSet.remove_spec h.normal hrng hrem
    have hlook : ∀ leaseId : Nat, (piece.activeLeases.insert nextLeaseId range)[leaseId]? =
        if leaseId = nextLeaseId then some range else piece.activeLeases[leaseId]? :=
      fun leaseId => getElem?_insert_eq _ _ _ _
    have hperm : ((piece.activeLeases.insert nextLeaseId range).toList.map Prod.snd).Perm
        (range :: piece.activeSpans) :=
      (toList_insert_perm_of_none (lease_fresh h)).map Prod.snd
    refine ⟨⟨hnormal, fun leaseId span hspan => ?_, Or.inr (activeSpans_ne_nil hperm)⟩, rfl, rfl,
      rfl, rfl, hhits, hperm, hlook⟩
    rw [hlook] at hspan
    split at hspan
    · obtain rfl := some.inj hspan
      exact ⟨hrng, by omega⟩
    · obtain ⟨hpos, hlt⟩ := h.lease leaseId span hspan
      exact ⟨hpos, lt_succ_of_lt hlt⟩

private theorem issueLease_eq_none {range : ByteRange} {w p : Nat}
    (hrng : range.start < range.stop)
    (hiss : piece.issueLease range w nextLeaseId p = none) :
    ∃ b ∈ range, hits piece.missingRanges.ranges b = 0 := by
  by_contra hall
  push Not at hall
  have hsome := RangeSet.remove_isSome h.normal hrng fun b hb => pos_of_ne_zero (hall b hb)
  obtain ⟨rest, hrest⟩ := isSome_iff_exists.mp hsome
  simp [issueLease, hrest] at hiss

theorem reclaim_spec {span : Span} (hl : piece.activeLeases[key.leaseId]? = some span)
    (hfresh : ∀ b ∈ span, hits piece.missingRanges.ranges b = 0) :
    ∃ after, piece.reclaim key = some after ∧ after.Valid nextLeaseId ∧
      after.missingRangeCount ≠ 0 ∧
      (∀ b, hits after.missingRanges.ranges b =
        hits piece.missingRanges.ranges b + if b ∈ span then 1 else 0) ∧
      piece.activeSpans.Perm (span :: after.activeSpans) ∧
      ∀ leaseId : Nat, after.activeLeases[leaseId]? =
        if leaseId = key.leaseId then none else piece.activeLeases[leaseId]? := by
  have hpos := (h.lease _ _ hl).1
  have hnemp := RangeSet.insert_ne_nil piece.missingRanges span
  unfold reclaim
  rw [hl]
  refine ⟨_, rfl, ⟨RangeSet.insert_normal h.normal hpos, fun _ _ => h.lease_erase,
    Or.inl hnemp⟩, ?_, RangeSet.hits_insert h.normal hpos hfresh,
    activeSpans_perm_erase hl, fun leaseId => getElem?_erase_eq _ _ _⟩
  simpa [missingRangeCount, RangeSet.len] using hnemp

theorem renew_spec {span : Span} (hl : piece.activeLeases[key.leaseId]? = some span)
    {w p : Nat} : ∃ segment after, piece.renew key w nextLeaseId p =
        some (segment, after, nextLeaseId + 1) ∧ after.Valid (nextLeaseId + 1) ∧
      segment.leaseKey = ⟨p, nextLeaseId⟩ ∧ segment.span = span ∧
      segment.ownerWorkerId = w ∧ after.missingRanges = piece.missingRanges ∧
      after.activeSpans.Perm piece.activeSpans ∧
      ∀ leaseId : Nat, after.activeLeases[leaseId]? = if leaseId = nextLeaseId then some span
        else if leaseId = key.leaseId then none else piece.activeLeases[leaseId]? := by
  have hfresh : (piece.activeLeases.erase key.leaseId)[nextLeaseId]? = none := by
    rw [getElem?_erase_eq, lease_fresh h, ite_self]
  have hperm : (((piece.activeLeases.erase key.leaseId).insert nextLeaseId
      span).toList.map Prod.snd).Perm _ := (toList_insert_perm_of_none hfresh).map Prod.snd
  unfold renew
  rw [hl]
  refine ⟨_, _, rfl, ⟨h.normal, fun leaseId other ho => ?_, Or.inr (activeSpans_ne_nil hperm)⟩,
    rfl, rfl, rfl, rfl, hperm.trans (activeSpans_perm_erase hl).symm, fun leaseId => ?_⟩
  · rw [getElem?_insert_eq] at ho
    split at ho
    · obtain rfl := some.inj ho
      have := h.lease _ _ hl
      omega
    · have := h.lease_erase ho
      omega
  · rw [getElem?_insert_eq, getElem?_erase_eq]

theorem complete_spec {span : Span} (hl : piece.activeLeases[key.leaseId]? = some span) :
    ∃ pieceComplete after, piece.complete key = some (pieceComplete, after) ∧
      after.missingRanges = piece.missingRanges ∧
      piece.activeSpans.Perm (span :: after.activeSpans) ∧
      (pieceComplete = true → after.missingRanges.ranges = [] ∧ after.activeSpans = []) ∧
      (pieceComplete = false → after.Valid nextLeaseId) ∧
      ∀ leaseId : Nat, after.activeLeases[leaseId]? =
        if leaseId = key.leaseId then none else piece.activeLeases[leaseId]? := by
  have hemp : (piece.activeLeases.erase key.leaseId).isEmpty = true ↔
      (piece.activeLeases.erase key.leaseId).toList.map Prod.snd = [] := by
    rw [List.map_eq_nil_iff, ← List.isEmpty_iff, TreeMap.isEmpty_toList]
  unfold complete
  rw [hl]
  refine ⟨_, _, rfl, rfl, activeSpans_perm_erase hl, ?_, ?_,
    fun leaseId => getElem?_erase_eq _ _ _⟩
  · simp only [Bool.and_eq_true, List.isEmpty_iff, hemp]
    exact id
  · intro hopen
    refine ⟨h.normal, fun _ _ => h.lease_erase, ?_⟩
    by_contra hidle
    push Not at hidle
    obtain ⟨hrngs, hact⟩ := hidle
    simp only [activeSpans] at hact
    rw [hemp.mpr hact, hrngs] at hopen
    simp at hopen

private theorem shrink_spec {leaseId : Nat} {span : Span} {confirmedEnd : Nat}
    (hl : piece.activeLeases[leaseId]? = some span) (hstop : confirmedEnd < span.stop) :
    let after : PieceRuntimeState := { piece with
      activeLeases := piece.activeLeases.insert leaseId ⟨confirmedEnd, span.stop⟩
      hasCompletedRanges := true }
    after.Valid nextLeaseId ∧ ∃ rest, piece.activeSpans.Perm (span :: rest) ∧
      after.activeSpans.Perm (⟨confirmedEnd, span.stop⟩ :: rest) := by
  have hperm := (toList_insert_perm_cons_erase piece.activeLeases leaseId
    ⟨confirmedEnd, span.stop⟩).map Prod.snd
  refine ⟨⟨h.normal, fun other found ho => ?_, Or.inr (activeSpans_ne_nil hperm)⟩, _,
    activeSpans_perm_erase hl, hperm⟩
  rw [getElem?_insert_eq] at ho
  split at ho
  · obtain rfl := some.inj ho
    have := h.lease _ _ hl
    exact ⟨hstop, by omega⟩
  · exact h.lease other found ho

end PieceRuntimeState

namespace SchedulerState

variable {sched next : SchedulerState} {acked : List Span} {i : Nat}
  {piece after : PieceRuntimeState} {key : LeaseKey} {span : Span} {segment : Segment}
  {segments : List Segment}

/-! ## Replacing a runtime entry, seen from the custody -/

private theorem leaseRange_insert (hps : next.pieces = sched.pieces.insert i piece)
    (key : LeaseKey) : next.leaseRange key =
      if key.pieceId = i then piece.activeLeases[key.leaseId]? else sched.leaseRange key := by
  by_cases hkey : key.pieceId = i <;>
    simp [leaseRange, hps, getElem?_insert_eq, hkey]

private theorem missing_insert (h : sched.Conserved acked) (hi : i < sched.pieceMap.pieceCount)
    (hmap : next.pieceMap = sched.pieceMap) (hps : next.pieces = sched.pieces.insert i piece)
    (hin : ∀ b, 0 < hits piece.missingRanges.ranges b →
      b ∈ sched.pieceMap.pieceRange i) (b : Nat) :
    b ∈ next.custody.missing ↔ (b ∈ sched.custody.missing ∧ b ∉ sched.pieceMap.pieceRange i) ∨
        0 < hits piece.missingRanges.ranges b := by
  simp only [mem_custody_missing, hmap, missingSpans_insert hmap hps]
  constructor
  · rintro ⟨j, hj, hb⟩
    split at hb
    · exact Or.inr hb
    · rename_i hne
      refine Or.inl ⟨⟨j, hj, hb⟩, fun hbi => hne ?_⟩
      exact h.piece_unique hj hi (h.mem_piece_of_missing hj hb) hbi
  · rintro (⟨⟨j, hj, hb⟩, hout⟩ | hb)
    · refine ⟨j, hj, ?_⟩
      rwa [if_neg]
      rintro rfl
      exact hout (h.mem_piece_of_missing hj hb)
    · exact ⟨i, hi, by rwa [if_pos rfl]⟩

/-! ## Lending -/

/-- `next` is `sched` with exactly the listed segments lent out under fresh keys. -/
structure Lends (sched next : SchedulerState) (segments : List Segment) : Prop where
  pieceMap : next.pieceMap = sched.pieceMap
  stopped : next.stopped = sched.stopped
  next_le : sched.nextLeaseId ≤ next.nextLeaseId
  missing : ∀ b, b ∈ next.custody.missing ↔
    b ∈ sched.custody.missing ∧ ∀ segment ∈ segments, b ∉ segment.span
  held_new : ∀ segment ∈ segments,
    next.leaseRange segment.leaseKey = some segment.span
  held_old : ∀ key, (∀ segment ∈ segments, segment.leaseKey ≠ key) →
    next.leaseRange key = sched.leaseRange key
  fresh : ∀ segment ∈ segments,
    sched.nextLeaseId ≤ segment.leaseId ∧ segment.leaseId < next.nextLeaseId
  unused : ∀ segment ∈ segments, sched.leaseRange segment.leaseKey = none
  segment : ∀ segment ∈ segments,
    segment.pieceId < sched.pieceMap.pieceCount ∧ segment.start < segment.stop ∧
      ∀ b ∈ segment.span, b ∈ sched.custody.missing ∧
        b ∈ sched.pieceMap.pieceRange segment.pieceId
  apart : segments.Pairwise fun first second =>
    first.leaseId ≠ second.leaseId ∧ first.span.Apart second.span

theorem Lends.refl (sched : SchedulerState) : Lends sched sched [] := by
  constructor <;> simp

theorem Lends.keys_ne {first second third : SchedulerState} {xs ys : List Segment}
    (h : Lends first second xs) (h' : Lends second third ys) {x y : Segment}
    (hx : x ∈ xs) (hy : y ∈ ys) : x.leaseKey ≠ y.leaseKey := by
  intro hkey
  have hold := (h.fresh x hx).2
  have hnew := (h'.fresh y hy).1
  have : x.leaseId = y.leaseId := congrArg LeaseKey.leaseId hkey
  omega

theorem Lends.trans {first second third : SchedulerState} {xs ys : List Segment}
    (h : Lends first second xs) (h' : Lends second third ys) : Lends first third (xs ++ ys) where
  pieceMap := h'.pieceMap.trans h.pieceMap
  stopped := h'.stopped.trans h.stopped
  next_le := h.next_le.trans h'.next_le
  missing b := by
    rw [h'.missing, h.missing]
    simp only [mem_append, or_imp, forall_and, and_assoc]
  held_new segment hseg := by
    rcases mem_append.mp hseg with hmem | hmem
    · rw [h'.held_old segment.leaseKey, h.held_new segment hmem]
      exact fun other ho => (h.keys_ne h' hmem ho).symm
    · exact h'.held_new segment hmem
  held_old key hkey := by
    rw [h'.held_old key, h.held_old key]
    · exact fun segment hmem => hkey segment (mem_append_left _ hmem)
    · exact fun segment hmem => hkey segment (mem_append_right _ hmem)
  fresh segment hseg := by
    have hle := h.next_le
    have hle' := h'.next_le
    rcases mem_append.mp hseg with hmem | hmem
    · have := h.fresh segment hmem
      omega
    · have := h'.fresh segment hmem
      omega
  unused segment hseg := by
    rcases mem_append.mp hseg with hmem | hmem
    · exact h.unused segment hmem
    · rw [← h.held_old segment.leaseKey]
      · exact h'.unused segment hmem
      · exact fun other ho => h.keys_ne h' ho hmem
  segment segment hseg := by
    rcases mem_append.mp hseg with hmem | hmem
    · exact h.segment segment hmem
    · obtain ⟨hlt, hpos, hbyt⟩ := h'.segment segment hmem
      rw [h.pieceMap] at hlt hbyt
      refine ⟨hlt, hpos, fun b hb => ?_⟩
      obtain ⟨hmiss, hp⟩ := hbyt b hb
      exact ⟨((h.missing b).mp hmiss).1, hp⟩
  apart := by
    refine pairwise_append.mpr ⟨h.apart, h'.apart, ?_⟩
    intro x hx y hy
    constructor
    · have := h.fresh x hx
      have := h'.fresh y hy
      omega
    · intro b hbx hby
      have hmiss := ((h'.segment y hy).2.2 b hby).1
      exact ((h.missing b).mp hmiss).2 x hx hbx

theorem Lends.withCandidate (h : Lends sched next segments) (cand : Nat) :
    Lends sched { next with nextCandidate := cand } segments :=
  ⟨h.pieceMap, h.stopped, h.next_le, h.missing, h.held_new, h.held_old, h.fresh,
    h.unused, h.segment, h.apart⟩

variable (h : sched.Conserved acked)
include h

theorem Conserved.withCandidate {cand : Nat} (hle : cand ≤ sched.pieceMap.pieceCount) :
    Conserved { sched with nextCandidate := cand } acked :=
  ⟨h.map, h.runtime, h.balanced, h.length_available, h.available_iff,
    h.availableRangeCount_eq, h.activeLeaseCount_eq, hle⟩

variable (hi : i < sched.pieceMap.pieceCount)
include hi

theorem Conserved.missingLength_le : (sched.missingSpans i).length ≤ sched.availableRangeCount := by
  rw [h.availableRangeCount_eq]
  exact le_sum_range (fun j => (sched.missingSpans j).length) hi

theorem Conserved.activeLength_le : (sched.activeSpans i).length ≤ sched.activeLeaseCount := by
  rw [h.activeLeaseCount_eq]
  exact le_sum_range (fun j => (sched.activeSpans j).length) hi

/-! ## Issuing -/

/-- A refused lease: nothing is lent, because of a stop or a byte that is not missing. -/
structure Refused (sched next : SchedulerState) (range : ByteRange) : Prop where
  lends : Lends sched next []
  reason : sched.stopped = true ∨ ∃ b ∈ range, b ∉ sched.custody.missing

structure Granted (sched next : SchedulerState) (i : Nat) (range : ByteRange)
    (workerId : Nat) (segment : Segment) : Prop where
  lends : Lends sched next [segment]
  pieceId : segment.pieceId = i
  span : segment.span = range
  owner : segment.ownerWorkerId = workerId
  running : sched.stopped = false

private theorem available_set_self : sched.availablePieces =
      sched.availablePieces.set i ((sched.missingSpans i).length != 0) := by
  have hlen : i < sched.availablePieces.length := by
    rw [h.length_available]
    exact hi
  have hiff := h.available_iff i hi
  simp only [available, getD_eq_getElem?_getD, getElem?_eq_getElem hlen, getD_some] at hiff
  apply ext_getElem?
  intro j
  rw [getElem?_set]
  split
  · rename_i hij
    subst hij
    rw [getElem?_eq_getElem hlen]
    congr 1
    rw [Bool.eq_iff_iff, hiff]
    simp
  · rfl

omit hi in
private theorem Conserved.replace_same {acked' : List Span}
    (next : SchedulerState) (hi : i < sched.pieceMap.pieceCount)
    (hbit : sched.pieceMap.bit i = false) (hmap : next.pieceMap = sched.pieceMap)
    (hps : next.pieces = sched.pieces.insert i after)
    (hsame : after.missingRanges.ranges = sched.missingSpans i)
    (hval : after.Valid next.nextLeaseId) (hid : sched.nextLeaseId ≤ next.nextLeaseId)
    (hbal : ∀ b, hits (sched.missingSpans i) b + hits after.activeSpans b +
        (if b ∈ sched.pieceMap.pieceRange i then hits acked' b else 0) =
      if b ∈ sched.pieceMap.pieceRange i then 1 else 0)
    (hacked : ∀ b, b ∉ sched.pieceMap.pieceRange i → hits acked' b = hits acked b)
    (havl : next.availablePieces = sched.availablePieces)
    (hrngs : next.availableRangeCount = sched.availableRangeCount)
    (hls : next.activeLeaseCount + (sched.activeSpans i).length =
      sched.activeLeaseCount + after.activeSpans.length)
    (hcand : next.nextCandidate = sched.nextCandidate) :
    next.Conserved acked' ∧ ∀ b, b ∈ next.custody.missing ↔ b ∈ sched.custody.missing := by
  have hc : after.missingRangeCount = (sched.missingSpans i).length := congrArg length hsame
  refine ⟨h.replace hi hbit hmap hps hval hid (hsame ▸ hbal) hacked ?_ ?_ hls
    (hcand ▸ h.candidate_le), fun b => ?_⟩
  · rw [havl, hc]
    exact available_set_self h hi
  · rw [hrngs, hc]
  · rw [missing_insert h hi hmap hps (by
      rw [hsame]
      exact fun b => h.mem_piece_of_missing hi), hsame]
    by_cases hb : b ∈ sched.pieceMap.pieceRange i
    · simp [hb, h.missing_iff hi hb]
    · have : ¬0 < hits (sched.missingSpans i) b := fun hpos =>
        hb (h.mem_piece_of_missing hi hpos)
      simp [hb, this]

omit h in
omit hi in
private theorem runtimePiece_lease (sched : SchedulerState) (key : LeaseKey) :
    (sched.runtimePiece key.pieceId).activeLeases[key.leaseId]? = sched.leaseRange key := by
  simp only [runtimePiece, leaseRange]
  cases sched.pieces[key.pieceId]? with
  | none => simp [PieceRuntimeState.new]
  | some piece => simp

private theorem touch_spec (hbit : sched.pieceMap.bit i = false) :
    let next := { sched with pieces := sched.pieces.insert i (sched.runtimePiece i) }
    next.Conserved acked ∧ Lends sched next [] := by
  obtain ⟨hmiss, hact, hval⟩ := h.runtimePiece hi hbit
  intro next
  obtain ⟨hcons, hsame⟩ := h.replace_same next hi hbit rfl rfl hmiss hval (Nat.le_refl _)
    (by rw [hact]; exact h.balanced i hi) (fun _ _ => rfl) rfl rfl (by rw [hact]) rfl
  refine ⟨hcons, rfl, rfl, Nat.le_refl _, by simpa using hsame, by simp, fun key _ => ?_,
    by simp, by simp, by simp, List.Pairwise.nil⟩
  rw [leaseRange_insert rfl]
  split
  · rename_i hkey
    rw [← hkey, runtimePiece_lease]
  · rfl

private theorem grant_lends {range : ByteRange} (hmap : next.pieceMap = sched.pieceMap)
    (hstpd : next.stopped = sched.stopped) (hnext : next.nextLeaseId = sched.nextLeaseId + 1)
    (hps : next.pieces = sched.pieces.insert i after)
    (hkey : segment.leaseKey = ⟨i, sched.nextLeaseId⟩) (hspan : segment.span = range)
    (hrng : range.start < range.stop) (hp : ∀ b ∈ range, b ∈ sched.pieceMap.pieceRange i)
    (hhits : ∀ b, (hits after.missingRanges.ranges b + if b ∈ range then 1 else 0) =
      hits (sched.missingSpans i) b)
    (hlook : ∀ leaseId : Nat, after.activeLeases[leaseId]? =
      if leaseId = sched.nextLeaseId then some range
      else (sched.runtimePiece i).activeLeases[leaseId]?) :
    Lends sched next [segment] := by
  have hid : segment.leaseId = sched.nextLeaseId := congrArg LeaseKey.leaseId hkey
  have hpid : segment.pieceId = i := congrArg LeaseKey.pieceId hkey
  have hin : ∀ b, 0 < hits after.missingRanges.ranges b → b ∈ sched.pieceMap.pieceRange i := by
    intro b hb
    have := hhits b
    exact h.mem_piece_of_missing hi (by omega)
  refine ⟨hmap, hstpd, by omega, ?_, ?_, ?_, ?_, ?_, ?_, pairwise_singleton _ _⟩
  · intro b
    have hb := hhits b
    rw [missing_insert h hi hmap hps hin]
    simp only [mem_singleton, forall_eq, hspan]
    by_cases hmem : b ∈ sched.pieceMap.pieceRange i
    · have hle : hits (sched.missingSpans i) b ≤ 1 := by
        have := h.balanced i hi b
        rw [if_pos hmem, if_pos hmem] at this
        omega
      rw [h.missing_iff hi hmem]
      simp only [hmem, not_true_eq_false, and_false, false_or]
      by_cases hlent : b ∈ range
      · rw [if_pos hlent] at hb
        simp only [hlent, not_true_eq_false, and_false, iff_false]
        omega
      · rw [if_neg hlent] at hb
        simp only [hlent, not_false_eq_true, and_true]
        omega
    · have hout : b ∉ range := fun hb => hmem (hp b hb)
      have hzero : ¬0 < hits after.missingRanges.ranges b := fun hpos =>
        hmem (hin b hpos)
      simp [hmem, hout, hzero]
  · intro other ho
    obtain rfl := mem_singleton.mp ho
    rw [leaseRange_insert hps, hkey]
    simp [hlook, hspan]
  · intro key hne
    have hne := hne segment (mem_singleton.mpr rfl)
    rw [leaseRange_insert hps]
    split
    · rename_i hsame
      rw [hlook, if_neg, ← hsame, runtimePiece_lease]
      intro hl
      apply hne
      rw [hkey, ← hsame, ← hl]
    · rfl
  · intro other ho
    obtain rfl := mem_singleton.mp ho
    omega
  · intro other ho
    obtain rfl := mem_singleton.mp ho
    cases hheld : sched.leaseRange other.leaseKey with
    | none => rfl
    | some span =>
      have hlt := (h.leaseRange_spec hheld).2.1
      rw [hkey] at hlt
      exact absurd hlt (lt_irrefl _)
  · intro other ho
    obtain rfl := mem_singleton.mp ho
    have hstart : other.start < other.stop := by
      have := congrArg Span.start hspan
      have := congrArg Span.stop hspan
      simp only [Segment.span] at *
      omega
    rw [hpid, hspan]
    refine ⟨hi, hstart, fun b hb => ⟨?_, hp b hb⟩⟩
    rw [h.missing_iff hi (hp b hb)]
    have := hhits b
    rw [if_pos hb] at this
    omega

theorem issueLease_spec {range : ByteRange} (hbit : sched.pieceMap.bit i = false)
    (hrng : range.start < range.stop) (hp : ∀ b ∈ range, b ∈ sched.pieceMap.pieceRange i)
    (w : Nat) : ∃ out, sched.issueLease i range w = some out ∧ out.2.Conserved acked ∧
      (out.1 = none → Refused sched out.2 range) ∧
      ∀ segment, out.1 = some segment → Granted sched out.2 i range w segment := by
  obtain ⟨hmiss, hact, hval⟩ := h.runtimePiece hi hbit
  by_cases hstpd : sched.stopped = true
  · refine ⟨(none, sched), by simp [issueLease, hstpd], h, ?_, by simp⟩
    exact fun _ => ⟨Lends.refl sched, Or.inl hstpd⟩
  rw [Bool.not_eq_true] at hstpd
  have hc : (sched.runtimePiece i).missingRangeCount = (sched.missingSpans i).length := by
    rw [← hmiss]
    rfl
  cases hiss : (sched.runtimePiece i).issueLease range w sched.nextLeaseId i with
  | none =>
    obtain ⟨hcons, hlnd⟩ := touch_spec h hi hbit
    refine ⟨(none, _), by
      simp only [issueLease, hstpd, hiss]
      rfl, hcons, ?_, by simp⟩
    obtain ⟨b, hb, hzero⟩ := issueLease_eq_none hval hrng hiss
    refine fun _ => ⟨hlnd, Or.inr ⟨b, hb, ?_⟩⟩
    rw [h.missing_iff hi (hp b hb), ← hmiss]
    omega
  | some issued =>
    obtain ⟨segment, after, nextLeaseId⟩ := issued
    obtain ⟨haft, rfl, hkey, hspan, howner, hhits, hperm, hlook⟩ :=
      PieceRuntimeState.issueLease_spec hval hrng hiss
    refine ⟨(some segment, _), by
      simp only [issueLease, hstpd, hiss, hc, checkedSub_eq (h.missingLength_le hi)]
      rfl, ?_, by simp, ?_⟩
    · refine h.replace hi hbit rfl rfl haft (le_succ _) ?_ (fun _ _ => rfl) rfl ?_ ?_ h.candidate_le
      · intro b
        have hbal := h.balanced i hi b
        have hb := hhits b
        rw [hmiss] at hb
        rw [hits_perm hperm, hits_cons, hact]
        omega
      · change _ - _ + _ + _ = _
        have := h.missingLength_le hi
        omega
      · rw [hperm.length_eq, hact]
        simp only [length_cons]
        omega
    · intro other ho
      obtain rfl := some.inj ho
      exact ⟨grant_lends h hi rfl hstpd.symm rfl rfl hkey hspan hrng hp
        (fun b => by rw [← hmiss]; exact hhits b) hlook, congrArg LeaseKey.pieceId hkey, hspan,
        howner, hstpd⟩

/-! ## Operations on a live lease -/

omit h in
omit hi in
theorem stale_inert (hkey : sched.leaseRange key = none) (w confirmedEnd : Nat) :
    sched.complete key = some (false, sched) ∧ sched.reclaim key = some (false, sched) ∧
      sched.renew key w = (none, sched) ∧
      sched.retainPrefix key confirmedEnd = (false, sched) := by
  unfold leaseRange at hkey
  unfold complete reclaim renew retainPrefix
  cases hp : sched.pieces[key.pieceId]? with
  | none => simp
  | some piece =>
    simp only [hp, bind_some] at hkey
    simp [PieceRuntimeState.complete, PieceRuntimeState.reclaim, PieceRuntimeState.renew, hkey]

omit h in
omit hi in
private theorem leaseRange_of_entry (hp : sched.pieces[key.pieceId]? = some piece)
    (hps : next.pieces = sched.pieces.insert key.pieceId after) {entry : Option Span}
    (hlook : ∀ leaseId : Nat, after.activeLeases[leaseId]? =
      if leaseId = key.leaseId then entry else piece.activeLeases[leaseId]?) :
    ∀ other, next.leaseRange other = Function.update sched.leaseRange key entry other := by
  intro other
  rw [leaseRange_insert hps, Function.update_apply]
  by_cases ho : other = key
  · simp [ho, hlook]
  · split
    · rename_i hsame
      rw [hlook, if_neg]
      · simp [leaseRange, hsame, hp]
      · intro hid
        cases other
        simp_all
    · rfl

omit hi in
theorem reclaim_spec (hkey : sched.leaseRange key = some span) :
    ∃ next, sched.reclaim key = some (true, next) ∧ next.Conserved acked ∧
      next.custody = sched.custody.reclaim key span ∧
      next.pieceMap = sched.pieceMap ∧ next.stopped = sched.stopped ∧
      next.nextLeaseId = sched.nextLeaseId := by
  obtain ⟨hi, _, hpos, hmem, hin⟩ := h.leaseRange_spec hkey
  obtain ⟨piece, hp, hl⟩ := leaseRange_eq_some.mp hkey
  obtain ⟨_, hbit, hval⟩ := h.runtime _ _ hp
  have hact := activeSpans_of_runtime hp
  have hmiss := missingSpans_of_runtime hp
  have hfresh : ∀ b ∈ span, hits piece.missingRanges.ranges b = 0 := by
    intro b hb
    rw [← hmiss]
    exact (h.hits_leased hi (hits_pos_of_mem hmem hb)).2.1
  obtain ⟨after, hrecl, haft, hnz, hhits, hperm, hlook⟩ :=
    PieceRuntimeState.reclaim_spec hval hl hfresh
  have hrngs := h.missingLength_le hi
  have hls := h.activeLength_le hi
  have hc : piece.missingRangeCount = (sched.missingSpans key.pieceId).length := by
    rw [hmiss]
    rfl
  rw [hact, hperm.length_eq, length_cons] at hls
  have hinside' : ∀ b, 0 < hits after.missingRanges.ranges b →
      b ∈ sched.pieceMap.pieceRange key.pieceId := by
    intro b hb
    rw [hhits, ← hmiss] at hb
    by_cases hspan : b ∈ span
    · exact hin b hspan
    · rw [if_neg hspan] at hb
      exact h.mem_piece_of_missing hi hb
  refine ⟨_, by
    simp only [reclaim, hp, hrecl, hc, checkedSub_eq hrngs,
      checkedSub_eq (show 1 ≤ sched.activeLeaseCount by omega)]
    rfl, ?_, ?_, ?_, ?_, ?_⟩
  case refine_1 =>
    refine h.replace hi hbit rfl rfl haft (Nat.le_refl _) ?_ (fun _ _ => rfl) ?_ ?_ ?_ ?_
    · intro b
      have hbal := h.balanced _ hi b
      rw [hact, hits_perm hperm, hits_cons, hmiss] at hbal
      rw [hhits]
      omega
    · rw [bne_iff_ne.mpr hnz]
    · change _ - _ + _ + _ = _
      omega
    · change _ - 1 + _ = _
      rw [hact, hperm.length_eq, length_cons]
      omega
    · change (if _ then _ else _) ≤ _
      split <;> omega
  case refine_2 =>
    apply Custody.ext
    · intro b
      refine Iff.trans (missing_insert h hi (by rfl) (by rfl) hinside' b) ?_
      rw [hhits]
      change _ ↔ _ ∨ _
      by_cases hb : b ∈ sched.pieceMap.pieceRange key.pieceId
      · rw [h.missing_iff hi hb, hmiss]
        by_cases hspan : b ∈ span <;> simp [hb, hspan]
      · have hout : b ∉ span := fun hmem => hb (hin b hmem)
        have hzero : hits piece.missingRanges.ranges b = 0 := by
          by_contra hne
          exact hb (h.mem_piece_of_missing hi (by rw [hmiss]; omega))
        simp [hb, hout, hzero]
    · exact leaseRange_of_entry hp (by rfl) hlook
  all_goals rfl

omit hi in
theorem renew_spec (hkey : sched.leaseRange key = some span) (w : Nat) :
    ∃ segment next, sched.renew key w = (some segment, next) ∧
      next.Conserved acked ∧ segment.leaseKey = ⟨key.pieceId, sched.nextLeaseId⟩ ∧
      segment.span = span ∧ segment.ownerWorkerId = w ∧
      next.custody = sched.custody.rename key segment.leaseKey span ∧
      next.pieceMap = sched.pieceMap ∧ next.stopped = sched.stopped ∧
      next.nextLeaseId = sched.nextLeaseId + 1 := by
  obtain ⟨hi, hid, _⟩ := h.leaseRange_spec hkey
  obtain ⟨piece, hp, hl⟩ := leaseRange_eq_some.mp hkey
  obtain ⟨_, hbit, hval⟩ := h.runtime _ _ hp
  have hact := activeSpans_of_runtime hp
  have hmiss := missingSpans_of_runtime hp
  obtain ⟨segment, after, hrenew, haft, hseg, hspan, howner, hrngs, hperm, hlook⟩ :=
    PieceRuntimeState.renew_spec hval hl
  have hinc : sched.pieceMap.isComplete key.pieceId = false := by simp [isComplete, hbit]
  obtain ⟨hcons, hsame⟩ := h.replace_same { sched with
      pieces := sched.pieces.insert key.pieceId after
      nextLeaseId := sched.nextLeaseId + 1 } hi hbit rfl rfl (by rw [hrngs, hmiss]) haft
    (le_succ _) (fun b => by rw [hits_perm hperm, ← hact]; exact h.balanced _ hi b)
    (fun _ _ => rfl) rfl rfl (by rw [hperm.length_eq, hact]) rfl
  refine ⟨segment, _, by
    simp only [renew, hinc, hp, hrenew]
    rfl, hcons, hseg, hspan, howner, Custody.ext hsame fun other => ?_, rfl, rfl, rfl⟩
  refine Eq.trans (leaseRange_insert (by rfl) other) ?_
  simp only [custody, Custody.rename, Function.update_apply, hseg, hlook]
  rcases other with ⟨p, leaseId⟩
  rcases key with ⟨keyPiece, keyLease⟩
  simp only [leaseRange, LeaseKey.mk.injEq] at hp ⊢
  by_cases hpid : p = keyPiece
  · subst hpid
    simp [hp]
  · simp [hpid]

omit hi in
theorem retainPrefix_spec (hkey : sched.leaseRange key = some span)
    {confirmedEnd : Nat} (hstart : span.start < confirmedEnd) (hstop : confirmedEnd < span.stop) :
    ∃ next, sched.retainPrefix key confirmedEnd = (true, next) ∧
      next.Conserved (⟨span.start, confirmedEnd⟩ :: acked) ∧
      next.custody = sched.custody.shrink key ⟨confirmedEnd, span.stop⟩ ∧
      next.pieceMap = sched.pieceMap ∧ next.stopped = sched.stopped ∧
      next.nextLeaseId = sched.nextLeaseId := by
  obtain ⟨hi, _, _, _, hin⟩ := h.leaseRange_spec hkey
  obtain ⟨piece, hp, hl⟩ := leaseRange_eq_some.mp hkey
  obtain ⟨_, hbit, hval⟩ := h.runtime _ _ hp
  have hact := activeSpans_of_runtime hp
  have hmiss := missingSpans_of_runtime hp
  obtain ⟨haft, rest, hbef, hperm⟩ := shrink_spec hval hl hstop
  have hnot : ¬(confirmedEnd ≤ span.start ∨ confirmedEnd ≥ span.stop) := by omega
  have hout : ∀ b, b ∉ sched.pieceMap.pieceRange key.pieceId →
      hits (⟨span.start, confirmedEnd⟩ :: acked) b = hits acked b := by
    intro b hb
    rw [hits_cons, if_neg, add_zero]
    intro hprefix
    apply hb (hin b _)
    simp only [Span.mem_iff] at hprefix ⊢
    omega
  have hbal : ∀ b, _ = _ := h.balanced _ hi
  simp only [hact, hits_perm hbef, hits_cons] at hbal
  obtain ⟨hcons, hsame⟩ := h.replace_same { sched with
      pieces := sched.pieces.insert key.pieceId { piece with
        activeLeases := piece.activeLeases.insert key.leaseId ⟨confirmedEnd, span.stop⟩
        hasCompletedRanges := true } } hi hbit rfl rfl hmiss.symm haft (Nat.le_refl _)
    (fun b => by
      rw [hits_perm hperm, hits_cons]
      by_cases hp : b ∈ sched.pieceMap.pieceRange key.pieceId
      · simp only [hp, if_true, hits_cons, Span.mem_iff]
        grind
      · have hspan : b ∉ span := fun hb => hp (hin b hb)
        grind) hout rfl rfl (by rw [hact, hperm.length_eq, hbef.length_eq]; rfl) rfl
  exact ⟨_, by simp only [retainPrefix, hp, hl, if_neg hnot], hcons,
    Custody.ext hsame (leaseRange_of_entry hp rfl fun leaseId => getElem?_insert_eq _ _ _ _),
    rfl, rfl, rfl⟩

omit hi in
private theorem complete_open (hkey : sched.leaseRange key = some span)
    (hp : sched.pieces[key.pieceId]? = some piece)
    (hrngs : after.missingRanges = piece.missingRanges)
    (hperm : piece.activeSpans.Perm (span :: after.activeSpans))
    (haft : after.Valid sched.nextLeaseId) : let next := { sched with
      activeLeaseCount := sched.activeLeaseCount - 1
      pieces := sched.pieces.insert key.pieceId after }
    next.Conserved (span :: acked) ∧ ∀ b, b ∈ next.custody.missing ↔ b ∈ sched.custody.missing := by
  obtain ⟨hi, _, _, _, hin⟩ := h.leaseRange_spec hkey
  obtain ⟨_, hbit, _⟩ := h.runtime _ _ hp
  have hact := activeSpans_of_runtime hp
  have hls := h.activeLength_le hi
  rw [hact, hperm.length_eq, length_cons] at hls
  refine h.replace_same _ hi hbit rfl rfl (by rw [hrngs, missingSpans_of_runtime hp]) haft
    (Nat.le_refl _) (fun b => ?_) (fun b hb => ?_) rfl rfl ?_ rfl
  · have hbal := h.balanced _ hi b
    rw [hact, hits_perm hperm, hits_cons] at hbal
    rw [hits_cons]
    by_cases hp : b ∈ sched.pieceMap.pieceRange key.pieceId
    · rw [if_pos hp] at hbal ⊢
      omega
    · rw [if_neg hp, if_neg hp] at hbal ⊢
      omega
  · rw [hits_cons, if_neg fun hspan => hb (hin b hspan), add_zero]
  · rw [hact, hperm.length_eq, length_cons]
    change _ - 1 + _ = _
    omega

private theorem missingSpans_retire
    (hnone : sched.missingSpans i = []) (hmap : next.pieceMap = sched.pieceMap.markComplete i)
    (hps : next.pieces = sched.pieces.erase i) (j : Nat) :
    next.missingSpans j = sched.missingSpans j := by
  have hbits := bit_markComplete h.map i
  by_cases hj : j = i
  · rw [hj, hnone]
    simp [missingSpans, hps, hmap, hbits, hi]
  · simp [missingSpans, hps, hmap, getElem?_erase_eq, hj, hbits]

private theorem missing_retire
    (hnone : sched.missingSpans i = []) (hmap : next.pieceMap = sched.pieceMap.markComplete i)
    (hps : next.pieces = sched.pieces.erase i) :
    ∀ b, b ∈ next.custody.missing ↔ b ∈ sched.custody.missing := by
  intro b
  simp only [mem_custody_missing, missingSpans_retire h hi hnone hmap hps, hmap,
    markComplete_pieceCount]

private theorem Conserved.retire (hnone : sched.missingSpans i = [])
    (hlast : (sched.activeSpans i).Perm [span])
    (hmap : next.pieceMap = sched.pieceMap.markComplete i)
    (hps : next.pieces = sched.pieces.erase i)
    (havl : next.availablePieces = sched.availablePieces)
    (hrngs : next.availableRangeCount = sched.availableRangeCount)
    (hls : next.activeLeaseCount + 1 = sched.activeLeaseCount)
    (hid : next.nextLeaseId = sched.nextLeaseId)
    (hcand : next.nextCandidate = sched.nextCandidate) : next.Conserved (span :: acked) := by
  have hbits := bit_markComplete h.map i
  have hmiss := missingSpans_retire h hi hnone hmap hps
  have hact : ∀ j, next.activeSpans j = if j = i then [] else sched.activeSpans j := by
    intro j
    by_cases hj : j = i <;> simp [activeSpans, hps, getElem?_erase_eq, hj]
  have hin : ∀ b ∈ span, b ∈ sched.pieceMap.pieceRange i := by
    intro b hb
    apply h.mem_piece_of_active hi
    rw [hits_perm hlast, hits_cons, if_pos hb]
    omega
  exact {
    map := by
      rw [hmap]
      exact markComplete_valid h.map _
    runtime := by
      intro j other ho
      rw [hps, getElem?_erase_eq] at ho
      split at ho
      · simp at ho
      · rename_i hj
        obtain ⟨hlt, hinc, ho⟩ := h.runtime j other ho
        rw [hmap, hid]
        refine ⟨by simpa using hlt, ?_, ho⟩
        simp [hbits, hinc, hj]
    balanced := by
      intro j hj b
      rw [hmap, markComplete_pieceCount] at hj
      have hbal := h.balanced j hj b
      rw [hmiss, hact, hmap, markComplete_pieceRange, hits_cons]
      by_cases hji : j = i
      · subst hji
        rw [hits_perm hlast, hits_cons, hits_nil] at hbal
        rw [if_pos rfl, hits_nil]
        by_cases hb : b ∈ sched.pieceMap.pieceRange j
        · simp only [hb, if_true] at hbal ⊢
          omega
        · simp only [hb, if_false] at hbal ⊢
          omega
      · rw [if_neg hji, ← hbal]
        by_cases hb : b ∈ sched.pieceMap.pieceRange j
        · have hout : b ∉ span := fun hspan =>
            hji (h.piece_unique hj hi hb (hin b hspan))
          simp [hout]
        · simp [hb]
    length_available := by
      rw [havl, hmap, markComplete_pieceCount, h.length_available]
    available_iff := by
      intro j hj
      rw [hmap, markComplete_pieceCount] at hj
      rw [hmiss, available, havl]
      exact h.available_iff j hj
    availableRangeCount_eq := by
      simp only [hmiss, hmap, markComplete_pieceCount, hrngs]
      exact h.availableRangeCount_eq
    activeLeaseCount_eq := by
      have hsum := sum_range_exchange (f := fun j => (sched.activeSpans j).length)
        (g := fun j => (next.activeSpans j).length) hi
        (fun j hj => by rw [hact, if_neg hj])
      simp only [← h.activeLeaseCount_eq, hlast.length_eq, length_singleton] at hsum
      rw [hact i, if_pos rfl, length_nil] at hsum
      rw [hmap, markComplete_pieceCount]
      omega
    candidate_le := by
      rw [hcand, hmap, markComplete_pieceCount]
      exact h.candidate_le }

omit hi

theorem complete_spec (hkey : sched.leaseRange key = some span) :
    ∃ next, sched.complete key = some (true, next) ∧ next.Conserved (span :: acked) ∧
      next.custody = sched.custody.settle key ∧
      (next.pieceMap = sched.pieceMap ∨ next.pieceMap = sched.pieceMap.markComplete key.pieceId) ∧
      next.stopped = sched.stopped ∧ next.nextLeaseId = sched.nextLeaseId := by
  obtain ⟨hi, _, _, hmem, hin⟩ := h.leaseRange_spec hkey
  obtain ⟨piece, hp, hl⟩ := leaseRange_eq_some.mp hkey
  obtain ⟨_, hbit, hval⟩ := h.runtime _ _ hp
  have hact := activeSpans_of_runtime hp
  have hmiss := missingSpans_of_runtime hp
  obtain ⟨pieceComplete, after, hcomp, hrngs, hperm, hclos, hopen, hlook⟩ :=
    PieceRuntimeState.complete_spec hval hl
  have hlt : 1 ≤ sched.activeLeaseCount := by
    have hle := h.activeLength_le hi
    rw [hact, hperm.length_eq, length_cons] at hle
    omega
  cases pieceComplete with
  | false =>
    obtain ⟨hcons, hsame⟩ := complete_open h hkey hp hrngs hperm (hopen rfl)
    exact ⟨_, by
      simp only [complete, hp, hcomp, checkedSub_eq hlt]
      rfl, hcons, Custody.ext hsame (leaseRange_of_entry hp (by rfl) hlook), Or.inl rfl,
      rfl, rfl⟩
  | true =>
    obtain ⟨hnone, hidle⟩ := hclos rfl
    have hrest : ∀ leaseId : Nat, after.activeLeases[leaseId]? = none := by
      intro leaseId
      cases hf : after.activeLeases[leaseId]? with
      | none => rfl
      | some other =>
        have hmem := mem_activeSpans hf
        simp [hidle] at hmem
    rw [hrngs, ← hmiss] at hnone
    rw [hidle, ← hact] at hperm
    refine ⟨_, by
      simp only [complete, hp, hcomp, checkedSub_eq hlt]
      rfl, ?_, ?_, Or.inr ?_, ?_, ?_⟩
    case refine_1 =>
      exact h.retire hi hnone hperm rfl rfl rfl rfl (Nat.sub_add_cancel hlt) rfl rfl
    case refine_2 =>
      apply Custody.ext
      · exact missing_retire h hi hnone (by rfl) (by rfl)
      · rintro ⟨p, leaseId⟩
        have hlease' := hlook leaseId
        rw [hrest] at hlease'
        rcases key with ⟨keyPiece, keyLease⟩
        simp only [custody, leaseRange, Custody.settle, getElem?_erase_eq,
          Function.update_apply, LeaseKey.mk.injEq] at hp hlease' ⊢
        by_cases hsame : p = keyPiece
        · subst hsame
          by_cases hid : leaseId = keyLease
          · simp [hid]
          · rw [if_neg hid] at hlease'
            rw [if_pos rfl, if_neg (by simp [hid]), hp, bind_some, ← hlease']
            rfl
        · simp [hsame]
    all_goals rfl

omit h

theorem retainPrefix_outside (hkey : sched.leaseRange key = some span) {confirmedEnd : Nat}
    (hout : confirmedEnd ≤ span.start ∨ span.stop ≤ confirmedEnd) :
    sched.retainPrefix key confirmedEnd = (false, sched) := by
  obtain ⟨piece, hp, hl⟩ := leaseRange_eq_some.mp hkey
  simp only [retainPrefix, hp, hl]
  rw [if_pos]
  omega

end SchedulerState

end Bytehaul.Scheduler
