import Bytehaul.Scheduler.Dynamic
import Bytehaul.Scheduler.Frame

/-!
# Fixed-mode requests

The first lease is a missing range or a prefix that leaves enough on both sides; a batch
continues a whole piece with whole untouched pieces.
-/

namespace Bytehaul.Scheduler

open Foundation Storage List Option SchedulerState

namespace SchedulerState

def Cut (range chosen : ByteRange) (minSegmentSize : Nat) : Prop :=
  chosen.start = range.start ∧
    (chosen.stop = range.stop ∨ chosen.stop < range.stop ∧
      minSegmentSize ≤ chosen.stop - chosen.start ∧ minSegmentSize ≤ range.stop - chosen.stop)

private theorem assignmentRangeFor_cut (sched : SchedulerState) (range : ByteRange)
    (maxActiveLeases minSize : Nat) :
    Cut range (sched.assignmentRangeFor range maxActiveLeases minSize) minSize := by
  simp only [assignmentRangeFor]
  repeat' split
  all_goals first
    | exact ⟨rfl, .inl rfl⟩
    | exact ⟨rfl, .inr (by dsimp only; omega)⟩

variable {sched mid next last : SchedulerState} {acked : List Span} {w : Nat}
  {first : Segment}

private theorem candidateRange_missing (h : sched.Conserved acked) {i : Nat}
    (havl : sched.available i = true) {range : ByteRange}
    (hrng : sched.candidateRange i = some range) : range ∈ sched.missingSpans i := by
  have hi := h.lt_of_available havl
  unfold candidateRange at hrng
  unfold missingSpans
  cases hp : sched.pieces[i]? with
  | none =>
    rw [hp] at hrng
    obtain rfl := some.inj hrng
    simp [h.bit_of_available hi havl]
  | some piece =>
    rw [hp] at hrng
    exact mem_of_mem_head? hrng

theorem assignToWithSplit_first (h : sched.Conserved acked) {maxActiveLeases minSize : Nat}
    (hout : sched.assignToWithSplit w maxActiveLeases minSize = some (some first, next)) :
    (∃ range ∈ sched.missingSpans first.pieceId,
      first.span = sched.assignmentRangeFor range maxActiveLeases minSize) ∧
      Frame (first.pieceId = ·) sched next := by
  unfold assignToWithSplit at hout
  split at hout
  · simp at hout
  split at hout
  · simp at hout
  rename_i i hnext
  have havl := nextAvailablePiece_available hnext
  obtain ⟨range, hrng, -, -⟩ := candidateRange_spec h havl
  simp only [hrng] at hout
  obtain ⟨⟨seg, after⟩, hiss, hout⟩ := bind_eq_some_iff.mp hout
  cases seg with
  | none => simp at hout
  | some seg =>
    obtain ⟨hfst, rfl⟩ := Prod.mk.inj (some.inj hout)
    obtain rfl := some.inj hfst
    have hframe : Frame (i = ·) sched after := issueLease_frame rfl hiss
    obtain ⟨missing, -, rfl, -⟩ := issueLease_segment hiss
    exact ⟨⟨range, candidateRange_missing h havl hrng, rfl⟩,
      hframe.pieces, hframe.flags, hframe.snapshotSeq⟩

theorem Lends.untouched_before {segs : List Segment} (hlnd : Lends sched next segs)
    (h : sched.Conserved acked) (hnext : next.Conserved acked) {i : Nat}
    (hps : next.pieces[i]? = sched.pieces[i]?) (hi : next.isUntouchedPiece i = true) :
    sched.isUntouchedPiece i = true := by
  obtain ⟨havl, hnone⟩ := (hnext.isUntouchedPiece_iff i).mp hi
  have hc := hnext.lt_of_available havl
  obtain ⟨b, hb, hmiss⟩ := (hnext.available_iff_missing hc).mp havl
  rw [hlnd.pieceMap] at hb hc
  refine (h.isUntouchedPiece_iff i).mpr ⟨?_, hps.symm.trans hnone⟩
  exact (h.available_iff_missing hc).mpr ⟨b, hb, ((hlnd.missing b).mp hmiss).1⟩

/--
Leases issued one after the other.  After each of them `reserved` ranges are missing.
-/
inductive IssuedLeaving (reserved : Nat) :
    SchedulerState → List Segment → SchedulerState → Prop
  | done (sched : SchedulerState) : IssuedLeaving reserved sched [] sched
  | issue {sched mid last : SchedulerState} {segment : Segment} {rest : List Segment}
      {candidate : Nat}
      (hissue : sched.issueLease segment.pieceId segment.span segment.ownerWorkerId =
        some (some segment, mid))
      (hleft : reserved ≤ mid.availableRangeCount)
      (hcount : mid.availableRangeCount =
        ∑ i ∈ Finset.range mid.pieceMap.pieceCount, (mid.missingSpans i).length)
      (hrest : IssuedLeaving reserved { mid with nextCandidate := candidate } rest last) :
      IssuedLeaving reserved sched (segment :: rest) last

private theorem issueLease_untouched_count {i : Nat} {range : ByteRange} {seg : Segment}
    (hunt : sched.pieces[i]? = none)
    (hiss : sched.issueLease i range w = some (some seg, mid)) :
    sched.availableRangeCount ≤ mid.availableRangeCount + 1 := by
  obtain ⟨missing, -, -, rfl⟩ := issueLease_segment hiss
  have hone : (sched.runtimePiece i).missingRangeCount ≤ 1 := by
    rw [runtimePiece, hunt]
    exact length_toList_le
  simp only [leased]
  omega

/-- What the loop of `extend_batch_with_occupied` checks before each lease it issues. -/
inductive Extends (first : Segment) (workerId reserved byteCap : Nat) :
    Nat → Nat → Nat → SchedulerState → List Segment → SchedulerState → Prop
  | done (pieceId requestEnd leases : Nat) (sched : SchedulerState) :
      Extends first workerId reserved byteCap pieceId requestEnd leases sched [] sched
  | lease {pieceId requestEnd leases : Nat} {sched mid last : SchedulerState}
      {segment : Segment} {rest : List Segment}
      (hleases : leases < maxRequestLeases) (hpeers : reserved < sched.availableRangeCount)
      (havailable : sched.available pieceId = true)
      (huntouched : sched.pieces[pieceId]? = none)
      (hstart : (sched.pieceMap.pieceRange pieceId).start = requestEnd)
      (hbytes : (sched.pieceMap.pieceRange pieceId).stop - first.start ≤ byteCap)
      (hissue : sched.issueLease pieceId (sched.pieceMap.pieceRange pieceId) workerId =
        some (some segment, mid))
      (hrest : Extends first workerId reserved byteCap (pieceId + 1)
        (sched.pieceMap.pieceRange pieceId).stop (leases + 1)
        { mid with nextCandidate := (pieceId + 1) % mid.pieceMap.pieceCount } rest last) :
      Extends first workerId reserved byteCap pieceId requestEnd leases sched (segment :: rest) last

theorem extendBatchLoop_extends {reserved byteCap : Nat} (count : Nat) :
    ∀ {p requestEnd : Nat} {additional out : List Segment} {reason : TruncationReason}
      {sched last : SchedulerState}, sched.Conserved acked → sched.stopped = false →
      extendBatchLoop first w reserved byteCap (List.range' p count) additional
        requestEnd sched = some (out, reason, last) →
      ∃ added, out = additional ++ added ∧ Extends first w reserved byteCap p
        requestEnd (additional.length + 1) sched added last := by
  induction count with
  | zero =>
    intro p requestEnd additional out reason sched last _ _ hout
    obtain ⟨rfl, -, rfl⟩ := by simpa [extendBatchLoop] using hout
    exact ⟨[], by simp, .done _ _ _ _⟩
  | succ count ih =>
    intro p requestEnd additional out reason sched last h hlive hout
    rw [range'_succ] at hout
    unfold extendBatchLoop at hout
    split at hout
    · obtain ⟨rfl, -, rfl⟩ := by simpa using hout
      exact ⟨[], by simp, .done _ _ _ _⟩
    split at hout
    · obtain ⟨rfl, -, rfl⟩ := by simpa using hout
      exact ⟨[], by simp, .done _ _ _ _⟩
    split at hout
    · obtain ⟨rfl, -, rfl⟩ := by simpa using hout
      exact ⟨[], by simp, .done _ _ _ _⟩
    rename_i hunt
    dsimp only at hout
    split at hout
    · obtain ⟨rfl, -, rfl⟩ := by simpa using hout
      exact ⟨[], by simp, .done _ _ _ _⟩
    simp only [Bool.or_eq_true, Bool.not_eq_eq_eq_not, Bool.not_true, not_or,
      Bool.not_eq_false, Bool.not_eq_true] at hunt
    obtain ⟨havl, hcontains⟩ := hunt
    have hps : sched.pieces[p]? = none := by
      rwa [Std.TreeMap.contains_eq_isSome_getElem?, isSome_eq_false_iff,
        isNone_iff_eq_none] at hcontains
    have hi := h.lt_of_available havl
    obtain ⟨⟨seg, mid⟩, hiss, hmid, href, hgrd⟩ :=
      issueLease_spec h hi (h.bit_of_available hi havl) (h.map.pieceRange_nonempty hi)
        (fun b hb => hb) w
    simp only [hiss, bind_eq_bind, bind_some] at hout
    cases seg with
    | none =>
      rcases (href rfl).reason with hstpd | ⟨b, hb, hnot⟩
      · simp [hlive] at hstpd
      · exact absurd (h.untouched_missing havl hps b hb) hnot
    | some seg =>
      have hlnd := (hgrd seg rfl).lends
      have hle : (p + 1) % mid.pieceMap.pieceCount ≤ mid.pieceMap.pieceCount := by
        rw [hlnd.pieceMap]
        exact Nat.le_of_lt (Nat.mod_lt _ (by omega))
      obtain ⟨added, rfl, hadded⟩ := ih (hmid.withCandidate hle) (hlnd.stopped.trans hlive) hout
      refine ⟨seg :: added, by simp, .lease (by omega) (by omega) havl hps
        (by omega) (by omega) hiss ?_⟩
      simpa using hadded

structure Additional (sched : SchedulerState) (first : Segment)
    (byteCap pieceId requestEnd leases : Nat) (segments : List Segment) : Prop where
  pieces : segments.map Segment.pieceId = List.range' pieceId segments.length
  whole : ∀ segment ∈ segments, segment.span = sched.pieceMap.pieceRange segment.pieceId
  untouched : ∀ segment ∈ segments, sched.isUntouchedPiece segment.pieceId = true
  leases : segments ≠ [] → leases + segments.length ≤ maxRequestLeases
  bytes : segments ≠ [] → requestEnd +
    (segments.map fun segment => segment.stop - segment.start).sum ≤ first.start + byteCap

theorem Extends.additional {reserved byteCap : Nat} {pieceId requestEnd leases : Nat}
    {segments : List Segment}
    (hext : Extends first w reserved byteCap pieceId requestEnd leases sched segments
      last) (h : sched.Conserved acked) :
    Additional sched first byteCap pieceId requestEnd leases segments ∧
      IssuedLeaving reserved sched segments last := by
  induction hext with
  | done pieceId requestEnd leases sched =>
    exact ⟨⟨rfl, by simp, by simp, by simp, by simp⟩, .done sched⟩
  | @lease pieceId requestEnd leases sched mid last segment rest hls hpeers
      havl hunt hstart hbyt hiss _ ih =>
      have hi := h.lt_of_available havl
      have hpos := h.map.pieceRange_nonempty hi
      obtain ⟨out, hissue', hmid, -, hgrd⟩ :=
        issueLease_spec h hi (h.bit_of_available hi havl) hpos (fun b hb => hb) w
      obtain rfl := some.inj (hiss.symm.trans hissue')
      have hgrant := hgrd segment rfl
      have hlnd := hgrant.lends
      have hle : (pieceId + 1) % mid.pieceMap.pieceCount ≤ mid.pieceMap.pieceCount := by
        rw [hlnd.pieceMap]
        exact Nat.le_of_lt (Nat.mod_lt _ (by omega))
      have hspan : segment.span = sched.pieceMap.pieceRange pieceId := hgrant.span
      obtain ⟨hrest, hissd⟩ := ih (hmid.withCandidate hle)
      have hframe : Frame (pieceId = ·) sched mid := issueLease_frame rfl hiss
      constructor
      · refine ⟨?_, ?_, ?_, ?_, ?_⟩
        · rw [map_cons, length_cons, range'_succ, hgrant.pieceId, hrest.pieces]
        · refine forall_mem_cons.mpr ⟨hgrant.pieceId ▸ hspan, fun other ho => ?_⟩
          rw [hrest.whole other ho, ← hlnd.pieceMap]
        · refine forall_mem_cons.mpr ⟨?_, fun other ho => ?_⟩
          · rw [hgrant.pieceId]
            exact (h.isUntouchedPiece_iff pieceId).mpr ⟨havl, hunt⟩
          · have hmem := mem_map_of_mem (f := Segment.pieceId) ho
            rw [hrest.pieces, mem_range'_1] at hmem
            exact hlnd.untouched_before h hmid (hframe.pieces _ (by omega))
              (hrest.untouched other ho)
        · intro _
          cases rest with
          | nil => exact hls
          | cons other others =>
            have := hrest.leases (by simp)
            simp only [length_cons] at this ⊢
            omega
        · have hstart' : segment.start = requestEnd := (congrArg Span.start hspan).trans hstart
          have hstop : segment.stop = (sched.pieceMap.pieceRange pieceId).stop :=
            congrArg Span.stop hspan
          rw [map_cons, sum_cons]
          cases rest with
          | nil =>
            simp only [map_nil, sum_nil]
            omega
          | cons other others =>
            have := hrest.bytes (by simp)
            omega
      · refine .issue ?_ ?_ ?_ hissd
        · rw [hgrant.pieceId, hspan, hgrant.owner]
          exact hiss
        · have := issueLease_untouched_count hunt hiss
          omega
        · exact hmid.availableRangeCount_eq

theorem fixedBatch_additional (h : sched.Conserved acked) (hlive : sched.stopped = false)
    {maxRequests occupied requestBatchSize : Nat} {additional : List Segment}
    {reason : TruncationReason}
    (hout : sched.fixedBatch first w maxRequests occupied requestBatchSize =
      some (additional, reason, last)) :
    (additional ≠ [] → first.span = sched.pieceMap.pieceRange first.pieceId ∧ first.attempt = 1) ∧
    Additional sched first requestBatchSize (first.pieceId + 1) first.stop 1 additional ∧
    IssuedLeaving (maxRequests - occupied - 1) sched additional last := by
  have hnoth : Additional sched first requestBatchSize (first.pieceId + 1) first.stop 1 [] :=
    ⟨rfl, by simp, by simp, by simp, by simp⟩
  have hpeers : maxRequests - occupied - 1 = maxRequests - (occupied + 1) := by omega
  unfold fixedBatch at hout
  split at hout
  · rename_i hatt
    unfold extendBatchWithOccupied at hout
    split at hout
    · obtain ⟨rfl, -, rfl⟩ := by simpa using hout
      exact ⟨by simp, hnoth, .done _⟩
    split at hout
    · obtain ⟨rfl, -, rfl⟩ := by simpa using hout
      exact ⟨by simp, hnoth, .done _⟩
    dsimp only at hout
    split at hout
    · obtain ⟨rfl, -, rfl⟩ := by simpa using hout
      exact ⟨by simp, hnoth, .done _⟩
    rename_i hwh
    split at hout
    · obtain ⟨rfl, -, rfl⟩ := by simpa using hout
      exact ⟨by simp, hnoth, .done _⟩
    obtain ⟨added, rfl, hext⟩ := extendBatchLoop_extends _ h hlive hout
    refine ⟨fun _ => ⟨?_, by simpa using hatt⟩, hext.additional h⟩
    by_contra hpart
    exact hwh (.inr (.inl hpart))
  · obtain ⟨rfl, -, rfl⟩ := by simpa using hout
    exact ⟨by simp, hnoth, .done _⟩

private theorem assignFixedRequest_cases
    {maxRequests minSize occupied requestBatchSize slots : Nat} {collect : Bool}
    {asg : RequestAssignment}
    (hout : sched.assignFixedRequest w maxRequests minSize occupied
      requestBatchSize slots collect = some (some asg, last)) :
    ∃ first mid additional reason,
      sched.assignToWithSplit w (sched.activeLeaseCount + slots) minSize = some (some first, mid) ∧
      mid.fixedBatch first w maxRequests occupied requestBatchSize =
        some (additional, reason, last) ∧
      asg.segments = first :: additional := by
  obtain ⟨⟨first, mid⟩, hfst, hout⟩ := bind_eq_some_iff.mp hout
  cases first with
  | none => simp at hout
  | some first =>
    obtain ⟨⟨additional, reason, after⟩, hbatch, hout⟩ := bind_eq_some_iff.mp hout
    obtain ⟨hasgt, rfl⟩ := Prod.mk.inj (some.inj hout)
    obtain rfl := some.inj hasgt
    exact ⟨first, mid, additional, reason, hfst, hbatch, rfl⟩

private theorem assignTo_first (h : sched.Conserved acked)
    (hout : sched.assignTo w = some (some first, next)) :
    first.span ∈ sched.missingSpans first.pieceId := by
  obtain ⟨⟨range, hrng, hspan⟩, -⟩ := assignToWithSplit_first h hout
  rw [hspan, assignmentRangeFor, if_pos (.inl (Nat.le_refl 1))]
  exact hrng

end SchedulerState

namespace History

/-- A fixed-mode request starts with a missing range or a prefix that leaves enough on both sides;
further leases are whole pieces, and leave a missing range for every other request slot. -/
theorem fixed_request_leaves_work {map : PieceMap} (horigin : Origin map) {calls : List Call}
    {last : History} (hrun : (History.start map).run calls = some last)
    (hrunning : last.sched.stopped = false) (workerId : Nat) {params : SchedulerState.RequestParams}
    (hmode : params.mode = .fixed) (hslots : params.occupiedRequests < params.maxRequests) :
    last.sched.availableRangeCount =
      ∑ i ∈ Finset.range last.sched.pieceMap.pieceCount, (last.sched.missingSpans i).length ∧
    ∃ out, last.sched.assignRequestWithTrace workerId params = some out ∧
      (last.sched.availableRangeCount ≠ 0 → out.1 ≠ none) ∧
      ∀ assignment, out.1 = some assignment →
        ∃ first additional, assignment.segments = first :: additional ∧
          (∃ range ∈ last.sched.missingSpans first.pieceId,
            SchedulerState.Cut range first.span params.minSegmentSize) ∧
          (additional ≠ [] →
            first.span = last.sched.pieceMap.pieceRange first.pieceId ∧ first.attempt = 1) ∧
          (∀ segment ∈ additional, segment.span = last.sched.pieceMap.pieceRange segment.pieceId ∧
            last.sched.isUntouchedPiece segment.pieceId = true) ∧
          assignment.segments.map Segment.pieceId =
            List.range' first.pieceId assignment.segments.length ∧
          assignment.segments.length ≤ maxRequestLeases ∧
          (additional ≠ [] →
            (assignment.segments.map fun segment => segment.stop - segment.start).sum ≤
              params.requestBatchSize) ∧
          ∃ maxActiveLeases minSegmentSize mid,
            last.sched.assignToWithSplit workerId maxActiveLeases minSegmentSize =
              some (some first, mid) ∧
            SchedulerState.IssuedLeaving (params.maxRequests - params.occupiedRequests - 1) mid
              additional out.2 := by
  obtain ⟨last', hrun', h⟩ := run_conserved calls _ (start_conserved horigin.valid)
  obtain rfl := Option.some.inj (hrun'.symm.trans hrun)
  obtain ⟨out, hout, -, hprog⟩ := assignRequestWithTrace_spec h workerId params
  refine ⟨h.availableRangeCount_eq, out, hout, fun hc => hprog ?_ hslots,
    fun assignment hasgt => ?_⟩
  · simp [hasAvailable, hrunning, hc]
  obtain ⟨result, next⟩ := out
  simp only at hasgt
  subst hasgt
  unfold assignRequestWithTrace at hout
  dsimp only at hout
  split at hout
  · simp at hout
  split at hout
  · obtain ⟨⟨segment, after⟩, hasg, hout⟩ := bind_eq_some_iff.mp hout
    obtain ⟨hasgt, rfl⟩ := Prod.mk.inj (some.inj hout)
    obtain ⟨first, rfl, rfl⟩ := map_eq_some_iff.mp hasgt
    exact ⟨first, [], rfl, ⟨first.span, assignTo_first h hasg, rfl, .inl rfl⟩,
      by simp, by simp, rfl, by simp [RequestAssignment.single, maxRequestLeases], by simp,
      1, 2 ^ 64 - 1, after, hasg, .done _⟩
  · rw [hmode] at hout
    obtain ⟨first, mid, additional, reason, hfst, hbatch, hsegs⟩ := assignFixedRequest_cases hout
    obtain ⟨⟨range, hrng, hspan⟩, hframe⟩ := assignToWithSplit_first h hfst
    obtain ⟨out', hout', hasgd, -, -⟩ := assignToWithSplit_spec h workerId
      (last'.sched.activeLeaseCount + (params.maxRequests - params.occupiedRequests))
      params.minSegmentSize
    obtain rfl := some.inj (hfst.symm.trans hout')
    have hlnd := (hasgd.granted first rfl).1
    obtain ⟨hstart, hadditional, hissd⟩ := fixedBatch_additional
      hasgd.conserved (hlnd.stopped.trans hrunning) hbatch
    have hmap : mid.pieceMap = last'.sched.pieceMap := hlnd.pieceMap
    rw [hmap] at hstart
    refine ⟨first, additional, hsegs, ⟨range, hrng, hspan ▸
      last'.sched.assignmentRangeFor_cut range _ params.minSegmentSize⟩, hstart, ?_, ?_, ?_, ?_,
      _, _, mid, hfst, hissd⟩
    · intro segment hseg
      have hmem := mem_map_of_mem (f := Segment.pieceId) hseg
      rw [hadditional.pieces, mem_range'_1] at hmem
      exact ⟨hmap ▸ hadditional.whole segment hseg,
        hlnd.untouched_before h hasgd.conserved (hframe.pieces _ (by omega))
          (hadditional.untouched segment hseg)⟩
    · rw [hsegs, map_cons, length_cons, range'_succ, hadditional.pieces]
    · rw [hsegs, length_cons]
      by_cases hnone : additional = []
      · simp [hnone, maxRequestLeases]
      · have := hadditional.leases hnone
        omega
    · intro hsome
      have hbyt := hadditional.bytes hsome
      have hpos : first.start < first.stop := (hlnd.segment first (by simp)).2.1
      rw [hsegs, map_cons, sum_cons]
      omega

theorem four_pieces_for_one_worker : ∃ assignment next,
      (History.start (PieceMap.new 40 4)).sched.assignRequestWithTrace 0
        ⟨3, 1, 0, .fixed, 16, 4, 100, true, false, false⟩ = some (some assignment, next) ∧
      assignment.segments.map Segment.pieceId = [0, 1, 2, 3] ∧
      (assignment.segments.map fun segment => segment.stop - segment.start).sum ≤ 16 ∧
      assignment.segments.length ≤ maxRequestLeases := by
  have hrun : (History.start (PieceMap.new 40 4)).run [] =
      some (History.start (PieceMap.new 40 4)) := rfl
  obtain ⟨-, ⟨result, next⟩, hout, hsome, hshape⟩ := fixed_request_leaves_work
    (Origin.fresh (by decide)) hrun rfl 0
    (show (SchedulerState.RequestParams.mk 3 1 0 .fixed 16 4 100 true false false).mode = .fixed
      from rfl) (by decide)
  obtain ⟨assignment, rfl⟩ := ne_none_iff_exists'.mp (hsome (by decide))
  obtain ⟨first, additional, hsegs, -, -, -, -, hls, hbyt, -⟩ := hshape assignment rfl
  have hps : ((History.start (PieceMap.new 40 4)).sched.assignRequestWithTrace 0
      ⟨3, 1, 0, .fixed, 16, 4, 100, true, false, false⟩).map (fun out =>
        out.1.map fun assignment => assignment.segments.map Segment.pieceId) =
          some (some [0, 1, 2, 3]) := by decide
  rw [hout] at hps
  have hps : assignment.segments.map Segment.pieceId = [0, 1, 2, 3] := some.inj (some.inj hps)
  refine ⟨assignment, next, hout, hps, hbyt ?_, hls⟩
  rintro rfl
  simp [hsegs] at hps

end History

end Bytehaul.Scheduler
