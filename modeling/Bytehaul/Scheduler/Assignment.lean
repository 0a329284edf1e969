import Bytehaul.Foundation.Scan
import Bytehaul.Scheduler.Leases

/-!
# Every assignment path lends

Whatever path a request takes, it lends missing segments out under fresh keys and changes
nothing else.
-/

namespace Bytehaul.Scheduler

open Foundation List Storage Std

namespace SchedulerState

variable {sched base : SchedulerState} {acked : List Span} {i : Nat}
  {candidate : AllocationCandidate} {before : List Segment} {pieces : List (Nat × ByteRange)}
  {shares : Shares} {candidates : List AllocationCandidate}

/-- The outcome of an assignment that reports its leases through `segmentsOf`. -/
structure Assigned {α : Type} (sched : SchedulerState) (acked : List Span)
    (segmentsOf : α → List Segment) (out : Option α × SchedulerState) : Prop where
  conserved : out.2.Conserved acked
  refused : out.1 = none → Lends sched out.2 []
  granted : ∀ a, out.1 = some a →
    Lends sched out.2 (segmentsOf a) ∧ segmentsOf a ≠ [] ∧ Batch (segmentsOf a)

variable (h : sched.Conserved acked) {α : Type}
include h

theorem Assigned.unchanged {segmentsOf : α → List Segment} :
    Assigned sched acked segmentsOf (none, sched) :=
  ⟨h, fun _ => Lends.refl sched, by simp⟩

theorem Assigned.grant {segmentsOf : α → List Segment} {a : α}
    (hlnd : Lends base sched (segmentsOf a)) (hne : segmentsOf a ≠ [])
    (hbatch : Batch (segmentsOf a)) : Assigned base acked segmentsOf (some a, sched) :=
  ⟨h, by simp, fun _ heq => Option.some.inj heq ▸ ⟨hlnd, hne, hbatch⟩⟩

/-! ## Available pieces -/

theorem Conserved.bit_of_available (hi : i < sched.pieceMap.pieceCount)
    (havailable : sched.available i = true) : sched.pieceMap.bit i = false := by
  have hmiss := (h.available_iff i hi).mp havailable
  unfold missingSpans at hmiss
  cases hp : sched.pieces[i]? with
  | some piece => exact (h.runtime i piece hp).2.1
  | none =>
    rw [hp] at hmiss
    simpa using hmiss

variable (havailable : sched.available i = true) {workerId : Nat} {segments : List Segment}
include havailable

theorem Conserved.lt_of_available : i < sched.pieceMap.pieceCount := by
  by_contra hge
  rw [← h.length_available] at hge
  rw [available, getD_eq_getElem?_getD, getElem?_eq_none (Nat.le_of_not_lt hge)] at havailable
  simp at havailable

theorem Conserved.untouched_missing (hunt : sched.pieces[i]? = none) :
    ∀ b ∈ sched.pieceMap.pieceRange i, b ∈ sched.custody.missing := by
  have hi := h.lt_of_available havailable
  intro b hb
  rw [h.missing_iff hi hb]
  simp only [missingSpans, hunt, h.bit_of_available hi havailable]
  exact hits_pos_of_mem (mem_singleton.mpr rfl) hb

omit h in
omit havailable in
theorem nextAvailablePiece_available (hnext : sched.nextAvailablePiece = some i) :
    sched.available i = true := by
  simp only [nextAvailablePiece, Option.or_eq_some_iff, Option.map_eq_some_iff,
    Option.map_eq_none_iff] at hnext
  rcases hnext with ⟨offset, hoff, rfl⟩ | ⟨_, hbef⟩
  · exact (findIdx?_drop_some hoff).2.1
  · rw [findIdx?_eq_some_iff_getElem] at hbef
    obtain ⟨hlt, hbit, _⟩ := hbef
    rw [getElem_take] at hbit
    rw [length_take] at hlt
    simp only [available, getD_eq_getElem?_getD]
    rw [getElem?_eq_getElem (by omega)]
    exact hbit

omit h in
private theorem nextAvailablePiece_isSome : sched.nextAvailablePiece ≠ none := by
  intro hnone
  simp only [nextAvailablePiece, Option.or_eq_none_iff, Option.map_eq_none_iff,
    findIdx?_eq_none_iff] at hnone
  have hmem : true ∈ sched.availablePieces := by
    simp only [available, getD_eq_getElem?_getD] at havailable
    cases hget : sched.availablePieces[i]? with
    | none => simp [hget] at havailable
    | some bit =>
      rw [hget] at havailable
      rw [← havailable]
      exact mem_of_getElem? hget
  rw [← take_append_drop sched.nextCandidate sched.availablePieces, mem_append] at hmem
  rcases hmem with hmem | hmem
  · simpa using hnone.2 true hmem
  · simpa using hnone.1 true hmem

theorem Conserved.availableRangeCount_ne_zero : sched.availableRangeCount ≠ 0 := by
  have hi := h.lt_of_available havailable
  have hlen := h.missingLength_le hi
  have hpos := length_pos_iff.mpr ((h.available_iff i hi).mp havailable)
  omega

omit havailable

theorem Conserved.exists_available (hc : sched.availableRangeCount ≠ 0) :
    ∃ i, sched.available i = true := by
  rw [h.availableRangeCount_eq] at hc
  obtain ⟨i, hi, hpos⟩ := exists_pos_of_sum_range_pos (Nat.pos_of_ne_zero hc)
  exact ⟨i, (h.available_iff i hi).mpr (ne_nil_of_length_pos hpos)⟩

/-! ## The single-lease path -/

omit h in
private theorem assignmentRangeFor_spec (sched : SchedulerState) {range : ByteRange}
    (hrng : range.start < range.stop) (maxActiveLeases minSize : Nat) :
    let chosen := sched.assignmentRangeFor range maxActiveLeases minSize
    chosen.start = range.start ∧ chosen.start < chosen.stop ∧ chosen.stop ≤ range.stop := by
  simp only [assignmentRangeFor]
  repeat' split
  all_goals first
    | exact ⟨rfl, hrng, Nat.le_refl _⟩
    | (simp only [true_and]; omega)

theorem candidateRange_spec (havailable : sched.available i = true) :
    ∃ range, sched.candidateRange i = some range ∧ range.start < range.stop ∧
      ∀ b ∈ range, b ∈ sched.custody.missing ∧ b ∈ sched.pieceMap.pieceRange i := by
  have hi := h.lt_of_available havailable
  have hmiss := (h.available_iff i hi).mp havailable
  unfold candidateRange
  cases hp : sched.pieces[i]? with
  | none =>
    refine ⟨_, rfl, h.map.pieceRange_nonempty hi, fun b hb => ⟨?_, hb⟩⟩
    exact h.untouched_missing havailable hp b hb
  | some piece =>
    rw [missingSpans_of_runtime hp] at hmiss
    obtain ⟨range, rest, hrngs⟩ := exists_cons_of_ne_nil hmiss
    refine ⟨range, by simp [PieceRuntimeState.nextAssignableRange, RangeSet.first, hrngs],
      (h.runtime i piece hp).2.2.normal.nonempty range (by simp [hrngs]), ?_⟩
    intro b hb
    have hpos : 0 < hits (sched.missingSpans i) b := by
      rw [missingSpans_of_runtime hp]
      exact hits_pos_of_mem (by simp [hrngs]) hb
    exact ⟨⟨i, hi, hpos⟩, h.mem_piece_of_missing hi hpos⟩

theorem assignToWithSplit_spec (workerId maxActiveLeases minSize : Nat) :
    ∃ out, sched.assignToWithSplit workerId maxActiveLeases minSize = some out ∧
      Assigned sched acked (fun seg => [seg]) out ∧
      (sched.hasAvailable = true → out.1 ≠ none) ∧
      ∀ seg, out.1 = some seg → seg.ownerWorkerId = workerId := by
  unfold assignToWithSplit
  split
  · rename_i hc
    exact ⟨_, rfl, Assigned.unchanged h, by simp [hasAvailable, hc], by simp⟩
  rename_i hc
  obtain ⟨j, hj⟩ := h.exists_available hc
  cases hnext : sched.nextAvailablePiece with
  | none => exact absurd hnext (nextAvailablePiece_isSome hj)
  | some i =>
    have havailable := nextAvailablePiece_available hnext
    have hi := h.lt_of_available havailable
    obtain ⟨range, hcand, hpos, hbyt⟩ := candidateRange_spec h havailable
    obtain ⟨hstart, hnemp, hstop⟩ := assignmentRangeFor_spec sched hpos maxActiveLeases minSize
    have hsub : ∀ b ∈ sched.assignmentRangeFor range maxActiveLeases minSize, b ∈ range := by
      intro b hb
      simp only [Span.mem_iff] at hb ⊢
      omega
    obtain ⟨out, hiss, hcons, href, hgrd⟩ :=
      issueLease_spec h hi (h.bit_of_available hi havailable) hnemp
        (fun b hb => (hbyt b (hsub b hb)).2) workerId
    obtain ⟨seg, next⟩ := out
    simp only [hcand, hiss]
    cases seg with
    | none =>
      refine ⟨_, rfl, ⟨hcons, fun _ => (href rfl).lends, by simp⟩, ?_, by simp⟩
      intro hlive
      rcases (href rfl).reason with hstpd | ⟨b, hb, hnot⟩
      · simp [hasAvailable, hstpd] at hlive
      · exact absurd (hbyt b (hsub b hb)).1 hnot
    | some seg =>
      have hgrant := hgrd seg rfl
      have hle : (i + 1) % next.pieceMap.pieceCount ≤ next.pieceMap.pieceCount := by
        rw [hgrant.lends.pieceMap]
        exact Nat.le_of_lt (Nat.mod_lt _ (by omega))
      refine ⟨_, rfl, .grant (hcons.withCandidate hle) (hgrant.lends.withCandidate _) (by simp)
        (.singleton _), by simp, ?_⟩
      rintro _ ⟨⟩
      exact hgrant.owner

/-! ## Fixed-mode batches -/

def EndsBefore (segments : List Segment) (pieceId requestEnd : Nat) : Prop :=
  ∃ last, segments.getLast? = some last ∧ last.pieceId + 1 = pieceId ∧ last.stop = requestEnd

omit h in
theorem extendBatchLoop_spec {first : Segment} {reservedForPeers byteCap : Nat} {count : Nat} :
    ∀ (pieceId : Nat) (additional : List Segment) (requestEnd : Nat) (sched : SchedulerState),
      sched.Conserved acked → Lends base sched (before ++ additional) →
      Batch (first :: additional) → EndsBefore (first :: additional) pieceId requestEnd →
      ∃ out, extendBatchLoop first workerId reservedForPeers byteCap
          (range' pieceId count) additional requestEnd sched = some out ∧
        out.2.2.Conserved acked ∧ Lends base out.2.2 (before ++ out.1) ∧
        Batch (first :: out.1) := by
  induction count with
  | zero =>
    intro pieceId additional requestEnd sched h hlnd hbatch _
    exact ⟨_, rfl, h, hlnd, hbatch⟩
  | succ count ih =>
    intro pieceId additional requestEnd sched h hlnd hbatch hends
    rw [range'_succ]
    unfold extendBatchLoop
    split
    · exact ⟨_, rfl, h, hlnd, hbatch⟩
    split
    · exact ⟨_, rfl, h, hlnd, hbatch⟩
    split
    · exact ⟨_, rfl, h, hlnd, hbatch⟩
    rename_i hunt
    dsimp only
    split
    · exact ⟨_, rfl, h, hlnd, hbatch⟩
    simp only [Bool.or_eq_true, Bool.not_eq_eq_eq_not, Bool.not_true, not_or,
      Bool.not_eq_false] at hunt
    have hi := h.lt_of_available hunt.1
    obtain ⟨⟨segment, next⟩, hiss, hcons, href, hgrd⟩ :=
      issueLease_spec h hi (h.bit_of_available hi hunt.1)
        (h.map.pieceRange_nonempty hi) (fun b hb => hb) workerId
    simp only [hiss]
    cases segment with
    | none =>
      refine ⟨_, rfl, hcons, ?_, hbatch⟩
      simpa using hlnd.trans (href rfl).lends
    | some segment =>
      have hgrant := hgrd segment rfl
      have hle : (pieceId + 1) % next.pieceMap.pieceCount ≤ next.pieceMap.pieceCount := by
        rw [hgrant.lends.pieceMap]
        exact Nat.le_of_lt (Nat.mod_lt _ (by omega))
      obtain ⟨last, hlast, hp, hstop⟩ := hends
      have hspan : segment.span = sched.pieceMap.pieceRange pieceId := hgrant.span
      have hfol : last.Follows segment := by
        refine ⟨hp.trans hgrant.pieceId.symm, ?_⟩
        have hstart : segment.start = (sched.pieceMap.pieceRange pieceId).start :=
          congrArg Span.start hspan
        omega
      apply ih (pieceId + 1) (additional ++ [segment]) _ _ (hcons.withCandidate hle)
      · simpa using (hlnd.trans hgrant.lends).withCandidate _
      · exact hbatch.snoc hlast hfol
      · refine ⟨segment, by simp [getLast?_cons], by rw [hgrant.pieceId], ?_⟩
        exact congrArg Span.stop hspan

theorem extendBatchWithOccupied_spec (hlnd : Lends base sched before)
    (first : Segment) (workerId maxConnections occupied byteCap : Nat) :
    ∃ out, sched.extendBatchWithOccupied first workerId maxConnections occupied
        byteCap = some out ∧ out.2.2.Conserved acked ∧
      Lends base out.2.2 (before ++ out.1) ∧ Batch (first :: out.1) := by
  have hnil : Lends base sched (before ++ []) := by simpa using hlnd
  unfold extendBatchWithOccupied
  dsimp only
  repeat' split
  all_goals first
    | exact ⟨_, rfl, h, hnil, .singleton first⟩
    | exact extendBatchLoop_spec _ _ _ _ h hnil (.singleton first) ⟨first, rfl, rfl, rfl⟩

private theorem fixedBatch_spec (hlnd : Lends base sched before)
    (first : Segment) (workerId maxRequests occupied requestBatchSize : Nat) :
    ∃ out, sched.fixedBatch first workerId maxRequests occupied
        requestBatchSize = some out ∧ out.2.2.Conserved acked ∧
      Lends base out.2.2 (before ++ out.1) ∧ Batch (first :: out.1) := by
  unfold fixedBatch
  split
  · exact extendBatchWithOccupied_spec h hlnd _ _ _ _ _
  · exact ⟨_, rfl, h, by simpa using hlnd, .singleton first⟩

theorem assignFixedRequest_spec (workerId maxRequests minSize occupied
      requestBatchSize slots : Nat) (collectDiagnostics : Bool) :
    ∃ out, sched.assignFixedRequest workerId maxRequests minSize occupied
        requestBatchSize slots collectDiagnostics = some out ∧
      Assigned sched acked RequestAssignment.segments out ∧
      (sched.hasAvailable = true → out.1 ≠ none) := by
  unfold assignFixedRequest
  obtain ⟨⟨seg, next⟩, hasg, hasgd, hprog, _⟩ :=
    assignToWithSplit_spec h workerId (sched.activeLeaseCount + slots) minSize
  simp only [hasg]
  cases seg with
  | none =>
    refine ⟨_, rfl, ⟨hasgd.conserved, fun _ => hasgd.refused rfl, by simp⟩, ?_⟩
    exact fun hlive => absurd rfl (hprog hlive)
  | some first =>
    have hfst := (hasgd.granted first rfl).1
    obtain ⟨⟨additional, reason, after⟩, hbatch, hcons, hlnd, hchain⟩ :=
      fixedBatch_spec hasgd.conserved hfst first workerId maxRequests occupied requestBatchSize
    simp only [Option.bind_eq_bind, Option.bind_some, hbatch]
    exact ⟨_, rfl, .grant hcons hlnd (by simp) hchain, by simp⟩

/-! ## Issuing a list of ranges -/

theorem Lends.undo {last : Segment} (hlnd : Lends base sched (segments ++ [last])) :
    ∃ next, sched.reclaim last.leaseKey = some (true, next) ∧ next.Conserved acked ∧
      Lends base next segments := by
  have hmem : last ∈ segments ++ [last] := by simp
  obtain ⟨next, hrecl, hcons, hcust, hmap, hstpd, hid⟩ := reclaim_spec h (hlnd.held_new last hmem)
  have hheld : ∀ key, next.leaseRange key =
      if key = last.leaseKey then none else sched.leaseRange key := by
    intro key
    have := congrArg (fun custody => custody.held key) hcust
    simpa [custody, Custody.reclaim, Function.update_apply] using this
  have hapart := pairwise_append.mp hlnd.apart
  have hkeys : ∀ seg ∈ segments, seg.leaseKey ≠ last.leaseKey := by
    intro seg hseg hkey
    exact (hapart.2.2 seg hseg last (by simp)).1 (congrArg LeaseKey.leaseId hkey)
  refine ⟨next, hrecl, hcons, ?_⟩
  exact {
    pieceMap := hmap.trans hlnd.pieceMap
    stopped := hstpd.trans hlnd.stopped
    next_le := by
      rw [hid]
      exact hlnd.next_le
    missing := by
      intro b
      have hback : b ∈ next.custody.missing ↔ b ∈ sched.custody.missing ∨ b ∈ last.span := by
        rw [hcust]
        rfl
      rw [hback, hlnd.missing]
      constructor
      · rintro (⟨hb, hnone⟩ | hb)
        · exact ⟨hb, fun seg hseg => hnone seg (by simp [hseg])⟩
        · refine ⟨((hlnd.segment last hmem).2.2 b hb).1, fun seg hseg ho => ?_⟩
          exact (hapart.2.2 seg hseg last (by simp)).2 b ho hb
      · rintro ⟨hb, hnone⟩
        by_cases hlast : b ∈ last.span
        · exact Or.inr hlast
        · refine Or.inl ⟨hb, fun seg hseg => ?_⟩
          rcases mem_append.mp hseg with hseg | hseg
          · exact hnone seg hseg
          · rwa [mem_singleton.mp hseg]
    held_new := by
      intro seg hseg
      rw [hheld, if_neg (hkeys seg hseg)]
      exact hlnd.held_new seg (by simp [hseg])
    held_old := by
      intro key hkey
      rw [hheld]
      split
      · rename_i heq
        rw [heq, hlnd.unused last hmem]
      · rename_i hne
        apply hlnd.held_old
        intro seg hseg
        rcases mem_append.mp hseg with hseg | hseg
        · exact hkey seg hseg
        · rw [mem_singleton.mp hseg]
          exact Ne.symm hne
    fresh := by
      intro seg hseg
      rw [hid]
      exact hlnd.fresh seg (by simp [hseg])
    unused := fun seg hseg => hlnd.unused seg (by simp [hseg])
    segment := fun seg hseg => hlnd.segment seg (by simp [hseg])
    apart := hapart.1 }

omit h in
private theorem rollBack_spec :
    ∀ (before : List Segment) (sched : SchedulerState), sched.Conserved acked →
      Lends base sched (before ++ segments) →
      ∃ next, rollBack segments sched = some next ∧ next.Conserved acked ∧
        Lends base next before := by
  induction segments with
  | nil =>
    intro before sched h hlnd
    exact ⟨sched, rfl, h, by simpa using hlnd⟩
  | cons seg rest ih =>
    intro before sched h hlnd
    obtain ⟨middle, hrest, hmiddle, hlent⟩ := ih (before ++ [seg]) sched h (by simpa using hlnd)
    obtain ⟨next, hrecl, hnext, hlnd⟩ := hlent.undo hmiddle
    refine ⟨next, ?_, hnext, hlnd⟩
    simp [rollBack, hrest, hrecl]

def Issuable (sched : SchedulerState) (pieces : List (Nat × ByteRange)) : Prop :=
  ∀ entry ∈ pieces, entry.1 < sched.pieceMap.pieceCount ∧
    sched.pieceMap.bit entry.1 = false ∧ entry.2.start < entry.2.stop ∧
    ∀ b ∈ entry.2, b ∈ sched.pieceMap.pieceRange entry.1

omit h in
theorem issueAll_spec (workerId : Nat) (pieces : List (Nat × ByteRange)) :
    ∀ (issued : List Segment) (sched : SchedulerState), sched.Conserved acked →
      Lends base sched issued → Issuable sched pieces →
      ∃ out, issueAll workerId pieces issued sched = some out ∧ out.2.Conserved acked ∧
        (out.1 = none → Lends base out.2 []) ∧
        (∀ segments, out.1 = some segments → Lends base out.2 segments ∧
          ∃ added, segments = issued ++ added ∧
            added.map (fun seg => (seg.pieceId, seg.span)) = pieces ∧
            ∀ seg ∈ added, seg.ownerWorkerId = workerId) ∧
        (sched.stopped = false → (∀ entry ∈ pieces, ∀ b ∈ entry.2, b ∈ sched.custody.missing) →
          pieces.Pairwise (fun first second => first.2.Apart second.2) →
          out.1 ≠ none) := by
  induction pieces with
  | nil =>
    intro issued sched h hlnd _
    refine ⟨_, rfl, h, by simp, ?_, by simp⟩
    rintro segments hsegs
    obtain rfl := Option.some.inj hsegs
    exact ⟨hlnd, [], by simp⟩
  | cons entry rest ih =>
    obtain ⟨i, range⟩ := entry
    intro issued sched h hlnd hissuable
    obtain ⟨⟨hi, hbit, hrng, hp⟩, hrest⟩ := forall_mem_cons.mp hissuable
    obtain ⟨⟨seg, next⟩, hiss, hcons, href, hgrd⟩ := issueLease_spec h hi hbit hrng hp workerId
    simp only [issueAll, hiss, Option.bind_eq_bind, Option.bind_some]
    cases seg with
    | none =>
      have hrefuse := href rfl
      obtain ⟨after, hroll, haft, hback⟩ := rollBack_spec [] next hcons
        (by simpa using hlnd.trans hrefuse.lends)
      simp only [hroll, Option.bind_some]
      refine ⟨_, rfl, haft, fun _ => hback, by simp, ?_⟩
      intro hlive hmiss _
      rcases hrefuse.reason with hstpd | ⟨b, hb, hnot⟩
      · simp [hlive] at hstpd
      · exact absurd (hmiss (i, range) (by simp) b hb) hnot
    | some seg =>
      have hgrant := hgrd seg rfl
      have hnext : Issuable next rest := by
        intro entry he
        have hgood := hrest entry he
        rwa [← hgrant.lends.pieceMap] at hgood
      obtain ⟨out, hout, hconserved', hnone, hsome, hprog⟩ :=
        ih (issued ++ [seg]) next hcons (hlnd.trans hgrant.lends) hnext
      refine ⟨out, hout, hconserved', hnone, ?_, ?_⟩
      · intro segments hsegs
        obtain ⟨hlends', added, rfl, hadded, howners⟩ := hsome segments hsegs
        refine ⟨hlends', seg :: added, by simp, ?_, ?_⟩
        · simp [hadded, hgrant.pieceId, hgrant.span]
        · simpa using ⟨hgrant.owner, howners⟩
      · intro hlive hmiss hapart
        obtain ⟨hfst, hapart⟩ := pairwise_cons.mp hapart
        apply hprog (hgrant.lends.stopped.trans hlive) _ hapart
        intro entry he b hb
        refine (hgrant.lends.missing b).mpr ⟨hmiss entry (by simp [he]) b hb, ?_⟩
        intro other ho
        rw [mem_singleton.mp ho, hgrant.span]
        exact fun hbad => hfst entry he b hbad hb

/-! ## Exact subranges and recovery batches -/

theorem assignSubrange_spec (pieceId start stop workerId : Nat) :
    ∃ out, sched.assignSubrange pieceId start stop workerId = some out ∧
      Assigned sched acked (fun segment => [segment]) out := by
  unfold assignSubrange
  split
  · exact ⟨_, rfl, Assigned.unchanged h⟩
  rename_i hp
  unfold ByteRange.new
  split
  · exact ⟨_, rfl, Assigned.unchanged h⟩
  rename_i range hrng
  split at hrng
  · obtain rfl := Option.some.inj hrng
    rename_i hpos
    dsimp only
    split
    · exact ⟨_, rfl, Assigned.unchanged h⟩
    have hi : pieceId < sched.pieceMap.pieceCount := by omega
    have hbit : sched.pieceMap.bit pieceId = false := by
      simpa [PieceMap.isComplete, hi] using (not_or.mp hp).2
    have hcover : ∀ b ∈ (⟨start, stop⟩ : ByteRange), b ∈ sched.pieceMap.pieceRange pieceId := by
      intro b hb
      simp only [Span.mem_iff] at hb ⊢
      omega
    obtain ⟨out, hiss, hcons, href, hgrd⟩ := issueLease_spec h hi hbit hpos hcover workerId
    refine ⟨out, hiss, hcons, fun hnone => (href hnone).lends, ?_⟩
    exact fun segment hseg => ⟨(hgrd segment hseg).lends, by simp, .singleton _⟩
  · simp at hrng

/-- Ranges in consecutive pieces, each starting where the one before it stops. -/
def Consecutive (first second : Nat × ByteRange) : Prop :=
  first.1 + 1 = second.1 ∧ first.2.stop = second.2.start

omit h in
theorem batch_of_consecutive
    (h : (segments.map fun seg => (seg.pieceId, seg.span)).IsChain Consecutive) :
    Batch segments := by
  rw [isChain_map] at h
  exact h

omit h in
private theorem recoveryChain_consecutive {prev : Option (Nat × Nat)}
    (hchain : sched.recoveryChain prev pieces = true) : pieces.IsChain Consecutive := by
  induction pieces generalizing prev with
  | nil => exact .nil
  | cons entry rest ih =>
    simp only [recoveryChain, Bool.and_eq_true] at hchain
    obtain ⟨_, hrest⟩ := hchain
    cases rest with
    | nil => exact .singleton _
    | cons next rest =>
      refine .cons_cons ?_ (ih hrest)
      simp only [recoveryChain, Bool.and_eq_true, decide_eq_true_eq] at hrest
      obtain ⟨⟨_, hp, hstart⟩, _⟩ := hrest
      exact ⟨hp.symm, hstart.symm⟩

omit h in
private theorem recoveryChain_issuable {prev : Option (Nat × Nat)}
    (hchain : sched.recoveryChain prev pieces = true) : Issuable sched pieces := by
  induction pieces generalizing prev with
  | nil => simp [Issuable]
  | cons entry rest ih =>
    simp only [recoveryChain, Bool.and_eq_true, decide_eq_true_eq, Bool.not_eq_eq_eq_not,
      Bool.not_true] at hchain
    obtain ⟨⟨⟨⟨⟨⟨hi, hrng⟩, hstart⟩, hstop⟩, hinc⟩, _⟩, hrest⟩ := hchain
    refine forall_mem_cons.mpr ⟨⟨hi, ?_, hrng, ?_⟩, ih hrest⟩
    · simpa [PieceMap.isComplete, hi] using hinc
    · intro b hb
      simp only [Span.mem_iff] at hb ⊢
      omega

theorem assignRecoveryBatch_spec (pieces : List (Nat × ByteRange)) (workerId : Nat) :
    ∃ out, sched.assignRecoveryBatch pieces workerId = some out ∧ Assigned sched acked id out ∧
      (∀ segments, out.1 = some segments →
        segments.map (fun seg => (seg.pieceId, seg.span)) = pieces ∧
        ∀ seg ∈ segments, seg.ownerWorkerId = workerId) ∧
      (sched.stopped = false → pieces ≠ [] → pieces.length ≤ maxRequestLeases →
        sched.recoveryChain none pieces = true →
        (∀ entry ∈ pieces, ∀ b ∈ entry.2, b ∈ sched.custody.missing) →
        pieces.Pairwise (fun first second => first.2.Apart second.2) → out.1 ≠ none) := by
  unfold assignRecoveryBatch
  split
  · rename_i hlimit
    refine ⟨_, rfl, Assigned.unchanged h, by simp, ?_⟩
    intro _ hne hle
    simp [hne, Nat.not_lt.mpr hle] at hlimit
  rename_i hlimit
  split
  · rename_i hchain
    obtain ⟨out, hiss, hcons, hnone, hsome, hprog⟩ :=
      issueAll_spec workerId pieces [] sched h (Lends.refl sched) (recoveryChain_issuable hchain)
    refine ⟨out, hiss, ⟨hcons, hnone, ?_⟩, ?_, fun hlive _ _ _ => hprog hlive⟩
    · intro segments hsegs
      obtain ⟨hlnd, added, rfl, hadded, _⟩ := hsome segments hsegs
      refine ⟨hlnd, ?_, batch_of_consecutive ?_⟩
      · rintro hemp
        subst hemp
        simp at hadded
        simp [hadded] at hlimit
      · simp only [id_eq, hadded]
        exact recoveryChain_consecutive hchain
    · intro segments hsegs
      obtain ⟨_, added, rfl, hadded, howners⟩ := hsome segments hsegs
      exact ⟨by simpa using hadded, by simpa using howners⟩
  · rename_i hchain
    refine ⟨_, rfl, Assigned.unchanged h, by simp, ?_⟩
    exact fun _ _ _ hval => absurd hval hchain

theorem assigned_of_recovery {out : Option (List Segment) × SchedulerState}
    (hasg : sched.assignRecoveryBatch pieces workerId = some out) :
    Assigned sched acked id out := by
  obtain ⟨other, ho, hasgd, -⟩ := assignRecoveryBatch_spec h pieces workerId
  obtain rfl := Option.some.inj (hasg.symm.trans ho)
  exact hasgd

/-! ## Dynamic mode -/

/-- A run of whole untouched pieces. -/
structure UntouchedRun (sched : SchedulerState) (candidate : AllocationCandidate) : Prop where
  nonempty : candidate.firstPiece < candidate.endPiece
  start : candidate.start = (sched.pieceMap.pieceRange candidate.firstPiece).start
  stop : candidate.stop = (sched.pieceMap.pieceRange (candidate.endPiece - 1)).stop
  untouched : ∀ i, candidate.firstPiece ≤ i → i < candidate.endPiece →
    sched.available i = true ∧ sched.pieces[i]? = none

theorem Conserved.isUntouchedPiece_iff (i : Nat) :
    sched.isUntouchedPiece i = true ↔ sched.available i = true ∧ sched.pieces[i]? = none := by
  have hcontains : sched.pieces.contains i = false ↔ sched.pieces[i]? = none := by
    rw [TreeMap.contains_eq_isSome_getElem?, Option.isSome_eq_false_iff, Option.isNone_iff_eq_none]
  constructor
  · intro hi
    simp only [isUntouchedPiece, Bool.and_eq_true, decide_eq_true_eq, Bool.not_eq_true'] at hi
    exact ⟨hi.1.1.2, hcontains.mp hi.2⟩
  · rintro ⟨havailable, hps⟩
    have hi := h.lt_of_available havailable
    simp only [isUntouchedPiece, PieceMap.isComplete, Bool.and_eq_true, decide_eq_true_eq,
      Bool.not_eq_true', h.bit_of_available hi havailable, Bool.and_false, and_true]
    exact ⟨⟨hi, havailable⟩, hcontains.mpr hps⟩

omit h in
theorem isUntouchedPiece_of_unavailable (h : sched.available i = false) :
    sched.isUntouchedPiece i = false := by
  simp [isUntouchedPiece, h]

def runCandidate (sched : SchedulerState) (run : Nat × Nat) : AllocationCandidate :=
  sched.pieceRunCandidate run.1 run.2

omit h in
theorem cutRun_append {p : Nat → Bool} {availableEnd left : Nat}
    (hend : left = 0 ∨ p availableEnd = false) {touched : List Nat} :
    ∀ firstPiece : Nat, firstPiece ≤ availableEnd → touched.Pairwise (· < ·) →
      (∀ pieceId ∈ touched, firstPiece ≤ pieceId ∧ pieceId < availableEnd) →
      (∀ i, firstPiece ≤ i → i < availableEnd → (p i = true ↔ i ∉ touched)) →
      sched.cutRun availableEnd touched firstPiece ++
          (scanRuns p left availableEnd availableEnd).map sched.runCandidate =
        (scanRuns p (availableEnd - firstPiece + left) firstPiece firstPiece).map
          sched.runCandidate := by
  induction touched with
  | nil =>
    intro firstPiece hle _ _ hp
    have hclose : scanRuns p left firstPiece availableEnd = _ := scanRuns_close hend
    rw [scanRuns_of_true left _ _ fun j hj hlt => (hp j hj (by omega)).mpr (by simp),
      Nat.add_sub_cancel' hle, hclose, map_append, cutRun, closeRun]
    split <;> rfl
  | cons touchedPiece rest ih =>
    intro firstPiece hle hsort hbd hp
    obtain ⟨hhead, hsort⟩ := pairwise_cons.mp hsort
    obtain ⟨hbd, hrest⟩ := forall_mem_cons.mp hbd
    have htouched : p touchedPiece = false :=
      Bool.eq_false_iff.mpr fun htrue => (hp _ hbd.1 hbd.2).mp htrue mem_cons_self
    have hspl : availableEnd - firstPiece + left =
        touchedPiece - firstPiece + (availableEnd - (touchedPiece + 1) + left + 1) := by
      omega
    have hnext := ih (touchedPiece + 1) hbd.2 hsort
      (fun i hi => ⟨hhead i hi, (hrest i hi).2⟩) fun i hi hlt => by
        rw [hp i (by omega) hlt, mem_cons, not_or]
        exact and_iff_right (by omega)
    rw [hspl, scanRuns_of_true _ _ _ fun j hj hlt => (hp j hj (by omega)).mpr ?_,
      Nat.add_sub_cancel' hbd.1, scanRuns, htouched, cutRun, append_assoc, hnext]
    · simp only [Bool.false_eq_true, if_false, map_append, closeRun]
      split <;> rfl
    · intro hmem
      rcases mem_cons.mp hmem with rfl | hmem
      · omega
      · have := hhead j hmem
        omega

theorem available_run {firstAvailable availableEnd : Nat}
    (hfst : sched.available firstAvailable = true)
    (hend : (match (sched.availablePieces.drop firstAvailable).findIdx? (!·) with
      | none => sched.pieceMap.pieceCount
      | some offset => firstAvailable + offset) = availableEnd) :
    firstAvailable < availableEnd ∧ availableEnd ≤ sched.pieceMap.pieceCount ∧
      sched.available availableEnd = false ∧
      ∀ i, firstAvailable ≤ i → i < availableEnd → sched.available i = true := by
  have hlen := h.length_available
  have hlt := h.lt_of_available hfst
  split at hend
  · rename_i hidx
    subst hend
    refine ⟨hlt, Nat.le_refl _, ?_, fun i hi hlt => ?_⟩
    · rw [available, ← hlen]
      simp
    · simpa [available] using findIdx?_drop_none hidx i hi (by omega)
  · rename_i offset hidx
    replace hend : firstAvailable + offset = availableEnd := hend
    subst hend
    obtain ⟨hbd, hbit, hbef⟩ := findIdx?_drop_some hidx
    have hunavailable : sched.available (firstAvailable + offset) = false := by
      simpa [available] using hbit
    refine ⟨?_, by omega, hunavailable, fun i hi hlt => by
      simpa [available] using hbef i hi hlt⟩
    rcases Nat.eq_zero_or_pos offset with rfl | hpos
    · rw [Nat.add_zero, hfst] at hunavailable
      cases hunavailable
    · omega

theorem dynamicCandidatesLoop_eq {fuel : Nat} :
    ∀ searchFrom : Nat, searchFrom ≤ sched.pieceMap.pieceCount →
      sched.pieceMap.pieceCount ≤ searchFrom + fuel →
      sched.dynamicCandidatesLoop fuel searchFrom =
        (scanRuns sched.isUntouchedPiece (sched.pieceMap.pieceCount - searchFrom) searchFrom
          searchFrom).map sched.runCandidate := by
  have hlen := h.length_available
  have hskip (searchFrom left : Nat) (hnone : ∀ i, searchFrom ≤ i → i < searchFrom + left →
      sched.available i = false) : ∀ i, searchFrom ≤ i → i < searchFrom + left →
      sched.isUntouchedPiece i = false :=
    fun i hi hlt => isUntouchedPiece_of_unavailable (hnone i hi hlt)
  induction fuel with
  | zero =>
    intro searchFrom hle hfuel
    obtain rfl : searchFrom = sched.pieceMap.pieceCount := by omega
    simp [dynamicCandidatesLoop, scanRuns, closeRun]
  | succ fuel ih =>
    intro searchFrom hle hfuel
    unfold dynamicCandidatesLoop
    split
    swap
    · obtain rfl : searchFrom = sched.pieceMap.pieceCount := by omega
      simp [scanRuns, closeRun]
    split
    · rename_i hidx
      have hscan := scanRuns_of_false 0 (sched.pieceMap.pieceCount - searchFrom) searchFrom
        (hskip _ _ fun i hi hlt => findIdx?_drop_none hidx i hi (by omega))
      rw [Nat.add_zero] at hscan
      simp [hscan, scanRuns, closeRun]
    · rename_i offset hidx
      obtain ⟨hbd, hfst, hbef⟩ := findIdx?_drop_some hidx
      have hturn {availableEnd : Nat} (hrun : searchFrom + offset < availableEnd ∧
          availableEnd ≤ sched.pieceMap.pieceCount ∧ sched.available availableEnd = false ∧
          ∀ i, searchFrom + offset ≤ i → i < availableEnd → sched.available i = true) :
          sched.cutRun availableEnd (sched.pieces.keys.filter fun p =>
              decide (searchFrom + offset ≤ p) && decide (p < availableEnd))
              (searchFrom + offset) ++ sched.dynamicCandidatesLoop fuel availableEnd =
            (scanRuns sched.isUntouchedPiece (sched.pieceMap.pieceCount - searchFrom) searchFrom
              searchFrom).map sched.runCandidate := by
        obtain ⟨hlt, hc, hunavailable, havailable⟩ := hrun
        have hspl : sched.pieceMap.pieceCount - searchFrom = offset +
            (availableEnd - (searchFrom + offset) +
              (sched.pieceMap.pieceCount - availableEnd)) := by
          omega
        rw [ih availableEnd hc (by omega), hspl,
          scanRuns_of_false _ offset searchFrom (hskip _ _ hbef)]
        refine cutRun_append (.inr (isUntouchedPiece_of_unavailable hunavailable)) _
          (Nat.le_of_lt hlt) (.filter _ (sched.pieces.ordered_keys.imp Nat.compare_eq_lt.mp)) ?_
          fun i hi hlt' => ?_
        · intro p hmem
          simpa using (mem_filter.mp hmem).2
        · rw [h.isUntouchedPiece_iff, mem_filter, TreeMap.mem_keys, TreeMap.mem_iff_isSome_getElem?]
          simp [havailable i hi hlt', hi, hlt']
      exact hturn (available_run h hfst rfl)

theorem dynamicCandidates_eq : sched.dynamicCandidates =
      (runsBelow sched.isUntouchedPiece sched.pieceMap.pieceCount).map sched.runCandidate :=
  dynamicCandidatesLoop_eq h 0 (Nat.zero_le _) (by omega)

theorem mem_dynamicCandidates :
    candidate ∈ sched.dynamicCandidates ↔ ∃ run, IsRun sched.isUntouchedPiece run ∧
      sched.runCandidate run = candidate := by
  have hbd : ∀ i, sched.pieceMap.pieceCount ≤ i → sched.isUntouchedPiece i = false :=
    fun i hi => by simp [isUntouchedPiece, Nat.not_lt.mpr hi]
  simp only [dynamicCandidates_eq h, mem_map, mem_runsBelow_iff hbd]

theorem dynamicCandidates_untouched
    (hmem : candidate ∈ sched.dynamicCandidates) : UntouchedRun sched candidate := by
  obtain ⟨run, hrun, rfl⟩ := (mem_dynamicCandidates h).mp hmem
  exact ⟨hrun.nonempty, rfl, rfl, fun i hi hlt =>
    (h.isUntouchedPiece_iff i).mp (hrun.holds i hi hlt)⟩

omit h in
theorem maxBy_mem {cmp : α → α → Ordering} {xs : List α} {x : α} (h : maxBy cmp xs = some x) :
    x ∈ xs := by
  cases xs with
  | nil => simp [maxBy] at h
  | cons first rest =>
    simp only [maxBy, Option.some.injEq] at h
    subst h
    have hfold : ∀ (ys : List α) (best : α),
        ys.foldl (fun best y => if cmp best y = .gt then best else y) best ∈ best :: ys := by
      intro ys
      induction ys with
      | nil => simp
      | cons y ys ih =>
        intro best
        have hbest := ih (if cmp best y = .gt then best else y)
        rw [foldl_cons]
        rcases mem_cons.mp hbest with hbest | hbest
        · rw [hbest]
          split <;> simp
        · simp [hbest]
    exact hfold rest first

omit h in
theorem maxBy_isSome {cmp : α → α → Ordering} {xs : List α} (h : xs ≠ []) :
    maxBy cmp xs ≠ none := by
  cases xs with
  | nil => exact absurd rfl h
  | cons first rest => simp [maxBy]

omit h in
theorem indexedShares_spec {index slots : Nat}
    (h : (index, candidate, slots) ∈ indexedShares shares) :
    shares[index]? = some (candidate, slots) := by
  simp only [indexedShares, mem_map, Prod.mk.injEq, Prod.exists] at h
  obtain ⟨candidate', slots', index', hmem, rfl, rfl, rfl⟩ := h
  exact mem_zipIdx_iff_getElem?.mp hmem

omit h in
theorem distributeSlots_candidates (sched : SchedulerState) (minSplit extraSlots : Nat) :
    ∀ shares : Shares, (sched.distributeSlots minSplit extraSlots shares).map Prod.fst =
        shares.map Prod.fst := by
  induction extraSlots with
  | zero => simp [distributeSlots]
  | succ extraSlots ih =>
    intro shares
    unfold distributeSlots
    dsimp only
    split
    · rfl
    · rename_i index candidate slots hmax
      have hmem := mem_of_mem_filter (maxBy_mem hmax)
      have hget := indexedShares_spec hmem
      rw [ih, map_set]
      apply ext_getElem?
      intro j
      rw [getElem?_set]
      split
      · rename_i hij
        subst hij
        obtain ⟨hlt, hval⟩ := List.getElem?_eq_some_iff.mp hget
        simp [hlt, hval]
      · rfl

omit h in
theorem maxBy_shares (hfst : shares.map Prod.fst = candidates) (hne : candidates ≠ []) :
    ∃ best, maxBy compareShares (indexedShares shares) = some best ∧ best.2.1 ∈ candidates := by
  subst hfst
  have hsome : maxBy compareShares (indexedShares shares) ≠ none := by
    apply maxBy_isSome
    simpa [indexedShares] using hne
  obtain ⟨⟨index, candidate, slots⟩, hmax⟩ := Option.ne_none_iff_exists'.mp hsome
  have hget := indexedShares_spec (maxBy_mem hmax)
  exact ⟨_, hmax, mem_map.mpr ⟨(candidate, slots), mem_of_getElem? hget, rfl⟩⟩

omit h in
theorem planDynamicShare_spec (sched : SchedulerState) (hne : candidates ≠ [])
    {requested : Nat} (hrequested : requested ≠ 0) (minSplit : Nat)
    (collect : Bool) :
    ∃ plan, sched.planDynamicShare candidates requested minSplit
        collect = some plan ∧ plan.candidate ∈ candidates := by
  have hnom : (candidates.map fun candidate => (candidate, 1)).map Prod.fst =
      candidates := by simp [Function.comp_def]
  unfold planDynamicShare
  rw [if_neg (by simp [hne, hrequested])]
  dsimp only
  split
  · obtain ⟨best, hmax, hmem⟩ := maxBy_shares hnom hne
    exact ⟨_, by rw [hmax]; rfl, hmem⟩
  · have hslots := (distributeSlots_candidates sched minSplit
      (requested - candidates.length) _).trans hnom
    obtain ⟨best, hmax, hmem⟩ := maxBy_shares hslots hne
    exact ⟨_, by rw [hmax]; rfl, hmem⟩

omit h in
private theorem dynamicLegalSplitBounds_gt {minSplit first last : Nat}
    (h : sched.dynamicLegalSplitBounds candidate minSplit = some (first, last)) :
    candidate.firstPiece < first ∧ first ≤ last := by
  unfold dynamicLegalSplitBounds at h
  split at h
  · simp at h
  dsimp only at h
  split at h
  · rename_i hle
    obtain ⟨rfl, rfl⟩ := h
    have hpos : 0 < divCeil minSplit (max sched.pieceMap.pieceSize 1) := by
      rw [PieceMap.lt_divCeil_iff (by omega)]
      omega
    omega
  · simp at h

theorem Conserved.pieceRange_stop_mono {j : Nat} (hij : i ≤ j)
    (hj : j < sched.pieceMap.pieceCount) :
    (sched.pieceMap.pieceRange i).stop ≤ (sched.pieceMap.pieceRange j).stop := by
  rw [h.map.pieceRange_stop (by omega), h.map.pieceRange_stop hj]
  have := Nat.mul_le_mul_right sched.pieceMap.pieceSize (Nat.add_le_add_right hij 1)
  omega

omit h in
theorem legalEndPiece_bounds {minSplit rawEndPiece : Nat}
    (hlt : candidate.firstPiece < rawEndPiece) (hle : rawEndPiece ≤ candidate.endPiece) :
    candidate.firstPiece < (sched.legalEndPiece candidate minSplit rawEndPiece).1 ∧
      (sched.legalEndPiece candidate minSplit rawEndPiece).1 ≤ candidate.endPiece := by
  unfold legalEndPiece
  split
  · split
    · rename_i first last hbds
      obtain ⟨hfst, hlast⟩ := dynamicLegalSplitBounds_gt hbds
      split
      · dsimp only
        omega
      · exact ⟨hlt, hle⟩
    · exact ⟨hlt, hle⟩
  · exact ⟨hlt, hle⟩

variable (hrun : UntouchedRun sched candidate)
include hrun

theorem dynamicRequestEnd_ge (desired minSplit maxSize : Nat) :
    (sched.pieceMap.pieceRange candidate.firstPiece).stop ≤
      (sched.dynamicRequestEnd candidate desired minSplit maxSize).1 := by
  have hlast : candidate.endPiece - 1 < sched.pieceMap.pieceCount :=
    h.lt_of_available (hrun.untouched _ (by have := hrun.nonempty; omega)
      (by have := hrun.nonempty; omega)).1
  have hmono : ∀ endPiece, candidate.firstPiece < endPiece → endPiece ≤ candidate.endPiece →
      (sched.pieceMap.pieceRange candidate.firstPiece).stop ≤
        min (sched.pieceMap.pieceRange (endPiece - 1)).stop candidate.stop := by
    intro endPiece hlt hle
    rw [hrun.stop]
    exact Nat.le_min.mpr ⟨h.pieceRange_stop_mono (by omega) (by omega),
      h.pieceRange_stop_mono (by omega) hlast⟩
  have hnemp := hrun.nonempty
  unfold dynamicRequestEnd
  dsimp only
  refine hmono _ (legalEndPiece_bounds ?_ ?_).1 (legalEndPiece_bounds ?_ ?_).2 <;> omega

omit h in
omit hrun in
theorem mem_wholePieces {stop : Nat} {entry : Nat × ByteRange}
    (he : entry ∈ sched.wholePieces candidate stop) :
    candidate.firstPiece ≤ entry.1 ∧ entry.1 < candidate.endPiece ∧
      entry.2 = sched.pieceMap.pieceRange entry.1 := by
  have hmem := (takeWhile_sublist _).subset he
  obtain ⟨p, hpid, rfl⟩ := mem_map.mp hmem
  simp only [mem_range'_1] at hpid
  exact ⟨hpid.1, by omega, rfl⟩

private theorem wholePieces_apart (stop : Nat) : (sched.wholePieces candidate stop).Pairwise
      fun first second => first.2.Apart second.2 := by
  have hsort : (sched.wholePieces candidate stop).Pairwise
      fun first second => first.1 < second.1 := by
    apply List.Pairwise.sublist (takeWhile_sublist _)
    rw [pairwise_map]
    exact pairwise_lt_range'
  refine hsort.imp_of_mem ?_
  intro first second hfst hsnd hlt
  obtain ⟨hle, hbd, hspan⟩ := mem_wholePieces hfst
  obtain ⟨hle', hbound', hspan'⟩ := mem_wholePieces hsnd
  rw [hspan, hspan']
  exact fun _ hb hb' => Nat.ne_of_lt hlt (h.piece_unique
    (h.lt_of_available (hrun.untouched _ hle hbd).1)
    (h.lt_of_available (hrun.untouched _ hle' hbound').1) hb hb')

private theorem wholePieces_consecutive (stop : Nat) :
    (sched.wholePieces candidate stop).IsChain Consecutive := by
  have hstep : (range' candidate.firstPiece
      (candidate.endPiece - candidate.firstPiece)).IsChain fun i j => i + 1 = j := by
    refine List.IsChain.imp ?_ (isChain_range' _ _ 1)
    exact fun i j hij => hij.symm
  have hrng : ((range' candidate.firstPiece (candidate.endPiece - candidate.firstPiece)).map
        fun pieceId => (pieceId, sched.pieceMap.pieceRange pieceId)).IsChain Consecutive := by
    rw [isChain_map]
    refine List.IsChain.imp_of_mem_imp ?_ hstep
    rintro i j hi hj rfl
    simp only [mem_range'_1] at hj
    have hc : i + 1 < sched.pieceMap.pieceCount :=
      h.lt_of_available (hrun.untouched (i + 1) (by omega) (by omega)).1
    exact ⟨rfl, h.map.pieceRange_stop_eq_start hc⟩
  rw [← takeWhile_append_dropWhile (p := fun entry : Nat × ByteRange =>
    decide (entry.2.stop ≤ stop)) (l := map _ _)] at hrng
  exact hrng.left_of_append

omit h in
omit hrun in
private theorem wholePieces_ne_nil (hlt : candidate.firstPiece < candidate.endPiece) {stop : Nat}
    (hstop : (sched.pieceMap.pieceRange candidate.firstPiece).stop ≤ stop) :
    sched.wholePieces candidate stop ≠ [] := by
  obtain ⟨count, hc⟩ : ∃ count, candidate.endPiece - candidate.firstPiece = count + 1 :=
    ⟨candidate.endPiece - candidate.firstPiece - 1, by omega⟩
  simp [wholePieces, hc, range'_succ, hstop]

theorem issueDynamicCandidate_spec {stop : Nat}
    (hstop : (sched.pieceMap.pieceRange candidate.firstPiece).stop ≤ stop) (workerId : Nat) :
    ∃ out, sched.issueDynamicCandidate candidate stop workerId = some out ∧
      Assigned sched acked id out ∧ (sched.hasAvailable = true → out.1 ≠ none) ∧
      ∀ segments, out.1 = some segments →
        segments.map (fun seg => (seg.pieceId, seg.span)) = sched.wholePieces candidate stop := by
  have hfst := h.lt_of_available (hrun.untouched _ (Nat.le_refl _) hrun.nonempty).1
  have hpos := h.map.pieceRange_nonempty hfst
  have hissuable : Issuable sched (sched.wholePieces candidate stop) := by
    intro entry he
    obtain ⟨hle, hbd, hspan⟩ := mem_wholePieces he
    have havailable := (hrun.untouched _ hle hbd).1
    have hi := h.lt_of_available havailable
    rw [hspan]
    exact ⟨hi, h.bit_of_available hi havailable, h.map.pieceRange_nonempty hi, fun b hb => hb⟩
  have hmiss : ∀ entry ∈ sched.wholePieces candidate stop, ∀ b ∈ entry.2,
      b ∈ sched.custody.missing := by
    intro entry he
    obtain ⟨hle, hbd, hspan⟩ := mem_wholePieces he
    obtain ⟨havailable, hunt⟩ := hrun.untouched _ hle hbd
    rw [hspan]
    exact h.untouched_missing havailable hunt
  unfold issueDynamicCandidate
  split
  · rename_i hearly
    refine ⟨_, rfl, Assigned.unchanged h, ?_, by simp⟩
    intro hlive
    rcases hearly with hstpd | hbd
    · simp [hasAvailable, hstpd] at hlive
    · rw [hrun.start] at hbd
      omega
  · obtain ⟨⟨segments, next⟩, hiss, hcons, hnone, hsome, hprog⟩ :=
      issueAll_spec workerId (sched.wholePieces candidate stop) [] sched h (Lends.refl sched)
        hissuable
    simp only [hiss, Option.bind_eq_bind, Option.bind_some]
    cases segments with
    | none =>
      refine ⟨_, rfl, ⟨hcons, hnone, by simp⟩, ?_, by simp⟩
      intro hlive
      exact hprog (by simpa [hasAvailable] using (Bool.and_eq_true_iff.mp hlive).1)
        hmiss (wholePieces_apart h hrun stop)
    | some segments =>
      obtain ⟨hlnd, added, hadded, hmap, _⟩ := hsome segments rfl
      have hne : segments ≠ [] := by
        rintro rfl
        have hnil : added = [] := by simpa using hadded.symm
        rw [hnil, map_nil] at hmap
        exact wholePieces_ne_nil hrun.nonempty hstop hmap.symm
      dsimp only
      rw [isEmpty_eq_false_iff.mpr hne]
      have hsegs : segments = added := by simpa using hadded
      refine ⟨_, rfl, .grant hcons hlnd hne (batch_of_consecutive ?_), by simp, ?_⟩
      · simp only [id_eq, hsegs, hmap]
        exact wholePieces_consecutive h hrun stop
      · rintro _ ⟨⟩
        rw [hsegs, hmap]

omit hrun

theorem assignTo_single_spec (workerId slots occupied : Nat) :
    ∃ out, sched.assignTo workerId = some out ∧ Assigned sched acked RequestAssignment.segments
        (out.1.map (RequestAssignment.single · slots occupied),
          out.2) ∧ (sched.hasAvailable = true → out.1 ≠ none) := by
  obtain ⟨out, hasg, hasgd, hprog, _⟩ := assignToWithSplit_spec h workerId 1 (2 ^ 64 - 1)
  refine ⟨out, hasg, ⟨hasgd.conserved, ?_, ?_⟩, hprog⟩
  · simpa using hasgd.refused
  · intro asg hasgt
    obtain ⟨seg, hseg, rfl⟩ := Option.map_eq_some_iff.mp hasgt
    exact ⟨(hasgd.granted seg hseg).1, by simp [RequestAssignment.single], .singleton _⟩

theorem assignDynamicRequest_spec (workerId occupied slots
      splitSize maxSize : Nat) (collect : Bool)
    (hslots : slots ≠ 0) :
    ∃ out, sched.assignDynamicRequest workerId occupied slots splitSize maxSize collect = some out ∧
      Assigned sched acked RequestAssignment.segments out ∧
      (sched.hasAvailable = true → out.1 ≠ none) := by
  unfold assignDynamicRequest
  dsimp only
  split
  · obtain ⟨⟨seg, next⟩, hasg, hasgd, hprog⟩ := assignTo_single_spec h workerId slots occupied
    simp only [hasg, Option.bind_eq_bind, Option.bind_some]
    refine ⟨_, rfl, hasgd, ?_⟩
    intro hlive
    simpa using hprog hlive
  · rename_i hcands
    have hne : sched.dynamicCandidates ≠ [] := by simpa using hcands
    generalize effectiveDynamicMinSplitSize sched.pieceMap.pieceSize splitSize = minSplit
    obtain ⟨plan, hplan, hmem⟩ := planDynamicShare_spec sched hne hslots minSplit collect
    have hrun := dynamicCandidates_untouched h hmem
    obtain ⟨⟨segments, next⟩, hiss, hasgd, hprog, -⟩ :=
      issueDynamicCandidate_spec h hrun (dynamicRequestEnd_ge h hrun
        (sched.dynamicShareEndPiece plan.candidate plan.candidateSlots minSplit)
        minSplit maxSize) workerId
    simp only [hplan, hiss, Option.bind_eq_bind, Option.bind_some]
    cases segments with
    | none =>
      refine ⟨_, rfl, ⟨hasgd.conserved, fun _ => hasgd.refused rfl, by simp⟩, ?_⟩
      exact fun hlive => absurd rfl (hprog hlive)
    | some segments =>
      obtain ⟨hlnd, hsegs, hbatch⟩ := hasgd.granted segments rfl
      simp only [id] at hsegs
      dsimp only
      rw [head?_eq_some_head hsegs, getLast?_eq_some_getLast hsegs]
      exact ⟨_, rfl, .grant hasgd.conserved hlnd hsegs hbatch, by simp⟩

theorem assignRequestWithTrace_spec (workerId : Nat) (params : RequestParams) :
    ∃ out, sched.assignRequestWithTrace workerId params = some out ∧
      Assigned sched acked RequestAssignment.segments out ∧
      (sched.hasAvailable = true → params.occupiedRequests < params.maxRequests →
        out.1 ≠ none) := by
  unfold assignRequestWithTrace
  dsimp only
  split
  · rename_i hnone
    refine ⟨_, rfl, Assigned.unchanged h, ?_⟩
    intro hlive hslots
    rcases hnone with hnone | hnone
    · omega
    · simp [hasAvailable, hnone] at hlive
  rename_i hslots
  split
  · obtain ⟨⟨seg, next⟩, hasg, hasgd, hprog⟩ :=
      assignTo_single_spec h workerId (params.maxRequests - params.occupiedRequests)
        params.occupiedRequests
    simp only [hasg, Option.bind_eq_bind, Option.bind_some]
    refine ⟨_, rfl, hasgd, ?_⟩
    intro hlive _
    simpa using hprog hlive
  · cases params.mode with
    | fixed =>
      obtain ⟨out, hout, hasgd, hprog⟩ := assignFixedRequest_spec h workerId
        params.maxRequests params.minSegmentSize params.occupiedRequests
        params.requestBatchSize (params.maxRequests - params.occupiedRequests)
        params.collectDiagnostics
      exact ⟨out, hout, hasgd, fun hlive _ => hprog hlive⟩
    | dynamic =>
      obtain ⟨out, hout, hasgd, hprog⟩ := assignDynamicRequest_spec h workerId
        params.occupiedRequests (params.maxRequests - params.occupiedRequests)
        params.dynamicMinSplitSize params.dynamicMaxRequestSize
        params.collectCandidateShares (not_or.mp hslots).1
      exact ⟨out, hout, hasgd, fun hlive _ => hprog hlive⟩

theorem assigned_of_request {params : RequestParams}
    {out : Option RequestAssignment × SchedulerState}
    (hasg : sched.assignRequestWithTrace workerId params = some out) :
    Assigned sched acked RequestAssignment.segments out := by
  obtain ⟨other, ho, hasgd, -⟩ := assignRequestWithTrace_spec h workerId params
  obtain rfl := Option.some.inj (hasg.symm.trans ho)
  exact hasgd

end SchedulerState

end Bytehaul.Scheduler
