import Bytehaul.Scheduler.Assignment

/-!
# What issuing and rolling back leave alone

A lease that is issued or given back changes the runtime entry of its own piece only.
-/

namespace Bytehaul.Scheduler

open Foundation Storage List Option

namespace SchedulerState

/-- Only entries of `touched` pieces differ, and no flag of completed ranges does. -/
structure Frame (touched : Nat → Prop) (sched next : SchedulerState) : Prop where
  pieces : ∀ i, ¬touched i → next.pieces[i]? = sched.pieces[i]?
  flags : ∀ i, (next.runtimePiece i).hasCompletedRanges = (sched.runtimePiece i).hasCompletedRanges
  snapshotSeq : next.snapshotSeq = sched.snapshotSeq

variable {touched : Nat → Prop} {sched mid next : SchedulerState} {range : ByteRange}
  {w : Nat} {out : Option Segment × SchedulerState}

theorem Frame.refl (touched : Nat → Prop) (sched : SchedulerState) : Frame touched sched sched :=
  ⟨fun _ _ => rfl, fun _ => rfl, rfl⟩

theorem Frame.trans (h : Frame touched sched mid) (h' : Frame touched mid next) :
    Frame touched sched next where
  pieces := fun i hi => (h'.pieces i hi).trans (h.pieces i hi)
  flags := fun i => (h'.flags i).trans (h.flags i)
  snapshotSeq := h'.snapshotSeq.trans h.snapshotSeq

theorem Frame.insert {i : Nat} {piece : PieceRuntimeState} (hi : touched i)
    (hps : next.pieces = sched.pieces.insert i piece)
    (hflag : piece.hasCompletedRanges = (sched.runtimePiece i).hasCompletedRanges)
    (hseq : next.snapshotSeq = sched.snapshotSeq) : Frame touched sched next where
  pieces := by
    intro j hj
    rw [hps, getElem?_insert_eq, if_neg (by rintro rfl; exact hj hi)]
  flags := by
    intro j
    by_cases hj : j = i
    · subst hj
      simp only [runtimePiece, hps, getElem?_insert_eq, if_pos, getD_some] at hflag ⊢
      exact hflag
    · simp only [runtimePiece, hps, getElem?_insert_eq, if_neg hj]
      cases sched.pieces[j]? <;> rfl
  snapshotSeq := hseq

def leased (sched : SchedulerState) (i : Nat) (range : ByteRange) (workerId : Nat)
    (missing : RangeSet) : Segment × SchedulerState :=
  let piece := sched.runtimePiece i
  let attempt := PieceRuntimeState.bumpAttempt piece.attemptCounter
  (⟨i, sched.nextLeaseId, range.start, range.stop, workerId, attempt⟩, { sched with
    pieces := sched.pieces.insert i { piece with
      missingRanges := missing
      attemptCounter := attempt
      activeLeases := piece.activeLeases.insert sched.nextLeaseId range }
    nextLeaseId := sched.nextLeaseId + 1
    availableRangeCount :=
      sched.availableRangeCount - piece.missingRangeCount + missing.len
    activeLeaseCount := sched.activeLeaseCount + 1
    availablePieces := sched.availablePieces.set i (missing.len != 0) })

theorem issueLease_cases {i : Nat} (hout : sched.issueLease i range w = some out) :
    out = (none, sched) ∨
      out = (none, { sched with pieces := sched.pieces.insert i (sched.runtimePiece i) }) ∨
      ∃ missing, (sched.runtimePiece i).missingRanges.remove range = some missing ∧
        out = (some (sched.leased i range w missing).1, (sched.leased i range w missing).2) := by
  unfold issueLease at hout
  split at hout
  · exact .inl (some.inj hout).symm
  dsimp only at hout
  unfold PieceRuntimeState.issueLease at hout
  cases hremove : (sched.runtimePiece i).missingRanges.remove range with
  | none =>
    rw [hremove] at hout
    exact .inr (.inl (some.inj hout).symm)
  | some missing =>
    rw [hremove] at hout
    obtain ⟨remaining, hrem, hout⟩ := bind_eq_some_iff.mp hout
    obtain ⟨-, hrem⟩ := ite_none_right_eq_some.mp hrem
    obtain rfl := some.inj hrem
    exact .inr (.inr ⟨missing, rfl, (some.inj hout).symm⟩)

theorem issueLease_frame {i : Nat} (hi : touched i)
    (hout : sched.issueLease i range w = some out) : Frame touched sched out.2 := by
  rcases issueLease_cases hout with rfl | rfl | ⟨missing, -, rfl⟩
  · exact Frame.refl touched sched
  · exact Frame.insert hi rfl rfl rfl
  · exact Frame.insert hi rfl rfl rfl

theorem issueLease_segment {i : Nat} {seg : Segment}
    (hout : sched.issueLease i range w = some (some seg, next)) :
    ∃ missing, (sched.runtimePiece i).missingRanges.remove range = some missing ∧
      seg = (sched.leased i range w missing).1 ∧
      next = (sched.leased i range w missing).2 := by
  rcases issueLease_cases hout with hnone | hnone | ⟨missing, hmiss, hsome⟩
  · simp at hnone
  · simp at hnone
  · obtain ⟨hseg, hnext⟩ := Prod.mk.inj hsome
    exact ⟨missing, hmiss, some.inj hseg, hnext⟩

theorem reclaim_frame {key : LeaseKey} (hkey : touched key.pieceId) {out : Bool × SchedulerState}
    (hout : sched.reclaim key = some out) : Frame touched sched out.2 := by
  unfold reclaim at hout
  split at hout
  · obtain rfl := some.inj hout
    exact Frame.refl touched sched
  · rename_i piece hp
    dsimp only at hout
    split at hout
    · obtain rfl := some.inj hout
      exact Frame.refl touched sched
    · rename_i after hrecl
      obtain ⟨leases, -, hout⟩ := bind_eq_some_iff.mp hout
      obtain ⟨remaining, -, hout⟩ := bind_eq_some_iff.mp hout
      obtain rfl := some.inj hout
      unfold PieceRuntimeState.reclaim at hrecl
      split at hrecl
      · simp at hrecl
      · obtain rfl := some.inj hrecl
        exact Frame.insert hkey rfl (by simp [runtimePiece, hp]) rfl

private theorem rollBack_frame {segs : List Segment}
    (hsegs : ∀ seg ∈ segs, touched seg.pieceId) :
    ∀ {sched next : SchedulerState}, rollBack segs sched = some next →
      Frame touched sched next := by
  induction segs with
  | nil =>
    intro sched next hnext
    obtain rfl := some.inj hnext
    exact Frame.refl touched sched
  | cons seg rest ih =>
    intro sched next hnext
    obtain ⟨hseg, hrest⟩ := forall_mem_cons.mp hsegs
    obtain ⟨mid, hmid, hnext⟩ := bind_eq_some_iff.mp hnext
    obtain ⟨out, hout, hnext⟩ := bind_eq_some_iff.mp hnext
    obtain rfl := some.inj hnext
    exact (ih hrest hmid).trans (reclaim_frame hseg hout)

theorem issueAll_frame (pieces : List (Nat × ByteRange))
    (hps : ∀ entry ∈ pieces, touched entry.1) :
    ∀ {issued : List Segment} {sched : SchedulerState}
      {out : Option (List Segment) × SchedulerState},
      (∀ seg ∈ issued, touched seg.pieceId) →
      issueAll w pieces issued sched = some out → Frame touched sched out.2 := by
  induction pieces with
  | nil =>
    intro issued sched out _ hout
    obtain rfl := some.inj hout
    exact Frame.refl touched sched
  | cons entry rest ih =>
    intro issued sched out hissd hout
    obtain ⟨he, hrest⟩ := forall_mem_cons.mp hps
    obtain ⟨⟨seg, mid⟩, hiss, hout⟩ := bind_eq_some_iff.mp hout
    have hframe := issueLease_frame he hiss
    cases seg with
    | none =>
      obtain ⟨next, hnext, hout⟩ := bind_eq_some_iff.mp hout
      obtain rfl := some.inj hout
      exact hframe.trans (rollBack_frame hissd hnext)
    | some seg =>
      refine hframe.trans (ih hrest ?_ hout)
      intro other ho
      rcases mem_append.mp ho with ho | ho
      · exact hissd other ho
      · obtain ⟨missing, -, rfl, -⟩ := issueLease_segment hiss
        rw [mem_singleton.mp ho]
        exact he

private theorem issueAll_pieces {pieces : List (Nat × ByteRange)} :
    ∀ {issued segs : List Segment} {sched next : SchedulerState},
      issueAll w pieces issued sched = some (some segs, next) →
      segs.map Segment.pieceId = issued.map Segment.pieceId ++ pieces.map Prod.fst := by
  induction pieces with
  | nil =>
    intro issued segs sched next hout
    obtain ⟨rfl, -⟩ := by simpa using some.inj hout
    simp
  | cons entry rest ih =>
    intro issued segs sched next hout
    obtain ⟨⟨seg, mid⟩, hiss, hout⟩ := bind_eq_some_iff.mp hout
    cases seg with
    | none =>
      obtain ⟨after, -, hout⟩ := bind_eq_some_iff.mp hout
      simp at hout
    | some seg =>
      obtain ⟨missing, -, rfl, -⟩ := issueLease_segment hiss
      rw [ih hout]
      simp [leased]

theorem issueDynamicCandidate_frame {cand : AllocationCandidate} {stop : Nat}
    {segs : List Segment}
    (hout : sched.issueDynamicCandidate cand stop w = some (some segs, next)) :
    Frame (· ∈ segs.map Segment.pieceId) sched next := by
  unfold issueDynamicCandidate at hout
  split at hout
  · simp at hout
  · obtain ⟨⟨issued, after⟩, hiss, hout⟩ := bind_eq_some_iff.mp hout
    cases issued with
    | none => simp at hout
    | some issued =>
      simp only [some.injEq, Prod.mk.injEq, ite_none_left_eq_some] at hout
      obtain ⟨⟨-, rfl⟩, rfl⟩ := hout
      refine issueAll_frame _ (fun entry he => ?_) (by simp) hiss
      rw [issueAll_pieces hiss]
      exact mem_map_of_mem he

end SchedulerState

end Bytehaul.Scheduler
