import Bytehaul.Session.Multi.Moves
import Bytehaul.Foundation.Runs

/-!
# The recovery queue and the scheduler agree

No lease is owned twice, and what waits for recovery is missing; every move of the ledger
keeps this.
-/

namespace Bytehaul.Session

open Foundation Storage Scheduler List Function SchedulerState Segment
open PendingRange (allPieces)

structure Owned {n : Nat} (sched : SchedulerState) (holding : Fin n → Holding) : Prop where
  backed : ∀ w, Backed sched (holding w).leases
  distinct : ∀ w, ((holding w).leases.map pieceId).Nodup
  apart : ∀ w other, other ≠ w → ∀ first ∈ (holding w).leases,
    ∀ second ∈ (holding other).leases, first.leaseKey ≠ second.leaseKey

section Owned

variable {n : Nat} {sched next : SchedulerState} {holding : Fin n → Holding} {w : Fin n}
  {new : Holding} {seg : Segment}

variable (h : Owned sched holding)
include h

theorem Owned.update (hback : Backed next new.leases)
    (hdist : (new.leases.map pieceId).Nodup)
    (hapart : ∀ other, other ≠ w → ∀ first ∈ new.leases, ∀ second ∈ (holding other).leases,
      first.leaseKey ≠ second.leaseKey)
    (hkept : ∀ other, other ≠ w → ∀ seg ∈ (holding other).leases,
      next.leaseRange seg.leaseKey = sched.leaseRange seg.leaseKey) :
    Owned next (Function.update holding w new) where
  backed other seg hseg := by
    by_cases ho : other = w
    · subst ho
      rw [update_self] at hseg
      exact hback seg hseg
    · rw [update_of_ne ho] at hseg
      rw [hkept other ho seg hseg]
      exact h.backed other seg hseg
  distinct other := by
    by_cases ho : other = w
    · subst ho
      rwa [update_self]
    · rw [update_of_ne ho]
      exact h.distinct other
  apart first second hne a ha b hb := by
    by_cases hfst : first = w
    · subst hfst
      rw [update_self] at ha
      rw [update_of_ne hne] at hb
      exact hapart second hne a ha b hb
    · rw [update_of_ne hfst] at ha
      by_cases hsnd : second = w
      · subst hsnd
        rw [update_self] at hb
        exact (hapart first hfst b hb a ha).symm
      · rw [update_of_ne hsnd] at hb
        exact h.apart first second hne a ha b hb

private theorem Owned.of_leaseRange
    (hkept : ∀ key, next.leaseRange key = sched.leaseRange key) : Owned next holding :=
  ⟨fun w seg hseg => (hkept _).trans (h.backed w seg hseg), h.distinct, h.apart⟩

private theorem Owned.eq_of_piece {first second : Segment}
    (hfst : first ∈ (holding w).leases) (hsnd : second ∈ (holding w).leases)
    (hp : first.pieceId = second.pieceId) : first = second :=
  inj_on_of_nodup_map (h.distinct w) hfst hsnd hp

theorem Owned.shrink (hdist : (new.leases.map pieceId).Nodup)
    (hsubset : ∀ seg ∈ new.leases, seg ∈ (holding w).leases)
    (hkept : ∀ key, (∀ seg ∈ (holding w).leases, seg ∉ new.leases →
      seg.leaseKey ≠ key) → next.leaseRange key = sched.leaseRange key) :
    Owned next (Function.update holding w new) := by
  apply h.update
  · intro seg hseg
    rw [hkept]
    · exact h.backed w seg (hsubset seg hseg)
    · intro gone hgone hout hkey
      have hp := congrArg LeaseKey.pieceId hkey
      exact hout (h.eq_of_piece hgone (hsubset seg hseg) hp ▸ hseg)
  · exact hdist
  · exact fun other ho first hfst => h.apart w other ho first (hsubset first hfst)
  · intro other ho seg hseg
    exact hkept _ fun gone hgone _ => h.apart w other ho gone hgone seg hseg

theorem Owned.lend (hlnd : sched.Lends next new.leases)
    (hdist : (new.leases.map pieceId).Nodup) :
    Owned next (Function.update holding w new) := by
  have hold : ∀ other, ∀ seg ∈ (holding other).leases, ∀ fresh ∈ new.leases,
      fresh.leaseKey ≠ seg.leaseKey := by
    intro other seg hseg fresh hfresh hkey
    have hunused := hlnd.unused fresh hfresh
    rw [hkey, h.backed other seg hseg] at hunused
    cases hunused
  apply h.update hlnd.held_new hdist
  · exact fun other _ fresh hfresh seg hseg => hold other seg hseg fresh hfresh
  · exact fun other _ seg hseg =>
      hlnd.held_old _ fun fresh hfresh => hold other seg hseg fresh hfresh

omit h in
theorem leaseRange_of_custody {custody : Custody LeaseKey} (h : next.custody = custody)
    (key : LeaseKey) : next.leaseRange key = custody.held key :=
  congrFun (congrArg Custody.held h) key

theorem Owned.settle {queued : List Segment} (hheld : (holding w).leases = seg :: queued)
    (hcust : next.custody = sched.custody.settle seg.leaseKey) (hnew : new.leases = queued) :
    Owned next (Function.update holding w new) := by
  have hdist := h.distinct w
  rw [hheld, map_cons, nodup_cons] at hdist
  apply h.shrink
  · rw [hnew]
    exact hdist.2
  · rw [hheld, hnew]
    exact fun other ho => mem_cons_of_mem _ ho
  · intro key hkey
    rw [hheld, hnew] at hkey
    have hne := hkey seg mem_cons_self fun hmem =>
      hdist.1 (mem_map_of_mem hmem)
    rw [leaseRange_of_custody hcust]
    exact update_of_ne hne.symm _ _

theorem Owned.retain {queued : List Segment} {middle : Nat}
    (hheld : (holding w).leases = seg :: queued) (hcust : next.custody =
      sched.custody.shrink seg.leaseKey ⟨middle, seg.stop⟩)
    (hnew : new.leases = { seg with start := middle } :: queued) :
    Owned next (Function.update holding w new) := by
  have hdist := h.distinct w
  have hback := h.backed w
  have hapart := h.apart w
  rw [hheld] at hdist hback hapart
  have hrng : ∀ key, key ≠ seg.leaseKey → next.leaseRange key = sched.leaseRange key := by
    intro key hne
    rw [leaseRange_of_custody hcust]
    exact update_of_ne hne _ _
  apply h.update
  · rw [hnew]
    intro other ho
    rcases mem_cons.mp ho with rfl | ho
    · rw [leaseRange_of_custody hcust]
      exact update_self _ _ _
    · rw [hrng]
      · exact hback other (mem_cons_of_mem _ ho)
      · intro hkey
        have hp : other.pieceId = seg.pieceId := congrArg LeaseKey.pieceId hkey
        exact (nodup_cons.mp hdist).1 (hp ▸ mem_map_of_mem ho)
  · rw [hnew]
    exact hdist
  · rw [hnew]
    intro other hne first hfst second hsnd
    rcases mem_cons.mp hfst with rfl | hfst
    · exact hapart other hne seg mem_cons_self second hsnd
    · exact hapart other hne first (mem_cons_of_mem _ hfst) second hsnd
  · intro other hne second hsnd
    exact hrng _ (hapart other hne seg mem_cons_self second hsnd).symm

theorem Owned.renew {acked : List Span} (hconserved : sched.Conserved acked) {renewed : Segment}
    (hheld : (holding w).leases = [seg])
    (hkey : renewed.leaseKey = ⟨seg.leaseKey.pieceId, sched.nextLeaseId⟩)
    (hspan : renewed.span = seg.span) (hcust : next.custody =
      sched.custody.rename seg.leaseKey renewed.leaseKey seg.span)
    (hnew : new.leases = [renewed]) : Owned next (Function.update holding w new) := by
  have hapart := h.apart w
  rw [hheld] at hapart
  have hfresh : ∀ other, ∀ second ∈ (holding other).leases, renewed.leaseKey ≠ second.leaseKey := by
    intro other second hsnd heq
    obtain ⟨-, hid, -⟩ := hconserved.leaseRange_spec (h.backed other second hsnd)
    rw [← heq, hkey] at hid
    exact Nat.lt_irrefl _ hid
  apply h.update
  · rw [hnew]
    intro other ho
    obtain rfl := mem_singleton.mp ho
    rw [leaseRange_of_custody hcust, hspan]
    exact update_self _ _ _
  · simp [hnew]
  · rw [hnew]
    intro other _ first hfst second hsnd
    obtain rfl := mem_singleton.mp hfst
    exact hfresh other second hsnd
  · intro other hne second hsnd
    rw [leaseRange_of_custody hcust]
    simp only [Custody.rename]
    rw [update_of_ne (hfresh other second hsnd).symm, update_of_ne]
    · rfl
    · exact (hapart other hne seg mem_cons_self second hsnd).symm

theorem Owned.release {segments leases : List Segment}
    (hparts : ((holding w).leases).Perm (segments ++ leases))
    (hrel : Released sched next segments) (hnew : new.leases = leases) :
    Owned next (Function.update holding w new) := by
  have hdist := h.distinct w
  rw [(hparts.map pieceId).nodup_iff, map_append, nodup_append] at hdist
  apply h.shrink
  · rw [hnew]
    exact hdist.2.1
  · rw [hnew]
    exact fun seg hseg => hparts.mem_iff.mpr (mem_append_right _ hseg)
  · intro key hkey
    rw [hnew] at hkey
    apply hrel.kept
    intro seg hseg
    apply hkey seg (hparts.mem_iff.mpr (mem_append_left _ hseg))
    intro hleft
    exact hdist.2.2 _ (mem_map_of_mem hseg) _ (mem_map_of_mem hleft) rfl

theorem Owned.forget (hls : new.leases.Sublist (holding w).leases) :
    Owned sched (Function.update holding w new) :=
  h.shrink ((h.distinct w).sublist (hls.map _)) (fun _ hseg => hls.subset hseg)
    fun _ _ => rfl

theorem Owned.of_refused (hlnd : sched.Lends next []) : Owned next holding :=
  h.of_leaseRange fun key => hlnd.held_old key (by simp)

end Owned

structure Queue (sched : SchedulerState) (pending : List PendingRange) : Prop where
  nonempty : ∀ range ∈ pending, range.pieces ≠ []
  pos : ∀ piece ∈ allPieces pending, piece.start < piece.stop
  inside : ∀ piece ∈ allPieces pending, piece.piece < sched.pieceMap.pieceCount ∧
    ∀ b ∈ piece.span, b ∈ sched.pieceMap.pieceRange piece.piece ∧ b ∈ sched.custody.missing
  once : ∀ b, hits ((allPieces pending).map PendingPiece.span) b ≤ 1
  chain : sched.stopped = false → ∀ range ∈ pending, range.pieces.IsChain PendingPiece.Continues

section Queue

variable {sched next : SchedulerState} {pending rest : List PendingRange} {range : PendingRange}
  {acked : List Span} {segments : List Segment}

theorem Queue.nil : Queue sched [] := by
  constructor <;> simp [allPieces]

structure Extends (sched next : SchedulerState) : Prop where
  count : next.pieceMap.pieceCount = sched.pieceMap.pieceCount
  range : ∀ i, next.pieceMap.pieceRange i = sched.pieceMap.pieceRange i
  missing : ∀ b, b ∈ sched.custody.missing → b ∈ next.custody.missing
  running : next.stopped = false → sched.stopped = false

theorem Extends.of_pieceMap (hmap : next.pieceMap = sched.pieceMap)
    (hmiss : ∀ b, b ∈ sched.custody.missing → b ∈ next.custody.missing)
    (hlive : next.stopped = false → sched.stopped = false) : Extends sched next :=
  ⟨by rw [hmap], fun i => by rw [hmap], hmiss, hlive⟩

theorem Queue.mono (h : Queue sched pending) (hext : Extends sched next) :
    Queue next pending where
  nonempty := h.nonempty
  pos := h.pos
  inside piece hp := by
    obtain ⟨hlt, hin⟩ := h.inside piece hp
    refine ⟨hext.count ▸ hlt, fun b hb => ?_⟩
    rw [hext.range]
    exact ⟨(hin b hb).1, hext.missing b (hin b hb).2⟩
  once := h.once
  chain hlive := h.chain (hext.running hlive)

theorem allPieces_cons (range : PendingRange) (rest : List PendingRange) :
    allPieces (range :: rest) = range.pieces ++ allPieces rest := rfl

theorem Queue.pos_front (h : Queue sched (range :: rest)) :
    ∀ piece ∈ range.pieces, piece.start < piece.stop := by
  intro piece hp
  apply h.pos
  exact mem_append_left _ hp

theorem Queue.inside_part (h : Queue sched (range :: rest)) {part piece : PendingPiece}
    (hp : piece ∈ range.pieces) (hid : part.piece = piece.piece)
    (hlo : piece.start ≤ part.start) (hhi : part.stop ≤ piece.stop) :
    part.piece < sched.pieceMap.pieceCount ∧
      ∀ b ∈ part.span, b ∈ sched.pieceMap.pieceRange part.piece ∧ b ∈ sched.custody.missing := by
  have hmem : piece ∈ allPieces (range :: rest) := by exact mem_append_left _ hp
  obtain ⟨hlt, hin⟩ := h.inside piece hmem
  rw [hid]
  refine ⟨hlt, fun b hb => hin b ?_⟩
  simp only [PendingPiece.span, Span.mem_iff] at hb ⊢
  omega

theorem Queue.replace_front (h : Queue sched (range :: rest)) {parts : List PendingPiece}
    {after : List PendingRange}
    (haft : allPieces after = parts ++ allPieces rest)
    (hpos : ∀ part ∈ parts, part.start < part.stop)
    (hin : ∀ part ∈ parts, ∃ piece ∈ range.pieces, part.piece = piece.piece ∧
      piece.start ≤ part.start ∧ part.stop ≤ piece.stop)
    (hhits : ∀ b, hits (parts.map PendingPiece.span) b ≤
      hits (range.pieces.map PendingPiece.span) b)
    (hnemp : ∀ range ∈ after, range.pieces ≠ [])
    (hchain : sched.stopped = false →
      ∀ range ∈ after, range.pieces.IsChain PendingPiece.Continues) :
    Queue sched after where
  nonempty := hnemp
  pos piece hp := by
    rw [haft, mem_append] at hp
    rcases hp with hp | hp
    · exact hpos piece hp
    · apply h.pos
      exact mem_append_right _ hp
  inside piece hp := by
    rw [haft, mem_append] at hp
    rcases hp with hpart | hp
    · obtain ⟨whole, hwh, hid, hlo, hhi⟩ := hin piece hpart
      exact h.inside_part hwh hid hlo hhi
    · apply h.inside
      exact mem_append_right _ hp
  once b := by
    have honce := h.once b
    have hle := hhits b
    rw [allPieces_cons, map_append, hits_append] at honce
    rw [haft, map_append, hits_append]
    omega
  chain := hchain

theorem allPieces_remaining (range : PendingRange) (slots : Nat) (rest : List PendingRange) :
    allPieces (if (range.takePrefix slots).2.pieces = [] then rest
      else (range.takePrefix slots).2 :: rest) =
        (range.takePrefix slots).2.pieces ++ allPieces rest := by
  split
  · rename_i hemp
    rw [hemp, nil_append]
  · rfl

theorem Queue.takeFront (h : Queue sched (range :: rest)) (slots : Nat) :
    Queue sched (if (range.takePrefix slots).2.pieces = [] then rest
      else (range.takePrefix slots).2 :: rest) := by
  obtain ⟨hcut, -, -⟩ := PendingRange.takePrefix_cut h.pos_front
    (h.nonempty range mem_cons_self) slots
  refine h.replace_front (allPieces_remaining range slots rest) ?_ ?_ ?_ ?_ ?_
  · exact fun part hpart => hcut.pos part (mem_append_right _ hpart)
  · exact fun part hpart => hcut.inside part (mem_append_right _ hpart)
  · intro b
    have := hcut.hits_eq b
    omega
  · intro other ho
    split at ho
    · exact h.nonempty other (mem_cons_of_mem _ ho)
    · rename_i hleft
      rcases mem_cons.mp ho with rfl | ho
      · exact hleft
      · exact h.nonempty other (mem_cons_of_mem _ ho)
  · intro hlive other ho
    split at ho
    · exact h.chain hlive other (mem_cons_of_mem _ ho)
    · rcases mem_cons.mp ho with rfl | ho
      · exact (hcut.chain (h.chain hlive range mem_cons_self)).2
      · exact h.chain hlive other (mem_cons_of_mem _ ho)

variable (hconserved : sched.Conserved acked)
include hconserved

private theorem bit_false_of_missing {i b : Nat}
    (hb : b ∈ sched.pieceMap.pieceRange i) (hi : i < sched.pieceMap.pieceCount)
    (hmiss : b ∈ sched.custody.missing) : sched.pieceMap.bit i = false := by
  rw [hconserved.missing_iff hi hb] at hmiss
  by_contra hbit
  rw [Bool.not_eq_false] at hbit
  cases hp : sched.pieces[i]? with
  | some piece => simp [(hconserved.runtime i piece hp).2.1] at hbit
  | none => simp [missingSpans, hp, hbit] at hmiss

theorem recoveryChain_of_waiting {pieces : List PendingPiece}
    {prev : Option (Nat × Nat)} (hchain : pieces.IsChain PendingPiece.Continues)
    (hpos : ∀ piece ∈ pieces, piece.start < piece.stop)
    (hin : ∀ piece ∈ pieces, piece.piece < sched.pieceMap.pieceCount ∧
      ∀ b ∈ piece.span, b ∈ sched.pieceMap.pieceRange piece.piece ∧ b ∈ sched.custody.missing)
    (hprevious : ∀ last, prev = some last → ∀ piece ∈ pieces.head?,
      last.1 + 1 = piece.piece ∧ last.2 = piece.start) :
    sched.recoveryChain prev (pieces.map PendingPiece.entry) = true := by
  induction pieces generalizing prev with
  | nil => rfl
  | cons piece pieces ih =>
    have hnemp := hpos piece mem_cons_self
    obtain ⟨hlt, hbyt⟩ := hin piece mem_cons_self
    have hfst := hbyt piece.start ⟨Nat.le_refl _, hnemp⟩
    have hlast := hbyt (piece.stop - 1) ⟨by change piece.start ≤ _; omega, by
      change _ < piece.stop
      omega⟩
    have hbit := bit_false_of_missing hconserved hfst.1 hlt hfst.2
    have hrest : sched.recoveryChain (some (piece.piece, piece.stop))
        (pieces.map PendingPiece.entry) = true := by
      apply ih hchain.tail
      · exact fun other ho => hpos other (mem_cons_of_mem _ ho)
      · exact fun other ho => hin other (mem_cons_of_mem _ ho)
      · rintro _ hsome next hnext
        obtain rfl := Option.some.inj hsome
        exact hchain.rel_head? hnext
    have hhi := hlast.1.2
    rw [map_cons]
    simp only [PendingPiece.entry, recoveryChain, Bool.and_eq_true]
    refine ⟨⟨⟨⟨⟨⟨decide_eq_true hlt, decide_eq_true hnemp⟩, decide_eq_true hfst.1.1⟩,
      decide_eq_true ?_⟩, ?_⟩, ?_⟩, hrest⟩
    · change piece.stop ≤ _
      omega
    · simp [PieceMap.isComplete, hbit]
    · cases prev with
      | none => rfl
      | some last =>
        obtain ⟨hid, hstart⟩ := hprevious last rfl piece rfl
        simp [PendingPiece.span, hid, hstart]

theorem Queue.assign_front (h : Queue sched (range :: rest)) (hlive : sched.stopped = false)
    (slots workerId : Nat) : ∃ segments after, sched.assignRecoveryBatch
      ((range.takePrefix slots).1.map PendingPiece.entry) workerId =
        some (some segments, after) := by
  obtain ⟨hcut, hne, hlen⟩ := PendingRange.takePrefix_cut h.pos_front
    (h.nonempty range mem_cons_self) slots
  have hin : ∀ part ∈ (range.takePrefix slots).1, part.piece < sched.pieceMap.pieceCount ∧
      ∀ b ∈ part.span, b ∈ sched.pieceMap.pieceRange part.piece ∧ b ∈ sched.custody.missing := by
    intro part hpart
    obtain ⟨piece, hp, hid, hlo, hhi⟩ := hcut.inside part (mem_append_left _ hpart)
    exact h.inside_part hp hid hlo hhi
  have hpos : ∀ part ∈ (range.takePrefix slots).1, part.start < part.stop :=
    fun part hpart => hcut.pos part (mem_append_left _ hpart)
  have hchain := (hcut.chain (h.chain hlive range mem_cons_self)).1
  obtain ⟨⟨segments, after⟩, hasg, -, -, hprog⟩ :=
    assignRecoveryBatch_spec hconserved ((range.takePrefix slots).1.map PendingPiece.entry) workerId
  have hsome : segments ≠ none := by
    apply hprog hlive
    · simpa using hne
    · simpa using hlen
    · exact recoveryChain_of_waiting hconserved hchain hpos hin (by simp)
    · intro entry he b hb
      obtain ⟨part, hpart, rfl⟩ := mem_map.mp he
      exact ((hin part hpart).2 b hb).2
    · rw [pairwise_map]
      have hapart : ((range.takePrefix slots).1.map PendingPiece.span).Pairwise Span.Apart := by
        apply pairwise_apart_of_hits_le_one
        intro b
        have honce := h.once b
        have heq := hcut.hits_eq b
        rw [allPieces_cons, map_append, hits_append] at honce
        omega
      rwa [pairwise_map] at hapart
  obtain ⟨segments, rfl⟩ := Option.ne_none_iff_exists'.mp hsome
  exact ⟨segments, after, hasg⟩

omit hconserved in
theorem Queue.lend {after : SchedulerState} (slots : Nat) (h : Queue sched (range :: rest))
    (hlnd : sched.Lends after segments)
    (hspans : segments.map Segment.span = (range.takePrefix slots).1.map PendingPiece.span) :
    Queue after (if (range.takePrefix slots).2.pieces = [] then rest
      else (range.takePrefix slots).2 :: rest) := by
  obtain ⟨hcut, -, -⟩ := PendingRange.takePrefix_cut h.pos_front
    (h.nonempty range mem_cons_self) slots
  have hleft := h.takeFront slots
  refine ⟨hleft.nonempty, hleft.pos, fun piece hp => ?_, hleft.once, ?_⟩
  · obtain ⟨hlt, hin⟩ := hleft.inside piece hp
    rw [hlnd.pieceMap]
    refine ⟨hlt, fun b hb => ⟨(hin b hb).1, ?_⟩⟩
    rw [hlnd.missing]
    refine ⟨(hin b hb).2, ?_⟩
    have hzero : hits (segments.map span) b = 0 := by
      have honce := h.once b
      have heq := hcut.hits_eq b
      have hpos : 0 < hits ((allPieces (if (range.takePrefix slots).2.pieces = [] then rest
          else (range.takePrefix slots).2 :: rest)).map PendingPiece.span) b :=
        hits_pos_of_mem (mem_map_of_mem hp) hb
      rw [allPieces_cons, map_append, hits_append] at honce
      rw [allPieces_remaining, map_append, hits_append] at hpos
      rw [hspans]
      omega
    intro seg hseg
    exact hits_eq_zero_iff.mp hzero seg.span (mem_map_of_mem hseg)
  · intro hlive
    rw [hlnd.stopped] at hlive
    exact hleft.chain hlive

private theorem leased_apart (hback : Backed sched segments)
    (hdist : (segments.map pieceId).Nodup) :
    (segments.map Segment.span).Pairwise Span.Apart := by
  rw [nodup_iff_pairwise_ne, pairwise_map] at hdist
  rw [pairwise_map]
  refine hdist.imp_of_mem ?_
  intro first second hfst hsnd hne
  apply hconserved.custody_sound.apart _ _ _ _ _ (hback first hfst) (hback second hsnd)
  exact fun hkey => hne (congrArg LeaseKey.pieceId hkey)

omit hconserved in
theorem keys_ne_of_nodup (hdist : (segments.map pieceId).Nodup) :
    segments.Pairwise fun first second => first.leaseKey ≠ second.leaseKey := by
  rw [nodup_iff_pairwise_ne, pairwise_map] at hdist
  exact hdist.imp fun hne hkey => hne (congrArg LeaseKey.pieceId hkey)

theorem Queue.release {after : SchedulerState} {added : List PendingRange} (h : Queue sched pending)
    (hback : Backed sched segments) (hdist : (segments.map pieceId).Nodup)
    (hrel : Released sched after segments)
    (hadded : allPieces added = segments.map PendingPiece.ofSegment)
    (hwait : ∀ range ∈ added, range.Waiting) : Queue after (pending ++ added) := by
  have hkept : Queue after pending :=
    h.mono (.of_pieceMap hrel.pieceMap (fun b hb => (hrel.missing b).mpr (.inl hb))
      (fun hlive => hrel.stopped ▸ hlive))
  have happ : allPieces (pending ++ added) =
      allPieces pending ++ segments.map PendingPiece.ofSegment := by
    rw [← hadded]
    simp [allPieces]
  have hspans : (segments.map PendingPiece.ofSegment).map PendingPiece.span =
      segments.map Segment.span := by
    rw [map_map]
    rfl
  constructor
  · intro range hrng
    rcases mem_append.mp hrng with hrng | hrng
    · exact h.nonempty range hrng
    · exact (hwait range hrng).2
  · intro piece hp
    rw [happ, mem_append] at hp
    rcases hp with hp | hp
    · exact h.pos piece hp
    · obtain ⟨seg, hseg, rfl⟩ := mem_map.mp hp
      exact (hconserved.leaseRange_spec (hback seg hseg)).2.2.1
  · intro piece hp
    rw [happ, mem_append] at hp
    rcases hp with hp | hp
    · exact hkept.inside piece hp
    · obtain ⟨seg, hseg, rfl⟩ := mem_map.mp hp
      obtain ⟨hlt, -, -, -, hin⟩ := hconserved.leaseRange_spec (hback seg hseg)
      rw [hrel.pieceMap]
      refine ⟨hlt, fun b hb => ⟨hin b hb, ?_⟩⟩
      exact (hrel.missing b).mpr (.inr ⟨seg, hseg, hb⟩)
  · intro b
    rw [happ, map_append, hits_append, hspans]
    have hsegs := hits_le_one_of_pairwise_apart (leased_apart hconserved hback hdist) b
    have honce := h.once b
    by_cases hb : 0 < hits ((allPieces pending).map PendingPiece.span) b
    · obtain ⟨span, hspan, hmem⟩ := hits_pos_iff.mp hb
      obtain ⟨piece, hp, rfl⟩ := mem_map.mp hspan
      have hmiss := ((h.inside piece hp).2 b hmem).2
      have hzero : hits (segments.map span) b = 0 := by
        refine hits_eq_zero_iff.mpr fun span hspan hlsd => ?_
        obtain ⟨seg, hseg, rfl⟩ := mem_map.mp hspan
        exact hconserved.custody_sound.free _ _ b (hback seg hseg) hlsd hmiss
      omega
    · omega
  · intro hlive range hrng
    rcases mem_append.mp hrng with hrng | hrng
    · exact hkept.chain hlive range hrng
    · exact (hwait range hrng).1.chain

omit hconserved

theorem Extends.of_refused (h : sched.Lends next []) : Extends sched next :=
  .of_pieceMap h.pieceMap (fun b hb => (h.missing b).mpr ⟨hb, by simp⟩)
    fun hlive => h.stopped ▸ hlive

end Queue

namespace Ledger

variable {n : Nat} {cfg : PoolConfig} {ledger next : Ledger n} {w : Fin n} {sched : SchedulerState}
  {segments queued : List Segment} {seg : Segment} {lin : LineageId}

structure Kept (ledger : Ledger n) : Prop where
  conserved : ledger.sched.Conserved ledger.acked
  owned : Owned ledger.sched ledger.holding
  queue : Queue ledger.sched ledger.pending

/-- What a move leads to; at most one piece is completed. -/
structure Advances (ledger next : Ledger n) : Prop where
  kept : next.Kept
  grows : ledger.sched.pieceMap.Grows next.sched.pieceMap

theorem Advances.same (h : next.Kept) (hmap : next.sched.pieceMap = ledger.sched.pieceMap) :
    ledger.Advances next :=
  ⟨h, hmap ▸ .refl _⟩

variable (h : ledger.Kept)
include h

theorem Kept.take {asg : RequestAssignment} {params : SchedulerState.RequestParams}
    (hpend : ledger.pending = [])
    (hasg : ledger.sched.assignRequestWithTrace w params = some (some asg, sched)) :
    ledger.Advances ({ ledger with sched := sched }.hold w
      ⟨asg.segments, none, none, false⟩) := by
  have hasgd := assigned_of_request h.conserved hasg
  obtain ⟨hlnd, -, hbatch⟩ := hasgd.granted asg rfl
  refine .same ⟨hasgd.conserved, h.owned.lend hlnd hbatch.nodup, ?_⟩ hlnd.pieceMap
  rw [hpend]
  exact .nil

omit h in
private theorem spans_of_entries {pieces : List PendingPiece}
    (h : segments.map (fun seg => (seg.pieceId, seg.span)) = pieces.map PendingPiece.entry) :
    segments.map Segment.span = pieces.map PendingPiece.span := by
  have hsnd := congrArg (map Prod.snd) h
  simpa [map_map, comp_def, PendingPiece.entry] using hsnd

theorem Kept.retake {range : PendingRange} {rest : List PendingRange} {slots : Nat}
    (hpend : ledger.pending = range :: rest)
    (hasg : ledger.sched.assignRecoveryBatch
      ((range.takePrefix slots).1.map PendingPiece.entry) w = some (some segments, sched)) :
    ledger.Advances ({ ledger with
      sched := sched
      pending := if (range.takePrefix slots).2.pieces = [] then rest
        else (range.takePrefix slots).2 :: rest }.hold w ⟨segments, none, none, false⟩) := by
  obtain ⟨out, hout, hasgd, hsegs, -⟩ := assignRecoveryBatch_spec
    h.conserved ((range.takePrefix slots).1.map PendingPiece.entry) w
  obtain rfl := Option.some.inj (hasg.symm.trans hout)
  obtain ⟨hlnd, -, hbatch⟩ := hasgd.granted segments rfl
  refine .same ⟨hasgd.conserved, h.owned.lend hlnd hbatch.nodup, ?_⟩ hlnd.pieceMap
  exact Queue.lend slots (hpend ▸ h.queue) hlnd (spans_of_entries (hsegs segments rfl).1)

theorem Kept.putBack {range : PendingRange} {rest : List PendingRange} {slots : Nat}
    (hpend : ledger.pending = range :: rest)
    (hasg : ledger.sched.assignRecoveryBatch
      ((range.takePrefix slots).1.map PendingPiece.entry) w = some (none, sched)) :
    ledger.Advances { ledger with
      sched := sched
      pending := (range.takePrefix slots).2.prepend (range.takePrefix slots).1 :: rest } := by
  have hasgd := assigned_of_recovery h.conserved hasg
  have hlnd := hasgd.refused rfl
  have hq : Queue ledger.sched (range :: rest) := hpend ▸ h.queue
  obtain ⟨hcut, hne, -⟩ := PendingRange.takePrefix_cut hq.pos_front
    (hq.nonempty range mem_cons_self) slots
  have hstpd : ledger.sched.stopped ≠ false := by
    intro hlive
    obtain ⟨segments, after, hsome⟩ := hq.assign_front h.conserved hlive slots w
    rw [hasg] at hsome
    cases hsome
  refine .same ⟨hasgd.conserved, h.owned.of_refused hlnd, .mono ?_ (.of_refused hlnd)⟩ hlnd.pieceMap
  refine hq.replace_front rfl hcut.pos hcut.inside ?_ ?_ (fun h => absurd h hstpd)
  · intro b
    simp only [PendingRange.prepend, map_append, hits_append]
    exact (hcut.hits_eq b).le
  · intro other ho
    rcases mem_cons.mp ho with rfl | ho
    · simp [PendingRange.prepend, hne]
    · exact hq.nonempty other (mem_cons_of_mem _ ho)

theorem Kept.complete (hheld : ledger.holding w = ⟨seg :: queued, some lin, none, false⟩)
    (hcomp : ledger.sched.complete seg.leaseKey = some (true, sched)) :
    ledger.Advances ({ ledger with sched := sched, acked := seg.span :: ledger.acked }.hold w
      ⟨queued, some lin, some seg, false⟩) := by
  have hback := h.owned.backed w
  rw [hheld] at hback
  obtain ⟨after, haft, hconserved, hcust, hmap, hstpd, -⟩ :=
    complete_spec h.conserved (hback seg mem_cons_self)
  obtain rfl : after = sched := by
    rw [hcomp] at haft
    simpa using haft.symm
  have hgrows : ledger.sched.pieceMap.Grows after.pieceMap := by
    rcases hmap with hmap | hmap
    · exact hmap ▸ .refl _
    · exact hmap ▸ PieceMap.markComplete_grows h.conserved.map _
  refine ⟨⟨hconserved, h.owned.settle (by rw [hheld]) hcust rfl, h.queue.mono
    ⟨hgrows.pieceCount, hgrows.pieceRange, fun b hb => ?_, fun hlive => hstpd ▸ hlive⟩⟩,
    hgrows⟩
  change b ∈ after.custody.missing
  rw [hcust]
  exact hb

theorem Kept.retain {middle : Nat}
    (hheld : ledger.holding w = ⟨seg :: queued, some lin, none, false⟩)
    (hlo : seg.start < middle) (hhi : middle < seg.stop)
    (hret : ledger.sched.retainPrefix seg.leaseKey middle = (true, sched)) :
    ledger.Advances ({ ledger with
      sched := sched
      acked := ⟨seg.start, middle⟩ :: ledger.acked }.hold w
        ⟨{ seg with start := middle } :: queued, some lin,
          some { seg with stop := middle }, false⟩) := by
  have hback := h.owned.backed w
  rw [hheld] at hback
  obtain ⟨after, haft, hconserved, hcust, hmap, hstpd, -⟩ :=
    retainPrefix_spec h.conserved (hback seg mem_cons_self) hlo hhi
  obtain rfl : after = sched := by
    rw [hret] at haft
    simpa using haft.symm
  refine .same ⟨hconserved, h.owned.retain (by rw [hheld]) hcust rfl,
    h.queue.mono (.of_pieceMap hmap ?_ fun hlive => hstpd ▸ hlive)⟩ hmap
  intro b hb
  change b ∈ after.custody.missing
  rw [hcust]
  exact hb

theorem Kept.recovered {leases : List Segment} {state after : RecoveryState}
    {requestCap minSize : Nat}
    (hparts : ((ledger.holding w).leases).Perm (segments ++ leases))
    (hrecv : recoverSegments ledger.sched state segments lin requestCap minSize =
      some (sched, after)) :
    ∃ added, Released ledger.sched sched segments ∧ sched.Conserved ledger.acked ∧
      after.pending = state.pending ++ added ∧
      after.recovered = segments.foldl (RecoveryState.noteRecovered lin) state.recovered ∧
      allPieces added = segments.map PendingPiece.ofSegment ∧
      (∀ range ∈ added, range.Waiting) ∧ Backed ledger.sched segments ∧
      (segments.map pieceId).Nodup := by
  have hback : Backed ledger.sched segments := fun seg hseg =>
    h.owned.backed w seg (hparts.mem_iff.mpr (mem_append_left _ hseg))
  have hdist : (segments.map pieceId).Nodup := by
    have hnodup := h.owned.distinct w
    rw [(hparts.map pieceId).nodup_iff, map_append] at hnodup
    exact (nodup_append.mp hnodup).1
  obtain ⟨next, added, heq, hconserved, hrel, hadded, hwait⟩ :=
    recoverSegments_spec h.conserved state hback (keys_ne_of_nodup hdist) lin requestCap minSize
  rw [hrecv] at heq
  obtain ⟨rfl, rfl⟩ := Prod.mk.inj (Option.some.inj heq)
  exact ⟨added, hrel, hconserved, rfl, rfl, hadded, hwait, hback, hdist⟩

theorem Kept.recover {leases : List Segment} {state after : RecoveryState}
    {requestCap minSize : Nat} {holding : Holding}
    (hparts : ((ledger.holding w).leases).Perm (segments ++ leases))
    (hpend : state.pending = ledger.pending)
    (hrecv : recoverSegments ledger.sched state segments lin requestCap minSize =
      some (sched, after)) (hls : holding.leases = leases) :
    ledger.Advances ({ ledger with
      sched := sched
      pending := after.pending
      recovered := after.recovered
      handedOver := ledger.handedOver ++ segments.map Segment.span }.hold w holding) := by
  obtain ⟨added, hrel, hconserved, hq, -, hadded, hwait, hback, hdist⟩ := h.recovered hparts hrecv
  refine .same ⟨hconserved, h.owned.release hparts hrel hls, ?_⟩ hrel.pieceMap
  rw [hq, hpend]
  exact h.queue.release h.conserved hback hdist hrel hadded hwait

theorem Kept.renew {renewed : Segment}
    (hheld : ledger.holding w = ⟨[seg], some lin, none, false⟩)
    (hrenew : ledger.sched.renew seg.leaseKey w = (some renewed, sched)) :
    ledger.Advances ({ ledger with
      sched := sched
      carried := ledger.carried ++ [(renewed, lin)] }.hold w
        ⟨[renewed], some lin, none, false⟩) := by
  have hback := h.owned.backed w
  rw [hheld] at hback
  obtain ⟨other, after, haft, hconserved, hkey, hspan, -, hcust, hmap, hstpd, -⟩ :=
    renew_spec h.conserved (hback seg mem_cons_self) w
  rw [hrenew] at haft
  obtain ⟨ho, rfl⟩ := Prod.mk.inj haft
  obtain rfl := Option.some.inj ho
  refine .same ⟨hconserved, h.owned.renew h.conserved (by rw [hheld]) hkey hspan hcust rfl,
    h.queue.mono (.of_pieceMap hmap ?_ fun hlive => hstpd ▸ hlive)⟩ hmap
  intro b hb
  change b ∈ sched.custody.missing
  rw [hcust]
  exact hb

theorem Kept.surrender {stopped given : Bool} {holding : Holding}
    (hnone : holding.leases = []) (hheld : (ledger.holding w).leases = seg :: queued)
    (hrecl : SchedulerState.reclaim
      { ledger.sched with stopped := ledger.sched.stopped || stopped } seg.leaseKey =
        some (given, sched)) : ledger.Advances ({ ledger with sched := sched }.hold w holding) := by
  have hback := h.owned.backed w
  rw [hheld] at hback
  obtain ⟨after, haft, hconserved, hcust, hmap, hstpd, -⟩ :=
    reclaim_spec (History.stopped_conserved h.conserved (ledger.sched.stopped || stopped))
      (hback seg mem_cons_self)
  rw [hrecl] at haft
  obtain ⟨-, rfl⟩ := Prod.mk.inj (Option.some.inj haft)
  refine .same ⟨hconserved, ?_, h.queue.mono (.of_pieceMap hmap ?_ ?_)⟩ hmap
  · apply h.owned.shrink
    · simp [hnone]
    · simp [hnone]
    · intro key hkey
      rw [hheld] at hkey
      have hne := hkey seg mem_cons_self (by simp [hnone])
      change sched.leaseRange key = _
      rw [leaseRange_of_custody hcust]
      exact update_of_ne hne.symm _ _
  · intro b hb
    change b ∈ sched.custody.missing
    rw [hcust]
    exact .inl hb
  · intro hlive
    have hor : (ledger.sched.stopped || stopped) = false := hstpd.symm.trans hlive
    exact (Bool.or_eq_false_iff.mp hor).1

omit h

theorem Move.advances (hmove : Move cfg ledger next) (h : ledger.Kept) : ledger.Advances next := by
  cases hmove with
  | idle => exact .same h rfl
  | take hpend hfree hasg => exact h.take hpend hasg
  | refuse hasg =>
    have hasgd := assigned_of_request h.conserved hasg
    have hlnd := hasgd.refused rfl
    exact .same ⟨hasgd.conserved, h.owned.of_refused hlnd,
      h.queue.mono (.of_refused hlnd)⟩ hlnd.pieceMap
  | retake hpend hfree hasg => exact h.retake hpend hasg
  | putBack hpend hasg => exact h.putBack hpend hasg
  | adopt hclaimed hf => exact .same ⟨h.conserved, h.owned.forget (by rw [hclaimed]), h.queue⟩ rfl
  | complete hheld hcomp => exact h.complete hheld hcomp
  | retain hheld hlo hhi hret => exact h.retain hheld hlo hhi hret
  | report hheld hkeeps =>
    refine .same ⟨h.conserved, h.owned.forget ?_, h.queue⟩ rfl
    rw [hkeeps.leases_eq, hheld]
  | recover hlineage htransit hparts hpend hrecd hrecv hkeeps =>
    exact h.recover hparts hpend hrecv hkeeps.leases_eq
  | renew hheld hrenew => exact h.renew hheld hrenew
  | charge => exact .same ⟨h.conserved, h.owned, h.queue⟩ rfl
  | fail hfailg hls => exact .same ⟨h.conserved, h.owned.forget hls, h.queue⟩ rfl
  | surrender stopped hfailg hnone hheld hrecl => exact h.surrender hnone hheld hrecl

end Ledger

end Bytehaul.Session
