import Bytehaul.Scheduler.Assignment

/-!
# Runs of the scheduler

Arbitrary sequences of scheduler calls with arbitrary arguments.
-/

namespace Bytehaul.Scheduler

open Foundation List SchedulerState Storage
open Finset (range)

inductive Call where
  | assignTo (workerId : Nat)
  | assignRequestWithTrace (workerId : Nat) (params : SchedulerState.RequestParams)
  | assignSubrange (pieceId start stop workerId : Nat)
  | assignRecoveryBatch (pieces : List (Nat × ByteRange)) (workerId : Nat)
  | extendBatch (first : Segment) (workerId maxConnections byteCap : Nat)
  | retainPrefix (key : LeaseKey) (confirmedEnd : Nat)
  | renew (key : LeaseKey) (workerId : Nat)
  | complete (key : LeaseKey)
  | reclaim (key : LeaseKey)
  | stopAndReclaim (key : LeaseKey)
  deriving Repr

structure History where
  sched : SchedulerState
  acked : List Span

namespace History

/-- Pieces that are complete when the run starts count as acknowledged. -/
def completedSpans (map : PieceMap) : List Span :=
  ((List.range map.pieceCount).filter map.bit).map map.pieceRange

def start (map : PieceMap) : History := ⟨SchedulerState.new map, completedSpans map⟩

def step (history : History) : Call → Checked History
  | .assignTo workerId => do
      let (_, sched) ← history.sched.assignTo workerId
      some { history with sched }
  | .assignRequestWithTrace workerId params => do
      let (_, sched) ← history.sched.assignRequestWithTrace workerId params
      some { history with sched }
  | .assignSubrange pieceId start stop workerId => do
      let (_, sched) ← history.sched.assignSubrange pieceId start stop workerId
      some { history with sched }
  | .assignRecoveryBatch pieces workerId => do
      let (_, sched) ← history.sched.assignRecoveryBatch pieces workerId
      some { history with sched }
  | .extendBatch first workerId maxConnections byteCap => do
      let (_, sched) ← history.sched.extendBatch first workerId maxConnections byteCap
      some { history with sched }
  | .retainPrefix key confirmedEnd =>
    let acknowledged := (history.sched.leaseRange key).toList.map fun span =>
      (⟨span.start, confirmedEnd⟩ : Span)
    match history.sched.retainPrefix key confirmedEnd with
    | (true, sched) => some ⟨sched, acknowledged ++ history.acked⟩
    | (false, sched) => some { history with sched }
  | .renew key workerId => some { history with sched := (history.sched.renew key workerId).2 }
  | .complete key => do
      match ← history.sched.complete key with
      | (true, sched) => some ⟨sched, (history.sched.leaseRange key).toList ++ history.acked⟩
      | (false, sched) => some { history with sched }
  | .reclaim key => do
      let (_, sched) ← history.sched.reclaim key
      some { history with sched }
  | .stopAndReclaim key => do
      let sched ← history.sched.stopAndReclaim key
      some { history with sched }

def run (history : History) : List Call → Checked History
  | [] => some history
  | call :: calls => do
      let history ← history.step call
      history.run calls

variable {map : PieceMap}

theorem hits_completedSpans (h : map.Valid) {i b : Nat} (hi : i < map.pieceCount)
    (hb : b ∈ map.pieceRange i) : hits (completedSpans map) b = if map.bit i then 1 else 0 := by
  have hunique : ∀ j < map.pieceCount, b ∈ map.pieceRange j → j = i := by
    intro j hj hbj
    rw [h.mem_pieceRange_iff hi] at hb
    rw [h.mem_pieceRange_iff hj] at hbj
    exact hbj.2.symm.trans hb.2
  have hapart : (completedSpans map).Pairwise Span.Apart := by
    rw [completedSpans, pairwise_map]
    refine (List.Pairwise.filter _ pairwise_lt_range).imp_of_mem ?_
    intro first second hfst hsnd hlt b hbf hbs
    have hf := mem_range.mp (mem_of_mem_filter hfst)
    have hs := mem_range.mp (mem_of_mem_filter hsnd)
    rw [h.mem_pieceRange_iff hf] at hbf
    rw [h.mem_pieceRange_iff hs] at hbs
    omega
  have hle := hits_le_one_of_pairwise_apart hapart b
  have hpos : 0 < hits (completedSpans map) b ↔ map.bit i = true := by
    rw [hits_pos_iff]
    constructor
    · rintro ⟨span, hspan, hb'⟩
      obtain ⟨j, hj, rfl⟩ := mem_map.mp hspan
      obtain ⟨hj, hbit⟩ := mem_filter.mp hj
      rwa [← hunique j (mem_range.mp hj) hb']
    · intro hbit
      exact ⟨_, mem_map.mpr ⟨i, mem_filter.mpr ⟨mem_range.mpr hi, hbit⟩, rfl⟩, hb⟩
  split
  · rename_i hbit
    have := hpos.mpr hbit
    omega
  · rename_i hbit
    have := mt hpos.mp hbit
    omega

theorem start_conserved (h : map.Valid) : (start map).sched.Conserved (start map).acked := by
  have hmiss : ∀ i, (new map).missingSpans i =
      if map.bit i then [] else [map.pieceRange i] := fun i => rfl
  have hact : ∀ i, (new map).activeSpans i = [] := fun i => rfl
  exact {
    map := h
    runtime := by
      intro i piece hp
      simp [start, new] at hp
    balanced := by
      intro i hi b
      change hits ((new map).missingSpans i) b + hits ((new map).activeSpans i) b +
        (if b ∈ map.pieceRange i then hits (completedSpans map) b else 0) =
        if b ∈ map.pieceRange i then 1 else 0
      rw [hmiss, hact]
      by_cases hb : b ∈ map.pieceRange i
      · rw [hits_completedSpans h hi hb]
        split
        · simp
        · rw [hits_cons, if_pos hb]
          simp
      · split
        · simp
        · rw [hits_cons, if_neg hb]
          simp
    length_available := by
      simpa [start, new, PieceMap.missingBitset] using h.length_completed
    available_iff := by
      intro i hi
      change (new map).available i = true ↔ (new map).missingSpans i ≠ []
      have hlt : i < map.completed.length := h.length_completed ▸ hi
      rw [hmiss]
      simp [available, new, PieceMap.missingBitset, PieceMap.bit, hlt]
    availableRangeCount_eq := by
      change map.pieceCount - map.completedPieces =
        ∑ i ∈ range map.pieceCount, ((new map).missingSpans i).length
      have hspl : ∑ i ∈ range map.pieceCount, ((new map).missingSpans i).length
          + map.completedPieces = map.pieceCount := by
        rw [h.completedPieces_eq, ← Finset.sum_add_distrib]
        rw [Finset.sum_congr rfl (fun i _ => show _ = 1 by rw [hmiss]; split <;> simp)]
        simp
      omega
    activeLeaseCount_eq := by
      change 0 = ∑ i ∈ range map.pieceCount, ((new map).activeSpans i).length
      simp [hact]
    candidate_le := by
      change map.firstMissing.getD 0 ≤ map.pieceCount
      have := h.candidate_le
      unfold PieceMap.firstMissing
      split <;> simp [this] }

private theorem step_of_assigned {history : History} {α : Type}
    {segmentsOf : α → List Segment} {call : Checked (Option α × SchedulerState)}
    (hcall : ∃ out, call = some out ∧
      SchedulerState.Assigned history.sched history.acked segmentsOf out) :
    ∃ next : History, (do
        let (_, sched) ← call
        some { history with sched }) = some next ∧ next.sched.Conserved next.acked := by
  obtain ⟨⟨result, sched⟩, rfl, hasgd⟩ := hcall
  exact ⟨⟨sched, history.acked⟩, rfl, hasgd.conserved⟩

variable {sched : SchedulerState} {acked : List Span}

theorem stopped_conserved (h : sched.Conserved acked)
    (stopped : Bool) : SchedulerState.Conserved { sched with stopped := stopped } acked :=
  ⟨h.map, h.runtime, h.balanced, h.length_available, h.available_iff,
    h.availableRangeCount_eq, h.activeLeaseCount_eq, h.candidate_le⟩

theorem reclaim_conserved (h : sched.Conserved acked)
    (key : LeaseKey) : ∃ out, sched.reclaim key = some out ∧ out.2.Conserved acked := by
  cases hkey : sched.leaseRange key with
  | none => exact ⟨_, (stale_inert hkey 0 0).2.1, h⟩
  | some span =>
    obtain ⟨next, hrecl, hcons, _⟩ := reclaim_spec h hkey
    exact ⟨_, hrecl, hcons⟩

theorem step_conserved {history : History} (h : history.sched.Conserved history.acked)
    (call : Call) :
    ∃ next, history.step call = some next ∧ next.sched.Conserved next.acked := by
  cases call with
  | assignTo w =>
    obtain ⟨out, hout, hasgd, _⟩ := assignToWithSplit_spec h w 1 (2 ^ 64 - 1)
    exact step_of_assigned ⟨out, hout, hasgd⟩
  | assignRequestWithTrace w params =>
    obtain ⟨out, hout, hasgd, _⟩ := assignRequestWithTrace_spec h w params
    exact step_of_assigned ⟨out, hout, hasgd⟩
  | assignSubrange p start stop w => exact step_of_assigned (assignSubrange_spec h p start stop w)
  | assignRecoveryBatch pieces w =>
    obtain ⟨out, hout, hasgd, _⟩ := assignRecoveryBatch_spec h pieces w
    exact step_of_assigned ⟨out, hout, hasgd⟩
  | extendBatch first w maxConnections byteCap =>
    obtain ⟨out, hout, hcons, _⟩ := extendBatchWithOccupied_spec h
      (SchedulerState.Lends.refl _) first w maxConnections 0 byteCap
    refine ⟨⟨out.2.2, history.acked⟩, ?_, hcons⟩
    simp [step, extendBatch, hout]
  | retainPrefix key confirmedEnd =>
    cases hkey : history.sched.leaseRange key with
    | none =>
      refine ⟨history, ?_, h⟩
      simp [step, (stale_inert hkey 0 confirmedEnd).2.2.2]
    | some span =>
      by_cases hin : span.start < confirmedEnd ∧ confirmedEnd < span.stop
      · obtain ⟨sched, hret, hcons, _⟩ := retainPrefix_spec h hkey hin.1 hin.2
        exact ⟨_, by simp only [step, hret, hkey]; rfl, hcons⟩
      · refine ⟨history, ?_, h⟩
        simp [step, retainPrefix_outside hkey
          (show confirmedEnd ≤ span.start ∨ span.stop ≤ confirmedEnd by omega)]
  | renew key w =>
    cases hkey : history.sched.leaseRange key with
    | none =>
      refine ⟨history, ?_, h⟩
      simp [step, (stale_inert hkey w 0).2.2.1]
    | some span =>
      obtain ⟨seg, sched, hrenew, hcons, _⟩ := renew_spec h hkey w
      exact ⟨⟨sched, history.acked⟩, by simp [step, hrenew], hcons⟩
  | complete key =>
    cases hkey : history.sched.leaseRange key with
    | none =>
      refine ⟨history, ?_, h⟩
      simp [step, (stale_inert hkey 0 0).1]
    | some span =>
      obtain ⟨sched, hcomp, hcons, _⟩ := complete_spec h hkey
      exact ⟨_, by simp only [step, hcomp, hkey]; rfl, hcons⟩
  | reclaim key =>
    obtain ⟨out, hrecl, hcons⟩ := reclaim_conserved h key
    exact ⟨⟨out.2, history.acked⟩, by simp [step, hrecl], hcons⟩
  | stopAndReclaim key =>
    obtain ⟨out, hrecl, hcons⟩ := reclaim_conserved (stopped_conserved h true) key
    refine ⟨⟨out.2, history.acked⟩, ?_, hcons⟩
    simp [step, stopAndReclaim, hrecl]

theorem run_conserved (calls : List Call) :
    ∀ history : History, history.sched.Conserved history.acked →
      ∃ last, history.run calls = some last ∧ last.sched.Conserved last.acked := by
  induction calls with
  | nil =>
    intro history h
    exact ⟨history, rfl, h⟩
  | cons call calls ih =>
    intro history h
    obtain ⟨next, hstep, hnext⟩ := step_conserved h call
    obtain ⟨last, hrun, hlast⟩ := ih next hnext
    exact ⟨last, by simp [run, hstep, hrun], hlast⟩

theorem missing_byte_of_ne_nil
    (h : sched.Conserved acked) {i : Nat} (hi : i < sched.pieceMap.pieceCount)
    (hne : sched.missingSpans i ≠ []) : ∃ b, 0 < hits (sched.missingSpans i) b := by
  obtain ⟨span, rest, hspans⟩ := exists_cons_of_ne_nil hne
  refine ⟨span.start, hits_pos_iff.mpr ⟨span, by simp [hspans], ?_⟩⟩
  have hpos : span.start < span.stop := by
    unfold missingSpans at hspans
    cases hp : sched.pieces[i]? with
    | some piece =>
      simp only [hp] at hspans
      exact (h.runtime i piece hp).2.2.normal.nonempty span (by simp [hspans])
    | none =>
      simp only [hp] at hspans
      split at hspans
      · simp at hspans
      · obtain ⟨rfl, _⟩ := cons.inj hspans
        exact h.map.pieceRange_nonempty hi
  exact ⟨Nat.le_refl _, hpos⟩

theorem missingSpans_normal (h : sched.Conserved acked)
    {i : Nat} (hi : i < sched.pieceMap.pieceCount) : Normal (sched.missingSpans i) := by
  unfold missingSpans
  split
  · rename_i piece hp
    exact (h.runtime i piece hp).2.2.normal
  · split
    · exact Normal.nil
    · exact Normal.singleton (h.map.pieceRange_nonempty hi)

theorem bit_iff_acked (h : sched.Conserved acked)
    {i : Nat} (hi : i < sched.pieceMap.pieceCount) : sched.pieceMap.bit i = true ↔
      ∀ b ∈ sched.pieceMap.pieceRange i, hits acked b = 1 := by
  constructor
  · intro hbit b hb
    have hnone : sched.pieces[i]? = none := by
      cases hp : sched.pieces[i]? with
      | none => rfl
      | some piece => simp [(h.runtime i piece hp).2.1] at hbit
    have hbal := h.balanced i hi b
    rw [if_pos hb, if_pos hb] at hbal
    simpa [missingSpans, activeSpans, hnone, hbit] using hbal
  · intro hall
    by_contra hbit
    rw [Bool.not_eq_true] at hbit
    have hopen : ∃ b ∈ sched.pieceMap.pieceRange i,
        0 < hits (sched.missingSpans i) b + hits (sched.activeSpans i) b := by
      obtain ⟨hmiss, hact, hval⟩ := h.runtimePiece hi hbit
      rcases hval.busy with hbusy | hbusy
      · rw [hmiss] at hbusy
        obtain ⟨b, hb⟩ := missing_byte_of_ne_nil h hi hbusy
        exact ⟨b, h.mem_piece_of_missing hi hb, by omega⟩
      · obtain ⟨span, rest, hspans⟩ := exists_cons_of_ne_nil hbusy
        have hmem : span ∈ (sched.runtimePiece i).activeSpans := by simp [hspans]
        obtain ⟨leaseId, hl⟩ := PieceRuntimeState.exists_lease_of_mem hmem
        have hpos := (hval.lease leaseId span hl).1
        rw [hact] at hmem
        have hb := hits_pos_of_mem (b := span.start) hmem ⟨Nat.le_refl _, hpos⟩
        exact ⟨span.start, h.mem_piece_of_active hi hb, by omega⟩
    obtain ⟨b, hb, hpos⟩ := hopen
    have hbal := h.balanced i hi b
    rw [if_pos hb, if_pos hb, hall b hb] at hbal
    omega

/-- A fresh map, or a restored one whose piece count does not run past the end of the file. -/
inductive Origin : PieceMap → Prop where
  | fresh {totalSize pieceSize : Nat} (hsize : 0 < pieceSize) :
      Origin (PieceMap.new totalSize pieceSize)
  | restored {totalSize pieceSize pieceCount : Nat} (bitset : List UInt8)
      (hsize : 0 < pieceSize) (hcount : pieceCount ≤ divCeil totalSize pieceSize) :
      Origin (PieceMap.fromBitset totalSize pieceSize bitset pieceCount)

theorem Origin.valid (h : Origin map) : map.Valid := by
  cases h with
  | fresh hsize => exact PieceMap.new_valid hsize
  | restored bitset hsize hc => exact PieceMap.fromBitset_valid bitset hsize hc

/-- No call panics, every byte of an incomplete piece is missing, leased or acknowledged exactly
once, and the redundant representations agree. -/
theorem run_accounts_for_every_byte {map : PieceMap} (horigin : Origin map) (calls : List Call) :
    ∃ last, (History.start map).run calls = some last ∧
      (∀ i < last.sched.pieceMap.pieceCount, last.sched.pieceMap.bit i = false →
        Normal (last.sched.missingSpans i) ∧
        (∀ b ∈ last.sched.pieceMap.pieceRange i,
          hits (last.sched.missingSpans i ++ last.sched.activeSpans i ++ last.acked) b = 1) ∧
        ∀ b, b ∉ last.sched.pieceMap.pieceRange i →
          hits (last.sched.missingSpans i ++ last.sched.activeSpans i) b = 0) ∧
      (∀ i < last.sched.pieceMap.pieceCount,
        last.sched.available i = true ↔ ∃ b, 0 < hits (last.sched.missingSpans i) b) ∧
      last.sched.availableRangeCount =
        ∑ i ∈ range last.sched.pieceMap.pieceCount, (last.sched.missingSpans i).length ∧
      last.sched.activeLeaseCount =
        ∑ i ∈ range last.sched.pieceMap.pieceCount, (last.sched.activeSpans i).length ∧
      ∀ i < last.sched.pieceMap.pieceCount, last.sched.pieceMap.bit i = true ↔
        ∀ b ∈ last.sched.pieceMap.pieceRange i, hits last.acked b = 1 := by
  obtain ⟨last, hrun, h⟩ := run_conserved calls _ (start_conserved horigin.valid)
  refine ⟨last, hrun, ?_, ?_, h.availableRangeCount_eq, h.activeLeaseCount_eq,
    fun i hi => bit_iff_acked h hi⟩
  · intro i hi _
    refine ⟨missingSpans_normal h hi, ?_, ?_⟩
    · intro b hb
      have hbal := h.balanced i hi b
      rw [if_pos hb, if_pos hb] at hbal
      rw [hits_append, hits_append]
      exact hbal
    · intro b hb
      have hbal := h.balanced i hi b
      rw [if_neg hb, if_neg hb] at hbal
      rw [hits_append]
      exact hbal
  · intro i hi
    rw [h.available_iff i hi]
    constructor
    · exact missing_byte_of_ne_nil h hi
    · rintro ⟨b, hb⟩ hnil
      simp [hnil] at hb

theorem run_accounts_for_ten_bytes : ∃ last, (History.start (PieceMap.new 10 4)).run
        [.assignTo 0, .assignTo 1, .complete ⟨0, 1⟩, .retainPrefix ⟨1, 2⟩ 6,
          .reclaim ⟨1, 2⟩] = some last ∧
      (last.sched.pieceMap.bit 0, last.sched.missingSpans 1) = (true, [⟨6, 8⟩]) ∧
      last.sched.availableRangeCount =
        ∑ i ∈ range last.sched.pieceMap.pieceCount, (last.sched.missingSpans i).length := by
  have horig : Origin (PieceMap.new 10 4) := Origin.fresh (by decide)
  obtain ⟨last, hrun, _, _, hrngs, _⟩ := run_accounts_for_every_byte horig
    [.assignTo 0, .assignTo 1, .complete ⟨0, 1⟩, .retainPrefix ⟨1, 2⟩ 6, .reclaim ⟨1, 2⟩]
  have hvalue : ((History.start (PieceMap.new 10 4)).run
      [.assignTo 0, .assignTo 1, .complete ⟨0, 1⟩, .retainPrefix ⟨1, 2⟩ 6,
        .reclaim ⟨1, 2⟩]).map (fun last =>
          (last.sched.pieceMap.bit 0, last.sched.missingSpans 1)) =
      some (true, [⟨6, 8⟩]) := by decide
  rw [hrun] at hvalue
  exact ⟨last, hrun, Option.some.inj hvalue, hrngs⟩

/-- A piece beyond the end of the object stays available without a missing byte. -/
theorem extra_piece_stays_available : ∃ last,
    (History.start (PieceMap.fromBitset 4 4 [0] 2)).run
      [.assignTo 0, .complete ⟨0, 1⟩, .assignTo 0] = some last ∧
    last.sched.pieceMap.bit 1 = false ∧ last.sched.missingSpans 1 = [] ∧
    last.sched.available 1 = true ∧ last.sched.availableRangeCount = 1 ∧
    ∑ i ∈ range last.sched.pieceMap.pieceCount, (last.sched.missingSpans i).length = 0 := by
  have hview : ((History.start (PieceMap.fromBitset 4 4 [0] 2)).run
      [.assignTo 0, .complete ⟨0, 1⟩, .assignTo 0]).map (fun last =>
        (last.sched.pieceMap.bit 1, last.sched.missingSpans 1, last.sched.available 1,
          last.sched.availableRangeCount,
          ∑ i ∈ range last.sched.pieceMap.pieceCount, (last.sched.missingSpans i).length)) =
      some (false, [], true, 1, 0) := by decide
  obtain ⟨last, hrun, heq⟩ := Option.map_eq_some_iff.mp hview
  simp only [Prod.mk.injEq] at heq
  exact ⟨last, hrun, heq⟩

end History

end Bytehaul.Scheduler
