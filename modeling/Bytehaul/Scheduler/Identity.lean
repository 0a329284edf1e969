import Bytehaul.Scheduler.Run

/-!
# Lease identities

A lease is named by its piece and a number that is never used again. A key that was not
handed out or has ended is inert.
-/

namespace Bytehaul.Scheduler

open Foundation List Option Function SchedulerState Storage Segment

namespace SchedulerState

/-- A call as far as identities are concerned: `issued` are new, `ended` were held. -/
structure Exchanges (sched next : SchedulerState) (issued ended : List LeaseKey) : Prop where
  next_le : sched.nextLeaseId ≤ next.nextLeaseId
  fresh : ∀ key ∈ issued, sched.nextLeaseId ≤ key.leaseId ∧ key.leaseId < next.nextLeaseId
  nodup : issued.Nodup
  held_iff : ∀ key, (next.leaseRange key).isSome = true ↔
    key ∈ issued ∨ ((sched.leaseRange key).isSome = true ∧ key ∉ ended)
  ended_held : ∀ key ∈ ended, (sched.leaseRange key).isSome = true

theorem Exchanges.refl {sched : SchedulerState} : Exchanges sched sched [] [] :=
  ⟨Nat.le_refl _, by simp, .nil, by simp, by simp⟩

variable {sched : SchedulerState} {acked : List Span} {key : LeaseKey}

theorem Lends.exchanges {next : SchedulerState} {segs : List Segment}
    (h : Lends sched next segs) : Exchanges sched next (segs.map leaseKey) [] where
  next_le := h.next_le
  fresh key hkey := by
    obtain ⟨seg, hseg, rfl⟩ := mem_map.mp hkey
    exact h.fresh seg hseg
  nodup := by
    rw [List.Nodup, pairwise_map]
    apply h.apart.imp
    intro first second hne heq
    exact hne.1 (congrArg LeaseKey.leaseId heq)
  held_iff key := by
    by_cases hkey : key ∈ segs.map leaseKey
    · obtain ⟨seg, hseg, rfl⟩ := mem_map.mp hkey
      simp [h.held_new seg hseg, hkey]
    · rw [h.held_old key]
      · simp [hkey]
      · rintro seg hseg rfl
        exact hkey (mem_map_of_mem hseg)
  ended_held := by simp

def leasesOf {α : Type} (segmentsOf : α → List Segment)
    (call : Checked (Option α × SchedulerState)) : List Segment :=
  (call.bind Prod.fst).toList.flatMap segmentsOf

theorem Assigned.exchanges {α : Type} {segmentsOf : α → List Segment}
    {out : Option α × SchedulerState} (h : Assigned sched acked segmentsOf out) :
    Exchanges sched out.2 ((leasesOf segmentsOf (some out)).map leaseKey) [] := by
  obtain ⟨result, next⟩ := out
  cases result with
  | none => exact (h.refused rfl).exchanges
  | some a =>
    have hlnd := (h.granted a rfl).1
    simpa [leasesOf] using hlnd.exchanges

theorem Exchanges.retire {next : SchedulerState} (hheld : (sched.leaseRange key).isSome = true)
    (hnext : next.leaseRange = Function.update sched.leaseRange key none)
    (hid : next.nextLeaseId = sched.nextLeaseId) : Exchanges sched next [] [key] where
  next_le := hid.ge
  fresh := by simp
  nodup := .nil
  held_iff other := by
    rw [hnext, update_apply]
    split
    · rename_i heq
      simp [heq]
    · rename_i hne
      simp [hne]
  ended_held other ho := by
    rw [mem_singleton.mp ho]
    exact hheld

variable (h : sched.Conserved acked)
include h

private theorem Conserved.complete_exchanges {out : Bool × SchedulerState}
    (hout : sched.complete key = some out) :
    Exchanges sched out.2 [] (if out.1 then [key] else []) := by
  cases hkey : sched.leaseRange key with
  | none =>
    rw [(stale_inert hkey 0 0).1] at hout
    cases hout
    exact .refl
  | some span =>
    obtain ⟨next, hcomp, -, hcust, -, -, hid⟩ := complete_spec h hkey
    rw [hcomp] at hout
    cases hout
    exact .retire (by simp [hkey]) (congrArg Custody.held hcust) hid

theorem Conserved.reclaim_exchanges {out : Bool × SchedulerState}
    (hout : sched.reclaim key = some out) :
    Exchanges sched out.2 [] (if out.1 then [key] else []) := by
  cases hkey : sched.leaseRange key with
  | none =>
    rw [(stale_inert hkey 0 0).2.1] at hout
    cases hout
    exact .refl
  | some span =>
    obtain ⟨next, hrecl, -, hcust, -, -, hid⟩ := reclaim_spec h hkey
    rw [hrecl] at hout
    cases hout
    exact .retire (by simp [hkey]) (congrArg Custody.held hcust) hid

theorem Conserved.renew_exchanges (key : LeaseKey) (w : Nat) :
    Exchanges sched (sched.renew key w).2
      ((sched.renew key w).1.toList.map leaseKey)
      (if (sched.renew key w).1.isSome then [key] else []) := by
  cases hkey : sched.leaseRange key with
  | none =>
    rw [(stale_inert hkey w 0).2.2.1]
    exact .refl
  | some span =>
    obtain ⟨seg, next, hrenew, -, hnew, -, -, hcust, -, -, hid⟩ := renew_spec h hkey w
    have hrng : next.leaseRange = update
        (update sched.leaseRange key none) seg.leaseKey (some span) :=
      congrArg Custody.held hcust
    rw [hrenew]
    constructor
    · exact hid ▸ Nat.le_succ _
    · intro other ho
      obtain rfl := mem_singleton.mp ho
      rw [hnew]
      exact ⟨Nat.le_refl _, hid ▸ Nat.lt_succ_self _⟩
    · exact nodup_singleton _
    · intro other
      rw [hrng, update_apply, update_apply]
      split
      · rename_i heq
        simp [heq]
      · rename_i hne
        split
        · rename_i heq
          rw [heq] at hne
          simp [heq, hne]
        · rename_i ho
          simp [hne, ho]
    · intro other ho
      obtain rfl := mem_singleton.mp ho
      simp [hkey]

private theorem Conserved.retainPrefix_exchanges (key : LeaseKey)
    (confirmedEnd : Nat) : Exchanges sched (sched.retainPrefix key confirmedEnd).2 [] [] := by
  cases hkey : sched.leaseRange key with
  | none =>
    rw [(stale_inert hkey 0 confirmedEnd).2.2.2]
    exact .refl
  | some span =>
    by_cases hin : span.start < confirmedEnd ∧ confirmedEnd < span.stop
    · obtain ⟨next, hret, -, hcust, -, -, hid⟩ := retainPrefix_spec h hkey hin.1 hin.2
      have hrng : next.leaseRange = update sched.leaseRange key
          (some ⟨confirmedEnd, span.stop⟩) := congrArg Custody.held hcust
      rw [hret]
      constructor
      · exact hid.ge
      · simp
      · exact .nil
      · intro other
        rw [hrng, update_apply]
        split
        · rename_i heq
          simp [heq, hkey]
        · simp
      · simp
    · rw [retainPrefix_outside hkey (by omega)]
      exact .refl

end SchedulerState

namespace History

def returned (history : History) : Call → List Segment
  | .assignTo workerId =>
    leasesOf (fun segment => [segment]) (history.sched.assignTo workerId)
  | .assignRequestWithTrace workerId params =>
    leasesOf RequestAssignment.segments (history.sched.assignRequestWithTrace workerId params)
  | .assignSubrange pieceId start stop workerId =>
    leasesOf (fun segment => [segment]) (history.sched.assignSubrange pieceId start stop workerId)
  | .assignRecoveryBatch pieces workerId =>
    leasesOf id (history.sched.assignRecoveryBatch pieces workerId)
  | .extendBatch first workerId maxConnections byteCap =>
    ((history.sched.extendBatch first workerId maxConnections byteCap).map Prod.fst).getD []
  | .renew key workerId => (history.sched.renew key workerId).1.toList
  | .retainPrefix _ _ | .complete _ | .reclaim _ | .stopAndReclaim _ => []

def retired (history : History) : Call → List LeaseKey
  | .renew key workerId => if (history.sched.renew key workerId).1.isSome then [key] else []
  | .complete key => if (history.sched.complete key).any Prod.fst then [key] else []
  | .reclaim key => if (history.sched.reclaim key).any Prod.fst then [key] else []
  | .stopAndReclaim key =>
    if (reclaim { history.sched with stopped := true } key).any Prod.fst
    then [key] else []
  | _ => []

theorem step_exchanges {history next : History} (h : history.sched.Conserved history.acked)
    {call : Call} (hstep : history.step call = some next) :
    SchedulerState.Exchanges history.sched next.sched
      ((history.returned call).map leaseKey) (history.retired call) := by
  cases call with
  | assignTo w =>
    obtain ⟨out, hout, hasgd, -⟩ := assignToWithSplit_spec h w 1 (2 ^ 64 - 1)
    have hcall : history.sched.assignTo w = some out := hout
    simp only [step, hcall] at hstep
    cases hstep
    simp only [returned, hcall]
    exact hasgd.exchanges
  | assignRequestWithTrace w params =>
    obtain ⟨out, hout, hasgd, -⟩ := assignRequestWithTrace_spec h w params
    simp only [step, hout] at hstep
    cases hstep
    simp only [returned, hout]
    exact hasgd.exchanges
  | assignSubrange p start stop w =>
    obtain ⟨out, hout, hasgd⟩ := assignSubrange_spec h p start stop w
    simp only [step, hout] at hstep
    cases hstep
    simp only [returned, hout]
    exact hasgd.exchanges
  | assignRecoveryBatch pieces w =>
    obtain ⟨out, hout, hasgd, -⟩ := assignRecoveryBatch_spec h pieces w
    simp only [step, hout] at hstep
    cases hstep
    simp only [returned, hout]
    exact hasgd.exchanges
  | extendBatch first w maxConnections byteCap =>
    obtain ⟨out, hout, -, hlnd, -⟩ := extendBatchWithOccupied_spec h
      (SchedulerState.Lends.refl _) first w maxConnections 0 byteCap
    have hcall : history.sched.extendBatch first w maxConnections byteCap =
        some (out.1, out.2.2) := by simp [extendBatch, hout]
    simp only [step, hcall] at hstep
    cases hstep
    simp only [returned, hcall]
    exact hlnd.exchanges
  | retainPrefix key confirmedEnd =>
    have hexchs := h.retainPrefix_exchanges key confirmedEnd
    simp only [step] at hstep
    generalize history.sched.retainPrefix key confirmedEnd = out at hstep hexchs
    obtain ⟨kept, sched⟩ := out
    cases kept <;> cases hstep <;> exact hexchs
  | renew key w =>
    cases hstep
    exact h.renew_exchanges key w
  | complete key =>
    obtain ⟨out, hout, hrest⟩ := bind_eq_some_iff.mp hstep
    have hexchs := h.complete_exchanges hout
    obtain ⟨done, sched⟩ := out
    simp only [returned, retired, hout]
    cases done <;> cases hrest <;> exact hexchs
  | reclaim key =>
    obtain ⟨out, hout, hrest⟩ := bind_eq_some_iff.mp hstep
    cases hrest
    simp only [returned, retired, hout]
    exact h.reclaim_exchanges hout
  | stopAndReclaim key =>
    obtain ⟨sched, hsched, hrest⟩ := bind_eq_some_iff.mp hstep
    obtain ⟨out, hout, hlast⟩ := bind_eq_some_iff.mp hsched
    cases hlast
    cases hrest
    simp only [returned, retired, hout]
    have hexchs := (stopped_conserved h true).reclaim_exchanges hout
    exact ⟨hexchs.next_le, hexchs.fresh, hexchs.nodup, hexchs.held_iff, hexchs.ended_held⟩

end History

/-- A run of the scheduler with the identities it has handed out and ended. -/
structure Registry where
  history : History
  issued : List LeaseKey
  ended : List LeaseKey

namespace Registry

def start (map : PieceMap) : Registry := ⟨History.start map, [], []⟩

def step (registry : Registry) (call : Call) : Checked Registry := do
  let history ← registry.history.step call
  some ⟨history,
    registry.issued ++ (registry.history.returned call).map leaseKey,
    registry.ended ++ registry.history.retired call⟩

def run (registry : Registry) : List Call → Checked Registry
  | [] => some registry
  | call :: calls => do
      let registry ← registry.step call
      registry.run calls

structure Sound (registry : Registry) : Prop where
  conserved : registry.history.sched.Conserved registry.history.acked
  nodup : registry.issued.Nodup
  issued_lt : ∀ key ∈ registry.issued, key.leaseId < registry.history.sched.nextLeaseId
  ended_issued : ∀ key ∈ registry.ended, key ∈ registry.issued
  held_iff : ∀ key, (registry.history.sched.leaseRange key).isSome = true ↔
    key ∈ registry.issued ∧ key ∉ registry.ended

private theorem start_sound {map : PieceMap} (h : map.Valid) : (start map).Sound where
  conserved := History.start_conserved h
  nodup := .nil
  issued_lt := by simp [start]
  ended_issued := by simp [start]
  held_iff key := by
    simp [start, History.start, new, leaseRange]

/-- New identities are numbered past all earlier ones, so nothing old comes back. -/
theorem Sound.exchange {registry : Registry} (h : registry.Sound) {history : History}
    {issued ended : List LeaseKey} (hcons : history.sched.Conserved history.acked)
    (hexch : SchedulerState.Exchanges registry.history.sched history.sched issued ended) :
    Sound ⟨history, registry.issued ++ issued, registry.ended ++ ended⟩ where
  conserved := hcons
  nodup := by
    rw [nodup_append]
    refine ⟨h.nodup, hexch.nodup, ?_⟩
    rintro key hold other hnew rfl
    have hlt := h.issued_lt key hold
    have hge := (hexch.fresh key hnew).1
    omega
  issued_lt key hkey := by
    rcases mem_append.mp hkey with hold | hnew
    · exact Nat.lt_of_lt_of_le (h.issued_lt key hold) hexch.next_le
    · exact (hexch.fresh key hnew).2
  ended_issued key hkey := by
    apply mem_append_left
    rcases mem_append.mp hkey with hold | hnew
    · exact h.ended_issued key hold
    · exact ((h.held_iff key).mp (hexch.ended_held key hnew)).1
  held_iff key := by
    rw [hexch.held_iff, h.held_iff]
    simp only [mem_append, not_or]
    constructor
    · rintro (hnew | ⟨⟨hold, hlive⟩, hkept⟩)
      · have hge := (hexch.fresh key hnew).1
        refine ⟨.inr hnew, ?_, ?_⟩
        · intro hend
          have hlt := h.issued_lt key (h.ended_issued key hend)
          omega
        · intro hend
          have hlt := h.issued_lt key ((h.held_iff key).mp (hexch.ended_held key hend)).1
          omega
      · exact ⟨.inl hold, hlive, hkept⟩
    · rintro ⟨hold | hnew, hlive, hkept⟩
      · exact .inr ⟨⟨hold, hlive⟩, hkept⟩
      · exact .inl hnew

theorem Sound.step {registry : Registry} (h : registry.Sound) (call : Call) :
    ∃ next, registry.step call = some next ∧ next.Sound := by
  obtain ⟨history, hstep, hcons⟩ := History.step_conserved h.conserved call
  refine ⟨⟨history, _, _⟩, ?_, h.exchange hcons (History.step_exchanges h.conserved hstep)⟩
  simp [Registry.step, hstep]

theorem Sound.run (calls : List Call) : ∀ registry : Registry, registry.Sound →
    ∃ last, registry.run calls = some last ∧ last.Sound := by
  induction calls with
  | nil =>
    intro registry h
    exact ⟨registry, rfl, h⟩
  | cons call calls ih =>
    intro registry h
    obtain ⟨next, hstep, hnext⟩ := h.step call
    obtain ⟨last, hrun, hlast⟩ := ih next hnext
    exact ⟨last, by simp [Registry.run, hstep, hrun], hlast⟩

/-- No identity is handed out twice, and one that is not held is refused and changes nothing. -/
theorem stale_identities_are_inert {map : PieceMap} (horigin : History.Origin map)
    (calls : List Call) : ∃ last, (Registry.start map).run calls = some last ∧ last.issued.Nodup ∧
      (∀ key, (last.history.sched.leaseRange key).isSome = true ↔
        key ∈ last.issued ∧ key ∉ last.ended) ∧
      ∀ key, key ∉ last.issued ∨ key ∈ last.ended →
        last.history.sched.complete key = some (false, last.history.sched) ∧
        last.history.sched.reclaim key = some (false, last.history.sched) ∧
        (∀ confirmedEnd, last.history.sched.retainPrefix key confirmedEnd =
          (false, last.history.sched)) ∧
        ∀ workerId, last.history.sched.renew key workerId = (none, last.history.sched) := by
  obtain ⟨last, hrun, h⟩ := Sound.run calls _ (start_sound horigin.valid)
  refine ⟨last, hrun, h.nodup, h.held_iff, ?_⟩
  intro key hstale
  have hnone : last.history.sched.leaseRange key = none := by
    rw [← not_isSome_iff_eq_none, h.held_iff]
    rintro ⟨hissd, hlive⟩
    exact hstale.elim (fun hnot => hnot hissd) hlive
  exact ⟨(stale_inert hnone 0 0).1, (stale_inert hnone 0 0).2.1,
    fun confirmedEnd => (stale_inert hnone 0 confirmedEnd).2.2.2,
    fun workerId => (stale_inert hnone workerId 0).2.2.1⟩

theorem renewed_identity_is_inert : ∃ last, (Registry.start (PieceMap.new 10 4)).run
        [.assignTo 0, .renew ⟨0, 1⟩ 0] = some last ∧
      (last.issued, last.ended) = ([⟨0, 1⟩, ⟨0, 2⟩], [⟨0, 1⟩]) ∧
      last.history.sched.complete ⟨0, 1⟩ = some (false, last.history.sched) := by
  obtain ⟨last, hrun, -, -, hstale⟩ := stale_identities_are_inert
    (History.Origin.fresh (by decide) : History.Origin (PieceMap.new 10 4))
    [.assignTo 0, .renew ⟨0, 1⟩ 0]
  have hvalue : ((Registry.start (PieceMap.new 10 4)).run [.assignTo 0, .renew ⟨0, 1⟩ 0]).map
      (fun last => (last.issued, last.ended)) = some ([⟨0, 1⟩, ⟨0, 2⟩], [⟨0, 1⟩]) := by decide
  rw [hrun] at hvalue
  have hkeys := some.inj hvalue
  refine ⟨last, hrun, hkeys, (hstale ⟨0, 1⟩ (.inr ?_)).1⟩
  rw [(Prod.mk.inj hkeys).2]
  exact mem_singleton_self _

end Registry

end Bytehaul.Scheduler
