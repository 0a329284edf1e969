import Bytehaul.Session.Multi.Turns

/-!
# The ledger of leases and lineages

The part of the pool that decides who works on which bytes. Each step of the pool is one
`Move` (`step_move`).
-/

namespace Bytehaul.Session

open Foundation Storage Scheduler

structure Ledger (n : Nat) where
  sched : SchedulerState
  recovered : List Recovered
  pending : List PendingRange
  lineages : List Lineage
  acked : List Span
  reported : List Span
  carried : List (Segment × LineageId)
  charges : List Charge
  handedOver : List Span
  holding : Fin n → Holding

inductive Lineage.Charged : Lineage → Lineage → Option ChargeKind → Prop
  | retry (lineage : Lineage)
      (h : lineage.retries.retriesStarted < lineage.retries.policy.maxRetries) :
      Charged lineage { lineage with retries := { lineage.retries with
        retriesStarted := lineage.retries.retriesStarted + 1 } } (some .retry)
  | recovery (lineage : Lineage) (h : lineage.recoveries < 2) :
      Charged lineage { lineage with recoveries := lineage.recoveries + 1 } (some .recovery)
  | free (lineage : Lineage) : Charged lineage lineage none

/-- A part is settled or given away; a lineage is forgotten only with the last lease. -/
structure Holding.Keeps (first second : Holding) (leases : List Segment) : Prop where
  leases_eq : second.leases = leases
  lineage : leases ≠ [] → second.lineage = first.lineage
  transit : second.transit = none
  failing : second.failing = first.failing

namespace Ledger

variable {n : Nat}

def hold (ledger : Ledger n) (w : Fin n) (holding : Holding) : Ledger n :=
  { ledger with holding := Function.update ledger.holding w holding }

inductive Move (cfg : PoolConfig) (ledger : Ledger n) : Ledger n → Prop
  | idle : Move cfg ledger ledger
  | take {w params assignment sched} (hpending : ledger.pending = [])
      (hfree : ledger.holding w = .empty)
      (hassign : ledger.sched.assignRequestWithTrace w params = some (some assignment, sched)) :
      Move cfg ledger ({ ledger with sched := sched }.hold w
        ⟨assignment.segments, none, none, false⟩)
  | refuse {w : Fin n} {params sched}
      (hassign : ledger.sched.assignRequestWithTrace w params = some (none, sched)) :
      Move cfg ledger { ledger with sched := sched }
  | retake {w slots range rest segments sched}
      (hpending : ledger.pending = range :: rest) (hfree : ledger.holding w = .empty)
      (hassign : ledger.sched.assignRecoveryBatch
        ((range.takePrefix slots).1.map PendingPiece.entry) w = some (some segments, sched)) :
      Move cfg ledger ({ ledger with
        sched := sched
        pending := if (range.takePrefix slots).2.pieces = [] then rest
          else (range.takePrefix slots).2 :: rest }.hold w ⟨segments, none, none, false⟩)
  | putBack {w : Fin n} {slots range rest sched} (hpending : ledger.pending = range :: rest)
      (hassign : ledger.sched.assignRecoveryBatch
        ((range.takePrefix slots).1.map PendingPiece.entry) w = some (none, sched)) :
      Move cfg ledger { ledger with
        sched := sched
        pending := (range.takePrefix slots).2.prepend (range.takePrefix slots).1 :: rest }
  | adopt {w segment queued lineage lineages}
      (hclaimed : ledger.holding w = ⟨segment :: queued, none, none, false⟩)
      (hfound : (RecoveryState.lineageIn ledger.recovered segment = some lineage ∧
          lineages = ledger.lineages) ∨
        (RecoveryState.lineageIn ledger.recovered segment = none ∧
          lineage = ledger.lineages.length ∧ ∃ now, lineages =
            ledger.lineages ++ [Lineage.mk (RetryState.new cfg.retry now) 0])) :
      Move cfg ledger ({ ledger with
        lineages := lineages
        carried := ledger.carried ++ (segment :: queued).map (·, lineage) }.hold w
          ⟨segment :: queued, some lineage, none, false⟩)
  | complete {w segment queued lineage sched}
      (hheld : ledger.holding w = ⟨segment :: queued, some lineage, none, false⟩)
      (hcomplete : ledger.sched.complete segment.leaseKey = some (true, sched)) :
      Move cfg ledger ({ ledger with
        sched := sched
        acked := segment.span :: ledger.acked }.hold w
          ⟨queued, some lineage, some segment, false⟩)
  | retain {w segment queued lineage middle sched}
      (hheld : ledger.holding w = ⟨segment :: queued, some lineage, none, false⟩)
      (hlo : segment.start < middle) (hhi : middle < segment.stop)
      (hretain : ledger.sched.retainPrefix segment.leaseKey middle = (true, sched)) :
      Move cfg ledger ({ ledger with
        sched := sched
        acked := ⟨segment.start, middle⟩ :: ledger.acked }.hold w
          ⟨{ segment with start := middle } :: queued, some lineage,
            some { segment with stop := middle }, false⟩)
  | report {w leases lineage segment holding}
      (hheld : ledger.holding w = ⟨leases, some lineage, some segment, false⟩)
      (hkeeps : (ledger.holding w).Keeps holding leases) :
      Move cfg ledger ({ ledger with
        recovered := RecoveryState.credited segment lineage ledger.recovered
        reported := segment.span :: ledger.reported }.hold w holding)
  | recover {w segments leases lineage after sched requestCap minSegmentSize holding}
      {state : RecoveryState}
      (hlineage : (ledger.holding w).lineage = some lineage)
      (htransit : (ledger.holding w).transit = none)
      (hparts : ((ledger.holding w).leases).Perm (segments ++ leases))
      (hpending : state.pending = ledger.pending) (hrecovered : state.recovered = ledger.recovered)
      (hrecover : recoverSegments ledger.sched state segments lineage requestCap minSegmentSize =
        some (sched, after))
      (hkeeps : (ledger.holding w).Keeps holding leases) :
      Move cfg ledger ({ ledger with
        sched := sched
        pending := after.pending
        recovered := after.recovered
        handedOver := ledger.handedOver ++ segments.map Segment.span }.hold w holding)
  | renew {w segment renewed lineage sched}
      (hheld : ledger.holding w = ⟨[segment], some lineage, none, false⟩)
      (hrenew : ledger.sched.renew segment.leaseKey w = (some renewed, sched)) :
      Move cfg ledger ({ ledger with
        sched := sched
        carried := ledger.carried ++ [(renewed, lineage)] }.hold w
          ⟨[renewed], some lineage, none, false⟩)
  | charge {w id after kind} {before : Lineage} (now : Nat)
      (hlineage : (ledger.holding w).lineage = some id)
      (hbefore : before = ledger.lineages.getD id ⟨RetryState.new cfg.retry now, 0⟩)
      (hcharged : before.Charged after kind) :
      Move cfg ledger { ledger with
        lineages := ledger.lineages.set id after
        charges := ledger.charges ++ kind.toList.map
          (⟨·, id, (ledger.holding w).leases.map Segment.span⟩) }
  | fail {w} {holding : Holding} (hfailing : holding.failing = true)
      (hleases : holding.leases.Sublist (ledger.holding w).leases) :
      Move cfg ledger (ledger.hold w holding)
  | surrender {w segment queued given sched} {holding : Holding} (stopped : Bool)
      (hfailing : holding.failing = true) (hnone : holding.leases = [])
      (hheld : (ledger.holding w).leases = segment :: queued)
      (hreclaim : SchedulerState.reclaim
        { ledger.sched with stopped := ledger.sched.stopped || stopped } segment.leaseKey =
          some (given, sched)) :
      Move cfg ledger ({ ledger with sched := sched }.hold w holding)

end Ledger

end Bytehaul.Session
