import Bytehaul.Foundation.Budget
import Bytehaul.Session.Multi.Integrity

/-!
# Extra traffic

`reserve_result` sets the cost bound of a recovery aside; the reservation travels with the
worker and settles what the recovery really cost.
-/

namespace Bytehaul.Session

open Foundation Storage Scheduler List Function

def Reservation.Covers (reservation : Reservation) (dues : Nat) : Prop :=
  reservation.cost ≤ reservation.bound ∧ dues ≤ reservation.bound

/-- A hedge duplicates the lease its request ends with, and no byte more. -/
structure Challenger.Fits (job : Job) (challenger : Challenger) : Prop where
  bound : challenger.reservation.bound = job.len
  final : job.requestEnd = job.segment.stop
  cost : challenger.reservation.cost = challenger.staging.elim 0 fun staging => staging.data.length
  staging : ∀ staging, challenger.staging = some staging →
    staging.response.framedLength = some job.len ∧ staging.data.length ≤ job.len

def Job.Covered (job : Job) : Prop :=
  ∀ staged, job.staged = some staged → staged.reservation.Covers job.waste

theorem Job.Covered.of_none {job : Job} (h : job.staged = none) : job.Covered := by
  intro staged hstgd
  rw [h] at hstgd
  cases hstgd

namespace Pool

def Pc.Solvent (cfg : PoolConfig) : Pc → Prop
  | .running job => ∀ challenger, job.challenger = some challenger → challenger.Fits job
  | .advised job hedgeEligible _ =>
    job.forwarded < job.len ∧ (hedgeEligible = true → job.requestEnd = job.segment.stop)
  | .spare job _ => job.forwarded < job.len ∧ job.requestEnd = job.segment.stop
  | .cancelling job _ => job.forwarded < job.len
  | .interrupted job (.recover reservation) =>
    reservation.Covers (if cfg.validator.isSome then job.readAhead else job.len + job.readAhead) ∧
      job.forwarded < job.len
  | .interrupted job (.staged staged) =>
    staged.reservation.Covers (job.readAhead + job.forwarded)
  | .settling job cause _ | .settleWait job cause _ | .settled job cause _
  | .crediting job cause _ | .releasing job cause _ =>
    ∀ reservation ∈ Cause.reservations cause, reservation.Covers job.waste
  | .starting job | .copying job | .completing job | .flushing job | .recording job
  | .renewing job none => job.Covered
  | .renewing job (some _) | .counting job _ | .vacating job _ | .sleeping job _
  | .reacquiring job => job.staged = none
  | .releasingRest _ reservation | .refunding reservation =>
    reservation.cost ≤ reservation.bound
  | _ => True

variable {n : Nat} {cfg : PoolConfig} {G : Nat → UInt8 → Prop} {pool next : Pool n} {w : Fin n}
  {job : Job}

theorem Pc.Solvent.cost_le {pc : Pc} (h : Pc.Solvent cfg pc) :
    ∀ resv ∈ Pc.reservations pc, resv.cost ≤ resv.bound := by
  intro resv hresn
  cases pc with
  | running job =>
    simp only [Pc.reservations, mem_map, Option.mem_toList] at hresn
    obtain ⟨chal, hchal, rfl⟩ := hresn
    have hfits := h chal hchal
    rw [hfits.cost, hfits.bound]
    cases hstaging : chal.staging with
    | none => exact Nat.zero_le _
    | some staging => exact (hfits.staging staging hstaging).2
  | interrupted job outcome =>
    cases outcome with
    | recover found =>
      obtain rfl := mem_singleton.mp hresn
      exact h.1.1
    | staged staged =>
      obtain rfl := mem_singleton.mp hresn
      exact h.1
    | failed error => cases hresn
  | settling | settleWait | settled | crediting | releasing => exact (h resv hresn).1
  | renewing job backoff =>
    cases backoff with
    | none =>
      simp only [Pc.reservations, reservationOf, mem_map, Option.mem_toList] at hresn
      obtain ⟨staged, hstgd, rfl⟩ := hresn
      exact (h staged hstgd).1
    | some backoff =>
      have hstgd : job.staged = none := h
      simp [Pc.reservations, reservationOf, hstgd] at hresn
  | starting job | copying job | completing job | flushing job | recording job =>
    simp only [Pc.reservations, reservationOf, mem_map, Option.mem_toList] at hresn
    obtain ⟨staged, hstgd, rfl⟩ := hresn
    exact (h staged hstgd).1
  | releasingRest job found | refunding found =>
    obtain rfl := mem_singleton.mp hresn
    exact h
  | _ => cases hresn

private theorem readAhead_add_forwarded_le (h : job.Sound cfg G) (hstgd : job.staged = none)
    (hfinal : job.requestEnd = job.segment.stop) : job.readAhead + job.forwarded ≤ job.len := by
  cases hstr : job.stream with
  | none =>
    rw [(h.unread hstr hstgd).1]
    simp [Job.readAhead, hstr]
  | some stream =>
    have hsound := h.stream stream hstr
    have hposn := hsound.position
    have hwire := hsound.wire
    have hexp := hsound.expected
    have hstop := hsound.stop
    simp only [Job.readAhead, hstr, Option.elim_some, Job.len]
    omega

private theorem forwarded_lt_len (h : job.Sound cfg G) (hboundary : ¬ atBoundary job = true)
    (hleft : job.forwarded < remainingEnd job - job.segment.start) : job.forwarded < job.len := by
  have hle := h.forwarded_le
  have hend : remainingEnd job ≤ job.requestEnd := by
    unfold remainingEnd
    cases hlast : job.queued.getLast? with
    | none => exact h.reach job.segment mem_cons_self
    | some last => exact h.reach last (mem_cons_of_mem _ (mem_of_getLast? hlast))
  by_contra hnot
  have hdone : job.forwarded = job.len := by omega
  have hpast : ¬ job.segment.stop < job.requestEnd := by
    intro hlt
    exact hboundary (by simp [atBoundary, hdone, hlt])
  unfold Job.len at hdone
  omega

/-- The two counters agree, so that the bound is one on what settling the attempt costs. -/
theorem cancellationCostBound_eq (h : job.Sound cfg G) (hstgd : job.staged = none) :
    cancellationCostBound cfg job =
      if cfg.validator.isSome then job.readAhead else job.len + job.readAhead := by
  unfold cancellationCostBound Job.readAhead
  cases hstr : job.stream with
  | none => rw [(h.unread hstr hstgd).2]; rfl
  | some stream => rw [(h.stream stream hstr).observed]; rfl

private theorem settleJob_waste_le (hleft : job.forwarded < job.len) :
    (settleJob job (retains cfg job true)).waste ≤
      if cfg.validator.isSome then job.readAhead else job.len + job.readAhead := by
  unfold settleJob retains
  cases cfg.validator with
  | none =>
    simp only [Option.isSome_none, Bool.false_and, Bool.false_eq_true, if_false]
    omega
  | some validator =>
    by_cases hsome : 0 < job.forwarded
    · simp [hsome, hleft]
    · simp [show job.forwarded = 0 by omega]

theorem reserveResult_bound {state after : RecoveryState} {extraLimit len now : Nat}
    {lin charged : Lineage} {hedge : Bool} {resv : Reservation}
    (h : state.reserveResult extraLimit len lin hedge now =
      .ok (resv, after, charged)) : resv = ⟨len, len⟩ := by
  unfold RecoveryState.reserveResult at h
  (repeat' split at h)
  all_goals cases h
  rfl

theorem Job.Releases.solvent {segs : List Segment} {pc after : Pc} {act : WorkerAction}
    (hrels : job.Releases pc act segs after) (hsound : pc.Sound cfg G)
    (h : Pc.Solvent cfg pc) : Pc.Solvent cfg after := by
  cases hrels with
  | handOff =>
    intro chal hchal
    have hfits := h chal hchal
    exact ⟨hfits.bound, hfits.final, hfits.cost, hfits.staging⟩
  | suffix | all => exact (h _ mem_cons_self).2
  | winner =>
    rintro staged ⟨⟩
    exact h _ mem_cons_self
  | again => exact hsound.1.staged
  | rest => exact h

theorem Turn.solvent {pc after : Pc} {act : WorkerAction} {base : Pool n}
    (hturn : Turn cfg pool w pc act base after) (hsound : pc.Sound cfg G)
    (h : Pc.Solvent cfg pc) : Pc.Solvent cfg after := by
  cases hturn with
  | begin hstat hbeg =>
    cases hbeg with
    | copy hstgd => exact h
    | stop hstgd error => trivial
    | run hstgd =>
      intro chal hsome
      cases hsound.2.symm.trans hsome
  | accept | chunk | forward =>
    intro chal hchal
    have hfits := h chal hchal
    exact ⟨hfits.bound, hfits.final, hfits.cost, hfits.staging⟩
  | boundary | eof => exact Job.Covered.of_none hsound.2
  | advise hchal hat hleft helig => exact ⟨forwarded_lt_len hsound.1 hat hleft, helig⟩
  | spare helig => exact ⟨h.1, h.2 helig⟩
  | cancel | overBudget => exact h.1
  | hedge hresv =>
    obtain rfl := reserveResult_bound hresv
    rintro chal ⟨⟩
    exact ⟨rfl, h.2, rfl, nofun⟩
  | unhedged | carryOn =>
    intro chal hsome
    cases hsound.2.2.symm.trans hsome
  | giveUp hresv =>
    obtain rfl := reserveResult_bound hresv
    exact ⟨⟨Nat.le_refl _, (cancellationCostBound_eq hsound.1 hsound.2.1).ge⟩, h⟩
  | hedgeAccept hchal hacc hframed =>
    have hfits := h _ hchal
    rintro chal ⟨⟩
    refine ⟨hfits.bound, hfits.final, hfits.cost, ?_⟩
    rintro staging ⟨⟩
    exact ⟨hframed, Nat.zero_le _⟩
  | hedgeChunk hchal hfit =>
    have hfits := h _ hchal
    rintro chal ⟨⟩
    refine ⟨hfits.bound, hfits.final, by simp, ?_⟩
    rintro found ⟨⟩
    exact ⟨(hfits.staging _ rfl).1, by rw [length_append]; exact hfit⟩
  | hedgeOverrun | dropHedge => rintro chal ⟨⟩
  | hedgeEof hchal hlen =>
    have hfits := h _ hchal
    have hhand := readAhead_add_forwarded_le hsound.1 hsound.2 hfits.final
    refine ⟨?_, hfits.bound ▸ hhand⟩
    rw [hfits.cost, hfits.bound]
    exact (hfits.staging _ rfl).2
  | record hproc =>
    cases hproc with
    | winner hstgd => exact (h _ hstgd).2
    | next hstgd hqd => exact Job.Covered.of_none hstgd
    | done hstgd hqd => trivial
  | settleRecover =>
    intro found hf
    obtain rfl := mem_singleton.mp hf
    exact ⟨h.1.1, (settleJob_waste_le h.2).trans h.1.2⟩
  | settleStaged =>
    intro found hf
    obtain rfl := mem_singleton.mp hf
    exact h
  | settleFailed =>
    intro found hf
    cases hf
  | recover hrels hrecv hbase => exact Job.Releases.solvent hrels hsound h
  | reacquire => exact Job.Covered.of_none h
  | adopt | create => exact Job.Covered.of_none rfl
  | copied | copy | flush | complete | settleFlush | settleDiscard | retain | discard | defer
  | credit | uncredited | count | renewWinner | renew | vacate | awaken => exact h
  | _ => trivial

def Pc.delivers : Pc → WorkerAction → Bool
  | .running job, .chunk data => job.stream.all fun stream =>
    stream.response.framedLength.all (stream.wire + data.length ≤ ·)
  | .running job, .hedgeChunk data => job.challenger.all fun challenger =>
    challenger.staging.all fun staging =>
      staging.response.framedLength.all (staging.data.length + data.length ≤ ·)
  | _, _ => true

variable {pc after : Pc} {act : WorkerAction} {base : Pool n}

def budget (pool : Pool n) : Budget (Fin n) Reservation where
  reserved := pool.recovery.reserved
  spent := pool.recovery.consumedExtra
  exclusive := pool.recovery.hedge
  held w := Pc.reservations (pool.workers w).pc
  alone w := Pc.hedging (pool.workers w).pc

def Transacts (cfg : PoolConfig) (pool next : Pool n) : Prop :=
  ∃ shares, Budget.Move Reservation.bound Reservation.cost cfg.extraLimit pool.budget shares
    next.budget

structure SameCharges (state next : RecoveryState) : Prop where
  reserved : next.reserved = state.reserved
  consumedExtra : next.consumedExtra = state.consumedExtra
  hedge : next.hedge = state.hedge

theorem SameCharges.refl (state : RecoveryState) : SameCharges state state := ⟨rfl, rfl, rfl⟩

theorem Frames.view {α : Type} (hfrs : Frames pool w next) (view : Pc → α) :
    (fun other => view (next.workers other).pc) =
      update (fun other => view (pool.workers other).pc) w (view (next.workers w).pc) :=
  eq_update_iff.mpr ⟨rfl, fun other ho => by rw [hfrs other ho]⟩

theorem budget_eq (hfrs : Frames pool w next) : next.budget =
    { reserved := next.recovery.reserved
      spent := next.recovery.consumedExtra
      exclusive := next.recovery.hedge
      held := update pool.budget.held w (Pc.reservations (next.workers w).pc)
      alone := update pool.budget.alone w (Pc.hedging (next.workers w).pc) } := by
  simp only [budget, hfrs.view Pc.reservations, hfrs.view Pc.hedging]

theorem transacts_observe (hpc : (pool.workers w).pc = pc) (hfrs : Frames pool w base)
    (hsame : SameCharges pool.recovery base.recovery)
    (hheld : (Pc.reservations after).map Reservation.bound =
      (Pc.reservations pc).map Reservation.bound)
    (halone : Pc.hedging after = Pc.hedging pc) : Transacts cfg pool (base.put w after) := by
  subst hpc
  have hnext : (base.put w after).budget = { pool.budget with
      held := update pool.budget.held w (Pc.reservations after) } := by
    rw [budget_eq (hfrs.put after), put_pc, put_recovery, hsame.reserved, hsame.consumedExtra,
      hsame.hedge, halone]
    congr 1
    exact update_eq_self w pool.budget.alone
  exact ⟨[], hnext ▸ .observe w _ hheld⟩

def Pc.Bare (pc : Pc) : Prop := Pc.reservations pc = [] ∧ Pc.hedging pc = false

theorem running_bare (h : job.challenger = none) : Pc.Bare (.running job) := by
  constructor <;> simp [Pc.reservations, Pc.hedging, h]

private theorem completing_bare (h : job.staged = none) : Pc.Bare (.completing job) := by
  constructor <;> simp [Pc.reservations, reservationOf, Pc.hedging, h]

theorem transacts_idle (hpc : (pool.workers w).pc = pc) (hfrs : Frames pool w base)
    (hsame : SameCharges pool.recovery base.recovery) (hbef : Pc.Bare pc)
    (haft : Pc.Bare after) : Transacts cfg pool (base.put w after) :=
  transacts_observe hpc hfrs hsame (by rw [hbef.1, haft.1]) (by rw [hbef.2, haft.2])

private theorem foldl_refund (reservations : List Reservation) (state : RecoveryState) :
    reservations.foldl RecoveryState.refund state = { state with
        reserved := state.reserved - (reservations.map Reservation.bound).sum
        consumedExtra := state.consumedExtra + (reservations.map Reservation.cost).sum } := by
  induction reservations generalizing state with
  | nil => rfl
  | cons resv reservations ih =>
    rw [foldl_cons, ih]
    simp only [RecoveryState.refund, map_cons, sum_cons, Nat.sub_sub, Nat.add_assoc]

theorem transacts_settle (hfrs : Frames pool w next) {shares : List Reservation}
    (hsame : SameCharges (shares.foldl RecoveryState.refund { pool.recovery with
      hedge := pool.recovery.hedge && !Pc.hedging (pool.workers w).pc }) next.recovery)
    (hbd : shares.map Reservation.bound =
      (Pc.reservations (pool.workers w).pc).map Reservation.bound)
    (hcost : ∀ share ∈ shares, share.cost ≤ share.bound)
    (haft : Pc.Bare (next.workers w).pc) : Transacts cfg pool next := by
  rw [foldl_refund] at hsame
  have hnext : next.budget = { pool.budget with
      reserved := pool.budget.reserved - (shares.map Reservation.bound).sum
      spent := pool.budget.spent + (shares.map Reservation.cost).sum
      exclusive := pool.budget.exclusive && !pool.budget.alone w
      held := update pool.budget.held w []
      alone := update pool.budget.alone w false } := by
    rw [budget_eq hfrs, hsame.reserved, hsame.consumedExtra, hsame.hedge, haft.1, haft.2]
    rfl
  exact ⟨shares, hnext ▸ .settle w shares hbd hcost⟩

private theorem transacts_relax (hpc : (pool.workers w).pc = pc) (hfrs : Frames pool w base)
    (hsame : SameCharges { pool.recovery with hedge := false } base.recovery)
    (hbef : Pc.hedging pc = true) (hheld : Pc.reservations after = Pc.reservations pc)
    (halone : Pc.hedging after = false) : Transacts cfg pool (base.put w after) := by
  subst hpc
  have hnext : (base.put w after).budget = { pool.budget with
      exclusive := false
      alone := update pool.budget.alone w false } := by
    rw [budget_eq (hfrs.put after), put_pc, put_recovery, hsame.reserved, hsame.consumedExtra,
      hsame.hedge, hheld, halone]
    congr 1
    exact update_eq_self w pool.budget.held
  exact ⟨[], hnext ▸ .relax w hbef⟩

theorem transacts_grant (hpc : (pool.workers w).pc = pc) (hfrs : Frames pool w base)
    {len now : Nat} {lin charged : Lineage} {hedge : Bool} {resv : Reservation}
    {state : RecoveryState}
    (hresv : pool.recovery.reserveResult cfg.extraLimit len lin hedge now =
      .ok (resv, state, charged)) (hsame : SameCharges state base.recovery)
    (hbef : Pc.Bare pc) (share : Reservation) (hheld : Pc.reservations after = [share])
    (hshare : share.bound = resv.bound) (halone : Pc.hedging after = hedge) :
    Transacts cfg pool (base.put w after) := by
  subst hpc
  obtain ⟨hfree, hroom, hbd, hresd, hspent, hhedge⟩ : pool.recovery.hedge = false ∧
      len ≤ cfg.extraLimit - (pool.recovery.reserved + pool.recovery.consumedExtra) ∧
      resv.bound = len ∧ state.reserved = pool.recovery.reserved + len ∧
      state.consumedExtra = pool.recovery.consumedExtra ∧ state.hedge = hedge := by
    unfold RecoveryState.reserveResult at hresv
    split at hresv
    · cases hresv
    · rename_i hrefusal
      split at hresv
      · cases hresv
      · cases hresv
        unfold RecoveryState.reserveRefusal at hrefusal
        (repeat' split at hrefusal)
        all_goals cases hrefusal
        refine ⟨by simp_all, by omega, rfl, rfl, rfl, rfl⟩
  have hnext : (base.put w after).budget = { pool.budget with
      reserved := pool.budget.reserved + share.bound
      exclusive := hedge
      held := update pool.budget.held w [share]
      alone := update pool.budget.alone w hedge } := by
    rw [budget_eq (hfrs.put after), put_pc, put_recovery, hsame.reserved, hsame.consumedExtra,
      hsame.hedge, hheld, halone, hresd, hspent, hhedge, hshare, hbd]
    rfl
  exact ⟨[], hnext ▸ .grant w share hedge hbef.1 hbef.2 hfree (by rw [hshare, hbd]; exact hroom)⟩

private theorem enqueueGroups_charges (groups : List (List Segment × Bool)) (state : RecoveryState)
    (lin : LineageId) (requestCap minSize : Nat) :
    SameCharges state (enqueueGroups state groups lin requestCap minSize) := by
  induction groups generalizing state with
  | nil => exact .refl state
  | cons group groups ih =>
    have hgroup : SameCharges state (state.recoveredBatchWithSplit group.1 lin requestCap
        (if group.2 then none else some minSize)) := by
      unfold RecoveryState.recoveredBatchWithSplit
      split <;> exact ⟨rfl, rfl, rfl⟩
    have hrest := ih (state.recoveredBatchWithSplit group.1 lin requestCap
      (if group.2 then none else some minSize))
    exact ⟨hrest.reserved.trans hgroup.reserved, hrest.consumedExtra.trans hgroup.consumedExtra,
      hrest.hedge.trans hgroup.hedge⟩

theorem recover_charges {segs : List Segment} {lin : LineageId}
    (h : recover cfg pool segs lin = some next) :
    SameCharges pool.recovery next.recovery := by
  obtain ⟨⟨sched, recovery⟩, hrecv, rfl⟩ := Option.map_eq_some_iff.mp h
  obtain ⟨after, -, haft⟩ := Option.map_eq_some_iff.mp hrecv
  obtain ⟨-, rfl⟩ := Prod.mk.inj haft
  exact enqueueGroups_charges _ _ _ _ _

theorem transacts_refund (hpc : (pool.workers w).pc = pc) (h : Pc.Solvent cfg pc)
    (hidle : Pc.hedging pc = false) (hfrs : Frames pool w base)
    (hsame : SameCharges ((Pc.reservations pc).foldl RecoveryState.refund pool.recovery)
      base.recovery) (hbare : Pc.Bare after) : Transacts cfg pool (base.put w after) := by
  subst hpc
  refine transacts_settle (hfrs.put after) ?_ rfl h.cost_le (by rwa [put_pc])
  rw [hidle, Bool.not_false, Bool.and_true]
  exact hsame

theorem dropChallenger_transacts (hpc : (pool.workers w).pc = .running job)
    (h : Pc.Solvent cfg (.running job)) (hfrs : Frames pool w base)
    (hsame : SameCharges (pool.dropChallenger w job).recovery base.recovery)
    (hbare : Pc.Bare after) : Transacts cfg pool (base.put w after) := by
  cases hchal : job.challenger with
  | none =>
    simp only [dropChallenger, hchal] at hsame
    exact transacts_idle hpc hfrs hsame (running_bare hchal) hbare
  | some chal =>
    simp only [dropChallenger, hchal] at hsame
    have hhedging : Pc.hedging (pool.workers w).pc = true := by simp [hpc, Pc.hedging, hchal]
    have hheld : Pc.reservations (pool.workers w).pc = [chal.reservation] := by
      simp [hpc, Pc.reservations, hchal]
    have hcost := h.cost_le
    rw [← hpc, hheld] at hcost
    refine transacts_settle (hfrs.put after) ?_ (congrArg _ hheld.symm) hcost (by rwa [put_pc])
    rw [hhedging, Bool.not_true, Bool.and_false]
    exact hsame

theorem Defers.charges (h : Defers pool base) : SameCharges pool.recovery base.recovery := by
  rcases h with rfl | ⟨_, rfl⟩ <;> exact ⟨rfl, rfl, rfl⟩

theorem Turn.transacts (hturn : Turn cfg pool w pc act base after)
    (hpc : (pool.workers w).pc = pc) (hsound : pc.Sound cfg G) (h : Pc.Solvent cfg pc)
    (hdels : Pc.delivers pc act = true) : Transacts cfg pool (base.put w after) := by
  have hfrs := hturn.frames
  cases hturn with
  | begin hstat hbeg =>
    cases hbeg with
    | copy hstgd => exact transacts_observe hpc hfrs (.refl _) rfl rfl
    | stop hstgd error =>
      exact transacts_idle hpc hfrs (.refl _)
        ⟨by simp [Pc.reservations, reservationOf, hstgd], rfl⟩ ⟨rfl, rfl⟩
    | run hstgd =>
      exact transacts_idle hpc hfrs (.refl _)
        ⟨by simp [Pc.reservations, reservationOf, hstgd], rfl⟩ (running_bare hsound.2)
  | lost hsending hgone =>
    cases hsending <;> exact transacts_refund hpc h rfl hfrs (.refl _) ⟨rfl, rfl⟩
  | interrupt => exact dropChallenger_transacts hpc h hfrs (.refl _) ⟨rfl, rfl⟩
  | boundary | eof => exact dropChallenger_transacts hpc h hfrs (.refl _) (completing_bare hsound.2)
  | dropHedge hdef => exact dropChallenger_transacts hpc h hfrs hdef.charges (running_bare rfl)
  | advise hchal => exact transacts_idle hpc hfrs (.refl _) (running_bare hchal) ⟨rfl, rfl⟩
  | unhedged | carryOn =>
    exact transacts_idle hpc hfrs (.refl _) ⟨rfl, rfl⟩ (running_bare hsound.2.2)
  | hedge hresv => exact transacts_grant hpc hfrs hresv (.refl _) ⟨rfl, rfl⟩ _ rfl rfl rfl
  | @giveUp job at' reservation state lineage hresv =>
    have hdrop : (pool.reserved job state lineage).dropChallenger w job =
        pool.reserved job state lineage := by
      simp only [dropChallenger, hsound.2.2]
    rw [hdrop] at hfrs ⊢
    exact transacts_grant hpc hfrs hresv (.refl _) ⟨rfl, rfl⟩ reservation rfl rfl rfl
  | hedgeAccept hchal | hedgeChunk hchal =>
    refine transacts_observe hpc hfrs (.refl _) ?_ ?_
    · simp [Pc.reservations, hchal]
    · simp [Pc.hedging, hchal]
  | @hedgeOverrun job data reservation staging hchal hover =>
    have hframed := ((h _ hchal).staging _ rfl).1
    have hfit : staging.data.length + data.length ≤ job.len := by
      simpa [Pc.delivers, hchal, hframed] using hdels
    exact absurd hover (Nat.not_lt.mpr hfit)
  | hedgeEof hchal =>
    refine transacts_relax hpc hfrs (.refl _) ?_ ?_ rfl
    · simp [Pc.hedging, hchal]
    · simp [Pc.reservations, hchal]
  | record hproc =>
    cases hproc with
    | winner hstgd | next hstgd | done hstgd =>
      refine transacts_observe hpc hfrs ⟨rfl, rfl, rfl⟩ ?_ rfl
      simp [Pc.reservations, reservationOf, hstgd]
  | settleLost hlost =>
    rcases hlost with ⟨_, rfl⟩ | rfl <;>
      exact transacts_refund hpc h rfl hfrs (.refl _) ⟨rfl, rfl⟩
  | stopCopy | completeStale | discardLost | retainStale | refund | renewStale =>
    exact transacts_refund hpc h rfl hfrs (.refl _) ⟨rfl, rfl⟩
  | settleFailed hdec =>
    refine transacts_observe hpc hfrs ?_ rfl rfl
    unfold charged
    split <;> exact .refl _
  | defer hdef => exact transacts_observe hpc hfrs hdef.charges rfl rfl
  | recover hrels hrecv hbase =>
    have hsame : SameCharges pool.recovery base.recovery := by
      rcases hbase with rfl | rfl
      · exact recover_charges hrecv
      · exact { recover_charges hrecv with }
    cases hrels <;> exact transacts_observe hpc hfrs hsame rfl rfl
  | count | renew | reacquire =>
    refine transacts_observe hpc hfrs ⟨rfl, rfl, rfl⟩ ?_ rfl
    simp [Pc.reservations, reservationOf, show _ = none from h]
  | _ => exact transacts_observe hpc hfrs ⟨rfl, rfl, rfl⟩ rfl rfl

def delivers (pool : Pool n) : Action n → Bool
  | .worker w action => Pc.delivers (pool.workers w).pc action
  | _ => true

private theorem step_solvent {act : Action n} (hsound : ∀ w, (pool.workers w).pc.Sound cfg G)
    (h : ∀ w, Pc.Solvent cfg (pool.workers w).pc) (hstep : step cfg pool act = some next)
    (w : Fin n) : Pc.Solvent cfg (next.workers w).pc := by
  refine step_points (P := Pc.Solvent cfg) ?_ trivial ?_ h hstep w
  · intro pc hpc
    cases pc <;> exact hpc
  · rintro w label rfl hwork
    obtain ⟨base, after, hturn, rfl⟩ := workerStep_turns hwork
    rw [put_pc]
    exact hturn.solvent (hsound w) (h w)

theorem notified_charges (pc : Pc) : Pc.reservations (Pc.notified pc) = Pc.reservations pc ∧
    Pc.hedging (Pc.notified pc) = Pc.hedging pc := by
  cases pc <;> exact ⟨rfl, rfl⟩

theorem transacts_aside (hrecovery : next.recovery = pool.recovery)
    (hheld : ∀ w, Pc.reservations (next.workers w).pc = Pc.reservations (pool.workers w).pc)
    (halone : ∀ w, Pc.hedging (next.workers w).pc = Pc.hedging (pool.workers w).pc) :
    Transacts cfg pool next := by
  have hnext : next.budget = pool.budget := by simp only [budget, hrecovery, hheld, halone]
  exact ⟨[], hnext ▸ .idle⟩

theorem step_transacts {act : Action n} (hsound : ∀ w, (pool.workers w).pc.Sound cfg G)
    (h : ∀ w, Pc.Solvent cfg (pool.workers w).pc) (hdels : pool.delivers act = true)
    (hstep : step cfg pool act = some next) : Transacts cfg pool next := by
  cases act with
  | worker w act =>
    simp only [step] at hstep
    split at hstep
    · cases hstep
    · obtain ⟨base, after, hturn, rfl⟩ := workerStep_turns hstep
      exact hturn.transacts rfl (hsound w) (h w) hdels
  | notify w =>
    simp only [step, notify] at hstep
    split at hstep
    · cases hstep
      exact transacts_aside rfl (fun _ => (notified_charges _).1) fun _ => (notified_charges _).2
    · cases hstep
  | abort w =>
    simp only [step, abort] at hstep
    split at hstep
    · cases hstep
    · cases hstep
      refine transacts_settle (w := w) ?_ (.refl _) rfl (h w).cost_le ?_
      · intro other ho
        simp [ho]
      · rw [owe_pc, put_pc]
        exact ⟨rfl, rfl⟩
  | write =>
    simp only [step, write] at hstep
    (repeat' split at hstep)
    all_goals cases hstep
    · refine transacts_aside ?_ (fun other => by rw [deliver_pc]) fun other => by rw [deliver_pc]
      unfold deliver
      split <;> rfl
    · exact transacts_aside rfl (fun _ => rfl) fun _ => rfl
  | _ =>
    have haside := step_aside rfl hstep
    exact transacts_aside haside.recovery (fun _ => by rw [haside.workers]) fun _ => by
      rw [haside.workers]

structure Booked (cfg : PoolConfig) (pool : Pool n) : Prop where
  sane : pool.Sane cfg fun _ _ => True
  balanced : pool.budget.Balanced Reservation.bound cfg.extraLimit
  solvent : ∀ w, Pc.Solvent cfg (pool.workers w).pc

theorem Booked.start {pieceMap : PieceMap} (hmap : pieceMap.Valid) (file : DiskFile)
    (watermark : Nat) (probe : Option (HttpResponse × Nat)) (files : ControlFiles) :
    (Pool.start pieceMap file watermark probe files : Pool n).Booked cfg where
  sane := Sane.start hmap file watermark probe files
  balanced := by
    constructor
    · simp [budget, Budget.owed, Pool.start, RecoveryState.new, Worker.new, Pc.reservations]
    · simp [budget, Pool.start, RecoveryState.new]
    · simp [budget, Pool.start, RecoveryState.new, Worker.new, Pc.hedging]
  solvent _ := trivial

theorem Booked.step {act : Action n} (h : pool.Booked cfg)
    (hdels : pool.delivers act = true) (hstep : Pool.step cfg pool act = some next) :
    next.Booked cfg where
  sane := h.sane.step (honest_true pool act) hstep
  balanced := by
    obtain ⟨shares, hmove⟩ := step_transacts h.sane.sound h.solvent hdels hstep
    exact hmove.balanced h.balanced
  solvent := step_solvent h.sane.sound h.solvent hstep

/-- The reserved amount is the sum of the bounds in flight, no reservation costs more than its
bound, and at most one hedge runs. -/
theorem extra_traffic_stays_within_budget {pieceMap : PieceMap} (hmap : pieceMap.Valid)
    (file : DiskFile) (watermark : Nat) (probe : Option (HttpResponse × Nat))
    (files : ControlFiles)
    (hreach : Reaches (step cfg) (fun pool action => pool.delivers action = true)
      (Pool.start pieceMap file watermark probe files) pool) :
    pool.recovery.reserved =
      ∑ w, ((Pc.reservations (pool.workers w).pc).map Reservation.bound).sum ∧
    (∀ w, ∀ reservation ∈ Pc.reservations (pool.workers w).pc,
      reservation.cost ≤ reservation.bound) ∧
    pool.recovery.reserved + pool.recovery.consumedExtra ≤ min (cfg.total / 100) maxExtra ∧
    (∀ w other, Pc.hedging (pool.workers w).pc = true →
      Pc.hedging (pool.workers other).pc = true → w = other) ∧
    ∀ action next, pool.delivers action = true → step cfg pool action = some next →
      ∃ settled : List Reservation, (∀ reservation ∈ settled,
          reservation.cost ≤ reservation.bound) ∧
        (settled.map Reservation.bound).sum ≤ pool.recovery.reserved ∧
        next.recovery.consumedExtra =
          pool.recovery.consumedExtra + (settled.map Reservation.cost).sum ∧
        (next.recovery.reserved = pool.recovery.reserved - (settled.map Reservation.bound).sum ∨
          settled = [] ∧ pool.recovery.reserved ≤ next.recovery.reserved) := by
  have hbook : pool.Booked cfg := hreach.invariant (Booked.start hmap file watermark probe files)
    fun _ _ _ h hdels hstep => h.step hdels hstep
  refine ⟨hbook.balanced.reserved, fun w => (hbook.solvent w).cost_le,
    hbook.balanced.within, fun w other => hbook.balanced.alone_unique, ?_⟩
  intro action next hdels hstep
  obtain ⟨shares, hmove⟩ := step_transacts hbook.sane.sound hbook.solvent hdels hstep
  exact ⟨shares, hmove.cost_le, hmove.settled_le hbook.balanced, hmove.spent, hmove.reserved⟩

/-- A slow request for the first of a hundred pieces is given up. -/
def cancelledRun : List (Action 1) :=
  [.worker 0 .advance, .worker 0 (.inspect 0), .worker 0 .advance, .worker 0 .advance,
    .worker 0 (.respond (partialContent 0 1 100)), .worker 0 .advise, .worker 0 .advance,
    .worker 0 .advance]

theorem one_piece_takes_the_whole_budget :
    ∃ pool : Pool 1, Reaches (step (smallConfig 100 (partialContent 0 1 100).metadata))
        (fun pool action => pool.delivers action = true)
        (Pool.start (PieceMap.new 100 1) emptyFile 16 none ⟨none, none⟩) pool ∧
      pool.recovery.reserved = 1 ∧ pool.recovery.reserved + pool.recovery.consumedExtra ≤ 1 := by
  have hrun : (runLabels (step (smallConfig 100 (partialContent 0 1 100).metadata))
      (fun pool action => pool.delivers action)
      (Pool.start (PieceMap.new 100 1) emptyFile 16 none ⟨none, none⟩) cancelledRun).map
        (fun pool => pool.recovery.reserved) = some 1 := by decide +kernel
  obtain ⟨pool, hpool, hresd⟩ := Option.map_eq_some_iff.mp hrun
  have hr := Reaches.of_runLabels hpool .refl fun _ _ h => h
  obtain ⟨-, -, hwith, -⟩ := extra_traffic_stays_within_budget
    (PieceMap.new_valid (by decide)) emptyFile 16 none ⟨none, none⟩ hr
  exact ⟨pool, hr, hresd, hwith⟩

end Pool

end Bytehaul.Session
