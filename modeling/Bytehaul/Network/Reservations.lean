import Bytehaul.Network.Placement

/-!
# Every reservation is settled once

The count of an address is the number of running transfers pinned to it. `held` says which
reservations belong to no transfer while a function of the driver is at work.
-/

namespace Bytehaul.Network

open Foundation Session Driver Slot IpPolicy
open Std (TreeMap)

def ActiveTransfer.holding (transfer : ActiveTransfer) (pool : PoolKey) (address : IpAddr) : Nat :=
  match transfer.candidate with
  | some claim => IpPolicy.reservation transfer.pool claim.address pool address
  | none => 0

def ActiveTransfer.names (transfer : ActiveTransfer) (pool : PoolKey) (address : IpAddr) : Bool :=
  pool == transfer.pool && transfer.candidate.any (address == ·.address)

def Slot.holding (slot : Slot) (pool : PoolKey) (address : IpAddr) : Nat :=
  match slot.active with
  | some transfer => transfer.holding pool address
  | none => 0

namespace Driver

variable {ρ : Type} {rates : RateModel ρ} {driver after : Driver ρ} {id : TransferId}

def claimed (driver : Driver ρ) (pool : PoolKey) (address : IpAddr) : Nat :=
  driver.slots.toList.countP fun entry => entry.2.active.any (·.names pool address)

structure Balanced (driver : Driver ρ) (held : PoolKey → IpAddr → Nat) : Prop where
  wellFormed : driver.policy.WellFormed
  count : ∀ pool address, driver.policy.inFlight pool address =
    driver.claimed pool address + held pool address
  sound : driver.underflow = false

theorem holding_eq_countAt {pool : PoolKey} {address : IpAddr} :
    countAt (fun entry => entry.2.active.any (·.names pool address)) driver.slots id =
      (driver.slot id).holding pool address := by
  unfold countAt slot
  cases driver.slots[id]? with
  | none => rfl
  | some slot =>
    cases hact : slot.active with
    | none => simp [holding, hact]
    | some tr =>
      cases hcand : tr.candidate with
      | none => simp [holding, ActiveTransfer.holding, ActiveTransfer.names, hact, hcand]
      | some claim =>
        simp [holding, ActiveTransfer.holding, ActiveTransfer.names, hact, hcand, reservation]

abbrev nothing : PoolKey → IpAddr → Nat := fun _ _ => 0

variable {held held' : PoolKey → IpAddr → Nat} {tr : ActiveTransfer} {key : PoolKey}
  {now : Nat} {pinned : Option CandidateClaim}

theorem Balanced.modify (h : driver.Balanced held) {change : Slot → Slot}
    (hheld : ∀ pool address, held pool address + (driver.slot id).holding pool address =
      held' pool address + (change (driver.slot id)).holding pool address) :
    (driver.modify id change).Balanced held' := by
  refine ⟨h.wellFormed, fun pool address => ?_, h.sound⟩
  have helsewhere : ∀ other, other ≠ id →
      (driver.modify id change).slots[other]? = driver.slots[other]? := fun other hne => by
    simp [Driver.modify, getElem?_insert_eq, hne]
  have hmoved := countP_of_agree (fun entry => entry.2.active.any (·.names pool address)) helsewhere
  rw [holding_eq_countAt, holding_eq_countAt, slot_modify] at hmoved
  have hc := h.count pool address
  have hmove := hheld pool address
  change driver.policy.inFlight pool address = _
  unfold claimed at hc ⊢
  omega

theorem Balanced.modify_same (h : driver.Balanced held) (change : Slot → Slot)
    (hact : (change (driver.slot id)).active = (driver.slot id).active) :
    (driver.modify id change).Balanced held :=
  h.modify fun pool addr => by rw [holding, holding, hact]

theorem Balanced.detach (h : driver.Balanced nothing)
    (hact : (driver.slot id).active = some tr) :
    (driver.modify id Slot.detach).Balanced tr.holding :=
  h.modify fun pool addr => by
    rw [holding, hact]
    exact Nat.add_comm ..

private theorem Balanced.attach (h : driver.Balanced tr.holding)
    (hact : (driver.slot id).active = none) :
    (driver.modify id fun slot => { slot with active := some tr }).Balanced nothing :=
  h.modify fun pool addr => by
    rw [holding, hact]
    exact Nat.add_comm ..

theorem Balanced.settle {claim : CandidateClaim}
    (h : driver.Balanced (IpPolicy.reservation key claim.address)) {outcome : AttemptOutcome} :
    (driver.settle key claim outcome now).Balanced nothing := by
  have hbusy : 0 < driver.policy.inFlight key claim.address := by
    have hc := h.count key claim.address
    rw [reservation, if_pos ⟨rfl, rfl⟩] at hc
    omega
  obtain ⟨hwell, hset⟩ := h.wellFormed.settle hbusy claim.generation outcome now
  refine ⟨hwell, fun pool address => ?_, ?_⟩
  · have hc := h.count pool address
    have hmove := hset pool address
    change (driver.policy.settle key claim.address claim.generation outcome now).inFlight pool
      address = driver.claimed pool address + 0
    omega
  · have hnz : (driver.policy.inFlight key claim.address == 0) = false := by
      simpa using Nat.ne_of_gt hbusy
    simp [Driver.settle, h.sound, hnz]

theorem Balanced.settleCandidate (h : driver.Balanced tr.holding) (outcome : AttemptOutcome)
    (now : Nat) : (driver.settleCandidate tr outcome now).Balanced nothing := by
  unfold Driver.settleCandidate
  cases hcand : tr.candidate with
  | none =>
    have hnoth : tr.holding = nothing := by
      funext pool address
      rw [ActiveTransfer.holding, hcand]
    exact hnoth ▸ h
  | some claim =>
    have hclaim : tr.holding = reservation tr.pool claim.address := by
      funext pool address
      rw [ActiveTransfer.holding, hcand]
    rw [hclaim] at h
    exact h.settle

theorem Balanced.rank (h : driver.Balanced held) {record : AttemptRecord} :
    (driver.rank rates record now).Balanced held := by
  unfold Driver.rank
  split
  · exact h
  · rename_i sample _
    obtain ⟨hwell, hsame⟩ := h.wellFormed.recordSample rates record.pool record.claim.address
      sample now
    exact ⟨hwell, fun pool addr => (hsame pool addr).trans (h.count pool addr), h.sound⟩

theorem Balanced.foldAttempt (h : driver.Balanced held) (now : Nat) :
    (driver.foldAttempt rates id now).Balanced held := by
  unfold Driver.foldAttempt
  split
  · exact h
  · split
    · split
      · exact h.modify_same _ rfl
      · exact (h.modify_same _ rfl).rank
    · exact h

theorem Balanced.bodyDone (h : driver.Balanced held) {consumed : Bool}
    {sample : Option TransferSample} :
    (driver.bodyDone rates id consumed sample now).Balanced held := by
  unfold Driver.bodyDone
  split
  · exact h
  · exact (h.modify_same _ rfl).foldAttempt now

def reserved (key : PoolKey) :
    Except SelectionError (Option CandidateClaim) → PoolKey → IpAddr → Nat
  | .ok (some claim) => IpPolicy.reservation key claim.address
  | .ok none | .error _ => nothing

theorem Balanced.reserveCandidate (h : driver.Balanced nothing) (rates : RateModel ρ)
    (options : TransferOptions) (key : PoolKey) (now : Nat) (previous : Option RetryState) :
    (driver.reserveCandidate rates options key now previous).2.Balanced
      (reserved key (driver.reserveCandidate rates options key now previous).1) := by
  unfold Driver.reserveCandidate
  split
  case h_1 => exact h
  case h_2 set _ =>
    obtain ⟨hobs, hsame⟩ := h.wellFormed.observe key set now
    obtain ⟨hwell, hsel⟩ := hobs.select rates key now
    have hc : ∀ pool address, ((driver.policy.observe key set now).select rates key
        now).2.inFlight pool address = driver.claimed pool address +
          IpPolicy.reserved key ((driver.policy.observe key set now).select rates key now).1 pool
            address := by
      intro pool address
      rw [hsel, hsame, h.count pool address]
      rfl
    split
    case h_1 error policy heq =>
      rw [heq] at hwell hc
      exact ⟨hwell, hc, h.sound⟩
    case h_2 selection policy heq =>
      rw [heq] at hwell hc
      exact ⟨hwell, hc, h.sound⟩

/-- The record of a transfer names the reservation that is held for it. -/
def Backed (slot : Slot) (held : PoolKey → IpAddr → Nat) : Prop :=
  match slot.attempt with
  | some record => held = IpPolicy.reservation record.pool record.claim.address
  | none => held = nothing

theorem Balanced.abandon (h : driver.Balanced held) (hback : Backed (driver.slot id) held)
    {head : HeadParser} {msg : String} :
    (driver.abandon id head msg now).Balanced nothing := by
  have hrel : (driver.releaseCandidate id now).Balanced nothing := by
    unfold releaseCandidate
    unfold Backed at hback
    split
    case h_1 record hrec =>
      rw [hrec] at hback
      subst hback
      exact (h.modify_same removeAttempt rfl).settle
    case h_2 hnone =>
      rw [hnone] at hback
      subst hback
      exact h
  refine hrel.modify_same _ ?_
  unfold dropHead
  split <;> rfl

theorem Balanced.attachTransfer (h : driver.Balanced tr.holding)
    (hact : (driver.slot id).active = none) (hback : Backed (driver.slot id) tr.holding)
    {answers : CurlAnswers} : (driver.attachTransfer id tr answers now).Balanced nothing := by
  unfold Driver.attachTransfer
  split
  · exact h.abandon hback ..
  · exact h.abandon hback ..
  · exact h.attach hact

def pinnedHolding (key : PoolKey) (pinned : Option CandidateClaim) : PoolKey → IpAddr → Nat :=
  match pinned with
  | some claim => IpPolicy.reservation key claim.address
  | none => nothing

theorem holding_mk {head : HeadParser} {connectTimeout : Nat} {retry : Option RetryState} :
    (ActiveTransfer.mk key head connectTimeout pinned retry).holding =
      pinnedHolding key pinned := by
  cases pinned <;> rfl

theorem Balanced.launch (h : driver.Balanced (pinnedHolding key pinned))
    (hact : (driver.slot id).active = none)
    (hback : Backed (driver.slot id) (pinnedHolding key pinned)) (opts : TransferOptions)
    (connectTimeout : Nat) (retry : Option RetryState) (answers : CurlAnswers) (now : Nat) :
    (driver.launch id key opts connectTimeout pinned retry answers now).Balanced nothing := by
  unfold Driver.launch
  split
  · exact Balanced.attachTransfer (holding_mk .. ▸ h) hact (holding_mk .. ▸ hback)
  · refine Balanced.attachTransfer (holding_mk .. ▸ h.modify_same _ rfl) ?_ ?_
    · rw [slot_modify]
      exact hact
    · rw [slot_modify, holding_mk]
      exact hback

variable (h : driver.Balanced nothing)
include h

theorem Balanced.startTransfer (hidle : (driver.slot id).Idle)
    (opts : TransferOptions) (answers : CurlAnswers) (now : Nat) :
    (driver.startTransfer rates id opts answers now).Balanced nothing := by
  have hresd := h.reserveCandidate rates opts opts.poolKey now none
  have hslots := (policyOnly_reserveCandidate rates driver opts opts.poolKey now none).slots
  unfold Driver.startTransfer
  dsimp only
  split
  case h_1 error refused heq =>
    rw [heq] at hresd
    exact hresd.modify_same _ rfl
  case h_2 plain heq =>
    rw [heq] at hresd hslots
    have hslot := slot_of_slots hslots id
    refine Balanced.launch hresd (hslot ▸ hidle.active) ?_ ..
    rw [hslot, Backed, hidle.attempt]
    rfl
  case h_3 claim pinned heq =>
    rw [heq] at hresd hslots
    have hslot := slot_of_slots hslots id
    refine Balanced.launch (hresd.modify_same _ rfl) ?_ ?_ ..
    · rw [slot_modify, hslot]
      exact hidle.active
    · rw [slot_modify]
      rfl

theorem Balanced.startRetry {request : RetryRequest}
    (hact : (driver.slot request.id).active = none)
    (hpool : ∀ record, (driver.slot request.id).attempt = some record →
      record.pool = request.pool) (answers : CurlAnswers) (now : Nat) :
    (driver.startRetry rates request answers now).Balanced nothing := by
  have hresd := h.reserveCandidate rates request.state.options request.pool now (some request.state)
  have hslots := (policyOnly_reserveCandidate rates driver request.state.options request.pool
    now (some request.state)).slots
  unfold Driver.startRetry
  dsimp only
  split
  · exact h.modify_same _ rfl
  · split
    case h_1 claim pinned heq =>
      rw [heq] at hresd hslots
      have hslot := slot_of_slots hslots request.id
      refine Balanced.launch (hresd.modify_same _ rfl) ?_ ?_ ..
      · rw [slot_modify, hslot]
        exact hact
      · rw [slot_modify, hslot]
        unfold nextRecord
        cases hrec : (driver.slot request.id).attempt with
        | none => rfl
        | some record =>
          change reservation request.pool claim.address = reservation record.pool claim.address
          rw [hpool record hrec]
    case h_2 refused other ho heq =>
      rw [heq] at hresd
      refine Balanced.modify_same ?_ _ rfl
      cases refused with
      | error error => exact hresd
      | ok pinned =>
        cases pinned with
        | none => exact hresd
        | some claim => exact (ho claim rfl).elim

omit h in
theorem Balanced.creditCandidate (h : driver.Balanced tr.holding) (outcome : AttemptOutcome)
    (report : CurlReport) (now : Nat) :
    (driver.creditCandidate rates id tr outcome report now).Balanced nothing := by
  have hset := h.settleCandidate outcome now
  unfold Driver.settleCandidate at hset
  unfold Driver.creditCandidate
  cases hcand : tr.candidate with
  | none =>
    rw [hcand] at hset
    exact hset
  | some claim =>
    rw [hcand] at hset
    unfold reportAttempt
    dsimp only
    split
    · exact hset
    · exact (hset.modify_same _ rfl).foldAttempt now

theorem Balanced.finishTransfer (hrun : (driver.slot id).Running tr) {result : CurlResult}
    {report : CurlReport} {answers : CurlAnswers} {later : Nat} :
    (driver.finishTransfer rates key id result report answers now later).Balanced nothing := by
  unfold Driver.finishTransfer completeTransfer
  rw [hrun.active]
  dsimp only
  by_cases hkey : tr.pool ≠ key
  · rw [if_pos hkey]
    exact h
  · rw [if_neg hkey]
    set terminal := terminalOf id tr.head.published result
    set outcome := outcomeOf key tr.head.published report result
    have hcredited : ((driver.modify id Slot.detach).creditCandidate rates id tr outcome
        report now).Balanced nothing := (h.detach hrun.active).creditCandidate outcome report now
    obtain ⟨credited, hchg, hsame, hatt⟩ := changes_credited hrun rates outcome report now
    cases hretry : retryRequest id tr terminal outcome now with
    | none =>
      have hconc := hcredited.modify_same (concluded tr terminal)
        (active_concluded tr terminal (slot _ id))
      exact ⟨hconc.wellFormed, hconc.count, hconc.sound⟩
    | some request =>
      obtain ⟨rfl, hpool, -⟩ := retryRequest_spec hretry
      refine hcredited.startRetry ?_ (fun record hrec => ?_) answers later
      · rw [hchg.here]
        exact hsame.active
      · rw [hchg.here] at hrec
        exact (hatt record hrec).2.2.1.trans hpool.symm

theorem Balanced.dismiss (hact : (driver.slot id).active = some tr) (error : DownloadError)
    (term : Terminal) (ending : Ending) (now : Nat) :
    (driver.dismiss id tr error term ending now).Balanced nothing :=
  ((h.detach hact).settleCandidate .cancelled now).modify_same _ rfl

theorem Balanced.cancelTransfer (now : Nat) : (driver.cancelTransfer id now).Balanced nothing := by
  unfold Driver.cancelTransfer
  split
  · exact h
  · rename_i tr hact
    have hdismissed := h.dismiss hact .cancelled .cancelled .cancelled now
    exact ⟨hdismissed.wellFormed, hdismissed.count, hdismissed.sound⟩

omit h in
theorem Balanced.foldl {α : Type} {step : Driver ρ → α → Driver ρ} {items : List α}
    (hstep : ∀ (driver : Driver ρ) item, driver.Balanced nothing →
      (step driver item).Balanced nothing) (h : driver.Balanced nothing) :
    (items.foldl step driver).Balanced nothing := by
  induction items generalizing driver with
  | nil => exact h
  | cons item items ih => exact ih (hstep driver item h)

theorem Balanced.failPool {msg : String} :
    (driver.failPool key msg now).Balanced nothing := by
  refine Balanced.foldl (fun driver id h => ?_) h
  unfold failTransfer
  split
  · exact h
  · rename_i tr hact
    exact h.dismiss hact _ _ _ now

theorem Balanced.shutDown : (driver.shutDown now).Balanced nothing := by
  refine Balanced.foldl (fun driver id h => ?_) h
  unfold shutDownTransfer
  split
  · exact h.modify_same _ rfl
  · rename_i tr hact
    exact h.dismiss hact _ _ _ now

theorem Balanced.header {line : List UInt8} : (driver.header id line).Balanced nothing := by
  unfold Driver.header
  split
  · exact h
  · rename_i tr hact
    refine h.modify fun pool addr => ?_
    simp [holding, ActiveTransfer.holding, hact]

theorem Balanced.failAll : driver.failAll.Balanced nothing := by
  refine Balanced.foldl (fun driver id h => ?_) h
  unfold failSink
  split
  · exact h.modify_same _ rfl
  · exact h

theorem Balanced.discard {cmd : Command} : (driver.discard cmd).Balanced nothing := by
  cases cmd with
  | submit id opts => exact h.modify_same _ rfl
  | _ => exact h

omit h in
private theorem underflow_foldl_unwindTransfer {ids : List TransferId} :
    (ids.foldl unwindTransfer driver).underflow = driver.underflow := by
  induction ids generalizing driver with
  | nil => rfl
  | cons id ids ih =>
    refine ih.trans ?_
    unfold unwindTransfer
    split <;> rfl

theorem Balanced.unwind (hset : driver.Settled) : driver.unwind.Balanced nothing := by
  refine ⟨wellFormed_new, fun pool addr => ?_, (underflow_foldl_unwindTransfer).trans h.sound⟩
  have hnob : driver.unwind.claimed pool addr = 0 := by
    refine List.countP_eq_zero.mpr fun ⟨id, slot⟩ hmem => ?_
    have hslot : driver.unwind.slot id = slot := by
      rw [Driver.slot, (mem_toList_iff _ id slot).mp hmem]
      rfl
    have hact := (cleared_unwind hset id).active
    rw [hslot] at hact
    simp [hact]
  rw [hnob]
  rfl

end Driver

namespace System

variable {ρ : Type} {rates : RateModel ρ} {sys next : System ρ}

private theorem balanced_process {cmd : Command} {pending : List Command} (hpl : sys.Placed)
    (h : sys.driver.Balanced Driver.nothing) (hpend : sys.pending = cmd :: pending)
    {answers : CurlAnswers} {now : Nat} :
    (processCommand rates sys.driver answers now cmd).Balanced Driver.nothing := by
  cases cmd with
  | submit id opts => exact h.startTransfer (hpl.idle_head hpend) opts answers now
  | resume id => exact h
  | cancel id => exact h.cancelTransfer now
  | bodyDone id consumed sample => exact h.bodyDone

theorem balanced_send (h : sys.driver.Balanced Driver.nothing) {cmd : Command} :
    (sys.send cmd).driver.Balanced Driver.nothing := by
  unfold send
  split
  · exact h.discard
  · exact h

theorem balanced_moves (hpl : sys.Placed) (h : sys.driver.Balanced Driver.nothing)
    {act : SystemAction} (hmv : Moves rates sys act next) :
    next.driver.Balanced Driver.nothing := by
  cases hmv with
  | get | miss => exact h
  | register hcall => exact h.modify_same register rfl
  | count hcall => exact h
  | submit hcall => exact balanced_send h
  | giveUp hcall => exact h.modify_same unregister rfl
  | @talk act id caller after cmd hcall htalks =>
    cases cmd with
    | none => exact h
    | some said => exact balanced_send h
  | close => exact Driver.Balanced.foldl (fun _ cmd h => h.discard) h
  | drain hstg => exact h
  | process hstg hpend => exact balanced_process hpl h hpend
  | inner hinner => exact hinner.driver.symm ▸ h
  | header hstg => exact h.header
  | failPool hstg => exact h.failPool
  | @complete report answers now later pool id result comps hstg hcomps =>
    cases hact : (sys.driver.slot id).active with
    | none =>
      unfold finishTransfer completeTransfer
      rw [hact]
      exact h
    | some tr => exact h.finishTransfer ((hpl.settled id).running hact)
  | shutDown hstg => exact h.shutDown
  | unwind hstg =>
    exact (Driver.Balanced.foldl (fun _ cmd h => h.discard) h).unwind hpl.discard_pending.2
  | failAll hstg => exact h.failAll
  | closeQueue hstg => exact Driver.Balanced.foldl (fun _ cmd h => h.discard) h

theorem Reachable.balanced (h : Reachable rates sys) :
    sys.driver.Balanced Driver.nothing := by
  refine h.invariant_along (fun sys => sys.driver.Balanced nothing)
    ⟨wellFormed_new, fun _ _ => rfl, rfl⟩ fun _ _ _ hr hbald _ hstep => ?_
  exact balanced_moves (Reachable.placed hr) hbald (moves_of_step hstep)

/-- The policy counts at every address the running transfers pinned to it and keeps its candidate
meanwhile; nothing is settled that was not reserved. -/
theorem reservations_settled_once (h : Reachable rates sys) :
    (∀ pool address, sys.driver.policy.inFlight pool address = sys.driver.claimed pool address) ∧
    (∀ pool address, 0 < sys.driver.claimed pool address → ∃ origin,
      sys.driver.policy.origins pool = some origin ∧ (origin.candidate address).isSome = true) ∧
    (∀ pool origin, sys.driver.policy.origins pool = some origin →
      (origin.candidates.map Candidate.address).Nodup) ∧
    sys.driver.underflow = false := by
  have hbald := h.balanced
  refine ⟨hbald.count, fun pool address hpos => ?_,
    fun pool origin horig => (hbald.wellFormed pool origin horig).table, hbald.sound⟩
  have hc : 0 < sys.driver.policy.inFlight pool address := by rwa [hbald.count pool address]
  unfold inFlight busy at hc
  cases horig : sys.driver.policy.origins pool with
  | none => simp [horig] at hc
  | some origin =>
    refine ⟨origin, rfl, ?_⟩
    cases hf : origin.candidate address with
    | none =>
      unfold Origin.candidate at hf
      simp [horig, hf] at hc
    | some candidate => rfl

def pinnedView (pool : PoolKey) (address : IpAddr) (sys : System Nat) : Nat × Nat :=
  (sys.driver.policy.inFlight pool address, sys.driver.claimed pool address)

theorem one_reservation_at_an_address : ∃ sys : System Nat,
    Reachable sampleRates sys ∧ sys.driver.claimed samplePool sampleAddress = 1 ∧
      sys.driver.policy.inFlight samplePool sampleAddress = 1 := by
  have hview : (runLabels (step sampleRates) (fun _ _ => true) (new : System Nat)
      [.get (sampleOptions 100), .register 1, .count 1, .submit 1, .drain,
        .process sampleAnswers 0]).map (pinnedView samplePool sampleAddress) = some (1, 1) := by
    decide
  obtain ⟨sys, hr, heq⟩ := Reaches.exists_of_run hview
  have hclaimed : sys.driver.claimed samplePool sampleAddress = 1 := (Prod.mk.inj heq).2
  obtain ⟨hc, -⟩ := reservations_settled_once hr
  exact ⟨sys, hr, hclaimed, (hc samplePool sampleAddress).trans hclaimed⟩

end System

end Bytehaul.Network
