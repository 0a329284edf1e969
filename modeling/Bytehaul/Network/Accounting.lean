import Bytehaul.Network.Retries

/-!
# Where the submitted transfers are counted

`count_cancelled` asks for `submitted == completed + cancelled + active`, which is right
until a step loses a transfer in another way.
-/

namespace Bytehaul.Network

open Foundation Session List Driver Slot
open Std (TreeMap)

def Caller.isSubmitted : Caller → Bool
  | .admitted _ | .registered _ => false
  | .counted _ | .waiting | .withdrawing | .withdrawn | .streaming | .abandoning | .finished =>
    true

def Caller.isUnsent (caller : Caller) : Bool := caller.isSubmitted && !caller.sent

namespace Slot

def counts (slot : Slot) (ending : Ending) : Nat := if slot.ended = some ending then 1 else 0

def isLost (slot : Slot) : Bool :=
  slot.ended.any fun ending => decide (ending ≠ .completed ∧ ending ≠ .cancelled)

def CountedOnce (slot : Slot) : Prop :=
  slot.active.isSome = true ∧ slot.ended = none ∨
    slot.active = none ∧ (slot.ended = some .completed ∨ slot.ended = some .cancelled)

def Uncounted (slot after : Slot) : Prop :=
  after.ended = slot.ended ∨ slot.ended = none ∧
    ∃ ending, after.ended = some ending ∧ ending ≠ .completed ∧ ending ≠ .cancelled

theorem LeavesAs.uncounted {slot after : Slot} {ending : Ending} (h : slot.LeavesAs ending after)
    (hne : ending ≠ .completed ∧ ending ≠ .cancelled) : slot.Uncounted after :=
  h.imp_right fun ⟨hnone, hend⟩ => ⟨hnone, ending, hend, hne⟩

end Slot

namespace Driver

variable {ρ : Type} {rates : RateModel ρ} {driver after : Driver ρ} {id : TransferId}

def running (driver : Driver ρ) : Nat :=
  driver.slots.toList.countP fun entry => entry.2.active.isSome

def endedAs (driver : Driver ρ) (ending : Ending) : Nat :=
  driver.slots.toList.countP fun entry => decide (entry.2.ended = some ending)

def lost (driver : Driver ρ) : Nat := driver.slots.toList.countP fun entry => entry.2.isLost

/-! ## The counters -/

structure Tallied (driver : Driver ρ) : Prop where
  completed : driver.completed = driver.endedAs .completed
  cancelled : driver.cancelled = driver.endedAs .cancelled

theorem Touches.endedAs {slot : Slot} (h : Touches id driver after slot) (ending : Ending) :
    after.endedAs ending + (driver.slot id).counts ending =
      driver.endedAs ending + slot.counts ending := by
  have hat : ∀ driver : Driver ρ, countAt (fun entry => decide (entry.2.ended = some ending))
      driver.slots id = (driver.slot id).counts ending := fun driver => by
    unfold countAt Driver.slot
    cases driver.slots[id]? <;> simp [Slot.counts, Slot.new]
  have hmoved := countP_of_agree (fun entry => decide (entry.2.ended = some ending)) h.elsewhere
  rw [hat, hat, h.here] at hmoved
  exact hmoved

variable (h : driver.Tallied)
include h

theorem Tallied.of_changes {slot : Slot} (hchg : Touches id driver after slot)
    (hcomp : after.completed + (driver.slot id).counts .completed =
      driver.completed + slot.counts .completed)
    (hcanc : after.cancelled + (driver.slot id).counts .cancelled =
      driver.cancelled + slot.counts .cancelled) : after.Tallied := by
  have hfst := hchg.endedAs .completed
  have hsnd := hchg.endedAs .cancelled
  have hold := h.completed
  have ho := h.cancelled
  exact ⟨by omega, by omega⟩

theorem Tallied.quiet {slot : Slot}
    (hchg : Touches id driver after slot) (htally : after.tally = driver.tally)
    (hend : (driver.slot id).Uncounted slot) : after.Tallied := by
  obtain ⟨hcomp, hcanc⟩ := Prod.mk.inj htally
  rcases hend with hsame | ⟨hnone, ending, hsome, hfst, hsnd⟩
  · exact h.of_changes hchg (by rw [hcomp, counts, counts, hsame])
      (by rw [hcanc, counts, counts, hsame])
  · exact h.of_changes hchg (by simp [hcomp, counts, hnone, hsome, hfst])
      (by simp [hcanc, counts, hnone, hsome, hsnd])

theorem Tallied.cancelTransfer (hset : driver.Settled) {now : Nat} :
    (driver.cancelTransfer id now).Tallied := by
  cases hact : (driver.slot id).active with
  | none =>
    unfold Driver.cancelTransfer
    rw [hact]
    exact h
  | some tr =>
    have hrun := (hset id).running hact
    obtain ⟨last, hlast, htally, hgone, -⟩ := changes_cancelTransfer hrun now
    obtain ⟨hcomp, hcanc⟩ := Prod.mk.inj htally
    exact h.of_changes hlast.toTouches (by simp [counts, hcomp, hrun.ended, hgone.ended])
      (by simp [counts, hcanc, hrun.ended, hgone.ended])

theorem Tallied.finishTransfer (hset : driver.Settled) (key : PoolKey)
    (result : CurlResult) (report : CurlReport) (answers : CurlAnswers) (now later : Nat) :
    (driver.finishTransfer rates key id result report answers now later).Tallied := by
  cases hact : (driver.slot id).active with
  | none =>
    unfold Driver.finishTransfer completeTransfer
    rw [hact]
    exact h
  | some tr =>
    have hrun := (hset id).running hact
    obtain ⟨last, hlast, ⟨htally, rfl | ⟨⟨next, hnext⟩, -⟩ | ⟨hgone | hgone, -⟩⟩ |
      ⟨htally, hgone, -⟩⟩ := changes_finishTransfer hrun rfl
    · exact h.quiet hlast.toTouches htally (.inl rfl)
    · exact h.quiet hlast.toTouches htally (.inl (hnext.ended.trans hrun.ended.symm))
    · exact h.quiet hlast.toTouches htally (.inr ⟨hrun.ended, _, hgone.ended, nofun, nofun⟩)
    · exact h.quiet hlast.toTouches htally (.inr ⟨hrun.ended, _, hgone.ended, nofun, nofun⟩)
    · obtain ⟨hcomp, hcanc⟩ := Prod.mk.inj htally
      exact h.of_changes hlast.toTouches (by simp [counts, hcomp, hrun.ended, hgone.ended])
        (by simp [counts, hcanc, hrun.ended, hgone.ended])

theorem Tallied.startTransfer (hidle : (driver.slot id).Idle)
    {opts : TransferOptions} {answers : CurlAnswers} {now : Nat} :
    (driver.startTransfer rates id opts answers now).Tallied := by
  obtain ⟨last, hlast, ⟨⟨tr, hrun⟩, -⟩ | ⟨hgone | hgone, -⟩⟩ :=
    changes_startTransfer hidle rates opts answers now
  · exact h.quiet hlast.toTouches hlast.tally (.inl (hrun.ended.trans hidle.ended.symm))
  · exact h.quiet hlast.toTouches hlast.tally (.inr ⟨hidle.ended, _, hgone.ended, nofun, nofun⟩)
  · exact h.quiet hlast.toTouches hlast.tally (.inr ⟨hidle.ended, _, hgone.ended, nofun, nofun⟩)

theorem Tallied.modify (change : Slot → Slot)
    (hend : (change (driver.slot id)).ended = (driver.slot id).ended) :
    (driver.modify id change).Tallied :=
  h.quiet (touches_modify change) rfl (.inl hend)

theorem Tallied.bodyDone {consumed : Bool} {sample : Option TransferSample}
    {now : Nat} : (driver.bodyDone rates id consumed sample now).Tallied := by
  exact h.quiet (changes_bodyDone driver id consumed sample now).toTouches
    (changes_bodyDone driver id consumed sample now).tally (.inl (ended_consumedSlot _))

theorem Tallied.header (line : List UInt8) : (driver.header id line).Tallied := by
  unfold Driver.header
  split
  · exact h
  · exact h.modify _ rfl

omit h in
theorem Sweeps.tallied {step : Driver ρ → TransferId → Driver ρ} {ending : Ending}
    (hstep : Sweeps ending step) (hne : ending ≠ .completed ∧ ending ≠ .cancelled)
    (hset : driver.Settled) (h : driver.Tallied) (ids : List TransferId) :
    (ids.foldl step driver).Tallied :=
  hstep.induct hset h (fun _ _ _ hdrops hold =>
    hold.quiet hdrops.toTouches hdrops.tally (hdrops.leaves.uncounted hne)) ids

theorem Tallied.discards (cmds : List Command)
    (hidle : ∀ id ∈ cmds.filterMap Command.submission,
      (driver.slot id).ended = none ∨ (driver.slot id).ended = some .discarded) :
    (cmds.foldl Driver.discard driver).Tallied := by
  induction cmds generalizing driver with
  | nil => exact h
  | cons cmd cmds ih =>
    rw [filterMap_cons_submission] at hidle
    refine ih ?_ fun id hid => ?_
    · cases cmd with
      | submit id opts =>
        refine h.quiet (touches_modify discarded) rfl ?_
        rcases hidle id (by simp [Command.submission]) with hnone | hsame
        · exact .inr ⟨hnone, .discarded, rfl, by simp, by simp⟩
        · exact .inl hsame.symm
      | resume id | cancel id | bodyDone id consumed sample => exact h
    · rw [slot_discard]
      split
      · exact .inr rfl
      · exact hidle id (mem_append_right _ hid)

end Driver

/-! ## Steps that lose a transfer -/

def TransferOptions.Usable (options : TransferOptions) (now : Nat) : Prop :=
  ∀ set, options.candidates = some set → set.addresses ≠ [] ∧ now < set.validUntil

namespace Driver

variable {ρ : Type} {rates : RateModel ρ} {driver middle after : Driver ρ} {id : TransferId}
  {slot : Slot} {answers : CurlAnswers} {now later : Nat}

def Kept (driver : Driver ρ) : Prop := ∀ id, (driver.slot id).isLost = false

theorem lost_eq_zero : driver.lost = 0 ↔ driver.Kept := by
  unfold lost Kept
  rw [countP_eq_zero]
  constructor
  · intro hnone id
    cases hslot : driver.slots[id]? with
    | none => simp [Driver.slot, hslot, Slot.new, isLost]
    | some slot =>
      have hkept := hnone (id, slot) ((mem_toList_iff ..).mpr hslot)
      simpa [Driver.slot, hslot] using hkept
  · rintro hkept ⟨id, slot⟩ hmem
    have hslot : driver.slot id = slot := by
      rw [Driver.slot, (mem_toList_iff _ id slot).mp hmem]
      rfl
    simpa [hslot] using hkept id

private theorem isLost_of_none (h : slot.ended = none) : slot.isLost = false := by simp [isLost, h]

theorem Touches.kept_iff (h : Touches id driver after slot)
    (hslot : (driver.slot id).ended = none) :
    after.Kept ↔ driver.Kept ∧ slot.isLost = false := by
  constructor
  · intro hkept
    refine ⟨fun other => ?_, h.here ▸ hkept id⟩
    by_cases heq : other = id
    · exact isLost_of_none (heq ▸ hslot)
    · exact h.slot_other heq ▸ hkept other
  · rintro ⟨hkept, hlast⟩ other
    by_cases heq : other = id
    · rw [heq, h.here]
      exact hlast
    · rw [h.slot_other heq]
      exact hkept other

theorem Touches.kept_of_ended (h : Touches id driver after slot)
    (hend : slot.ended = (driver.slot id).ended) : after.Kept ↔ driver.Kept := by
  have hsame := h.all (R := fun before after => after.isLost = before.isLost) (fun _ => rfl)
    (by simp [isLost, hend])
  exact forall_congr' fun other => by rw [hsame other]

theorem reserveCandidate_cases (hwell : driver.policy.WellFormed) (rates : RateModel ρ)
    (opts : TransferOptions) (pool : PoolKey) (now : Nat) (prev : Option RetryState) :
    (∃ error, (driver.reserveCandidate rates opts pool now prev).1 = .error error ∧
      ¬ opts.Usable now) ∨
    ∃ found, (driver.reserveCandidate rates opts pool now prev).1 = .ok found ∧
      opts.Usable now ∧ found.isSome = opts.candidates.isSome := by
  unfold reserveCandidate TransferOptions.Usable
  cases opts.candidates with
  | none => exact .inr ⟨none, rfl, nofun, rfl⟩
  | some set =>
    have hfol : (((driver.policy.origins pool).getD (.new now)).observe set now).Follows set :=
      .observe (hwell.origin pool now).table set now
    have hobs : (driver.policy.observe pool set now).origins pool = some _ :=
      Function.update_self ..
    dsimp only
    rcases IpPolicy.select_spec hfol hobs rates now with
      ⟨error, hsel, hnone⟩ | ⟨selection, hsel, hmem, hval, -⟩
    · rw [hsel]
      refine .inl ⟨error, rfl, fun husab => ?_⟩
      obtain ⟨hne, htime⟩ := husab set rfl
      exact hnone.elim hne (Nat.not_le_of_lt htime)
    · rw [hsel]
      refine .inr ⟨_, rfl, ?_, rfl⟩
      rintro _ ⟨⟩
      exact ⟨ne_nil_of_mem hmem, hval⟩

theorem isSome_startTransfer (hwell : driver.policy.WellFormed) (hidle : (driver.slot id).Idle)
    (rates : RateModel ρ) (opts : TransferOptions) (answers : CurlAnswers) (now : Nat) :
    ((driver.startTransfer rates id opts answers now).slot id).active.isSome = true ↔
      opts.Usable now ∧ answers.taken = true := by
  have hslots := (policyOnly_reserveCandidate rates driver opts opts.poolKey now none).slots
  have hcases := reserveCandidate_cases hwell rates opts opts.poolKey now none
  have hact := (slot_of_slots hslots id).symm ▸ hidle.active
  unfold startTransfer
  dsimp only
  split
  case h_1 error refused heq =>
    rw [heq] at hcases hact
    rcases hcases with ⟨_, -, hnot⟩ | ⟨_, hok, -⟩
    · simp only [refuse, slot_modify, leave, finish, unregister, sendHead]
      simp [hact, hnot]
    · cases hok
  case h_2 plain heq =>
    rw [heq] at hcases hact
    rcases hcases with ⟨_, herr, -⟩ | ⟨_, -, husab, -⟩
    · cases herr
    · obtain ⟨head, hlaunch⟩ := active_launch hact opts.poolKey opts opts.connectTimeout none none
      rw [hlaunch]
      cases answers.taken <;> simp [husab]
  case h_3 claim pinned heq =>
    rw [heq] at hcases hact
    rcases hcases with ⟨_, herr, -⟩ | ⟨_, -, husab, -⟩
    · cases herr
    · have hready : ((pinned.modify id
          (·.setAttempt (recordOf opts.poolKey claim))).slot id).active = none :=
        (congrArg Slot.active (slot_modify _)).trans hact
      obtain ⟨head, hlaunch⟩ := active_launch hready opts.poolKey opts (connectSlice
        opts.headTimeout (retryStateOf opts claim now).maxAttempts opts.connectTimeout)
        (some claim) (some (retryStateOf opts claim now))
      rw [hlaunch]
      cases answers.taken <;> simp [husab]

/-- What the second attempt of a transfer needs. -/
structure Resumable (state : RetryState) (answers : CurlAnswers) (now : Nat) : Prop where
  inTime : now < state.deadline
  pinned : state.options.candidates.isSome = true
  usable : state.options.Usable now
  taken : answers.taken = true

theorem isSome_startRetry {request : RetryRequest} (hwell : driver.policy.WellFormed)
    (hact : (driver.slot request.id).active = none) (rates : RateModel ρ)
    (answers : CurlAnswers) (now : Nat) :
    ((driver.startRetry rates request answers now).slot request.id).active.isSome = true ↔
      Resumable request.state answers now := by
  have hslots := (policyOnly_reserveCandidate rates driver request.state.options request.pool now
    (some request.state)).slots
  have hcases := reserveCandidate_cases hwell rates request.state.options request.pool now
    (some request.state)
  have hresd := (slot_of_slots hslots request.id).symm ▸ hact
  have hfail : ∀ {other : Driver ρ}, (other.slot request.id).active = none →
      ((other.failRetry request.id request.error).slot request.id).active.isSome = false := by
    intro other ho
    rw [failRetry, slot_modify]
    exact congrArg Option.isSome ho
  unfold startRetry
  dsimp only
  split
  case isTrue hlate =>
    rw [hfail hact]
    exact iff_of_false Bool.false_ne_true fun hrsmb => by
      have hinTime := hrsmb.inTime
      omega
  case isFalse hearly =>
    split
    case h_1 claim reserved heq =>
      rw [heq] at hcases hresd
      rcases hcases with ⟨_, herr, -⟩ | ⟨_, hok, husab, hsome⟩
      · cases herr
      · cases hok
        have hready : ((reserved.modify request.id fun slot =>
            slot.setAttempt (nextRecord slot request.pool claim)).slot request.id).active =
            none := (congrArg Slot.active (slot_modify _)).trans hresd
        obtain ⟨head, hlaunch⟩ := active_launch hready request.pool request.state.options
          (connectSlice (request.state.deadline - now)
            (request.state.maxAttempts - request.state.attempts)
            request.state.options.connectTimeout)
          (some claim) (some { request.state with attempts := claim.attempts })
        rw [hlaunch]
        cases htaken : answers.taken with
        | false =>
          exact iff_of_false Bool.false_ne_true fun hrsmb =>
            absurd (htaken ▸ hrsmb.taken) Bool.false_ne_true
        | true => exact iff_of_true rfl ⟨by omega, hsome.symm, husab, htaken⟩
    case h_2 result reserved ho heq =>
      rw [heq] at hcases hresd
      rw [hfail hresd]
      refine iff_of_false Bool.false_ne_true fun hrsmb => ?_
      rcases hcases with ⟨_, -, hnot⟩ | ⟨found, rfl, -, hsome⟩
      · exact hnot hrsmb.usable
      · obtain ⟨claim, rfl⟩ := Option.isSome_iff_exists.mp (hsome.trans hrsmb.pinned)
        exact ho claim rfl

theorem isLost_of_active (h : (∃ tr, slot.Running tr) ∨
    ∃ ending, slot.Gone ending ∧ ending ≠ .completed ∧ ending ≠ .cancelled) :
    slot.isLost = false ↔ slot.active.isSome = true := by
  rcases h with ⟨tr, hrun⟩ | ⟨ending, hgone, hending⟩
  · simp [isLost, hrun.ended, hrun.active]
  · simp [isLost, hgone.ended, hgone.active, hending]

theorem kept_startTransfer (hwell : driver.policy.WellFormed) (hidle : (driver.slot id).Idle)
    (rates : RateModel ρ) (opts : TransferOptions) (answers : CurlAnswers) (now : Nat) :
    (driver.startTransfer rates id opts answers now).Kept ↔
      driver.Kept ∧ opts.Usable now ∧ answers.taken = true := by
  obtain ⟨last, hlast, hcases⟩ := changes_startTransfer hidle rates opts answers now
  rw [hlast.toTouches.kept_iff hidle.ended, ← isSome_startTransfer hwell hidle rates, hlast.here,
    isLost_of_active]
  rcases hcases with ⟨hrun, -⟩ | ⟨hgone | hgone, -⟩
  · exact .inl hrun
  · exact .inr ⟨_, hgone, nofun, nofun⟩
  · exact .inr ⟨_, hgone, nofun, nofun⟩

private theorem kept_cancelTransfer (hset : driver.Settled) (now : Nat) :
    (driver.cancelTransfer id now).Kept ↔ driver.Kept := by
  cases hact : (driver.slot id).active with
  | none =>
    unfold cancelTransfer
    rw [hact]
  | some tr =>
    have hrun := (hset id).running hact
    obtain ⟨last, hlast, -, hgone, -⟩ := changes_cancelTransfer hrun now
    rw [hlast.toTouches.kept_iff hrun.ended]
    simp [isLost, hgone.ended]

theorem kept_bodyDone (rates : RateModel ρ) (consumed : Bool) (sample : Option TransferSample)
    (now : Nat) : (driver.bodyDone rates id consumed sample now).Kept ↔ driver.Kept := by
  exact (changes_bodyDone driver id consumed sample now).toTouches.kept_of_ended
    (ended_consumedSlot _)

private theorem kept_header (line : List UInt8) : (driver.header id line).Kept ↔ driver.Kept := by
  unfold header
  split
  · rfl
  · exact (touches_modify _).kept_of_ended rfl

theorem kept_discards (cmds : List Command) : (cmds.foldl Driver.discard driver).Kept ↔
      driver.Kept ∧ cmds.filterMap Command.submission = [] := by
  unfold Kept
  simp only [slot_discards]
  constructor
  · intro hkept
    have hnone : ∀ id, id ∉ cmds.filterMap Command.submission := fun id hid => by
      have hlost := hkept id
      rw [if_pos hid] at hlost
      cases hlost
    refine ⟨fun id => ?_, eq_nil_iff_forall_not_mem.mpr hnone⟩
    have hslot := hkept id
    rwa [if_neg (hnone id)] at hslot
  · rintro ⟨hkept, hnone⟩ id
    rw [hnone, if_neg not_mem_nil]
    exact hkept id

theorem kept_failPool (hset : driver.Settled) (pool : PoolKey) (msg : String) (now : Nat) :
    (driver.failPool pool msg now).Kept ↔ driver.Kept ∧
      ∀ id tr, (driver.slot id).active = some tr → tr.pool ≠ pool := by
  have hmem : ∀ id, id ∈ driver.transfersOf pool ↔
      ∃ tr, (driver.slot id).active = some tr ∧ tr.pool = pool := by
    intro id
    simp only [transfersOf, mem_map, mem_filter, Prod.exists, mem_toList_iff, Driver.slot]
    cases hslot : driver.slots[id]? <;> simp [Slot.new, hslot, Option.any_eq_true]
  unfold failPool
  by_cases hnone : ∀ id tr, (driver.slot id).active = some tr → tr.pool ≠ pool
  · have hemp : driver.transfersOf pool = [] := eq_nil_iff_forall_not_mem.mpr fun id hid => by
      obtain ⟨tr, hact, hpool⟩ := (hmem id).mp hid
      exact hnone id tr hact hpool
    rw [hemp]
    exact (and_iff_left hnone).symm
  · refine iff_of_false (fun hkept => ?_) fun hboth => hnone hboth.2
    simp only [not_forall, ne_eq, not_not] at hnone
    obtain ⟨id, tr, hact, hpool⟩ := hnone
    have hrun := (hset id).running hact
    have hsweeps := sweeps_failTransfer (ρ := ρ) msg now
    have hleaves := hsweeps.leaves hset (driver.transfersOf pool) id
    have hdone : ∀ (driver : Driver ρ) id, driver.Settled →
        ((failTransfer msg now driver id).slot id).active = none := by
      intro driver id hset
      unfold failTransfer
      split
      · assumption
      · rename_i tr hact
        obtain ⟨last, hlast, hgone, -⟩ := changes_dismiss ((hset id).running hact)
          (.internal msg) (.failed .other none msg) .broken now
        rw [hlast.here]
        exact hgone.active
    have hclrd := @Sweeps.all ρ driver _ (driver.transfersOf pool) _ hsweeps
      (fun slot => slot.active = none) hdone hset id
      (.inl ((hmem id).mpr ⟨tr, hact, hpool⟩))
    rcases (advances_failPool hset pool msg now id).running tr hrun with
      ⟨other, ho⟩ | ⟨ending, hgone⟩
    · cases hclrd.symm.trans ho.active
    · rcases hleaves with hsame | ⟨-, hend⟩
      · cases hgone.ended.symm.trans (hsame.trans hrun.ended)
      · have hslot := hkept id
        rw [isLost, hend] at hslot
        cases hslot

private theorem kept_completeTransfer (hset : driver.Settled) {pool : PoolKey} {result : CurlResult}
    {report : CurlReport}
    (h : driver.completeTransfer rates pool id result report now = (after, none)) :
    after.Kept ↔ driver.Kept := by
  unfold completeTransfer at h
  split at h
  · cases h
    rfl
  · rename_i tr hact
    split at h
    · cases h
      rfl
    · dsimp only at h
      split at h
      · cases h
      · cases h
        have hrun := (hset id).running hact
        obtain ⟨credited, hchg, -⟩ := changes_credited hrun rates
          (outcomeOf pool tr.head.published report result) report now
        have hlast := (hchg.modify _ (keeps_concluded tr
          (terminalOf id tr.head.published result) credited)).toTouches
        exact (hlast.kept_iff hrun.ended).trans (and_iff_left rfl)

theorem completeTransfer_of_retryable {pool : PoolKey} {result : CurlResult} {report : CurlReport}
    {tr : ActiveTransfer} {request : RetryRequest}
    (hact : (driver.slot id).active = some tr) (hpool : tr.pool = pool)
    (h : Retryable id tr result report now request) :
    ∃ found, (driver.completeTransfer rates pool id result report now).2 = some found ∧
      found.state = request.state := by
  subst hpool
  obtain ⟨error, herr⟩ : ∃ error, terminalError
      (terminalOf id tr.head.published result) = some error := by
    cases result with
    | ok done => cases h.outcome
    | error failure => exact ⟨_, rfl⟩
  have hrequest : retryRequest id tr (terminalOf id tr.head.published result)
      (outcomeOf tr.pool tr.head.published report result) now =
        some ⟨id, tr.pool, request.state, error⟩ := by
    simp [retryRequest, herr, h.state, h.outcome, h.left, h.inTime, h.sender]
  refine ⟨⟨id, tr.pool, request.state, error⟩, ?_, rfl⟩
  simp [completeTransfer, hact, hrequest]

theorem kept_finishTransfer (hset : driver.Settled) (hbald : driver.Balanced nothing)
    (rates : RateModel ρ) (pool : PoolKey) (result : CurlResult) (report : CurlReport)
    (answers : CurlAnswers) (now later : Nat) :
    (driver.finishTransfer rates pool id result report answers now later).Kept ↔
      driver.Kept ∧ ∀ tr request, (driver.slot id).active = some tr →
        tr.pool = pool → Retryable id tr result report now request →
          Resumable request.state answers later := by
  cases hcomp : driver.completeTransfer rates pool id result report now with
  | mk middle request =>
    cases request with
    | none =>
      have haft : driver.finishTransfer rates pool id result report answers now later =
          middle := by
        rw [finishTransfer, hcomp]
      rw [haft, kept_completeTransfer hset hcomp]
      refine (and_iff_left fun tr request hact hpool hretr => ?_).symm
      obtain ⟨found, hf, -⟩ := completeTransfer_of_retryable hact hpool hretr
      rw [hcomp] at hf
      cases hf
    | some request =>
      obtain ⟨tr, hact, rfl, hretr, hmiddle⟩ := retryable_of_completeTransfer hcomp
      have hrun := (hset id).running hact
      have hretried : driver.finishTransfer rates tr.pool id result report answers now
          later = middle.startRetry rates request answers later := by
        rw [finishTransfer, hcomp]
      obtain ⟨credited, hchg, hsame, -⟩ := changes_credited hrun rates .connectFailed report now
      have hcredited : middle.Balanced nothing :=
        hmiddle ▸ (hbald.detach hact).creditCandidate .connectFailed report now
      rw [← hmiddle] at hchg
      have hdetached : (middle.slot request.id).active = none := by
        rw [hretr.id, hchg.here, hsame.active]
        rfl
      have hsome := isSome_startRetry hcredited.wellFormed hdetached rates answers later
      obtain ⟨last, hlast, hcases⟩ := changes_finishTransfer hrun hretried
      have hleft : (∃ tr, last.Running tr) ∨ ∃ ending, last.Gone ending ∧
          ending ≠ .completed ∧ ending ≠ .cancelled := by
        rcases hcases with ⟨-, rfl | ⟨hlive, -⟩ | ⟨hgone | hgone, -⟩⟩ | ⟨-, -, hnone, -⟩
        · exact .inl ⟨tr, hrun⟩
        · exact .inl hlive
        · exact .inr ⟨_, hgone, by simp, by simp⟩
        · exact .inr ⟨_, hgone, by simp, by simp⟩
        · rw [hcomp] at hnone
          cases hnone
      rw [hretried, hlast.toTouches.kept_iff hrun.ended, isLost_of_active hleft]
      rw [hretr.id, hlast.here] at hsome
      rw [hsome]
      refine and_congr_right fun _ => ⟨fun hrsmb other found ho _ hf => ?_,
        fun hall => hall tr request hact rfl hretr⟩
      obtain rfl : tr = other := Option.some.inj (hact.symm.trans ho)
      have hstate := Option.some.inj (hretr.state.symm.trans hf.state)
      exact hstate ▸ hrsmb

end Driver

/-! ## The submitted transfers -/

namespace System

variable {ρ : Type} {rates : RateModel ρ} {sys next : System ρ} {id : TransferId}

private theorem tallied_process (hpl : sys.Placed) (h : sys.driver.Tallied)
    {cmd : Command} {pending : List Command} (hpend : sys.pending = cmd :: pending)
    (answers : CurlAnswers) (now : Nat) :
    (processCommand rates sys.driver answers now cmd).Tallied := by
  cases cmd with
  | submit id opts => exact h.startTransfer (hpl.idle_head hpend)
  | resume id => exact h
  | cancel id => exact h.cancelTransfer hpl.settled
  | bodyDone id consumed sample => exact h.bodyDone

theorem tallied_moves (hpl : sys.Placed) (h : sys.driver.Tallied)
    {act : SystemAction} (hmv : Moves rates sys act next) : next.driver.Tallied := by
  have hset := hpl.settled
  cases hmv with
  | get | miss => exact h
  | register hcall => exact h.modify register rfl
  | count hcall => exact h
  | @submit id opts hcall =>
    have hidle := hpl.idle_of_unsent hcall rfl
    unfold send
    split
    · refine h.discards [.submit id opts] fun other ho => .inl ?_
      obtain rfl : other = id := by simpa [Command.submission] using ho
      exact hidle.ended
    · exact h
  | giveUp hcall => exact h.modify unregister rfl
  | @talk act id caller after cmd hcall htalks => exact (driver_say htalks).symm ▸ h
  | close => exact h.discards _ fun id hid => .inl (hpl.idle_commands id hid).ended
  | drain hstg => exact h
  | process hstg hpend => exact tallied_process hpl h hpend _ _
  | inner hinner => exact hinner.driver.symm ▸ h
  | header hstg => exact h.header _
  | failPool hstg => exact (sweeps_failTransfer _ _).tallied ⟨by simp, by simp⟩ hset h _
  | complete hstg hcomps => exact h.finishTransfer hset _ _ _ _ _ _
  | shutDown hstg => exact (sweeps_shutDownTransfer _).tallied ⟨by simp, by simp⟩ hset h _
  | unwind hstg =>
    have hdrop := h.discards _ fun id hid => .inl (hpl.idle_pending id hid).ended
    have hunw := sweeps_unwindTransfer.tallied ⟨by simp, by simp⟩ hpl.discard_pending.2 hdrop
      (sys.pending.foldl discard sys.driver).slots.keys
    exact ⟨hunw.completed, hunw.cancelled⟩
  | failAll hstg => exact (sweeps_failSink .broken).tallied ⟨by simp, by simp⟩ hset h _
  | closeQueue hstg => exact h.discards _ fun id hid => .inl (hpl.idle_commands id hid).ended

theorem Reachable.tallied (h : Reachable rates sys) : sys.driver.Tallied :=
  h.invariant_along (fun sys => sys.driver.Tallied) ⟨rfl, rfl⟩
    fun _ _ _ hr htal _ hstep =>
      tallied_moves (Reachable.placed hr) htal (moves_of_step hstep)

def Numbered (sys : System ρ) : Prop :=
  sys.submitted = sys.callers.toList.countP fun entry => entry.2.isSubmitted

theorem Numbered.setCaller (h : sys.Numbered) {caller after : Caller}
    (hcall : sys.callers[id]? = some caller)
    (hsame : after.isSubmitted = caller.isSubmitted) : (sys.setCaller id after).Numbered := by
  have hmoved := countP_insert (fun entry => entry.2.isSubmitted) sys.callers id after
  simp only [countAt, hcall, hsame] at hmoved
  have hc : (sys.setCaller id after).callers.toList.countP
      (fun entry => entry.2.isSubmitted) =
      sys.callers.toList.countP fun entry => entry.2.isSubmitted :=
    Nat.add_right_cancel hmoved
  exact h.trans hc.symm

theorem Numbered.count (h : sys.Numbered) {opts : TransferOptions}
    (hcall : sys.callers[id]? = some (.registered opts)) :
    ({ sys with submitted := sys.submitted + 1 }.setCaller id (.counted opts)).Numbered := by
  have hmoved := countP_insert (fun entry => entry.2.isSubmitted) sys.callers id (.counted opts)
  have hbef : countAt (fun entry => entry.2.isSubmitted) sys.callers id = 0 := by
    simp [countAt, hcall, Caller.isSubmitted]
  rw [hbef] at hmoved
  exact (congrArg (· + 1) h).trans hmoved.symm

theorem Numbered.get (h : sys.Numbered) (hpl : sys.Placed) {opts : TransferOptions} :
    { sys with
      nextId := sys.nextId + 1
      callers := sys.callers.insert sys.nextId (Caller.admitted opts) }.Numbered := by
  have hmoved := countP_insert (fun entry => entry.2.isSubmitted) sys.callers sys.nextId
    (.admitted opts)
  have hbef : countAt (fun entry => entry.2.isSubmitted) sys.callers sys.nextId = 0 := by
    simp [countAt, hpl.fresh sys.nextId le_rfl]
  rw [hbef] at hmoved
  exact h.trans hmoved.symm

@[simp] theorem submitted_send (sys : System ρ) (cmd : Command) :
    (sys.send cmd).submitted = sys.submitted := by
  unfold send
  split <;> rfl

theorem Numbered.send (h : sys.Numbered) {cmd : Command} :
    (sys.send cmd).Numbered := by
  unfold Numbered
  rw [submitted_send, callers_send]
  exact h

theorem numbered_moves (hpl : sys.Placed) (h : sys.Numbered) {act : SystemAction}
    (hmv : Moves rates sys act next) : next.Numbered := by
  cases hmv with
  | get => exact h.get hpl
  | miss => exact h
  | register hcall =>
    have hreg : { sys with driver := _ }.Numbered := h
    exact hreg.setCaller hcall rfl
  | count hcall => exact h.count hcall
  | @submit id opts hcall =>
    have hqd : (sys.send (.submit id opts)).callers[id]? = some (.counted opts) := by
      rw [callers_send]
      exact hcall
    exact (h.send).setCaller hqd rfl
  | giveUp hcall =>
    have hwithdrawn : { sys with driver := _ }.Numbered := h
    exact hwithdrawn.setCaller hcall rfl
  | @talk act id caller after cmd hcall htalks =>
    have hsubmitted : ∀ caller : Caller, caller.sent = true → caller.isSubmitted = true := by
      rintro (_ | _ | _ | _ | _ | _ | _ | _ | _) <;> simp [Caller.sent, Caller.isSubmitted]
    obtain ⟨hsent, haft, -⟩ := talks_sent htalks
    have hsaid : (sys.say cmd).Numbered := by
      cases cmd with
      | none => exact h
      | some said => exact h.send
    exact hsaid.setCaller (by rw [callers_say]; exact hcall)
      (by rw [hsubmitted _ hsent, hsubmitted _ haft])
  | inner hinner =>
    unfold Numbered
    rw [hinner.submitted, hinner.callers]
    exact h
  | _ => exact h

private theorem Reachable.numbered (h : Reachable rates sys) : sys.Numbered :=
  h.invariant_along Numbered rfl fun _ _ _ hr hnumbered _ hstep =>
    numbered_moves (Reachable.placed hr) hnumbered (moves_of_step hstep)

/-! ## The sum -/

def isStarted (slot : Slot) : Bool := slot.active.isSome || slot.ended.isSome

private theorem isStarted_of_placed (h : sys.Placed) {id : TransferId} :
    isStarted (sys.driver.slot id) = true ↔ sys.Sent id ∧ id ∉ sys.submits := by
  constructor
  · intro hstarted
    by_contra hnot
    have hidle := h.idle id fun hsent => by
      by_contra hout
      exact hnot ⟨hsent, hout⟩
    simp [isStarted, hidle.active, hidle.ended] at hstarted
  · rintro ⟨hsent, hout⟩
    rcases h.placed id hsent hout with ⟨tr, hrun⟩ | ⟨ending, hgone⟩
    · simp [isStarted, hrun.active]
    · simp [isStarted, hgone.ended]

theorem countP_sent (h : sys.Placed) : sys.callers.toList.countP (fun entry => entry.2.sent) =
      sys.submits.length + sys.driver.slots.toList.countP fun entry => isStarted entry.2 := by
  have hstarted : ∀ id, id ∈ keysWhere (fun entry => isStarted entry.2) sys.driver.slots ↔
      sys.Sent id ∧ id ∉ sys.submits := fun id => by
    rw [mem_keysWhere, ← isStarted_of_placed h, slot]
    cases sys.driver.slots[id]? with
    | none => simp [isStarted, Slot.new]
    | some slot => simp
  rw [← length_keysWhere, ← length_keysWhere, ← length_append]
  refine List.Perm.length_eq ((perm_ext_iff_of_nodup (nodup_keysWhere ..) ?_).mpr fun id => ?_)
  · refine nodup_append.mpr ⟨h.once, nodup_keysWhere .., fun id hid other ho heq => ?_⟩
    exact ((hstarted other).mp ho).2 (heq ▸ hid)
  · rw [mem_append, hstarted, mem_keysWhere]
    constructor
    · intro hsent
      by_cases hid : id ∈ sys.submits
      · exact .inl hid
      · exact .inr ⟨hsent, hid⟩
    · rintro (hid | ⟨hsent, -⟩)
      · exact h.queued id hid
      · exact hsent

private theorem isStarted_eq {slot : Slot} (h : slot.Settled) :
    (if isStarted slot then 1 else 0) = (if slot.active.isSome then 1 else 0) +
      slot.counts .completed + slot.counts .cancelled + if slot.isLost then 1 else 0 := by
  rcases h with hidle | ⟨tr, hrun⟩ | ⟨ending, hgone⟩
  · simp [isStarted, counts, isLost, hidle.active, hidle.ended]
  · simp [isStarted, counts, isLost, hrun.active, hrun.ended]
  · cases ending <;> simp [isStarted, counts, isLost, hgone.active, hgone.ended]

private theorem countP_isStarted (h : sys.driver.Settled) :
    sys.driver.slots.toList.countP (fun entry => isStarted entry.2) =
      sys.driver.running + sys.driver.endedAs .completed +
        sys.driver.endedAs .cancelled + sys.driver.lost := by
  have he : ∀ entry ∈ sys.driver.slots.toList, entry.2.Settled := fun ⟨id, slot⟩ hmem => by
    have hslot : sys.driver.slot id = slot := by
      rw [Driver.slot, (mem_toList_iff _ id slot).mp hmem]
      rfl
    exact hslot ▸ h id
  unfold running endedAs lost
  generalize sys.driver.slots.toList = entries at he
  induction entries with
  | nil => rfl
  | cons entry entries ih =>
    have hone := isStarted_eq (he entry mem_cons_self)
    have hrest := ih fun other ho => he other (mem_cons_of_mem _ ho)
    simp only [countP_cons, hrest, hone, counts, decide_eq_true_eq]
    omega

private theorem Reachable.submitted_eq (h : Reachable rates sys) :
    sys.submitted = sys.callers.toList.countP (fun entry => entry.2.isUnsent) +
      sys.submits.length + sys.driver.running + sys.driver.completed +
        sys.driver.cancelled + sys.driver.lost := by
  have hpl := Reachable.placed h
  have htal := Reachable.tallied h
  have hsent := countP_sent hpl
  rw [countP_isStarted hpl.settled, ← htal.completed, ← htal.cancelled] at hsent
  have hspl : sys.callers.toList.countP (fun entry => entry.2.isSubmitted) =
      sys.callers.toList.countP (fun entry => entry.2.sent) +
        sys.callers.toList.countP fun entry => entry.2.isUnsent := by
    rw [countP_eq_countP_filter_add _ _ (fun entry => entry.2.sent), countP_filter, countP_filter]
    congr 1
    refine countP_congr fun entry _ => ?_
    rcases entry with ⟨id, caller⟩
    cases caller <;> simp [Caller.isSubmitted, Caller.sent]
  have hnumbered := Reachable.numbered h
  unfold Numbered at hnumbered
  omega

def Submitted (sys : System ρ) (id : TransferId) : Prop :=
  ∃ caller, sys.callers[id]? = some caller ∧ caller.isSubmitted = true

theorem no_unsent_iff : sys.callers.toList.countP (fun entry => entry.2.isUnsent) = 0 ↔
    ∀ (id : TransferId) opts, sys.callers[id]? ≠ some (Caller.counted opts) := by
  rw [countP_eq_zero]
  constructor
  · intro hnone id opts hcall
    exact hnone (id, .counted opts) ((mem_toList_iff ..).mpr hcall) rfl
  · rintro hnone ⟨id, caller⟩ hmem hunsent
    have hcall := (mem_toList_iff ..).mp hmem
    cases caller with
    | counted opts => exact hnone id opts hcall
    | _ => simp [Caller.isUnsent, Caller.isSubmitted, Caller.sent] at hunsent

/-- A step that loses no transfer. -/
def Counted (sys : System ρ) : SystemAction → Prop
  | .submit _ => sys.closed = false
  | .close => sys.commands.filterMap Command.submission = []
  | .process answers now => ∀ id options pending,
      sys.pending = .submit id options :: pending → options.Usable now ∧ answers.taken = true
  | .failPool _ => ∀ pool message broken, sys.broken = (pool, message) :: broken →
      ∀ id transfer, (sys.driver.slot id).active = some transfer → transfer.pool ≠ pool
  | .complete report answers now later => ∀ pool id result completions,
      sys.completions = (pool, id, result) :: completions →
        ∀ transfer request, (sys.driver.slot id).active = some transfer →
          transfer.pool = pool → Retryable id transfer result report now request →
            Resumable request.state answers later
  | .shutDown _ | .unwind => False
  | _ => True

def isQuiet : SystemAction → Bool
  | .submit _ | .close | .process _ _ | .failPool _ | .complete _ _ _ _ | .shutDown _ | .unwind
  | .failAll | .closeQueue => false
  | _ => true

private theorem kept_quiet {act : SystemAction} (hqt : isQuiet act = true)
    (hmv : Moves rates sys act next) : next.driver.Kept ↔ sys.driver.Kept := by
  cases hmv with
  | register hcall => exact (touches_modify register).kept_of_ended rfl
  | giveUp hcall => exact (touches_modify unregister).kept_of_ended rfl
  | @talk act id caller after cmd hcall htalks =>
    exact iff_of_eq (congrArg Kept (driver_say htalks))
  | inner hinner => rw [hinner.driver]
  | header hstg => exact kept_header _
  | get | miss | count | drain => rfl
  | submit | close | process | failPool | complete | shutDown | unwind | failAll | closeQueue =>
    cases hqt

theorem inLoop_iff {act : SystemAction} (hmv : Moves rates sys act next) :
    (next.stage.inLoop = true → sys.stage.inLoop = true) ∧
      (Counted sys act → sys.stage.inLoop = true → next.stage.inLoop = true) := by
  cases hmv with
  | @talk _ _ _ _ cmd =>
    have hstg : (sys.say cmd).stage = sys.stage := by
      cases cmd with
      | none => rfl
      | some said => exact stage_send sys said
    simp [setCaller, hstg]
  | submit => simp [setCaller]
  | inner hinner =>
    rcases hinner.stage with ⟨hbef, haft, -⟩ | ⟨hbef, haft⟩
    · exact ⟨fun _ => hbef, fun _ _ => haft⟩
    · simp [hbef, haft, Stage.inLoop]
  | drain hstg => exact ⟨fun _ => by rw [hstg]; rfl, fun _ _ => rfl⟩
  | shutDown hstg | unwind hstg => exact ⟨by rintro ⟨⟩, by rintro ⟨⟩⟩
  | failAll hstg => simp [hstg, Stage.inLoop]
  | closeQueue hstg => simp [hstg, goto, Stage.inLoop]
  | _ => exact ⟨id, fun _ => id⟩

theorem kept_step (h : Reachable rates sys) {action : SystemAction}
    (hstep : step rates sys action = some next) (hloop : next.stage.inLoop = true) :
    next.driver.Kept ↔ sys.driver.Kept ∧ Counted sys action := by
  have hpl := Reachable.placed h
  have hset := hpl.settled
  have hbald := Reachable.balanced h
  cases action with
  | submit id =>
    simp only [step, stepCaller] at hstep
    split at hstep
    · rename_i options hcall
      cases hstep
      change (sys.send _).driver.Kept ↔ sys.driver.Kept ∧ sys.closed = false
      unfold send
      cases hclos : sys.closed with
      | false => simp
      | true =>
        simp only [if_true, Bool.true_eq_false, and_false, iff_false]
        intro hkept
        have hdrop := (kept_discards [.submit id options]).mp hkept
        cases hdrop.2
    · cases hstep
  | close =>
    cases hstep
    exact kept_discards _
  | process answers now =>
    simp only [step, stepDriver] at hstep
    split at hstep
    · rename_i command pending hstg hpend
      cases hstep
      simp only [Counted, hpend, cons.injEq, and_imp]
      cases command with
      | submit id options =>
        have hidle := hpl.idle_head hpend
        refine (kept_startTransfer hbald.wellFormed hidle rates options answers now).trans
          (and_congr_right fun _ => ⟨?_, fun hall => hall id options pending rfl rfl⟩)
        rintro hboth _ _ _ ⟨⟩ -
        exact hboth
      | resume id => exact (and_iff_left (by simp)).symm
      | cancel id => exact (kept_cancelTransfer hset now).trans (and_iff_left (by simp)).symm
      | bodyDone id consumed sample =>
        exact (kept_bodyDone rates consumed sample now).trans (and_iff_left (by simp)).symm
    · cases hstep
  | failPool now =>
    simp only [step, stepDriver] at hstep
    split at hstep
    · rename_i pool message broken hstg hbrok
      cases hstep
      refine (kept_failPool hset pool message now).trans (and_congr_right fun _ => ?_)
      simp only [Counted, hbrok, cons.injEq, Prod.mk.injEq, and_imp]
      exact ⟨by rintro hnone _ _ _ rfl - -; exact hnone, fun hall => hall _ _ _ rfl rfl rfl⟩
    · cases hstep
  | complete report answers now later =>
    simp only [step, stepDriver] at hstep
    split at hstep
    · rename_i pool id result completions hstg hbrok hcomps
      cases hstep
      refine (kept_finishTransfer hset hbald rates pool result report answers now
        later).trans (and_congr_right fun _ => ?_)
      simp only [Counted, hcomps, cons.injEq, Prod.mk.injEq, and_imp]
      exact ⟨by rintro hnone _ _ _ _ rfl rfl rfl -; exact hnone,
        fun hall => hall _ _ _ _ rfl rfl rfl rfl⟩
    · cases hstep
  | shutDown now | unwind | failAll | closeQueue =>
    obtain ⟨-, hnext⟩ := Option.ite_none_right_eq_some.mp hstep
    cases hnext
    cases hloop
  | _ => exact (kept_quiet rfl (moves_of_step hstep)).trans (and_iff_left trivial).symm

theorem Reachable.kept_iff (h : Reachable rates sys) (hloop : sys.stage.inLoop = true) :
    sys.driver.Kept ↔ Reaches (step rates) Counted new sys := by
  constructor
  · induction h with
    | refl => exact fun _ => .refl
    | step act hr _ hstep ih =>
      intro hkept
      obtain ⟨hbef, hcnt⟩ := (kept_step hr hstep hloop).mp hkept
      exact (ih ((inLoop_iff (moves_of_step hstep)).1 hloop) hbef).step act hcnt hstep
  · intro hcnt
    have hboth := hcnt.invariant_along
      (fun sys => sys.stage.inLoop = true ∧ sys.driver.Kept) ⟨rfl, fun _ => rfl⟩
      fun sys act next hr hold hok hstep => by
        have hnext := (inLoop_iff (moves_of_step hstep)).2 hok hold.1
        exact ⟨hnext, (kept_step (hr.mono fun _ _ _ => trivial) hstep hnext).mpr
          ⟨hold.2, hok⟩⟩
    exact hboth.2

/-- The sum in `count_cancelled` is right, with every submitted transfer in one term, exactly if
nobody is between the counter and the queue and no step has lost a transfer. -/
theorem accounted_iff (h : Reachable rates sys) (hstage : sys.stage = .turned)
    (hcommands : sys.commands = []) :
    (sys.driver.completed = sys.driver.endedAs .completed ∧
      sys.driver.cancelled = sys.driver.endedAs .cancelled) ∧
    ((sys.submitted = sys.driver.completed + sys.driver.cancelled + sys.driver.running ∧
      ∀ id, sys.Submitted id → (sys.driver.slot id).CountedOnce) ↔
    (∀ (id : TransferId) options, sys.callers[id]? ≠ some (Caller.counted options)) ∧
      Reaches (step rates) Counted new sys) := by
  have hpl := Reachable.placed h
  have htal := Reachable.tallied h
  have hsum := Reachable.submitted_eq h
  have hsub : sys.submits = [] := by
    simp [submits, hcommands, (Reachable.staged h).pending (by simp [hstage])]
  rw [hsub, length_nil] at hsum
  refine ⟨⟨htal.completed, htal.cancelled⟩, ?_⟩
  rw [← no_unsent_iff, ← Reachable.kept_iff h (by rw [hstage]; rfl), ← lost_eq_zero]
  constructor
  · omega
  · rintro ⟨hunsent, hlost⟩
    refine ⟨by omega, fun id hsubmitted => ?_⟩
    obtain ⟨caller, hcall, hcnt⟩ := hsubmitted
    have hsent : sys.Sent id := by
      refine ⟨caller, hcall, ?_⟩
      have hnot := no_unsent_iff.mp hunsent id
      cases caller with
      | counted options => exact absurd hcall (hnot options)
      | admitted options | registered options => simp [Caller.isSubmitted] at hcnt
      | _ => rfl
    rcases hpl.placed id hsent (by simp [hsub]) with ⟨transfer, hrun⟩ | ⟨ending, hgone⟩
    · exact .inl ⟨by simp [hrun.active], hrun.ended⟩
    · have hkept := lost_eq_zero.mp hlost id
      simp only [isLost, hgone.ended, Option.any_some, decide_eq_false_iff_not] at hkept
      exact .inr ⟨hgone.active, by simp only [hgone.ended, Option.some.injEq]; tauto⟩

def sumView (sys : System Nat) : (Stage × List Command) × Nat × Nat × Nat × Nat :=
  ((sys.stage, sys.commands), sys.submitted, sys.driver.completed,
    sys.driver.cancelled, sys.driver.running)

def quietTurn : List SystemAction := [.check false, .performed, .endTurn]

theorem running_transfer_is_counted : ∃ sys : System Nat,
    Reachable sampleRates sys ∧ sys.stage = .turned ∧ sys.commands = [] ∧
      sys.submitted = sys.driver.completed + sys.driver.cancelled + sys.driver.running ∧
      sys.driver.running = 1 := by
  have hview : (runLabels (step sampleRates) (fun _ _ => true) (new : System Nat)
      ([.get (sampleOptions 100), .register 1, .count 1, .submit 1, .drain,
        .process sampleAnswers 0] ++ quietTurn)).map
        (fun sys => (sumView sys, sys.driver.lost,
          sys.callers.toList.countP fun entry => entry.2.isUnsent)) =
      some (((.turned, []), 1, 0, 0, 1), 0, 0) := by decide
  obtain ⟨sys, hr, heq⟩ := Reaches.exists_of_run hview
  simp only [sumView, Prod.mk.injEq] at heq
  obtain ⟨⟨⟨hstg, hcmds⟩, -, -, -, hlive⟩, hlost, hunsent⟩ := heq
  obtain ⟨-, hiff⟩ := accounted_iff hr hstg hcmds
  exact ⟨sys, hr, hstg, hcmds,
    (hiff.mpr ⟨no_unsent_iff.mp hunsent,
      (Reachable.kept_iff hr (by rw [hstg]; rfl)).mp (lost_eq_zero.mp hlost)⟩).1, hlive⟩

/-- The addresses of a request have expired when the driver sees it. -/
theorem refused_transfer_is_not_counted : ∃ sys : System Nat,
    Reachable sampleRates sys ∧ sys.stage = .turned ∧ sys.commands = [] ∧
      sys.pending = [] ∧ sys.closed = false ∧ sys.submitted = 1 ∧
      sys.driver.completed + sys.driver.cancelled + sys.driver.running = 0 := by
  have hview : (runLabels (step sampleRates) (fun _ _ => true) (new : System Nat)
      ([.get (sampleOptions 0), .register 1, .count 1, .submit 1, .drain,
        .process sampleAnswers 1] ++ quietTurn)).map
        (fun sys => (sumView sys, sys.pending, sys.closed)) =
      some (((.turned, []), 1, 0, 0, 0), [], false) := by decide
  obtain ⟨sys, hr, heq⟩ := Reaches.exists_of_run hview
  simp only [sumView, Prod.mk.injEq] at heq
  obtain ⟨⟨⟨hstg, hcmds⟩, hsubmitted, hcomp, hcanc, hlive⟩, hpend, hclos⟩ := heq
  exact ⟨sys, hr, hstg, hcmds, hpend, hclos, hsubmitted, by rw [hcomp, hcanc, hlive]⟩

end System

end Bytehaul.Network
