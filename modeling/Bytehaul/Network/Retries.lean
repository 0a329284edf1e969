import Bytehaul.Network.Candidates
import Bytehaul.Network.Reservations

/-!
# Internal connect retries

A transfer whose connection never carried the request is attempted again. Only its cooldown
keeps the failed address away, and it is not set when another answer has come in.
-/

namespace Bytehaul.Network

open Foundation Session List Option Driver Origin
open Std (TreeMap)

/-! ## The address of a retry -/

namespace Origin

variable {ρ : Type} {origin : Origin ρ} {set : CandidateSet} {address : IpAddr}
  {candidate : Candidate ρ}

theorem cooldown_observe (h : Table origin.candidates) (hmem : address ∈ set.addresses)
    (now later : Nat) :
    (origin.observe set now).cooldown later address = origin.cooldown later address := by
  unfold cooldown
  rw [(observe_spec origin h set now).2, if_pos hmem]
  cases origin.candidate address <;> rfl

theorem untried_observe_of_attempts (h : Table origin.candidates) (hmem : address ∈ set.addresses)
    (hcand : origin.candidate address = some candidate) (hatts : 0 < candidate.attempts)
    (now : Nat) : (origin.observe set now).untried address = false := by
  unfold untried
  rw [(observe_spec origin h set now).2, if_pos hmem, hcand]
  have hnz : (candidate.attempts == 0) = false := beq_false_of_ne hatts.ne'
  simp [isUntried, listed, hnz]

theorem candidate_alter (origin : Origin ρ) (address : IpAddr) {change : Candidate ρ → Candidate ρ}
    (haddr : ∀ candidate, (change candidate).address = candidate.address) (other : IpAddr) :
    (origin.alter address change).candidate other =
      if other = address then (origin.candidate other).map change else origin.candidate other :=
  Keyed.lookup_alter haddr

end Origin

def CurlAnswers.taken (answers : CurlAnswers) : Bool :=
  answers.notAdded.isNone && answers.notTagged.isNone

namespace Driver

variable {ρ : Type} {rates : RateModel ρ} {driver middle after : Driver ρ} {id : TransferId}
  {pool : PoolKey} {result : CurlResult} {report : CurlReport} {now later : Nat}
  {request : RetryRequest} {transfer : ActiveTransfer} {claim : CandidateClaim}

structure Retryable (id : TransferId) (transfer : ActiveTransfer) (result : CurlResult)
    (report : CurlReport) (now : Nat) (request : RetryRequest) : Prop where
  id : request.id = id
  pool : request.pool = transfer.pool
  state : transfer.retry = some request.state
  left : request.state.attempts < request.state.maxAttempts
  inTime : now < request.state.deadline
  outcome : outcomeOf transfer.pool transfer.head.published report result = .connectFailed
  sender : transfer.head.sender = true

theorem retryable_of_completeTransfer
    (h : driver.completeTransfer rates pool id result report now = (middle, some request)) :
    ∃ transfer, (driver.slot id).active = some transfer ∧ transfer.pool = pool ∧
      Retryable id transfer result report now request ∧
      middle = (driver.modify id Slot.detach).creditCandidate rates id transfer .connectFailed
        report now := by
  unfold completeTransfer at h
  split at h
  · cases h
  · rename_i transfer hact
    split at h
    · cases h
    · rename_i hpool
      rw [ne_eq, not_not] at hpool
      subst hpool
      dsimp only at h
      split at h
      · rename_i found hf
        cases h
        unfold retryRequest at hf
        obtain ⟨error, -, hf⟩ := bind_eq_some_iff.mp hf
        obtain ⟨retry, hretry, hf⟩ := bind_eq_some_iff.mp hf
        obtain ⟨⟨houtc, hleft, htime, hsend⟩, hf⟩ := ite_none_right_eq_some.mp hf
        cases hf
        exact ⟨transfer, hact, rfl, ⟨rfl, rfl, hretry, hleft, htime, houtc, hsend⟩, by rw [houtc]⟩
      · cases h

private theorem policy_foldAttempt
    (h : ∀ record, (driver.slot id).attempt = some record → record.outcome ≠ some .completed) :
    (driver.foldAttempt rates id now).policy = driver.policy := by
  unfold foldAttempt
  split
  · rfl
  · rename_i record hrec
    split
    · rename_i outcome consumed houtc hused
      have hfail : outcome ≠ .completed := by
        rintro rfl
        exact h record hrec houtc
      rw [if_pos (.inl hfail)]
      rfl
    · rfl

private theorem policy_creditCandidate (hclaim : transfer.candidate = some claim) :
    (driver.creditCandidate rates id transfer .connectFailed report now).policy =
      driver.policy.settle transfer.pool claim.address claim.generation .connectFailed now := by
  unfold creditCandidate reportAttempt
  rw [hclaim]
  dsimp only
  split
  · rfl
  · refine (policy_foldAttempt fun record hrec => ?_).trans rfl
    rw [slot_modify] at hrec
    cases hrec
    simp

/-- A reservation is one of the addresses of its own snapshot. -/
theorem reserveCandidate_spec {opts : TransferOptions} {set : CandidateSet} {origin : Origin ρ}
    {prev : Option RetryState} (hset : opts.candidates = some set)
    (horig : (driver.policy.origins pool).getD (.new now) = origin)
    (htable : Table origin.candidates)
    (h : driver.reserveCandidate rates opts pool now prev = (.ok (some claim), after)) :
    claim.attempts = (prev.map RetryState.attempts).getD 0 + 1 ∧
    claim.address ∈ set.addresses ∧ ∀ first ∈ set.addresses, ∀ second ∈ set.addresses,
      first ≠ second → (origin.observe set now).Chosen set now claim.address := by
  have hobs : (driver.policy.observe pool set now).origins pool =
      some (origin.observe set now) := by
    simp [IpPolicy.observe, IpPolicy.setOrigin, horig]
  unfold reserveCandidate at h
  rw [hset] at h
  dsimp only at h
  rcases IpPolicy.select_spec (.observe htable set now) hobs rates now with
    ⟨error, hsel, -⟩ | ⟨selection, hsel, hmem, -, hchos⟩
  · rw [hsel] at h
    cases h
  · rw [hsel] at h
    cases h
    refine ⟨?_, hmem, hchos⟩
    cases prev <;> rfl

theorem candidates_of_reserveCandidate (hwell : driver.policy.WellFormed)
    {opts : TransferOptions} {prev : Option RetryState}
    (h : driver.reserveCandidate rates opts pool now prev = (.ok (some claim), after)) :
    ∃ set, opts.candidates = some set ∧ set.addresses ≠ [] ∧
      claim.attempts = (prev.map RetryState.attempts).getD 0 + 1 := by
  cases hset : opts.candidates with
  | none =>
    unfold reserveCandidate at h
    rw [hset] at h
    cases h
  | some set =>
    obtain ⟨hatts, hmem, -⟩ := reserveCandidate_spec hset rfl (hwell.origin pool now).table h
    exact ⟨set, rfl, ne_nil_of_mem hmem, hatts⟩

end Driver

namespace System

variable {ρ : Type} {rates : RateModel ρ} {sys next : System ρ} {id : TransferId}
  {result : CurlResult} {report : CurlReport} {now later : Nat} {claim retried : CandidateClaim}
  {origin : Origin ρ} {set : CandidateSet}

/-- Pinned by `claim`, the transfer fails to connect at `now` and is attempted again at `later`. -/
def Retries (rates : RateModel ρ) (sys : System ρ) (id : TransferId) (result : CurlResult)
    (report : CurlReport) (now later : Nat) (claim : CandidateClaim) (origin : Origin ρ)
    (set : CandidateSet) (retried : CandidateClaim) : Prop :=
  ∃ transfer middle request after, (sys.driver.slot id).active = some transfer ∧
    transfer.candidate = some claim ∧ sys.driver.policy.origins transfer.pool = some origin ∧
    sys.driver.completeTransfer rates transfer.pool id result report now = (middle, some request) ∧
    request.state.options.candidates = some set ∧
    middle.reserveCandidate rates request.state.options request.pool later
      (some request.state) = (.ok (some retried), after)

theorem attempts_of_running (h : Reachable rates sys) {transfer : ActiveTransfer}
    (hact : (sys.driver.slot id).active = some transfer)
    (hclaim : transfer.candidate = some claim)
    (horig : sys.driver.policy.origins transfer.pool = some origin) :
    ∃ candidate, origin.candidate claim.address = some candidate ∧ 0 < candidate.attempts := by
  have hbald := h.balanced
  have hclaimed : 0 < sys.driver.claimed transfer.pool claim.address := by
    refine countP_pos_iff.mpr ⟨(id, sys.driver.slot id), ?_, ?_⟩
    · refine (mem_toList_iff _ _ _).mpr ?_
      unfold slot at hact ⊢
      cases hslot : sys.driver.slots[id]? with
      | none => simp [hslot, Slot.new] at hact
      | some slot => rfl
    · simp [hact, ActiveTransfer.names, hclaim]
  have hc := hbald.count transfer.pool claim.address
  rw [IpPolicy.inFlight_of_origin horig] at hc
  cases hcand : origin.candidate claim.address with
  | none =>
    unfold candidate at hcand
    simp only [busy, hcand, map_none, getD_none] at hc
    omega
  | some candidate =>
    have htried := (hbald.wellFormed _ origin horig).tried _ _ hcand
    unfold Origin.candidate at hcand
    simp only [busy, hcand, map_some, getD_some] at hc
    exact ⟨candidate, rfl, by omega⟩

/-- A retry within the cooldown leaves the failed address for another usable one, unless another
answer has changed the generation. -/
theorem retry_moves_to_another_address (h : Reachable rates sys)
    (hretry : sys.Retries rates id result report now later claim origin set retried)
    (hcurrent : claim.generation = origin.generation) (hsoon : later < now + connectFailureCooldown)
    {other : IpAddr} (hother : other ∈ set.addresses) (hne : other ≠ claim.address)
    (hfree : origin.cooldown later other = 0) : retried.address ≠ claim.address := by
  obtain ⟨transfer, middle, request, after, hact, hclaim, horig, hcomp, hset, hresv⟩ := hretry
  obtain ⟨candidate, hcand, hatts⟩ := attempts_of_running h hact hclaim horig
  obtain ⟨found, hf, -, hretr, rfl⟩ := retryable_of_completeTransfer hcomp
  obtain rfl : transfer = found := some.inj (hact.symm.trans hf)
  rw [hretr.pool] at hresv
  let settled := origin.alter claim.address
    (IpPolicy.settled .connectFailed (claim.generation == origin.generation) now)
  have haddr : ∀ candidate : Candidate ρ, (IpPolicy.settled .connectFailed
      (claim.generation == origin.generation) now candidate).address = candidate.address :=
    fun _ => rfl
  have hsettled : ((sys.driver.modify id Slot.detach).creditCandidate rates id transfer
      .connectFailed report now).policy.origins transfer.pool = some settled := by
    rw [policy_creditCandidate hclaim]
    change (sys.driver.policy.settle _ _ _ _ _).origins _ = _
    simp [IpPolicy.settle, horig, IpPolicy.setOrigin, settled]
  have hsound : settled.Sound := (h.balanced.wellFormed _ origin horig).alter rfl claim.address
    haddr fun _ htried => (Nat.sub_le _ 1).trans htried
  have hfail : settled.candidate claim.address = _ :=
    candidate_alter origin claim.address haddr claim.address
  rw [if_pos rfl, hcand, map_some] at hfail
  have hcooling : 0 < settled.cooldown later claim.address := by
    rw [cooldown_of_candidate hfail]
    simp only [remainingCooldown, IpPolicy.settled, hcurrent, beq_self_eq_true, if_true,
      map_some, getD_some]
    omega
  have hoths : settled.cooldown later other = 0 := by
    unfold cooldown at hfree ⊢
    rwa [candidate_alter origin claim.address haddr other, if_neg hne]
  obtain ⟨-, hmem, hchos⟩ := reserveCandidate_spec hset
    (by rw [hsettled, getD_some]) hsound.table hresv
  intro heq
  rw [heq] at hmem hchos
  rcases hchos other hother claim.address hmem hne with huntr | ⟨-, hsoonest⟩
  · have htried := untried_observe_of_attempts hsound.table hmem hfail hatts later
    rw [find?_some huntr] at htried
    cases htried
  · have hle := hsoonest other hother
    rw [cooldown_observe hsound.table hmem, cooldown_observe hsound.table hother] at hle
    omega

def retryView (id : TransferId) (result : CurlResult) (report : CurlReport) (now later : Nat)
    (other : IpAddr) (sys : System Nat) :
    Option (CandidateClaim × Nat × List IpAddr × Nat × IpAddr) := do
  let transfer ← (sys.driver.slot id).active
  let claim ← transfer.candidate
  let origin ← sys.driver.policy.origins transfer.pool
  let completed := sys.driver.completeTransfer sampleRates transfer.pool id result report now
  let request ← completed.2
  let set ← request.state.options.candidates
  match (completed.1.reserveCandidate sampleRates request.state.options request.pool later
      (some request.state)).1 with
  | .ok (some retried) =>
    some (claim, origin.generation, set.addresses, origin.cooldown later other, retried.address)
  | _ => none

theorem retries_of_retryView {sys : System Nat} {other address : IpAddr} {gen : Nat}
    {addrs : List IpAddr} {cooldown : Nat}
    (h : retryView id result report now later other sys =
      some (claim, gen, addrs, cooldown, address)) :
    ∃ origin set retried,
      sys.Retries sampleRates id result report now later claim origin set retried ∧
      origin.generation = gen ∧ set.addresses = addrs ∧
      origin.cooldown later other = cooldown ∧ retried.address = address := by
  unfold retryView at h
  obtain ⟨transfer, hact, h⟩ := bind_eq_some_iff.mp h
  obtain ⟨found, hclaim, h⟩ := bind_eq_some_iff.mp h
  obtain ⟨origin, horig, h⟩ := bind_eq_some_iff.mp h
  obtain ⟨request, hrequest, h⟩ := bind_eq_some_iff.mp h
  obtain ⟨set, hset, h⟩ := bind_eq_some_iff.mp h
  split at h
  · rename_i retried hresd
    cases h
    exact ⟨origin, set, retried, ⟨transfer, _, request, _, hact, hclaim, horig,
      Prod.ext rfl hrequest, hset, Prod.ext hresd rfl⟩, rfl, rfl, rfl, rfl⟩
  · cases h

def refused : CurlResult := .error (7, "")

def refusedReport : CurlReport := ⟨none, some 0, none, none⟩

/-- The callers of the transfers `1`, `2`, … submit them, and the first one is refused. -/
def refusedRun (options : List TransferOptions) : List SystemAction :=
  options.map .get ++
    (List.range' 1 options.length).flatMap (fun id => [.register id, .count id, .submit id]) ++
    .drain :: List.replicate options.length (.process sampleAnswers 0) ++
    [.check false, .message samplePool 1 refused, .performed]

theorem second_address_is_tried : ∃ (sys : System Nat) (claim : CandidateClaim)
    (origin : Origin Nat) (set : CandidateSet) (retried : CandidateClaim),
    Reachable sampleRates sys ∧
    sys.Retries sampleRates 1 refused refusedReport 1 2 claim origin set retried ∧
    claim.address = sampleAddress ∧ retried.address ≠ sampleAddress := by
  have hview : (runLabels (step sampleRates) (fun _ _ => true) (new : System Nat)
      (refusedRun [sampleOptions 100])).bind (retryView 1 refused refusedReport 1 2 (.v4 2)) =
      some (⟨sampleAddress, 1, 1⟩, 1, [sampleAddress, .v4 2], 0, .v4 2) := by decide
  obtain ⟨sys, hrun, hview⟩ := bind_eq_some_iff.mp hview
  obtain ⟨origin, set, retried, hretries, hgeneration, haddrs, hcooldown, -⟩ :=
    retries_of_retryView hview
  have hr : Reachable sampleRates sys := .of_runLabels hrun .refl fun _ _ _ => trivial
  refine ⟨sys, _, origin, set, retried, hr, hretries, rfl, ?_⟩
  exact retry_moves_to_another_address hr hretries hgeneration.symm (by decide)
    (haddrs ▸ (by decide : IpAddr.v4 2 ∈ [sampleAddress, .v4 2])) (by decide) hcooldown

/-- Another answer makes the failure old news, and the failed address is taken as the idle one. -/
theorem failed_address_is_tried_again : ∃ (sys : System Nat) (claim : CandidateClaim)
    (origin : Origin Nat) (set : CandidateSet) (retried : CandidateClaim),
    Reachable sampleRates sys ∧
    sys.Retries sampleRates 1 refused refusedReport 1 2 claim origin set retried ∧
    2 < 1 + connectFailureCooldown ∧ IpAddr.v4 2 ∈ set.addresses ∧ .v4 2 ≠ claim.address ∧
    origin.cooldown 2 (.v4 2) = 0 ∧ retried.address = claim.address := by
  have hview : (runLabels (step sampleRates) (fun _ _ => true) (new : System Nat)
      (refusedRun [sampleOptions 100, sampleOptions 100, { sampleOptions 100 with
        candidates := some ⟨[sampleAddress, .v4 3], 100⟩ }])).bind
        (retryView 1 refused refusedReport 1 2 (.v4 2)) =
      some (⟨sampleAddress, 1, 1⟩, 2, [sampleAddress, .v4 2], 0, sampleAddress) := by decide
  obtain ⟨sys, hrun, hview⟩ := bind_eq_some_iff.mp hview
  obtain ⟨origin, set, retried, hretries, -, haddrs, hcooldown, hsame⟩ := retries_of_retryView hview
  exact ⟨sys, _, origin, set, retried, .of_runLabels hrun .refl fun _ _ _ => trivial, hretries,
    by decide, haddrs ▸ (by decide : IpAddr.v4 2 ∈ [sampleAddress, .v4 2]), by decide,
    hcooldown, hsame⟩

end System

/-! ## The attempts of a transfer -/

namespace Slot

variable {slot after last : Slot}

def Seen (slot : Slot) : Prop := slot.active.isSome = true ∨ slot.ended.isSome = true

/-- No attempt begins: what is running was, and what was seen is. -/
structure Subsides (slot after : Slot) : Prop where
  kept : ∀ transfer, after.active = some transfer →
    ∃ earlier, slot.active = some earlier ∧ transfer.retry = earlier.retry
  seen : slot.Seen → after.Seen

theorem Subsides.refl : slot.Subsides slot := ⟨fun transfer h => ⟨transfer, h, rfl⟩, id⟩

theorem Subsides.trans (h : slot.Subsides after) (hlast : after.Subsides last) :
    slot.Subsides last := by
  refine ⟨fun transfer hact => ?_, fun hseen => hlast.seen (h.seen hseen)⟩
  obtain ⟨middle, hmiddle, hretry⟩ := hlast.kept transfer hact
  obtain ⟨earlier, hearl, hsame⟩ := h.kept middle hmiddle
  exact ⟨earlier, hearl, hretry.trans hsame⟩

private theorem Subsides.of_left (hact : after.active = none) (hend : after.ended.isSome = true) :
    slot.Subsides after :=
  ⟨fun transfer h => absurd h (by simp [hact]), fun _ => .inr hend⟩

theorem Idle.not_seen (h : slot.Idle) : ¬ slot.Seen := by simp [Seen, h.active, h.ended]

theorem Running.seen {transfer : ActiveTransfer} (h : slot.Running transfer) : slot.Seen :=
  .inl (by rw [h.active]; rfl)

theorem Gone.seen {ending : Ending} (h : slot.Gone ending) : slot.Seen :=
  .inr (by rw [h.ended]; rfl)

private theorem Subsides.of_advances (hslot : slot.Settled) (h : slot.Advances after) :
    slot.Subsides after := by
  refine ⟨fun transfer hact => ?_, fun hseen => ?_⟩
  · have hnext := (h.settled hslot).running hact
    rcases hslot with hidle | ⟨earlier, hrun⟩ | ⟨ending, hgone⟩
    · exact absurd hnext (h.idle hidle).not_running
    · exact ⟨earlier, hrun.active, (h.again earlier transfer hrun hnext).1⟩
    · exact absurd hnext (h.gone ending hgone).not_running
  · rcases hslot with hidle | ⟨earlier, hrun⟩ | ⟨ending, hgone⟩
    · exact absurd hseen hidle.not_seen
    · rcases h.running earlier hrun with ⟨transfer, hnext⟩ | ⟨ending, hgone⟩
      · exact hnext.seen
      · exact hgone.seen
    · exact (h.gone ending hgone).seen

end Slot

namespace Driver

variable {ρ : Type} {rates : RateModel ρ} {driver after : Driver ρ} {id : TransferId} {now : Nat}
  {answers : CurlAnswers} {transfer : ActiveTransfer}

def Subsides (driver after : Driver ρ) : Prop := ∀ id, (driver.slot id).Subsides (after.slot id)

theorem Advances.subsides (h : driver.Advances after) (hset : driver.Settled) :
    driver.Subsides after := fun id => .of_advances (hset id) (h id)

theorem subsides_discards (cmds : List Command) :
    driver.Subsides (cmds.foldl Driver.discard driver) := fun id => by
  rw [slot_discards]
  split
  · exact ⟨fun transfer h => ⟨transfer, h, rfl⟩, fun _ => .inr rfl⟩
  · exact .refl

theorem subsides_completeTransfer (hset : driver.Settled) {pool : PoolKey} {result : CurlResult}
    {report : CurlReport}
    (h : driver.completeTransfer rates pool id result report now = (after, none)) :
    driver.Subsides after := by
  unfold completeTransfer at h
  split at h
  · cases h
    exact fun _ => .refl
  · rename_i transfer hact
    split at h
    · cases h
      exact fun _ => .refl
    · dsimp only at h
      split at h
      · cases h
      · cases h
        obtain ⟨credited, hchg, hsame, -⟩ := changes_credited ((hset id).running hact)
          rates (outcomeOf pool transfer.head.published report result) report now
        have hlast := (hchg.modify _ (keeps_concluded transfer
          (terminalOf id transfer.head.published result) credited)).toTouches
        have hall := hlast.all (R := Slot.Subsides) (fun _ => .refl)
          (.of_left ((active_concluded transfer _ credited).trans hsame.active) rfl)
        exact hall

theorem active_attachTransfer (hact : (driver.slot id).active = none)
    (transfer : ActiveTransfer) : ((driver.attachTransfer id transfer answers now).slot id).active =
      if answers.taken then some transfer else none := by
  have habandon : ∀ msg, ((driver.abandon id transfer.head msg now).slot id).active =
      none := by
    intro msg
    unfold abandon
    rw [slot_modify, (Changes.refl.releaseCandidate now).here]
    exact (Slot.dropHead_active ..).trans hact
  unfold attachTransfer CurlAnswers.taken
  split
  · rename_i hadded
    rw [hadded]
    exact habandon _
  · rename_i hadded htagged
    rw [hadded, htagged]
    exact habandon _
  · rename_i hadded htagged
    rw [hadded, htagged, slot_modify]
    rfl

theorem active_launch (hact : (driver.slot id).active = none) (key : PoolKey)
    (opts : TransferOptions) (connectTimeout : Nat) (pinned : Option CandidateClaim)
    (retry : Option RetryState) : ∃ head,
      ((driver.launch id key opts connectTimeout pinned retry answers now).slot id).active =
        if answers.taken then some ⟨key, head, connectTimeout, pinned, retry⟩ else none := by
  unfold launch
  dsimp only
  split
  · exact ⟨_, active_attachTransfer hact _⟩
  · exact ⟨_, active_attachTransfer (by rw [slot_modify]; exact hact) _⟩

theorem launched_of_active {key : PoolKey} {opts : TransferOptions} {connectTimeout : Nat}
    {pinned : Option CandidateClaim} {retry : Option RetryState}
    (hact : (driver.slot id).active = none)
    (h : ((driver.launch id key opts connectTimeout pinned retry answers now).slot id).active =
      some transfer) : transfer.connectTimeout = connectTimeout ∧ transfer.retry = retry := by
  obtain ⟨head, hlaunch⟩ := active_launch hact key opts connectTimeout pinned retry
  obtain ⟨-, htransfer⟩ := ite_none_right_eq_some.mp (hlaunch.symm.trans h)
  cases htransfer
  exact ⟨rfl, rfl⟩

private theorem seen_finishTransfer (rates : RateModel ρ)
    (hrun : (driver.slot id).Running transfer) (key : PoolKey) (result : CurlResult)
    (report : CurlReport) (answers : CurlAnswers) (now later : Nat) :
    ((driver.finishTransfer rates key id result report answers now later).slot id).Seen := by
  obtain ⟨last, hlast, ⟨-, rfl | ⟨⟨next, hnext⟩, -⟩ | ⟨hgone | hgone, -⟩⟩ | ⟨-, hgone, -⟩⟩ :=
    changes_finishTransfer hrun rfl
  · exact hlast.here.symm ▸ hrun.seen
  · exact hlast.here.symm ▸ hnext.seen
  · exact hlast.here.symm ▸ hgone.seen
  · exact hlast.here.symm ▸ hgone.seen
  · exact hlast.here.symm ▸ hgone.seen

theorem connectSlice_le (remainingHead attemptsLeft configured : Nat) :
    connectSlice remainingHead attemptsLeft configured ≤ remainingHead ∧
      connectSlice remainingHead attemptsLeft configured ≤ configured :=
  ⟨(Nat.min_le_right _ _).trans (Nat.min_le_right _ _), Nat.min_le_left _ _⟩

/-- What a first attempt is given: a transfer without candidates is never attempted again. -/
def Given (options : TransferOptions) (now : Nat) (transfer : ActiveTransfer) : Prop :=
  (options.candidates = none ∧ transfer.retry = none) ∨
  ∃ set, options.candidates = some set ∧ set.addresses ≠ [] ∧ transfer.retry = some ⟨options, 1,
      min (set.addresses.length % 2 ^ 32) maxInternalConnectAttempts, now + options.headTimeout⟩ ∧
    transfer.connectTimeout ≤ options.headTimeout ∧
    transfer.connectTimeout ≤ options.connectTimeout

theorem active_startTransfer (hwell : driver.policy.WellFormed) (hidle : (driver.slot id).Idle)
    {opts : TransferOptions}
    (h : ((driver.startTransfer rates id opts answers now).slot id).active = some transfer) :
    Given opts now transfer := by
  have hslots := (policyOnly_reserveCandidate rates driver opts opts.poolKey now none).slots
  unfold startTransfer at h
  dsimp only at h
  split at h
  case h_1 error refused heq =>
    rw [heq] at hslots
    rw [refuse, slot_modify] at h
    cases (slot_of_slots hslots id ▸ hidle.active : (refused.slot id).active = none).symm.trans h
  case h_2 plain heq =>
    rw [heq] at hslots
    refine .inl ⟨?_, (launched_of_active (slot_of_slots hslots id ▸ hidle.active) h).2⟩
    unfold reserveCandidate at heq
    split at heq
    · assumption
    · split at heq <;> cases heq
  case h_3 claim pinned heq =>
    rw [heq] at hslots
    obtain ⟨htime, hretry⟩ := launched_of_active
      (by rw [slot_modify]; exact slot_of_slots hslots id ▸ hidle.active) h
    obtain ⟨set, hset, hne, hatts⟩ := candidates_of_reserveCandidate hwell heq
    obtain ⟨hhead, hconf⟩ := connectSlice_le opts.headTimeout
      (retryStateOf opts claim now).maxAttempts opts.connectTimeout
    refine .inr ⟨set, hset, hne, ?_, htime ▸ hhead, htime ▸ hconf⟩
    rw [hretry, retryStateOf, hatts, hset]
    rfl

theorem active_startRetry {request : RetryRequest} (hwell : driver.policy.WellFormed)
    (hact : (driver.slot request.id).active = none)
    (h : ((driver.startRetry rates request answers now).slot request.id).active = some transfer) :
    transfer.retry = some { request.state with attempts := request.state.attempts + 1 } ∧
      transfer.connectTimeout ≤ request.state.deadline - now ∧
      transfer.connectTimeout ≤ request.state.options.connectTimeout := by
  have hslots := (policyOnly_reserveCandidate rates driver request.state.options request.pool now
    (some request.state)).slots
  have hfail : ∀ other : Driver ρ, (other.slot request.id).active = none →
      ((other.failRetry request.id request.error).slot request.id).active = none := by
    intro other ho
    rw [failRetry, slot_modify]
    exact ho
  unfold startRetry at h
  dsimp only at h
  split at h
  · cases (hfail driver hact).symm.trans h
  · split at h
    case h_1 claim pinned heq =>
      rw [heq] at hslots
      obtain ⟨htime, hretry⟩ := launched_of_active
        (by rw [slot_modify]; exact slot_of_slots hslots _ ▸ hact) h
      obtain ⟨-, -, -, hatts⟩ := candidates_of_reserveCandidate hwell heq
      obtain ⟨hrem, hconf⟩ := connectSlice_le (request.state.deadline - now)
        (request.state.maxAttempts - request.state.attempts) request.state.options.connectTimeout
      refine ⟨?_, htime ▸ hrem, htime ▸ hconf⟩
      rw [hretry, hatts]
      rfl
    case h_2 refused other _ heq =>
      rw [heq] at hslots
      cases (hfail other (slot_of_slots hslots _ ▸ hact)).symm.trans h

end Driver

namespace System

variable {ρ : Type} {rates : RateModel ρ} {sys next : System ρ}

theorem subsides_send (cmd : Command) :
    sys.driver.Subsides (sys.send cmd).driver := by
  unfold send
  split
  · exact subsides_discards [cmd]
  · exact fun _ => .refl

def attaches : SystemAction → Bool
  | .process _ _ | .complete _ _ _ _ => true
  | _ => false

theorem subsides_moves (hpl : sys.Placed) {act : SystemAction}
    (h : Moves rates sys act next) (hqt : attaches act = false) :
    sys.driver.Subsides next.driver := by
  have hset := hpl.settled
  cases h with
  | get | miss | count | drain => exact fun _ => .refl
  | register | giveUp =>
    exact (advances_modify _ (.of_fields rfl rfl rfl (.inl rfl) fun _ h => h)).subsides hset
  | submit => exact subsides_send _
  | @talk _ _ _ _ cmd =>
    cases cmd with
    | none => exact fun _ => .refl
    | some said => exact subsides_send said
  | close | closeQueue => exact subsides_discards _
  | process => cases hqt
  | inner hinner => exact hinner.driver.symm ▸ fun _ => .refl
  | header => exact (advances_header hset _).subsides hset
  | failPool => exact (advances_failPool hset _ _ _).subsides hset
  | complete => cases hqt
  | shutDown => exact (advances_shutDown hset _).subsides hset
  | unwind =>
    have hdrop := hpl.discard_pending.2
    exact fun id => (subsides_discards _ id).trans ((advances_unwind hdrop).subsides hdrop id)
  | failAll => exact (advances_failAll hset).subsides hset

end System

structure Completion where
  transfer : ActiveTransfer
  result : CurlResult
  report : CurlReport

/-- The connection carried nothing of the request. -/
def Completion.Safe (completion : Completion) : Prop :=
  completion.transfer.head.published = false ∧ completion.report.requestBytes = some 0 ∧
    ∃ code message, completion.result = .error (code, message) ∧
      (code ∈ [5, 6, 7, 35] ∨
        code = 28 ∧ connectFinished completion.transfer.pool completion.report = some 0)

/-- A transfer whose handle was added and tagged; the first one of a submission follows no
completion. -/
structure Attachment where
  id : TransferId
  start : Nat
  options : TransferOptions
  transfer : ActiveTransfer
  after : Option Completion

structure Logged (ρ : Type) where
  sys : System ρ
  log : List Attachment

namespace Logged

variable {ρ : Type} {rates : RateModel ρ}

def attached (rates : RateModel ρ) (sys next : System ρ) : SystemAction → Option Attachment
  | .process _ now =>
    match sys.pending with
    | .submit id options :: _ =>
      (next.driver.slot id).active.map fun transfer => ⟨id, now, options, transfer, none⟩
    | _ => none
  | .complete report _ now later =>
    match sys.completions with
    | (pool, id, result) :: _ => do
      let ended ← (sys.driver.slot id).active
      let request ← (sys.driver.completeTransfer rates pool id result report now).2
      let transfer ← (next.driver.slot id).active
      some ⟨id, later, request.state.options, transfer, some ⟨ended, result, report⟩⟩
    | [] => none
  | _ => none

def step (rates : RateModel ρ) (logged : Logged ρ) (action : SystemAction) : Option (Logged ρ) :=
  (logged.sys.step rates action).map fun next =>
    ⟨next, logged.log ++ (attached rates logged.sys next action).toList⟩

abbrev Reachable (rates : RateModel ρ) : Logged ρ → Prop :=
  Reaches (step rates) (fun _ _ => True) ⟨.new, []⟩

def attempts (logged : Logged ρ) (id : TransferId) : List Attachment :=
  logged.log.filter (·.id == id)

variable {logged next : Logged ρ} {id : TransferId} {now : Nat} {transfer : ActiveTransfer}

theorem Reachable.sys (h : Reachable rates logged) : System.Reachable rates logged.sys := by
  induction h with
  | refl => exact .refl
  | step act _ _ hstep ih =>
    obtain ⟨next, hnext, rfl⟩ := map_eq_some_iff.mp hstep
    exact ih.step act trivial hnext

structure Within (first entry : Attachment) : Prop where
  options : entry.options = first.options
  deadline : ∃ state, entry.transfer.retry = some state ∧
    state.deadline = first.start + first.options.headTimeout
  remaining : entry.transfer.connectTimeout ≤
    first.start + first.options.headTimeout - entry.start
  configured : entry.transfer.connectTimeout ≤ first.options.connectTimeout

structure Bounded (set : CandidateSet) (first : Attachment) (rest : List Attachment) : Prop where
  count : rest.length + 1 ≤ min set.addresses.length maxInternalConnectAttempts
  within : ∀ entry ∈ first :: rest, Within first entry
  safe : ∀ entry ∈ rest, ∃ completion, entry.after = some completion ∧ completion.Safe

def lastState (set : CandidateSet) (first : Attachment) (rest : List Attachment) : RetryState :=
  ⟨first.options, rest.length + 1, min (set.addresses.length % 2 ^ 32) maxInternalConnectAttempts,
    first.start + first.options.headTimeout⟩

structure Chained (logged : Logged ρ) (id : TransferId) : Prop where
  seen : logged.attempts id ≠ [] → (logged.sys.driver.slot id).Seen
  first : ∀ first rest, logged.attempts id = first :: rest → first.after = none ∧
    ∀ set, first.options.candidates = some set → Bounded set first rest
  carried : ∀ transfer state, (logged.sys.driver.slot id).active = some transfer →
    transfer.retry = some state → ∃ first rest set, logged.attempts id = first :: rest ∧
      first.options.candidates = some set ∧ state = lastState set first rest

theorem Chained.subsides (h : logged.Chained id) (hatts : next.attempts id = logged.attempts id)
    (hslot : (logged.sys.driver.slot id).Subsides (next.sys.driver.slot id)) :
    next.Chained id := by
  refine ⟨fun hne => hslot.seen (h.seen (hatts ▸ hne)), fun first rest hchain =>
    h.first first rest (hatts ▸ hchain), fun transfer state hact hretry => ?_⟩
  obtain ⟨earlier, hearl, hsame⟩ := hslot.kept transfer hact
  obtain ⟨first, rest, set, hchain, hset, hstate⟩ := h.carried earlier state hearl (hsame ▸ hretry)
  exact ⟨first, rest, set, hatts.trans hchain, hset, hstate⟩

theorem Chained.untouched (hact : (logged.sys.driver.slot id).active = none)
    (hatts : logged.attempts id = []) : logged.Chained id := by
  refine ⟨fun hne => absurd hatts hne, fun first rest hchain => ?_,
    fun transfer state hsome => ?_⟩
  · cases hatts.symm.trans hchain
  · cases hact.symm.trans hsome

theorem attempts_append (sys : System ρ) (log entries : List Attachment) (id : TransferId) :
    attempts ⟨sys, log ++ entries⟩ id = attempts ⟨sys, log⟩ id ++ entries.filter (·.id == id) :=
  filter_append log entries

private theorem safe_of_outcome {result : CurlResult} {report : CurlReport}
    (h : outcomeOf transfer.pool transfer.head.published report result = .connectFailed) :
    Completion.Safe ⟨transfer, result, report⟩ := by
  unfold outcomeOf at h
  split at h
  · cases h
  · rename_i code msg
    split at h
    · rename_i hsafe
      simp only [isSafeConnectFailure, Bool.and_eq_true, Bool.not_eq_true', beq_iff_eq,
        Bool.or_eq_true, decide_eq_true_eq] at hsafe
      exact ⟨hsafe.1.1, hsafe.1.2, code, msg, rfl, hsafe.2⟩
    · cases h

theorem Chained.start {sys : System ρ} {log : List Attachment} {options : TransferOptions}
    (hemp : attempts ⟨sys, log⟩ id = [])
    (hact : (sys.driver.slot id).active = some transfer)
    (hgiven : Driver.Given options now transfer) :
    Chained ⟨sys, log ++ [⟨id, now, options, transfer, none⟩]⟩ id := by
  have hchain : attempts ⟨sys, log ++ [⟨id, now, options, transfer, none⟩]⟩ id =
      [⟨id, now, options, transfer, none⟩] := by
    rw [attempts_append, hemp]
    simp
  refine ⟨fun _ => .inl (by rw [hact]; rfl), fun first rest hfst => ?_,
    fun found state hf hretry => ?_⟩
  · cases hchain.symm.trans hfst
    refine ⟨rfl, fun set hset => ?_⟩
    rcases hgiven with ⟨hnone, -⟩ | ⟨other, ho, hne, hretry, hhead, hconf⟩
    · cases hnone.symm.trans hset
    · obtain rfl : other = set := some.inj (ho.symm.trans hset)
      have hpos := length_pos_iff.mpr hne
      refine ⟨?_, fun entry he => ?_, fun _ hmem => absurd hmem not_mem_nil⟩
      · simp only [length_nil, maxInternalConnectAttempts]
        omega
      · obtain rfl := mem_singleton.mp he
        exact ⟨rfl, ⟨_, hretry, rfl⟩, by simpa using hhead, hconf⟩
  · obtain rfl : transfer = found := some.inj (hact.symm.trans hf)
    rcases hgiven with ⟨-, hnone⟩ | ⟨set, hset, -, hsome, -⟩
    · cases hnone.symm.trans hretry
    · cases hsome.symm.trans hretry
      exact ⟨_, [], set, hchain, hset, rfl⟩

theorem Chained.retry {before sys : System ρ} {log : List Attachment} {request : RetryRequest}
    {ended : ActiveTransfer} {result : CurlResult} {report : CurlReport} {later : Nat}
    (h : Chained ⟨before, log⟩ id) (hend : (before.driver.slot id).active = some ended)
    (hretr : Driver.Retryable id ended result report now request)
    (hact : (sys.driver.slot id).active = some transfer)
    (hretry : transfer.retry = some { request.state with attempts := request.state.attempts + 1 })
    (hrem : transfer.connectTimeout ≤ request.state.deadline - later)
    (hconf : transfer.connectTimeout ≤ request.state.options.connectTimeout) :
    Chained ⟨sys, log ++
      [⟨id, later, request.state.options, transfer, some ⟨ended, result, report⟩⟩]⟩ id := by
  set entry : Attachment :=
    ⟨id, later, request.state.options, transfer, some ⟨ended, result, report⟩⟩ with he
  obtain ⟨first, rest, set, hchain, hset, hstate⟩ := h.carried ended request.state hend hretr.state
  have hchain' : attempts ⟨sys, log ++ [entry]⟩ id = first :: (rest ++ [entry]) := by
    rw [attempts_append]
    refine (congrArg (· ++ _) hchain).trans ?_
    simp [he]
  have hleft := hretr.left
  rw [hstate] at hretry hrem hconf hleft
  refine ⟨fun _ => .inl (by rw [hact]; rfl), fun found others hf => ?_,
    fun found state hf hcarried => ?_⟩
  · cases hchain'.symm.trans hf
    obtain ⟨hfst, hbdd⟩ := h.first first rest hchain
    refine ⟨hfst, fun other ho => ?_⟩
    obtain rfl : set = other := some.inj (hset.symm.trans ho)
    obtain ⟨hc, hwith, hsafe⟩ := hbdd set hset
    refine ⟨?_, fun found hmem => ?_, fun found hmem => ?_⟩
    · rw [length_append]
      exact Nat.le_trans hleft (min_le_min_right _ (Nat.mod_le _ _))
    · rw [← cons_append, mem_append, mem_singleton] at hmem
      rcases hmem with hmem | rfl
      · exact hwith found hmem
      · exact ⟨congrArg RetryState.options hstate, ⟨_, hretry, rfl⟩, hrem, hconf⟩
    · rw [mem_append, mem_singleton] at hmem
      rcases hmem with hmem | rfl
      · exact hsafe found hmem
      · exact ⟨_, rfl, safe_of_outcome hretr.outcome⟩
  · obtain rfl : transfer = found := some.inj (hact.symm.trans hf)
    cases hretry.symm.trans hcarried
    refine ⟨first, rest ++ [entry], set, hchain', hset, ?_⟩
    simp [lastState]

theorem chained_process (hr : Reachable rates logged) (h : ∀ id, logged.Chained id)
    {answers : CurlAnswers} {command : Command} {pending : List Command}
    (hpend : logged.sys.pending = command :: pending) {sys : System ρ}
    (hdrv : sys.driver =
      System.processCommand rates logged.sys.driver answers now command) (id : TransferId) :
    Chained ⟨sys, logged.log ++
      (attached rates logged.sys sys (.process answers now)).toList⟩ id := by
  have hqt : attached rates logged.sys sys (.process answers now) = none →
      logged.sys.driver.Subsides sys.driver → Chained ⟨sys, logged.log ++
        (attached rates logged.sys sys (.process answers now)).toList⟩ id := by
    intro hnone hsubsides
    refine (h id).subsides ?_ (hsubsides id)
    rw [hnone, toList_none, append_nil]
    rfl
  have hset := hr.sys.placed.settled
  cases command with
  | submit started options =>
    have hidle := hr.sys.placed.idle_head hpend
    replace hdrv : logged.sys.driver.startTransfer rates started options answers now =
      sys.driver := hdrv.symm
    obtain ⟨last, hlast, -⟩ := changes_startTransfer hidle rates options answers now
    rw [hdrv] at hlast
    simp only [attached, hpend]
    by_cases heq : id = started
    · subst heq
      have hemp : logged.attempts id = [] := by
        by_contra hne
        exact hidle.not_seen ((h id).seen hne)
      cases hact : (sys.driver.slot id).active with
      | none => exact .untouched hact (by rwa [map_none, toList_none, append_nil])
      | some transfer =>
        refine Chained.start hemp hact ?_
        exact active_startTransfer hr.sys.balanced.wellFormed hidle (by rw [hdrv]; exact hact)
    · refine (h id).subsides ?_ (hlast.slot_other heq ▸ .refl)
      rw [attempts_append]
      cases (sys.driver.slot started).active <;> simp [attempts, Ne.symm heq]
  | resume other => exact hqt (by simp [attached, hpend]) (hdrv ▸ fun _ => .refl)
  | cancel other =>
    exact hqt (by simp [attached, hpend]) (hdrv ▸ (advances_cancelTransfer hset now).subsides hset)
  | bodyDone done consumed sample =>
    exact hqt (by simp [attached, hpend])
      (hdrv ▸ (advances_bodyDone hset consumed sample now).subsides hset)

theorem chained_complete (hr : Reachable rates logged) (h : ∀ id, logged.Chained id)
    {report : CurlReport} {answers : CurlAnswers} {later : Nat} {pool : PoolKey}
    {finished : TransferId} {result : CurlResult}
    {completions : List (PoolKey × TransferId × CurlResult)}
    (hcomps : logged.sys.completions = (pool, finished, result) :: completions)
    {sys : System ρ}
    (hdrv : logged.sys.driver.finishTransfer rates pool finished result report answers now
      later = sys.driver) (id : TransferId) :
    Chained ⟨sys, logged.log ++
      (attached rates logged.sys sys (.complete report answers now later)).toList⟩ id := by
  have hset := hr.sys.placed.settled
  simp only [attached, hcomps]
  cases hcomp : logged.sys.driver.completeTransfer rates pool finished result report now with
  | mk middle request =>
    cases request with
    | none =>
      have hmiddle : middle = sys.driver := by rw [← hdrv, finishTransfer, hcomp]
      refine (h id).subsides ?_ (hmiddle ▸ subsides_completeTransfer hset hcomp id)
      cases (logged.sys.driver.slot finished).active <;> simp [attempts]
    | some request =>
      obtain ⟨ended, hend, rfl, hretr, hmiddle⟩ := retryable_of_completeTransfer hcomp
      have hrun := (hset finished).running hend
      obtain ⟨last, hlast, -⟩ := changes_finishTransfer hrun hdrv
      rw [hend]
      by_cases heq : id = finished
      · subst heq
        have hseen := seen_finishTransfer rates hrun ended.pool result report answers now later
        rw [hdrv] at hseen
        have hretried : middle.startRetry rates request answers later = sys.driver := by
          rw [← hdrv, finishTransfer, hcomp]
        cases hact : (sys.driver.slot id).active with
        | none =>
          refine (h id).subsides (by simp [attempts]) ⟨fun transfer hsome => ?_, fun _ => hseen⟩
          cases hact.symm.trans hsome
        | some transfer =>
          obtain ⟨credited, hchg, hsame, -⟩ := changes_credited hrun rates .connectFailed report now
          have hbald : ((logged.sys.driver.modify id Slot.detach).creditCandidate rates id
              ended .connectFailed report now).Balanced nothing :=
            (hr.sys.balanced.detach hend).creditCandidate .connectFailed report now
          rw [← hmiddle] at hchg hbald
          have hdetached : (middle.slot request.id).active = none := by
            rw [hretr.id, hchg.here, hsame.active]
            rfl
          obtain ⟨hretry, hrem, hconf⟩ := active_startRetry
            hbald.wellFormed hdetached (by rw [hretried, hretr.id]; exact hact)
          exact Chained.retry (h id) hend hretr hact hretry hrem hconf
      · refine (h id).subsides ?_ (hlast.slot_other heq ▸ .refl)
        rw [attempts_append]
        cases (sys.driver.slot finished).active <;> simp [attempts, Ne.symm heq]

private theorem Reachable.chained (h : Reachable rates logged) : ∀ id, logged.Chained id := by
  refine h.invariant_along (fun logged => ∀ id, logged.Chained id)
    (fun id => .untouched rfl rfl) fun logged action next hr hchained _ hstep => ?_
  obtain ⟨sys, hsys, rfl⟩ := map_eq_some_iff.mp hstep
  cases action with
  | process answers now =>
    simp only [System.step, System.stepDriver] at hsys
    split at hsys
    · rename_i command pending hstg hpend
      cases hsys
      exact chained_process hr hchained hpend rfl
    · cases hsys
  | complete report answers now later =>
    simp only [System.step, System.stepDriver] at hsys
    split at hsys
    · rename_i pool finished result completions hstg hbrok hcomps
      cases hsys
      exact chained_complete hr hchained hcomps rfl
    · cases hsys
  | _ =>
    exact fun id => (hchained id).subsides (by simp [attempts, attached])
      (System.subsides_moves (Reachable.sys hr).placed (System.moves_of_step hsys) rfl id)

/-- No more attempts than addresses and the limit, each after a connection that carried nothing,
within the deadline of the first one. -/
theorem connect_retries_are_bounded (h : Reachable rates logged) {first : Attachment}
    {rest : List Attachment} (hattempts : logged.attempts id = first :: rest) {set : CandidateSet}
    (hset : first.options.candidates = some set) : first.after = none ∧
    (logged.attempts id).length ≤ min set.addresses.length maxInternalConnectAttempts ∧
    (∀ entry ∈ rest, ∃ completion, entry.after = some completion ∧ completion.Safe) ∧
    ∀ entry ∈ logged.attempts id, entry.options = first.options ∧
      (∃ state, entry.transfer.retry = some state ∧
        state.deadline = first.start + first.options.headTimeout) ∧
      entry.transfer.connectTimeout ≤ first.start + first.options.headTimeout - entry.start ∧
      entry.transfer.connectTimeout ≤ first.options.connectTimeout := by
  obtain ⟨hfst, hbdd⟩ := (h.chained id).first first rest hattempts
  obtain ⟨hc, hwith, hsafe⟩ := hbdd set hset
  rw [hattempts]
  refine ⟨hfst, hc, hsafe, fun entry he => ?_⟩
  obtain ⟨hoptions, hdeadline, hrem, hconf⟩ := hwith entry he
  exact ⟨hoptions, hdeadline, hrem, hconf⟩

theorem second_attempt_is_bounded : ∃ logged : Logged Nat, Reachable System.sampleRates logged ∧
    (logged.attempts 1).length = 2 ∧
    ∀ entry ∈ logged.attempts 1, entry.transfer.connectTimeout ≤ 10 - entry.start := by
  have hview : (runLabels (step System.sampleRates) (fun _ _ => true) (⟨.new, []⟩ : Logged Nat)
      (System.refusedRun [System.sampleOptions 100] ++
        [.complete System.refusedReport System.sampleAnswers 1 2])).map
        (fun logged => (logged.attempts 1).map fun entry => (entry.start, entry.options)) =
      some [(0, System.sampleOptions 100), (2, System.sampleOptions 100)] := by decide
  obtain ⟨logged, hr, hview⟩ := Reaches.exists_of_run hview
  obtain ⟨first, rest, hatts, hfst, hrest⟩ := map_eq_cons_iff.mp hview
  obtain ⟨hstart, hoptions⟩ := Prod.mk.inj hfst
  obtain ⟨-, -, -, hall⟩ := connect_retries_are_bounded hr hatts
    (congrArg TransferOptions.candidates hoptions)
  refine ⟨logged, hr, ?_, fun entry he => ?_⟩
  · simpa using congrArg length hview
  · have hrem := (hall entry he).2.2.1
    rw [hstart, hoptions] at hrem
    exact hrem

end Logged

end Bytehaul.Network
