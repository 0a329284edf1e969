import Bytehaul.Network.Driver

/-!
# One transfer in the driver

Every function of the driver is called for one transfer and leaves the others alone.
-/

namespace Bytehaul.Network

open Foundation Session Option Driver Slot
open Std (TreeMap)

/-- The channel of a transfer whose parser may still own the sender. -/
structure Agrees (head : HeadParser) (channel : HeadChannel) : Prop where
  unused : head.sender = true → channel.values = []
  used : head.sender = false → channel.values.length = 1
  kept : channel.dropped = false

structure HeadChannel.Closed (channel : HeadChannel) : Prop where
  once : channel.values.length ≤ 1
  done : channel.values ≠ [] ∨ channel.dropped = true

namespace Slot

variable {slot : Slot} {head next : HeadParser}

theorem agrees_publish (h : Agrees head slot.head) (hsends : head.Sends next) :
    Agrees next (slot.publish head next).head := by
  rcases hsends with ⟨hsend, hsent⟩ | ⟨hsend, hused, result, hsent⟩
  · refine ⟨fun hopen => ?_, fun hused => ?_, h.kept⟩
    · simp [publish, hsent, h.unused (hsend ▸ hopen)]
    · simp [publish, hsent, h.used (hsend ▸ hused)]
  · refine ⟨fun hopen => by simp [hused] at hopen, fun _ => ?_, h.kept⟩
    simp [publish, hsent, h.unused hsend]

theorem closed_of_agrees (h : Agrees head slot.head) (hused : head.sender = false) :
    slot.head.Closed := by
  have hone := h.used hused
  refine ⟨Nat.le_of_eq hone, .inl fun hnil => ?_⟩
  simp [hnil] at hone

private theorem fail_sender {error : DownloadError} : (head.fail error).sender = false := by
  unfold HeadParser.fail HeadParser.send
  split <;> simp_all

theorem closed_failHead (h : Agrees head slot.head) {error : DownloadError} :
    (slot.failHead head error).head.Closed :=
  closed_of_agrees (agrees_publish h (HeadParser.sends_send head (.error error))) (fail_sender)

theorem closed_dropHead (h : Agrees head slot.head) : (slot.dropHead head).head.Closed := by
  unfold dropHead
  split
  case isTrue hopen => exact ⟨by simp [h.unused hopen], .inr rfl⟩
  case isFalse hused => exact closed_of_agrees h (by simpa using hused)

theorem closed_sendHead (h : slot.head = ⟨[], false⟩) (result : Except DownloadError ResponseHead) :
    (slot.sendHead result).head.Closed := by
  simp only [sendHead, h]
  exact ⟨by simp, .inl (by simp)⟩

structure Idle (slot : Slot) : Prop where
  active : slot.active = none
  attempt : slot.attempt = none
  head : slot.head = ⟨[], false⟩
  ended : slot.ended = none

structure Running (slot : Slot) (transfer : ActiveTransfer) : Prop where
  active : slot.active = some transfer
  head : Agrees transfer.head slot.head
  ended : slot.ended = none
  attempt : ∀ record, slot.attempt = some record → transfer.candidate.isSome = true ∧
    record.pool = transfer.pool ∧ record.outcome = none

structure Between (slot : Slot) : Prop where
  active : slot.active = none
  head : slot.head = ⟨[], false⟩
  ended : slot.ended = none

structure Gone (slot : Slot) (ending : Ending) : Prop where
  active : slot.active = none
  head : slot.head.Closed
  terminal : ending ≠ .unwound → ending ≠ .discarded → slot.terminal.isSome = true
  ended : slot.ended = some ending
  attempt : ∀ record, slot.attempt = some record →
    record.outcome.isSome = true ∧ record.consumed = none

def Unconsumed (slot : Slot) : Prop :=
  ∀ record, slot.attempt = some record → record.consumed = none

theorem idle_new : new.Idle := ⟨rfl, rfl, rfl, rfl⟩

theorem Idle.between (h : slot.Idle) : slot.Between := ⟨h.active, h.head, h.ended⟩

private theorem agrees_ofTransfer (h : slot.head = ⟨[], false⟩) (opts : RequestOptions)
    (pinnedIp : Option IpAddr) : Agrees (.ofTransfer opts pinnedIp) slot.head := by
  rw [h]
  exact ⟨fun _ => rfl, fun hused => Bool.noConfusion hused, rfl⟩

theorem isSome_finish (term : Terminal) : (slot.finish term).terminal.isSome = true := by
  cases h : slot.terminal <;> simp [finish, h]

theorem gone_of_none {ending : Ending} (hact : slot.active = none) (hhead : slot.head.Closed)
    (hterm : slot.terminal.isSome = true) (hend : slot.ended = some ending)
    (hatt : slot.attempt = none) : slot.Gone ending ∧ slot.attempt = none :=
  ⟨⟨hact, hhead, fun _ _ => hterm, hend, by simp [hatt]⟩, hatt⟩

def fold (slot : Slot) : Slot :=
  match slot.attempt with
  | none => slot
  | some record =>
    match record.outcome, record.consumed with
    | some _, some _ => slot.removeAttempt
    | _, _ => slot

structure SameButAttempt (slot after : Slot) : Prop where
  active : after.active = slot.active
  head : after.head = slot.head
  ended : after.ended = slot.ended

theorem sameButAttempt_fold (slot : Slot) : slot.SameButAttempt slot.fold := by
  unfold fold
  split
  · exact ⟨rfl, rfl, rfl⟩
  · split <;> exact ⟨rfl, rfl, rfl⟩

/-- A terminal state that is there stays, and no sink leaves the registry without one. -/
structure Keeps (slot after : Slot) : Prop where
  terminal : ∀ terminal, slot.terminal = some terminal → after.terminal = some terminal
  registered : slot.registered = true → after.registered = true ∨ after.terminal.isSome = true

theorem keeps_finish {after : Slot} (term : Terminal)
    (h : after.terminal = slot.terminal.or (some term)) : slot.Keeps after := by
  refine ⟨fun found hf => by simp [h, hf], fun _ => .inr ?_⟩
  cases hterm : slot.terminal <;> simp [h, hterm]

theorem keeps_of_eq {after : Slot} (hterm : after.terminal = slot.terminal)
    (hreg : after.registered = slot.registered) : slot.Keeps after :=
  ⟨fun _ hf => hterm.trans hf, fun h => .inl (hreg.trans h)⟩

theorem Keeps.trans {after last : Slot} (h : slot.Keeps after) (hlast : after.Keeps last) :
    slot.Keeps last := by
  refine ⟨fun term hf => hlast.terminal term (h.terminal term hf),
    fun hreg => ?_⟩
  rcases h.registered hreg with hstill | hsome
  · exact hlast.registered hstill
  · obtain ⟨term, hterm⟩ := isSome_iff_exists.mp hsome
    exact .inr (by rw [hlast.terminal term hterm]; rfl)

@[simp] theorem dropHead_terminal (slot : Slot) (head : HeadParser) :
    (slot.dropHead head).terminal = slot.terminal := by
  unfold dropHead
  split <;> rfl

@[simp] theorem dropHead_active (slot : Slot) (head : HeadParser) :
    (slot.dropHead head).active = slot.active := by
  unfold dropHead
  split <;> rfl

@[simp] theorem dropHead_attempt (slot : Slot) (head : HeadParser) :
    (slot.dropHead head).attempt = slot.attempt := by
  unfold dropHead
  split <;> rfl

@[simp] theorem dropHead_registered (slot : Slot) (head : HeadParser) :
    (slot.dropHead head).registered = slot.registered := by
  unfold dropHead
  split <;> rfl

end Slot

namespace Driver

variable {ρ : Type} {rates : RateModel ρ} {driver after : Driver ρ} {id other : TransferId}
  {slot : Slot} {tr : ActiveTransfer}

/-- The slot of one transfer becomes `slot`, and nothing happens to the others. -/
structure Touches (id : TransferId) (driver after : Driver ρ) (slot : Slot) : Prop where
  elsewhere : ∀ other, other ≠ id → after.slots[other]? = driver.slots[other]?
  here : after.slot id = slot

def tally (driver : Driver ρ) : Nat × Nat := (driver.completed, driver.cancelled)

structure Alters (id : TransferId) (driver after : Driver ρ) (slot : Slot) : Prop extends
    Touches id driver after slot where
  kept : (driver.slot id).Keeps slot

structure Changes (id : TransferId) (driver after : Driver ρ) (slot : Slot) : Prop extends
    Alters id driver after slot where
  tally : after.tally = driver.tally

structure PolicyOnly (driver after : Driver ρ) : Prop where
  slots : after.slots = driver.slots
  tally : after.tally = driver.tally

theorem Touches.slot_other (h : Touches id driver after slot) (hne : other ≠ id) :
    after.slot other = driver.slot other := by
  rw [Driver.slot, Driver.slot, h.elsewhere other hne]

theorem Touches.all {R : Slot → Slot → Prop} (hrefl : ∀ slot, R slot slot)
    (h : Touches id driver after slot) (hslot : R (driver.slot id) slot) (other : TransferId) :
    R (driver.slot other) (after.slot other) := by
  by_cases heq : other = id
  · subst heq
    exact h.here.symm ▸ hslot
  · rw [h.slot_other heq]
    exact hrefl _

theorem Changes.trans {middle last : Slot} {final : Driver ρ} (h : Changes id driver after middle)
    (hlast : Changes id after final last) : Changes id driver final last :=
  ⟨⟨⟨fun other hne => (hlast.elsewhere other hne).trans (h.elsewhere other hne), hlast.here⟩,
    h.kept.trans (h.here ▸ hlast.kept)⟩, hlast.tally.trans h.tally⟩

theorem slot_of_slots (h : after.slots = driver.slots) (id : TransferId) :
    after.slot id = driver.slot id := by
  rw [slot, slot, h]

theorem PolicyOnly.changes (h : driver.PolicyOnly after) :
    Changes id driver after (driver.slot id) :=
  ⟨⟨⟨fun _ _ => by rw [h.slots], slot_of_slots h.slots id⟩, keeps_of_eq rfl rfl⟩, h.tally⟩

theorem Changes.refl : Changes id driver driver (driver.slot id) :=
  PolicyOnly.changes ⟨rfl, rfl⟩

variable (h : Changes id driver after slot) {now : Nat}
include h

theorem Changes.policyOnly {final : Driver ρ}
    (hfinal : after.PolicyOnly final) : Changes id driver final slot :=
  h.trans (h.here ▸ hfinal.changes)

omit h in
@[simp] theorem slot_modify (change : Slot → Slot) :
    (driver.modify id change).slot id = change (driver.slot id) := by
  simp [modify, slot]

omit h in
theorem touches_modify (change : Slot → Slot) :
    Touches id driver (driver.modify id change) (change (driver.slot id)) :=
  ⟨fun other hne => by simp [modify, getElem?_insert_eq, hne], slot_modify change⟩

theorem Changes.modify (change : Slot → Slot) (hkept : slot.Keeps (change slot)) :
    Changes id driver (after.modify id change) (change slot) := by
  have hstep : Changes id after (after.modify id change) (change (after.slot id)) :=
    ⟨⟨touches_modify change, h.here.symm ▸ hkept⟩, rfl⟩
  exact h.trans (h.here ▸ hstep)

omit h in
private theorem policyOnly_settleCandidate {outcome : AttemptOutcome} :
    driver.PolicyOnly (driver.settleCandidate tr outcome now) := by
  unfold settleCandidate
  split <;> exact ⟨rfl, rfl⟩

omit h in
private theorem policyOnly_rank {record : AttemptRecord} :
    driver.PolicyOnly (driver.rank rates record now) := by
  unfold rank
  split <;> exact ⟨rfl, rfl⟩

omit h in
theorem policyOnly_reserveCandidate (rates : RateModel ρ) (driver : Driver ρ)
    (opts : TransferOptions) (key : PoolKey) (now : Nat) (prev : Option RetryState) :
    driver.PolicyOnly (driver.reserveCandidate rates opts key now prev).2 := by
  unfold reserveCandidate
  split
  · exact ⟨rfl, rfl⟩
  · split <;> exact ⟨rfl, rfl⟩

theorem Changes.foldAttempt : Changes id driver (after.foldAttempt rates id now) slot.fold := by
  unfold Driver.foldAttempt fold
  rw [h.here]
  cases slot.attempt with
  | none => exact h
  | some record =>
    dsimp only
    cases record.outcome with
    | none => exact h
    | some outcome =>
      cases record.consumed with
      | none => exact h
      | some consumed =>
        dsimp only
        split
        · exact h.modify removeAttempt (keeps_of_eq rfl rfl)
        · exact (h.modify removeAttempt (keeps_of_eq rfl rfl)).policyOnly (policyOnly_rank)

def consumedSlot (consumed : Bool) (sample : Option TransferSample) (slot : Slot) : Slot :=
  match slot.attempt with
  | none => slot
  | some record =>
    (slot.setAttempt { record with consumed := some consumed, sample := sample }).fold

omit h in
theorem ended_consumedSlot {consumed : Bool} {sample : Option TransferSample} (slot : Slot) :
    (consumedSlot consumed sample slot).ended = slot.ended := by
  unfold consumedSlot
  split
  · rfl
  · exact (sameButAttempt_fold _).ended

omit h in
theorem changes_bodyDone (driver : Driver ρ) (id : TransferId) (consumed : Bool)
    (sample : Option TransferSample) (now : Nat) :
    Changes id driver (driver.bodyDone rates id consumed sample now)
      (consumedSlot consumed sample (driver.slot id)) := by
  unfold bodyDone consumedSlot
  cases (driver.slot id).attempt with
  | none => exact .refl
  | some record => exact (Changes.refl.modify _ (keeps_of_eq rfl rfl)).foldAttempt

def reportedSlot (claim : CandidateClaim) (outcome : AttemptOutcome) (mismatch : Bool)
    (slot : Slot) : Slot :=
  match slot.attempt with
  | none => slot
  | some record =>
    (slot.setAttempt { record with
      claim := claim
      outcome := some outcome
      consumed := if mismatch then some false else record.consumed }).fold

theorem Changes.creditCandidate (tr : ActiveTransfer)
    (outcome : AttemptOutcome) (report : CurlReport) (now : Nat) :
    Changes id driver (after.creditCandidate rates id tr outcome report now)
      (match tr.candidate with
      | none => slot
      | some claim =>
        reportedSlot claim outcome (report.primaryIp.any (· != claim.address)) slot) := by
  unfold Driver.creditCandidate
  cases tr.candidate with
  | none => exact h
  | some claim =>
    have hset : Changes id driver (after.settle tr.pool claim outcome now) slot :=
      h.policyOnly ⟨rfl, rfl⟩
    unfold reportAttempt reportedSlot
    dsimp only
    rw [hset.here]
    cases slot.attempt with
    | none => exact hset
    | some record => exact (hset.modify _ (keeps_of_eq rfl rfl)).foldAttempt

theorem Changes.releaseCandidate (now : Nat) :
    Changes id driver (after.releaseCandidate id now) slot.removeAttempt := by
  unfold Driver.releaseCandidate
  rw [h.here]
  cases hatt : slot.attempt with
  | none =>
    have hsame : slot.removeAttempt = slot := by rw [removeAttempt, ← hatt]
    rwa [hsame]
  | some record => exact (h.modify removeAttempt (keeps_of_eq rfl rfl)).policyOnly ⟨rfl, rfl⟩

theorem Changes.attachTransfer (tr : ActiveTransfer) (hact : slot.active = none)
    (hready : { slot with active := some tr }.Running tr) (answers : CurlAnswers)
    (now : Nat) : ∃ last, Changes id driver (after.attachTransfer id tr answers now) last ∧
      (last.Running tr ∧ last.attempt = slot.attempt ∨
        last.Gone .unattached ∧ last.attempt = none) := by
  have habandon : ∀ msg, ∃ last,
      Changes id driver (after.abandon id tr.head msg now) last ∧
        last.Gone .unattached ∧ last.attempt = none := by
    intro msg
    have hkept : Agrees tr.head slot.removeAttempt.head := hready.head
    have hkeeps : slot.removeAttempt.Keeps ((((slot.removeAttempt.dropHead tr.head).finish
        (.failed .other none msg)).unregister).leave .unattached) := by
      refine keeps_finish (.failed .other none msg) ?_
      simp [leave, unregister, finish]
    exact ⟨_, (h.releaseCandidate now).modify _ hkeeps,
      gone_of_none ((dropHead_active ..).trans hact) (closed_dropHead hkept)
        (isSome_finish _) rfl (dropHead_attempt ..)⟩
  unfold Driver.attachTransfer
  split
  · obtain ⟨last, hlast, hgone⟩ := habandon _
    exact ⟨last, hlast, .inr hgone⟩
  · obtain ⟨last, hlast, hgone⟩ := habandon _
    exact ⟨last, hlast, .inr hgone⟩
  · exact ⟨_, h.modify _ (keeps_of_eq rfl rfl), .inl ⟨hready, rfl⟩⟩

theorem Changes.launch (hslot : slot.Between) (key : PoolKey)
    (pinned : Option CandidateClaim) (hatt : ∀ record, slot.attempt = some record →
      pinned.isSome = true ∧ record.pool = key ∧ record.outcome = none) (opts : TransferOptions)
    (connectTimeout : Nat) (retry : Option RetryState) (answers : CurlAnswers) (now : Nat) :
    ∃ last, Changes id driver
        (after.launch id key opts connectTimeout pinned retry answers now) last ∧
      ((∃ tr, last.Running tr) ∧ last.attempt = slot.attempt ∨
        last.Gone .unattached ∧ last.attempt = none) := by
  have hhead := agrees_ofTransfer hslot.head opts.toRequestOptions
    (pinned.map CandidateClaim.address)
  unfold Driver.launch
  set head := HeadParser.ofTransfer opts.toRequestOptions (pinned.map CandidateClaim.address)
  split
  · obtain ⟨last, hlast, hcases⟩ := h.attachTransfer ⟨key, head, connectTimeout, pinned, retry⟩
      hslot.active ⟨rfl, hhead, hslot.ended, hatt⟩ answers now
    exact ⟨last, hlast, hcases.imp_left fun ⟨hrun, hsame⟩ => ⟨⟨_, hrun⟩, hsame⟩⟩
  · rename_i error _
    have hfail := agrees_publish hhead (HeadParser.sends_send head (.error (optionsRejected error)))
    obtain ⟨last, hlast, hcases⟩ :=
      (h.modify (·.failHead head (optionsRejected error)) (keeps_of_eq rfl rfl)).attachTransfer
        ⟨key, head.fail (optionsRejected error), connectTimeout, pinned, retry⟩ hslot.active
        ⟨rfl, hfail, hslot.ended, hatt⟩ answers now
    exact ⟨last, hlast, hcases.imp_left fun ⟨hrun, hsame⟩ => ⟨⟨_, hrun⟩, hsame⟩⟩

omit h

theorem changes_startTransfer (hidle : (driver.slot id).Idle) (rates : RateModel ρ)
    (opts : TransferOptions) (answers : CurlAnswers) (now : Nat) :
    ∃ last, Changes id driver (driver.startTransfer rates id opts answers now) last ∧
      ((∃ tr, last.Running tr) ∧ last.Unconsumed ∨
        (last.Gone .refused ∨ last.Gone .unattached) ∧ last.attempt = none) := by
  have hresd : Changes id driver
      (driver.reserveCandidate rates opts opts.poolKey now none).2 (driver.slot id) :=
    (policyOnly_reserveCandidate rates driver opts opts.poolKey now none).changes
  unfold startTransfer
  dsimp only
  split
  case h_1 error refused heq =>
    rw [heq] at hresd
    refine ⟨_, hresd.modify _ (keeps_finish _ rfl), .inr (And.imp_left .inl ?_)⟩
    exact gone_of_none hidle.active (closed_sendHead hidle.head _) (isSome_finish _) rfl
      hidle.attempt
  case h_2 plain heq =>
    rw [heq] at hresd
    have hnone : ∀ record, (driver.slot id).attempt ≠ some record := by simp [hidle.attempt]
    obtain ⟨last, hlast, ⟨hrun, hatt⟩ | ⟨hgone, hatt⟩⟩ :=
      hresd.launch hidle.between opts.poolKey none
        (fun record hrec => absurd hrec (hnone record)) opts opts.connectTimeout
        none answers now
    · exact ⟨last, hlast, .inl ⟨hrun, fun record hrec =>
        absurd (hatt ▸ hrec) (hnone record)⟩⟩
    · exact ⟨last, hlast, .inr ⟨.inr hgone, hatt⟩⟩
  case h_3 claim pinned heq =>
    rw [heq] at hresd
    obtain ⟨last, hlast, ⟨hrun, hatt⟩ | ⟨hgone, hatt⟩⟩ :=
      (hresd.modify (·.setAttempt (recordOf opts.poolKey claim))
        (keeps_of_eq rfl rfl)).launch ⟨hidle.active, hidle.head, hidle.ended⟩ opts.poolKey
        (some claim) (fun record hrec => by cases hrec; exact ⟨rfl, rfl, rfl⟩) opts
        (connectSlice opts.headTimeout (retryStateOf opts claim now).maxAttempts
          opts.connectTimeout) (some (retryStateOf opts claim now)) answers now
    · refine ⟨last, hlast, .inl ⟨hrun, fun record hrec => ?_⟩⟩
      rw [hatt] at hrec
      cases hrec
      rfl
    · exact ⟨last, hlast, .inr ⟨.inr hgone, hatt⟩⟩

theorem Changes.startRetry {request : RetryRequest} (h : Changes request.id driver after slot)
    (hslot : slot.Between) (hatt : ∀ record, slot.attempt = some record →
      record.pool = request.pool ∧ record.consumed = none) (answers : CurlAnswers) (now : Nat) :
    ∃ last, Changes request.id driver (after.startRetry rates request answers now) last ∧
      ((∃ tr, last.Running tr) ∧ last.Unconsumed ∨
        (last.Gone .unretried ∨ last.Gone .unattached) ∧ last.attempt = none) := by
  have hfail : ∀ {other : Driver ρ}, Changes request.id driver other slot →
      ∃ last, Changes request.id driver (other.failRetry request.id request.error) last ∧
        ((last.Gone .unretried ∨ last.Gone .unattached) ∧ last.attempt = none) := by
    intro other ho
    refine ⟨_, ho.modify _ (keeps_finish _ rfl), And.imp_left .inl ?_⟩
    exact gone_of_none hslot.active (closed_sendHead hslot.head _) (isSome_finish _) rfl rfl
  have hresd : Changes request.id driver (after.reserveCandidate rates
      request.state.options request.pool now (some request.state)).2 slot :=
    h.policyOnly (policyOnly_reserveCandidate rates after _ _ now (some request.state))
  unfold Driver.startRetry
  dsimp only
  split
  · obtain ⟨last, hlast, hgone⟩ := hfail h
    exact ⟨last, hlast, .inr hgone⟩
  · split
    case h_1 claim reserved heq =>
      rw [heq] at hresd
      have hnext : (nextRecord slot request.pool claim).pool = request.pool ∧
          (nextRecord slot request.pool claim).outcome = none ∧
          (nextRecord slot request.pool claim).consumed = none := by
        unfold nextRecord
        cases hrec : slot.attempt with
        | none => exact ⟨rfl, rfl, rfl⟩
        | some record =>
          obtain ⟨hpool, hused⟩ := hatt record hrec
          exact ⟨hpool, rfl, hused⟩
      obtain ⟨last, hlast, ⟨hrun, hatt⟩ | ⟨hgone, hatt⟩⟩ :=
        (hresd.modify (fun slot => slot.setAttempt (nextRecord slot request.pool claim))
          (keeps_of_eq rfl rfl)).launch
            ⟨hslot.active, hslot.head, hslot.ended⟩ request.pool (some claim)
            (fun record hrec => by cases hrec; exact ⟨rfl, hnext.1, hnext.2.1⟩)
            request.state.options (connectSlice (request.state.deadline - now)
              (request.state.maxAttempts - request.state.attempts)
              request.state.options.connectTimeout)
            (some { request.state with attempts := claim.attempts }) answers now
      · refine ⟨last, hlast, .inl ⟨hrun, fun record hrec => ?_⟩⟩
        rw [hatt] at hrec
        cases hrec
        exact hnext.2.2
      · exact ⟨last, hlast, .inr ⟨.inr hgone, hatt⟩⟩
    case h_2 refused other _ heq =>
      rw [heq] at hresd
      obtain ⟨last, hlast, hgone⟩ := hfail hresd
      exact ⟨last, hlast, .inr hgone⟩

theorem retryRequest_spec {term : Terminal} {outcome : AttemptOutcome} {request : RetryRequest}
    (h : retryRequest id tr term outcome now = some request) :
    request.id = id ∧ request.pool = tr.pool ∧ tr.head.sender = true := by
  obtain ⟨error, -, h⟩ := bind_eq_some_iff.mp h
  obtain ⟨retry, -, h⟩ := bind_eq_some_iff.mp h
  obtain ⟨⟨-, -, -, hsend⟩, h⟩ := ite_none_right_eq_some.mp h
  cases h
  exact ⟨rfl, rfl, hsend⟩

theorem closed_concluded {kept : Slot} (hhead : Agrees tr.head kept.head)
    (hact : kept.active = none) {term : Terminal}
    (hslot : slot = match terminalError term with
      | some error => kept.failHead tr.head error
      | none => kept.dropHead tr.head) :
    slot.active = none ∧ slot.head.Closed ∧ slot.attempt = kept.attempt := by
  subst hslot
  split
  · exact ⟨hact, closed_failHead hhead, rfl⟩
  · exact ⟨(dropHead_active ..).trans hact, closed_dropHead hhead, dropHead_attempt ..⟩

theorem active_concluded (tr : ActiveTransfer) (term : Terminal) (slot : Slot) :
    (concluded tr term slot).active = slot.active := by
  unfold concluded
  split <;> split <;> first | rfl | exact dropHead_active ..

theorem keeps_concluded (tr : ActiveTransfer) (term : Terminal) (slot : Slot) :
    slot.Keeps (concluded tr term slot) := by
  refine keeps_finish term ?_
  unfold concluded
  split <;> split <;>
    simp [failHead, publish, unregister, removeAttempt, finish, leave]

private theorem gone_concluded (hact : slot.active = none) (hhead : Agrees tr.head slot.head)
    (hatt : ∀ record, slot.attempt = some record →
      record.outcome.isSome = true ∧ record.consumed = none) {term : Terminal} :
    (concluded tr term slot).Gone .completed ∧
      ((concluded tr term slot).attempt ≠ none → tr.head.published = true ∧
        (concluded tr term slot).attempt = slot.attempt) := by
  unfold concluded
  split
  case isTrue hpub =>
    obtain ⟨hnone, hclos, hsame⟩ := closed_concluded hhead hact rfl
    exact ⟨⟨hnone, hclos, fun _ _ => isSome_finish _, rfl,
      fun record hrec => hatt record (hsame ▸ hrec)⟩, fun _ => ⟨hpub, hsame⟩⟩
  case isFalse =>
    have hkept : Agrees tr.head slot.removeAttempt.head := hhead
    obtain ⟨hnone, hclos, hsame⟩ := closed_concluded hkept hact rfl
    refine ⟨⟨hnone, hclos, fun _ _ => isSome_finish _, rfl, fun record hrec => ?_⟩,
      fun hsome => absurd hsame hsome⟩
    cases hsame.symm.trans hrec

private theorem sameButAttempt_reportedSlot (slot : Slot) (claim : CandidateClaim)
    (outcome : AttemptOutcome) (mismatch : Bool) :
    slot.SameButAttempt (reportedSlot claim outcome mismatch slot) := by
  unfold reportedSlot
  split
  · exact ⟨rfl, rfl, rfl⟩
  · obtain ⟨hact, hhead, hend⟩ := sameButAttempt_fold (slot.setAttempt _)
    exact ⟨hact, hhead, hend⟩

theorem attempt_reportedSlot (claim : CandidateClaim) (outcome : AttemptOutcome) (mismatch : Bool) :
    ∀ record, (reportedSlot claim outcome mismatch slot).attempt = some record →
      record.outcome.isSome = true ∧ record.consumed = none ∧
        ∃ old, slot.attempt = some old ∧ old.consumed = none ∧ record.pool = old.pool := by
  intro record hrec
  unfold reportedSlot at hrec
  cases hatt : slot.attempt with
  | none => simp [hatt] at hrec
  | some old =>
    cases mismatch with
    | true => simp [hatt, fold, setAttempt, removeAttempt] at hrec
    | false =>
      cases hused : old.consumed with
      | none =>
        simp [hatt, hused, fold, setAttempt] at hrec
        subst hrec
        exact ⟨rfl, rfl, old, rfl, hused, rfl⟩
      | some consumed => simp [hatt, hused, fold, setAttempt, removeAttempt] at hrec

variable (hrun : (driver.slot id).Running tr)
include hrun

theorem changes_credited (rates : RateModel ρ)
    (outcome : AttemptOutcome) (report : CurlReport) (now : Nat) :
    ∃ credited, Changes id driver ((driver.modify id Slot.detach).creditCandidate rates id tr
        outcome report now) credited ∧
      (driver.slot id).detach.SameButAttempt credited ∧
      ∀ record, credited.attempt = some record → record.outcome.isSome = true ∧
        record.consumed = none ∧ record.pool = tr.pool ∧
          ∃ old, (driver.slot id).attempt = some old ∧ old.consumed = none := by
  refine ⟨_, (Changes.refl.modify Slot.detach (Slot.keeps_of_eq rfl rfl)).creditCandidate tr
    outcome report now, ?_⟩
  cases hcand : tr.candidate with
  | none =>
    refine ⟨⟨rfl, rfl, rfl⟩, fun record hrec => ?_⟩
    have hpinned := (hrun.attempt record hrec).1
    simp [hcand] at hpinned
  | some claim =>
    refine ⟨sameButAttempt_reportedSlot .., fun record hrec => ?_⟩
    obtain ⟨houtc, hused, old, hold, holdConsumed, hpool⟩ :=
      attempt_reportedSlot claim outcome _ record hrec
    exact ⟨houtc, hused, hpool.trans (hrun.attempt old hold).2.1, old, hold, holdConsumed⟩

/-- A completed transfer is attempted again with its channel unused, or it is gone. -/
theorem changes_finishTransfer {key : PoolKey} {result : CurlResult} {report : CurlReport}
    {answers : CurlAnswers} {later : Nat}
    (haft : driver.finishTransfer rates key id result report answers now later = after) :
    ∃ last, Alters id driver after last ∧ (after.tally = driver.tally ∧ (last = driver.slot id ∨
          (∃ tr, last.Running tr) ∧ tr.head.sender = true ∧ last.Unconsumed ∨
          (last.Gone .unretried ∨ last.Gone .unattached) ∧ last.attempt = none) ∨
        after.tally = (driver.completed + 1, driver.cancelled) ∧ last.Gone .completed ∧
          (driver.completeTransfer rates key id result report now).2 = none ∧
          ∀ record, last.attempt = some record → tr.head.published = true ∧
            ∃ old, (driver.slot id).attempt = some old ∧ old.consumed = none) := by
  subst haft
  unfold finishTransfer completeTransfer
  rw [hrun.active]
  dsimp only
  by_cases hkey : tr.pool ≠ key
  · rw [if_pos hkey]
    exact ⟨_, Changes.refl.toAlters, .inl ⟨rfl, .inl rfl⟩⟩
  · rw [if_neg hkey]
    set terminal := terminalOf id tr.head.published result
    set outcome := outcomeOf key tr.head.published report result
    obtain ⟨credited, hchg, hsame, hatt⟩ := changes_credited hrun rates outcome report now
    have hact : credited.active = none := hsame.active
    have hhead : Agrees tr.head credited.head := hsame.head ▸ hrun.head
    cases hretry : retryRequest id tr terminal outcome now with
    | none =>
      obtain ⟨hgone, hleft⟩ := gone_concluded hact hhead
        (fun record hrec => ⟨(hatt record hrec).1, (hatt record hrec).2.1⟩)
      have hconc := hchg.modify _ (keeps_concluded tr terminal credited)
      obtain ⟨hcomp, hcanc⟩ := Prod.mk.inj hchg.tally
      refine ⟨_, ⟨⟨hconc.elsewhere, hconc.here⟩, hconc.kept⟩,
        .inr ⟨Prod.ext (congrArg (· + 1) hcomp) hcanc, hgone, rfl,
          fun record hrec => ?_⟩⟩
      obtain ⟨hpub, hkept⟩ := hleft (by simp [hrec])
      exact ⟨hpub, (hatt record (hkept ▸ hrec)).2.2.2⟩
    | some request =>
      obtain ⟨rfl, hpool, hsend⟩ := retryRequest_spec hretry
      have hbetw : credited.Between := by
        have hvalues := hhead.unused hsend
        have hdrop := hhead.kept
        refine ⟨hact, ?_, hsame.ended.trans hrun.ended⟩
        cases hchan : credited.head with
        | mk values dropped =>
          rw [hchan] at hvalues hdrop
          cases hvalues
          cases hdrop
          rfl
      have hrec : ∀ record, credited.attempt = some record →
          record.pool = request.pool ∧ record.consumed = none := by
        intro record hrec
        obtain ⟨-, hused, hsamePool, -⟩ := hatt record hrec
        exact ⟨hsamePool.trans hpool.symm, hused⟩
      obtain ⟨last, hlast, hcases⟩ := hchg.startRetry hbetw hrec answers later
      refine ⟨last, hlast.toAlters, .inl ⟨hlast.tally, ?_⟩⟩
      rcases hcases with ⟨hlive, hunconsumed⟩ | hgone
      · exact .inr (.inl ⟨hlive, hsend, hunconsumed⟩)
      · exact .inr (.inr hgone)

theorem changes_dismiss (error : DownloadError)
    (term : Terminal) (ending : Ending) (now : Nat) :
    ∃ last, Changes id driver (driver.dismiss id tr error term ending now) last ∧
      last.Gone ending ∧ last.attempt = none := by
  have hdetached : Changes id driver ((driver.modify id detach).settleCandidate tr
      .cancelled now) (driver.slot id).detach :=
    (Changes.refl.modify detach (keeps_of_eq rfl rfl)).policyOnly (policyOnly_settleCandidate)
  have hhead : Agrees tr.head (driver.slot id).detach.removeAttempt.head := hrun.head
  exact ⟨_, hdetached.modify _ (keeps_finish _ rfl),
    gone_of_none rfl (closed_failHead hhead) (isSome_finish _) rfl rfl⟩

theorem changes_cancelTransfer (now : Nat) :
    ∃ last, Alters id driver (driver.cancelTransfer id now) last ∧
      (driver.cancelTransfer id now).tally = (driver.completed, driver.cancelled + 1) ∧
      last.Gone .cancelled ∧ last.attempt = none := by
  obtain ⟨last, hlast, hgone⟩ := changes_dismiss hrun .cancelled .cancelled .cancelled now
  unfold cancelTransfer
  rw [hrun.active]
  exact ⟨last, ⟨⟨hlast.elsewhere, hlast.here⟩, hlast.kept⟩,
    Prod.ext (Prod.mk.inj hlast.tally).1 rfl, hgone⟩

theorem changes_header (line : List UInt8) :
    ∃ last, Changes id driver (driver.header id line) last ∧
      last.Running { tr with head := tr.head.push line } ∧
      last.attempt = (driver.slot id).attempt := by
  unfold header
  rw [hrun.active]
  refine ⟨_, Changes.refl.modify _ (keeps_of_eq rfl rfl), ⟨rfl, ?_, hrun.ended, hrun.attempt⟩, rfl⟩
  exact agrees_publish hrun.head (HeadParser.sends_push tr.head line)

end Driver

end Bytehaul.Network
