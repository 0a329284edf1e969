import Bytehaul.Network.Placement

/-!
# The records of the attempts

A record is removed when the driver and the consumer have both reported. It stays for ever
if its transfer is gone and its caller never takes the head.
-/

namespace Bytehaul.Network

open Foundation Session Driver Slot
open Std (TreeMap)

namespace Slot

variable {slot after last : Slot}

def Answered (slot : Slot) : Prop :=
  (∃ transfer, slot.Running transfer ∧ transfer.head.sender = false) ∨ ∃ ending, slot.Gone ending

theorem Advances.answered (h : slot.Advances after) (hslot : slot.Answered) : after.Answered := by
  rcases hslot with ⟨tr, hrun, hused⟩ | ⟨ending, hgone⟩
  · rcases h.running tr hrun with ⟨next, hnext⟩ | hgone
    · exact .inl ⟨next, hnext, (h.again tr next hrun hnext).2 hused⟩
    · exact .inr hgone
  · exact .inr ⟨ending, h.gone ending hgone⟩

theorem Idle.not_answered (h : slot.Idle) : ¬ slot.Answered := by
  rintro (⟨tr, hrun, -⟩ | ⟨ending, hgone⟩)
  · exact h.not_running hrun
  · exact h.not_gone hgone

end Slot

theorem Driver.attempt_consumedSlot {slot : Slot} {consumed : Bool} {sample : Option TransferSample}
    {record : AttemptRecord} (h : (consumedSlot consumed sample slot).attempt = some record) :
    record.consumed ≠ none := by
  unfold consumedSlot at h
  cases hatt : slot.attempt with
  | none => simp [hatt] at h
  | some old =>
    cases houtc : old.outcome <;>
      simp [hatt, fold, setAttempt, removeAttempt, houtc] at h
    simp [← h]

namespace System

variable {ρ : Type} {rates : RateModel ρ} {sys next : System ρ} {id : TransferId}
  {caller : Caller} {other : TransferId} {rest : List (Except DownloadError ResponseHead)}
  {answers : CurlAnswers}

def tookHead (sys : System ρ) (id : TransferId) : Bool :=
  sys.callers[id]?.any Caller.tookHead

/-- The consumer's half will come or is on its way. -/
def Due (sys : System ρ) (id : TransferId) : Prop :=
  sys.callers[id]? = some .streaming ∨
    ∃ consumed sample, Command.bodyDone id consumed sample ∈ sys.pending ++ sys.commands

structure Owed (sys : System ρ) (id : TransferId) : Prop where
  took : sys.tookHead id = true → (sys.driver.slot id).Answered
  owed : ∀ record, (sys.driver.slot id).attempt = some record → record.consumed = none →
    sys.Due id ∨
      sys.tookHead id = false ∧ ∃ transfer, (sys.driver.slot id).Running transfer

theorem Owed.advances (h : sys.Owed id)
    (hslot : (sys.driver.slot id).Advances (next.driver.slot id))
    (htook : next.tookHead id = sys.tookHead id) (hdue : sys.Due id → next.Due id) :
    next.Owed id := by
  refine ⟨fun hnext => hslot.answered (h.took (htook ▸ hnext)), fun record hrec hused => ?_⟩
  obtain ⟨hold, hrun⟩ := hslot.attempt record hrec hused
  rcases h.owed record hold hused with hwas | ⟨hnot, hlive⟩
  · exact .inl (hdue hwas)
  · exact .inr ⟨htook.trans hnot, hrun hlive⟩

/-- A pinned transfer does not complete between its head and the caller that takes it. -/
def prompt (sys : System ρ) : SystemAction → Bool
  | .complete _ _ _ _ =>
    match sys.completions with
    | (_, id, _) :: _ =>
      !((sys.driver.slot id).attempt.isSome &&
        (sys.driver.slot id).active.any (·.head.published)) || sys.tookHead id
    | [] => true
  | _ => true

theorem Due.mono (h : sys.Due id) (hcall : next.callers[id]? = sys.callers[id]?)
    (hq : ∀ consumed sample,
      Command.bodyDone id consumed sample ∈ sys.pending ++ sys.commands →
      Command.bodyDone id consumed sample ∈ next.pending ++ next.commands) : next.Due id := by
  rcases h with hstr | ⟨consumed, sample, hmem⟩
  · exact .inl (hcall.trans hstr)
  · exact .inr ⟨consumed, sample, hq consumed sample hmem⟩

theorem Owed.driver (h : sys.Owed id) (hcalls : next.callers = sys.callers)
    (hq : ∀ consumed sample,
      Command.bodyDone id consumed sample ∈ sys.pending ++ sys.commands →
      Command.bodyDone id consumed sample ∈ next.pending ++ next.commands)
    (hslot : (sys.driver.slot id).Advances (next.driver.slot id)) : next.Owed id :=
  h.advances hslot (by rw [tookHead, tookHead, hcalls])
    fun hdue => hdue.mono (by rw [hcalls]) hq

private theorem Owed.tookHead_of_idle (h : sys.Owed id) (hidle : (sys.driver.slot id).Idle) :
    sys.tookHead id = false := by
  by_contra htook
  exact hidle.not_answered (h.took (by simpa using htook))

private theorem owed_start (hpl : sys.Placed) (h : ∀ id, sys.Owed id) {started : TransferId}
    {opts : TransferOptions} {pending : List Command}
    (hpend : sys.pending = .submit started opts :: pending) {now : Nat} : { sys with
      driver := sys.driver.startTransfer rates started opts answers now
      pending := pending }.Owed id := by
  have hidle := hpl.idle_head hpend
  obtain ⟨last, hlast, hcases⟩ := changes_startTransfer hidle rates opts answers now
  by_cases heq : id = started
  · subst heq
    have hnot := (h id).tookHead_of_idle hidle
    refine ⟨fun htook => ?_, fun record hrec _ => ?_⟩
    · cases hnot.symm.trans htook
    · rcases hcases with ⟨hrun, -⟩ | ⟨-, hnone⟩
      · exact .inr ⟨hnot, hlast.here.symm ▸ hrun⟩
      · rw [← hlast.here] at hnone
        cases hnone.symm.trans hrec
  · refine (h id).driver rfl (fun consumed sample hmem => ?_) ?_
    · simpa [hpend] using hmem
    · rw [hlast.slot_other heq]
      exact .refl

theorem owed_process (hpl : sys.Placed) (h : ∀ id, sys.Owed id) {cmd : Command}
    {pending : List Command} (hpend : sys.pending = cmd :: pending)
    (answers : CurlAnswers) (now : Nat) (id : TransferId) : { sys with
      driver := processCommand rates sys.driver answers now cmd
      pending := pending }.Owed id := by
  have hset := hpl.settled
  cases cmd with
  | submit started opts => exact owed_start hpl h hpend
  | resume other => exact (h id).driver rfl (fun _ _ hmem => by simpa [hpend] using hmem) .refl
  | cancel other =>
    exact (h id).driver rfl (fun _ _ hmem => by simpa [hpend] using hmem)
      (advances_cancelTransfer hset now id)
  | bodyDone done consumed sample =>
    have hadvances : (sys.driver.slot id).Advances
        ((sys.driver.bodyDone rates done consumed sample now).slot id) :=
      advances_bodyDone hset consumed sample now id
    by_cases heq : id = done
    · subst heq
      refine ⟨fun htook => hadvances.answered ((h id).took htook), fun record hrec hnone => ?_⟩
      have hslot : (sys.driver.bodyDone rates id consumed sample now).slot id =
          consumedSlot consumed sample (sys.driver.slot id) :=
        (changes_bodyDone sys.driver id consumed sample now).here
      exact absurd hnone (attempt_consumedSlot (hslot ▸ hrec))
    · exact (h id).driver rfl (fun _ _ hmem => by simpa [hpend, heq] using hmem) hadvances

theorem owed_finished (h : sys.Owed id) {tr : ActiveTransfer}
    (hrun : (sys.driver.slot id).Running tr)
    (hprompt : ∀ record, (sys.driver.slot id).attempt = some record →
      tr.head.published = true → sys.tookHead id = true)
    (hcalls : next.callers = sys.callers)
    (hq : next.pending ++ next.commands = sys.pending ++ sys.commands) {pool : PoolKey}
    {result : CurlResult} {report : CurlReport} {now later : Nat}
    (hdrv : sys.driver.finishTransfer rates pool id result report answers now later =
      next.driver) : next.Owed id := by
  have hsame : next.tookHead id = sys.tookHead id := by rw [tookHead, tookHead, hcalls]
  have hdue : sys.Due id → next.Due id := fun hwas =>
    hwas.mono (by rw [hcalls]) fun _ _ hmem => hq ▸ hmem
  obtain ⟨last, hlast, ⟨-, hlike | ⟨hnext, hsend, -⟩ | ⟨hgone, hnone⟩⟩ |
      ⟨-, hgone, -, hleft⟩⟩ := changes_finishTransfer hrun hdrv
  · refine h.advances ?_ hsame hdue
    rw [hlast.here, hlike]
    exact .refl
  · have hnot : sys.tookHead id = false := by
      by_contra htook
      rcases h.took (by simpa using htook) with ⟨found, hf, hused⟩ | ⟨ending, hgone⟩
      · obtain rfl := hrun.unique hf
        simp [hsend] at hused
      · exact hgone.not_running hrun
    refine ⟨fun htook => ?_, fun _ _ _ => .inr ⟨hsame.trans hnot, hlast.here.symm ▸ hnext⟩⟩
    cases (hsame.trans hnot).symm.trans htook
  · refine h.advances ?_ hsame hdue
    rw [hlast.here]
    rcases hgone with hgone | hgone <;> exact .of_gone hrun hgone hnone hlast.kept.terminal
  · refine ⟨fun _ => .inr ⟨_, hlast.here.symm ▸ hgone⟩, fun record hrec _ => .inl (hdue ?_)⟩
    rw [hlast.here] at hrec
    obtain ⟨hpub, old, hold, hconsumed⟩ := hleft record hrec
    rcases h.owed old hold hconsumed with hwas | ⟨hnot, -⟩
    · exact hwas
    · cases hnot.symm.trans (hprompt old hold hpub)

theorem owed_complete (hpl : sys.Placed) (h : ∀ id, sys.Owed id) {pool : PoolKey}
    {finished : TransferId} {result : CurlResult}
    {comps : List (PoolKey × TransferId × CurlResult)}
    (hcomps : sys.completions = (pool, finished, result) :: comps)
    {report : CurlReport} {now later : Nat}
    (hprompt : sys.prompt (.complete report answers now later) = true) (id : TransferId) :
    { sys with
      driver := sys.driver.finishTransfer rates pool finished result report answers now later
      completions := comps }.Owed id := by
  cases hact : (sys.driver.slot finished).active with
  | none =>
    have hsame : sys.driver.finishTransfer rates pool finished result report answers now later =
        sys.driver := by
      unfold finishTransfer completeTransfer
      rw [hact]
    rw [hsame]
    exact (h id).driver rfl (fun _ _ hmem => hmem) .refl
  | some tr =>
    have hrun := (hpl.settled finished).running hact
    by_cases heq : id = finished
    · subst heq
      refine owed_finished (h id) hrun (fun record hrec hpub => ?_) rfl rfl rfl
      simpa [prompt, hcomps, hact, hrec, hpub] using hprompt
    · refine (h id).driver rfl (fun _ _ hmem => hmem) ?_
      obtain ⟨last, hlast, -⟩ := changes_finishTransfer hrun
        (rfl : sys.driver.finishTransfer rates pool finished result report answers now later = _)
      rw [hlast.slot_other heq]
      exact .refl

theorem owed_cleared (h : sys.Owed id) (hcalls : next.callers = sys.callers)
    (hclrd : Driver.Cleared (next.driver.slot id))
    (hanswered : (sys.driver.slot id).Answered → (next.driver.slot id).Answered) :
    next.Owed id := by
  have hsame : next.tookHead id = sys.tookHead id := by rw [tookHead, tookHead, hcalls]
  refine ⟨fun htook => hanswered (h.took (hsame ▸ htook)), fun record hrec => ?_⟩
  cases hclrd.attempt.symm.trans hrec

theorem tookHead_setCaller (sys : System ρ) (id : TransferId) (caller : Caller)
    (other : TransferId) : (sys.setCaller id caller).tookHead other =
      if other = id then caller.tookHead else sys.tookHead other := by
  by_cases heq : other = id
  · subst heq
    simp [tookHead, setCaller]
  · simp [tookHead, setCaller, heq, getElem?_insert_eq]

theorem due_setCaller (h : sys.Due other)
    (hcall : other = id → sys.callers[id]? = some .streaming → caller = .streaming) :
    (sys.setCaller id caller).Due other := by
  rcases h with hstr | hqd
  · left
    by_cases heq : other = id
    · subst heq
      simp [setCaller, hcall rfl hstr]
    · simpa [setCaller, getElem?_insert_eq, heq] using hstr
  · exact .inr hqd

theorem Owed.setCaller (h : sys.Owed other) {after : Caller}
    (hcall : sys.callers[id]? = some caller) (htook : after.tookHead = caller.tookHead)
    (hstr : caller = .streaming → after = .streaming) :
    (sys.setCaller id after).Owed other := by
  refine h.advances .refl ?_ fun hdue => due_setCaller hdue fun _ hsome => hstr ?_
  · rw [tookHead_setCaller]
    split
    · rename_i heq
      simp [tookHead, heq, hcall, htook]
    · rfl
  · simpa [hcall] using hsome

theorem Owed.touch (h : sys.Owed other) (change : Slot → Slot)
    (hchg : ∀ slot, (change slot).active = slot.active ∧ (change slot).head = slot.head ∧
      (change slot).ended = slot.ended ∧ (change slot).attempt = slot.attempt ∧
      (change slot).terminal = slot.terminal) :
    { sys with driver := sys.driver.modify id change }.Owed other := by
  obtain ⟨hact, hhead, hend, hatt, hterm⟩ := hchg (sys.driver.slot id)
  exact h.driver rfl (fun _ _ hmem => hmem) (advances_modify change
    (.of_fields hact hhead hend (.inl hatt) fun _ h => hterm.trans h) other)

theorem Owed.send (h : sys.Owed id) (hopen : sys.closed = false) (cmd : Command) :
    (sys.send cmd).Owed id := by
  unfold System.send
  rw [if_neg (by simp [hopen])]
  exact h.driver rfl (fun _ _ hmem => by simp_all [← List.append_assoc]) .refl

private theorem answered_of_values (hpl : sys.Placed) {head : ResponseHead}
    (hvalues : (sys.driver.slot id).head.values = .ok head :: rest) :
    (sys.driver.slot id).Answered := by
  rcases hpl.settled id with hidle | ⟨tr, hrun⟩ | hgone
  · simp [hidle.head] at hvalues
  · refine .inl ⟨tr, hrun, ?_⟩
    by_contra hsend
    have hunused := hrun.head.unused (by simpa using hsend)
    simp [hunused] at hvalues
  · exact .inr hgone

private theorem owed_takeHead (hpl : sys.Placed) (h : ∀ id, sys.Owed id) {head : ResponseHead}
    (hcall : sys.callers[id]? = some .waiting)
    (hvalues : (sys.driver.slot id).head.values = .ok head :: rest) :
    (sys.setCaller id .streaming).Owed other := by
  by_cases heq : other = id
  · subst heq
    have hanswered := answered_of_values hpl hvalues
    refine ⟨fun _ => hanswered, fun _ _ _ => .inl (.inl ?_)⟩
    simp [setCaller]
  · refine (h other).advances .refl ?_ fun hdue => due_setCaller hdue fun hsame => absurd hsame heq
    rw [tookHead_setCaller, if_neg heq]

private theorem owed_bodyDone (h : ∀ id, sys.Owed id) (hopen : sys.closed = false)
    (hcall : sys.callers[id]? = some .streaming) (after : Caller) (consumed : Bool)
    (sample : Option TransferSample) (other : TransferId) :
    ((sys.send (.bodyDone id consumed sample)).setCaller id after).Owed other := by
  have hsent := (h other).send hopen (.bodyDone id consumed sample)
  by_cases heq : other = id
  · subst heq
    have htook : (sys.send (.bodyDone other consumed sample)).tookHead other = true := by
      simp [tookHead, hcall, Caller.tookHead]
    refine ⟨fun _ => hsent.took htook, fun _ _ _ => .inl (.inr ⟨consumed, sample, ?_⟩)⟩
    simp [setCaller, System.send, hopen]
  · refine hsent.advances .refl ?_ fun hdue => due_setCaller hdue fun hsame => absurd hsame heq
    rw [tookHead_setCaller, if_neg heq]

private theorem owed_talks (hpl : sys.Placed) (h : ∀ id, sys.Owed id)
    (hopen : sys.closed = false) {after : Caller} {cmd : Option Command}
    (hcall : sys.callers[id]? = some caller)
    (htalks : Talks id (sys.driver.slot id) caller cmd after) (other : TransferId) :
    ((sys.say cmd).setCaller id after).Owed other := by
  have hstill : ∀ cmd, (sys.send cmd).callers[id]? = some caller := fun cmd => by
    rw [callers_send]
    exact hcall
  cases htalks with
  | takeHead hvalues => exact owed_takeHead hpl h hcall hvalues
  | dropFuture => exact (h other).setCaller hcall rfl nofun
  | withdraw => exact ((h other).send hopen _).setCaller (hstill _) rfl nofun
  | requestResume => exact ((h other).send hopen _).setCaller (hstill _) rfl fun _ => rfl
  | @bodyDone consumed sample heof => exact owed_bodyDone h hopen hcall _ consumed sample other
  | cancelBody => exact ((h other).send hopen _).setCaller (hstill _) rfl nofun

private theorem owed_get (h : ∀ id, sys.Owed id) (hpl : sys.Placed) (opts : TransferOptions)
    (id : TransferId) : { sys with
      nextId := sys.nextId + 1
      callers := sys.callers.insert sys.nextId (Caller.admitted opts) }.Owed id := by
  have hfresh := hpl.fresh sys.nextId le_rfl
  refine (h id).advances .refl ?_ fun hdue => ?_
  · refine (tookHead_setCaller sys sys.nextId (.admitted opts) id).trans ?_
    split
    · rename_i heq
      simp [tookHead, heq, hfresh, Caller.tookHead]
    · rfl
  · have hnob : id = sys.nextId → sys.callers[sys.nextId]? = some .streaming →
        Caller.admitted opts = .streaming := fun _ hsome => by simp [hfresh] at hsome
    exact due_setCaller hdue hnob

theorem owed_moves (hpl : sys.Placed) (h : sys.closed = false → ∀ id, sys.Owed id)
    {act : SystemAction} (hprompt : sys.prompt act = true)
    (hmv : Moves rates sys act next) : next.closed = false → ∀ id, next.Owed id := by
  have hset := hpl.settled
  intro hopen id
  cases hmv with
  | get => exact owed_get (h hopen) hpl _ id
  | miss => exact (h hopen id).driver rfl (fun _ _ hmem => hmem) .refl
  | register hcall =>
    exact ((h hopen id).touch register fun _ => ⟨rfl, rfl, rfl, rfl, rfl⟩).setCaller hcall
      rfl nofun
  | count hcall =>
    have hcnt : { sys with submitted := sys.submitted + 1 }.Owed id :=
      (h hopen id).driver rfl (fun _ _ hmem => hmem) .refl
    exact hcnt.setCaller hcall rfl nofun
  | @submit submitted opts hcall =>
    have hstill : (sys.send (.submit submitted opts)).callers[submitted]? =
        some (.counted opts) := by
      rw [callers_send]
      exact hcall
    have hwas : sys.closed = false := (closed_send ..).symm.trans hopen
    exact ((h hwas id).send hwas _).setCaller hstill rfl nofun
  | giveUp hcall =>
    exact ((h hopen id).touch unregister fun _ => ⟨rfl, rfl, rfl, rfl, rfl⟩).setCaller
      hcall rfl nofun
  | @talk act other caller after cmd hcall htalks =>
    have hwas : sys.closed = false := by
      cases cmd with
      | none => exact hopen
      | some said => exact (closed_send ..).symm.trans hopen
    exact owed_talks hpl (h hwas) hwas hcall htalks id
  | close => cases hopen
  | drain hstg => exact (h hopen id).driver rfl (fun _ _ hmem => by simpa using hmem) .refl
  | process hstg hpend => exact owed_process hpl (h hopen) hpend _ _ id
  | inner hinner =>
    refine (h (hinner.closed ▸ hopen) id).driver hinner.callers (fun _ _ hmem => ?_) ?_
    · rwa [hinner.pending, hinner.commands]
    · rw [hinner.driver]
      exact .refl
  | header hstg => exact (h hopen id).driver rfl (fun _ _ hmem => hmem) (advances_header hset _ id)
  | failPool hstg =>
    exact (h hopen id).driver rfl (fun _ _ hmem => hmem) (advances_failPool hset _ _ _ id)
  | complete hstg hcomps => exact owed_complete hpl (h hopen) hcomps hprompt id
  | shutDown hstg =>
    exact owed_cleared (h hopen id) rfl (cleared_shutDown hset _ id)
      (advances_shutDown hset _ id).answered
  | unwind hstg =>
    obtain ⟨htakes, hdrop⟩ := hpl.discard_pending
    refine owed_cleared (h hopen id) rfl (cleared_unwind hdrop id) fun hanswered => ?_
    have hqd : id ∉ sys.pending.filterMap Command.submission := fun hmem =>
      (hpl.idle_pending id hmem).not_answered hanswered
    refine (advances_unwind hdrop id).answered ?_
    rwa [slot_discards, if_neg hqd]
  | failAll hstg => exact (h hopen id).driver rfl (fun _ _ hmem => hmem) (advances_failAll hset id)
  | closeQueue hstg => cases hopen

private theorem owed_new (id : TransferId) : (new : System ρ).Owed id := by
  have hslot : (new : System ρ).driver.slot id = .new := by simp [new, Driver.new, Driver.slot]
  refine ⟨fun htook => ?_, fun record hrec => ?_⟩
  · simp [tookHead, new] at htook
  · cases hrec

abbrev Prompt (rates : RateModel ρ) : System ρ → Prop :=
  Reaches (step rates) (fun sys action => sys.prompt action = true) new

theorem Prompt.owed (h : Prompt rates sys) (hopen : sys.closed = false) (id : TransferId) :
    sys.Owed id := by
  refine h.invariant_along (fun sys => sys.closed = false → ∀ id, sys.Owed id)
    (fun _ => owed_new) (fun _ _ _ hr howed hprompt hstep => ?_) hopen id
  have hpl := Reachable.placed (hr.mono fun _ _ _ => trivial)
  exact owed_moves hpl howed hprompt (moves_of_step hstep)

/-- While the queue is open and empty, a record belongs to a running transfer or a live body. -/
theorem records_do_not_leak (h : Prompt rates sys) (hopen : sys.closed = false)
    (hpending : sys.pending = []) (hcommands : sys.commands = []) :
    (∀ id, (sys.driver.slot id).attempt.isSome = true →
      (sys.driver.slot id).active.isSome = true ∨ sys.callers[id]? = some .streaming) ∧
    ((∀ id, (sys.driver.slot id).active = none ∧ sys.callers[id]? ≠ some .streaming) →
      ∀ id, (sys.driver.slot id).attempt = none) := by
  have hpl := Reachable.placed (h.mono fun _ _ _ => trivial)
  have hrec : ∀ id, (sys.driver.slot id).attempt.isSome = true →
      (sys.driver.slot id).active.isSome = true ∨ sys.callers[id]? = some .streaming := by
    intro id hsome
    obtain ⟨record, hatt⟩ := Option.isSome_iff_exists.mp hsome
    rcases hpl.settled id with hidle | ⟨transfer, hrun⟩ | ⟨ending, hgone⟩
    · simp [hidle.attempt] at hatt
    · exact .inl (by simp [hrun.active])
    · obtain ⟨-, hused⟩ := hgone.attempt record hatt
      rcases (h.owed hopen id).owed record hatt hused with hdue | ⟨-, transfer, hrun⟩
      · rcases hdue with hstr | ⟨_, _, hmem⟩
        · exact .inr hstr
        · simp [hpending, hcommands] at hmem
      · exact absurd hrun hgone.not_running
  refine ⟨hrec, fun hend id => ?_⟩
  by_contra hleft
  obtain ⟨hact, hstr⟩ := hend id
  rcases hrec id (Option.isSome_iff_ne_none.mpr hleft) with hlive | hstrm
  · simp [hact] at hlive
  · exact hstr hstrm

def recordView (sys : System Nat) :
    (Bool × List Command × List Command) × Bool × Nat × Option Caller :=
  ((sys.closed, sys.pending, sys.commands), (sys.driver.slot 1).attempt.isSome,
    sys.driver.slots.toList.countP (·.2.active.isSome), sys.callers[(1 : TransferId)]?)

theorem nobody_runs {driver : Driver ρ} (h : driver.slots.toList.countP (·.2.active.isSome) = 0)
    (id : TransferId) : (driver.slot id).active = none := by
  cases hslot : driver.slots[id]? with
  | none => simp [slot, hslot, Slot.new]
  | some slot =>
    have hmem := (mem_toList_iff driver.slots id slot).mpr hslot
    simpa [Driver.slot, hslot] using List.countP_eq_zero.mp h (id, slot) hmem

def completedRun : List SystemAction :=
  [.message samplePool 1 (.ok ()), .performed,
    .complete ⟨none, none, none, none⟩ sampleAnswers 1 1, .endTurn]

theorem record_of_a_live_body : ∃ sys : System Nat, Prompt sampleRates sys ∧
    (sys.driver.slot 1).attempt.isSome = true ∧ (sys.driver.slot 1).active = none ∧
      sys.callers[(1 : TransferId)]? = some .streaming := by
  have hview : (runLabels (step sampleRates) System.prompt (new : System Nat)
      (sampleRun ++ [.takeHead 1] ++ completedRun)).map recordView =
      some ((false, [], []), true, 0, some .streaming) := by decide
  obtain ⟨sys, hrun, heq⟩ := Option.map_eq_some_iff.mp hview
  simp only [recordView, Prod.mk.injEq] at heq
  obtain ⟨⟨hopen, hpend, hcmds⟩, hrec, hnob, -⟩ := heq
  have hr : Prompt sampleRates sys := Reaches.of_runLabels hrun .refl fun _ _ h => h
  refine ⟨sys, hr, hrec, nobody_runs hnob 1, ?_⟩
  have hkept := (records_do_not_leak hr hopen hpend hcmds).1 1 hrec
  exact hkept.resolve_left (by simp [nobody_runs hnob 1])

/-- The caller is dropped after the transfer has completed: nobody will ever report. -/
theorem dropped_caller_leaks_record : ∃ sys : System Nat,
    Reachable sampleRates sys ∧ sys.closed = false ∧ sys.pending = [] ∧
      sys.commands = [] ∧ (∀ id, (sys.driver.slot id).active = none) ∧
      sys.callers[(1 : TransferId)]? = some .withdrawn ∧
      (sys.driver.slot 1).attempt.isSome = true := by
  have hview : (runLabels (step sampleRates) (fun _ _ => true) (new : System Nat)
      (sampleRun ++ completedRun ++ [.dropFuture 1, .withdraw 1, .wait, .drain,
        .process sampleAnswers 2])).map recordView =
      some ((false, [], []), true, 0, some .withdrawn) := by decide
  obtain ⟨sys, hr, heq⟩ := Reaches.exists_of_run hview
  simp only [recordView, Prod.mk.injEq] at heq
  obtain ⟨⟨hopen, hpend, hcmds⟩, hrec, hnob, hcall⟩ := heq
  exact ⟨sys, hr, hopen, hpend, hcmds, nobody_runs hnob, hcall, hrec⟩

end System

end Bytehaul.Network
