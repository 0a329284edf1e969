import Bytehaul.Network.Placement

/-!
# No waiter is orphaned

The caller of `get` awaits the head channel, and the body stream the terminal state of the
sink.
-/

namespace Bytehaul.Network

open Foundation Session Driver Slot
open Std (TreeMap)

def Caller.isEnrolled : Caller → Bool
  | .admitted _ | .withdrawing | .withdrawn => false
  | .registered _ | .counted _ | .waiting | .streaming | .abandoning | .finished => true

def HeadChannel.isOpen (channel : HeadChannel) : Bool :=
  channel.values.isEmpty && !channel.dropped

namespace Slot

variable {slot : Slot}

private theorem Settled.values_length (h : slot.Settled) : slot.head.values.length ≤ 1 := by
  rcases h with hidle | ⟨tr, hrun⟩ | ⟨ending, hgone⟩
  · simp [hidle.head]
  · cases hsend : tr.head.sender with
    | true => simp [hrun.head.unused hsend]
    | false => exact Nat.le_of_eq (hrun.head.used hsend)
  · exact hgone.head.once

theorem Running.sender {tr : ActiveTransfer} (h : slot.Running tr)
    (hopen : slot.head.isOpen = true) : tr.head.sender = true := by
  by_contra hused
  have hone := h.head.used (by simpa using hused)
  simp [HeadChannel.isOpen, List.isEmpty_iff] at hopen
  simp [hopen.1] at hone

theorem Gone.not_open {ending : Ending} (h : slot.Gone ending) : slot.head.isOpen = false := by
  rcases h.head.done with hused | hdrop
  · simp [HeadChannel.isOpen, hused]
  · simp [HeadChannel.isOpen, hdrop]

def Served (slot after : Slot) : Prop :=
  after.ended = slot.ended ∨
    ∃ ending, after.ended = some ending ∧ ending ≠ .unwound ∧ ending ≠ .discarded

structure Serves (slot after : Slot) : Prop extends slot.Keeps after where
  served : slot.Served after

variable {after : Slot} {ending : Ending}

theorem Gone.served (h : after.Gone ending) (hunw : ending ≠ .unwound)
    (hdrop : ending ≠ .discarded) : slot.Served after :=
  .inr ⟨ending, h.ended, hunw, hdrop⟩

theorem LeavesAs.served (h : slot.LeavesAs ending after) (hunw : ending ≠ .unwound)
    (hdrop : ending ≠ .discarded) : slot.Served after :=
  h.imp_right fun hleft => ⟨ending, hleft.2, hunw, hdrop⟩

end Slot

namespace Driver

variable {ρ : Type} {rates : RateModel ρ} {driver after last : Driver ρ} {id : TransferId}

def Keeps (driver after : Driver ρ) : Prop := ∀ id, (driver.slot id).Keeps (after.slot id)

theorem Alters.keeps {slot : Slot} (h : Alters id driver after slot) : driver.Keeps after :=
  h.all (fun _ => keeps_of_eq rfl rfl) h.kept

theorem keeps_refl (driver : Driver ρ) : driver.Keeps driver :=
  fun _ => keeps_of_eq rfl rfl

theorem Sweeps.keeps {step : Driver ρ → TransferId → Driver ρ} {ending : Ending}
    (hstep : Sweeps ending step) (h : driver.Settled) (ids : List TransferId) :
    driver.Keeps (ids.foldl step driver) :=
  hstep.induct (P := driver.Keeps) h (keeps_refl driver)
    (fun _ _ _ hdrops hold id => (hold id).trans (hdrops.toChanges.keeps id)) ids

theorem keeps_discards (driver : Driver ρ) (cmds : List Command) :
    driver.Keeps (cmds.foldl Driver.discard driver) := fun id => by
  rw [slot_discards]
  split <;> exact Slot.keeps_of_eq rfl rfl

def Serves (driver after : Driver ρ) : Prop := ∀ id, (driver.slot id).Serves (after.slot id)

theorem serves_refl (driver : Driver ρ) : driver.Serves driver :=
  fun _ => ⟨keeps_of_eq rfl rfl, .inl rfl⟩

theorem Serves.keeps (h : driver.Serves after) : driver.Keeps after := fun id => (h id).toKeeps

theorem Alters.serves {slot : Slot} (h : Alters id driver after slot)
    (hslot : (driver.slot id).Served slot) : driver.Serves after :=
  h.all (fun _ => ⟨keeps_of_eq rfl rfl, .inl rfl⟩) ⟨h.kept, hslot⟩

theorem serves_header (driver : Driver ρ) (id : TransferId) (line : List UInt8) :
    driver.Serves (driver.header id line) := by
  unfold header
  split
  · exact serves_refl driver
  · exact (Changes.refl.modify _ (keeps_of_eq rfl rfl)).serves (.inl rfl)

theorem serves_finishTransfer (h : driver.Settled) (key : PoolKey) (result : CurlResult)
    (report : CurlReport) (answers : CurlAnswers) (now later : Nat) :
    driver.Serves (driver.finishTransfer rates key id result report answers now later) := by
  cases hact : (driver.slot id).active with
  | none =>
    unfold finishTransfer completeTransfer
    rw [hact]
    exact serves_refl driver
  | some tr =>
    have hrun := (h id).running hact
    obtain ⟨last, hlast, hcases⟩ := changes_finishTransfer hrun rfl
    refine hlast.serves ?_
    rcases hcases with ⟨-, rfl | ⟨⟨next, hnext⟩, -⟩ | ⟨hgone | hgone, -⟩⟩ | ⟨-, hgone, -⟩
    · exact .inl rfl
    · exact .inl (hnext.ended.trans hrun.ended.symm)
    · exact hgone.served nofun nofun
    · exact hgone.served nofun nofun
    · exact hgone.served nofun nofun

private theorem serves_cancelTransfer (h : driver.Settled) {now : Nat} :
    driver.Serves (driver.cancelTransfer id now) := by
  cases hact : (driver.slot id).active with
  | none =>
    unfold cancelTransfer
    rw [hact]
    exact serves_refl driver
  | some tr =>
    obtain ⟨last, hlast, -, hgone, -⟩ := changes_cancelTransfer ((h id).running hact) now
    exact hlast.serves (hgone.served nofun nofun)

end Driver

namespace System

variable {ρ : Type} {rates : RateModel ρ} {sys next : System ρ} {id : TransferId}
  {act : SystemAction} {caller : Caller}

theorem serves_process (hpl : sys.Placed) {cmd : Command} {pending : List Command}
    (hpend : sys.pending = cmd :: pending) (answers : CurlAnswers) (now : Nat) :
    sys.driver.Serves (processCommand rates sys.driver answers now cmd) := by
  cases cmd with
  | submit id opts =>
    have hidle := hpl.idle_head hpend
    obtain ⟨last, hlast, hcases⟩ := changes_startTransfer hidle rates opts answers now
    refine hlast.serves ?_
    rcases hcases with ⟨⟨tr, hrun⟩, -⟩ | ⟨hgone | hgone, -⟩
    · exact .inl (hrun.ended.trans hidle.ended.symm)
    · exact hgone.served nofun nofun
    · exact hgone.served nofun nofun
  | resume id => exact serves_refl _
  | cancel id => exact serves_cancelTransfer hpl.settled
  | bodyDone id consumed sample =>
    exact (changes_bodyDone sys.driver id consumed sample now).serves (.inl (ended_consumedSlot _))

theorem keeps_send (sys : System ρ) (cmd : Command) :
    sys.driver.Keeps (sys.send cmd).driver := by
  unfold send
  split
  · exact keeps_discards sys.driver [cmd]
  · exact keeps_refl _

theorem keeps_moves (hpl : sys.Placed) (hmv : Moves rates sys act next) :
    sys.driver.Keeps next.driver ∨ ∃ id,
      next = ({ sys with driver := sys.driver.modify id Slot.unregister }.setCaller id
        .withdrawing) := by
  have hset := hpl.settled
  cases hmv with
  | get | miss => exact .inl (keeps_refl _)
  | register hcall =>
    have hkeeps : ∀ slot : Slot, slot.Keeps slot.register := fun slot =>
      ⟨fun _ h => h, fun _ => .inl rfl⟩
    exact .inl (Driver.Changes.refl.modify register (hkeeps _)).keeps
  | count hcall => exact .inl (keeps_refl _)
  | submit hcall => exact .inl (keeps_send sys _)
  | @giveUp id hcall => exact .inr ⟨id, rfl⟩
  | @talk act id caller after cmd hcall htalks =>
    cases cmd with
    | none => exact .inl (keeps_refl _)
    | some said => exact .inl (keeps_send sys said)
  | close => exact .inl (keeps_discards _ _)
  | drain hstg => exact .inl (keeps_refl _)
  | process hstg hpend => exact .inl (serves_process hpl hpend _ _).keeps
  | inner hinner => exact .inl (hinner.driver.symm ▸ keeps_refl _)
  | header hstg => exact .inl (serves_header _ _ _).keeps
  | failPool hstg => exact .inl ((sweeps_failTransfer _ _).keeps hset _)
  | complete hstg hcomps => exact .inl (serves_finishTransfer hset _ _ _ _ _ _).keeps
  | shutDown hstg => exact .inl ((sweeps_shutDownTransfer _).keeps hset _)
  | unwind hstg =>
    have hunw := sweeps_unwindTransfer.keeps hpl.discard_pending.2
      (sys.pending.foldl discard sys.driver).slots.keys
    exact .inl fun id => (keeps_discards _ _ id).trans (hunw id)
  | failAll hstg => exact .inl ((sweeps_failSink .broken).keeps hset _)
  | closeQueue hstg => exact .inl (keeps_discards _ _)

private theorem keepsTerminal_moves (hpl : sys.Placed) (hmv : Moves rates sys act next) :
    (sys.driver.slot id).KeepsTerminal (next.driver.slot id) := by
  rcases keeps_moves hpl hmv with hkeeps | ⟨left, rfl⟩
  · exact (hkeeps id).terminal
  · exact (advances_modify unregister (.of_fields rfl rfl rfl (.inl rfl) fun _ h => h) id).keeps

private theorem keepsTerminal_run (h : Reachable rates sys) {later : System ρ}
    (hrun : Reaches (step rates) (fun _ _ => True) sys later) :
    (sys.driver.slot id).KeepsTerminal (later.driver.slot id) := by
  induction hrun with
  | refl => exact fun _ h => h
  | step label hr _ hstep ih =>
    have hpl := Reachable.placed (h.trans hr)
    exact fun term hf =>
      keepsTerminal_moves hpl (moves_of_step hstep) term (ih term hf)

def Enrolled (sys : System ρ) : Prop :=
  ∀ (id : TransferId) (caller : Caller), sys.callers[id]? = some caller →
    caller.isEnrolled = true →
    (sys.driver.slot id).registered = true ∨
      (sys.driver.slot id).terminal.isSome = true

theorem callers_setCaller {other : TransferId} : (sys.setCaller id caller).callers[other]? =
      if other = id then some caller else sys.callers[other]? :=
  getElem?_insert_eq ..

theorem enrolled_setCaller {after : Caller} (hcall : sys.callers[id]? = some caller)
    (hwas : after.isEnrolled = true → caller.isEnrolled = true) {other : TransferId}
    {found : Caller} (hf : (sys.setCaller id after).callers[other]? = some found)
    (henr : found.isEnrolled = true) :
    ∃ old, sys.callers[other]? = some old ∧ old.isEnrolled = true := by
  rw [callers_setCaller] at hf
  split at hf
  · rename_i heq
    cases hf
    exact ⟨caller, heq ▸ hcall, hwas henr⟩
  · exact ⟨found, hf, henr⟩

private theorem talks_enrolled {slot : Slot} {after : Caller} {cmd : Option Command}
    (h : Talks id slot caller cmd after) (henr : after.isEnrolled = true) :
    caller.isEnrolled = true := by
  cases h <;> first | rfl | cases henr

theorem enrolled_moves (hmv : Moves rates sys act next) {found : Caller}
    (hf : next.callers[id]? = some found) (henr : found.isEnrolled = true) :
    (∃ old, sys.callers[id]? = some old ∧ old.isEnrolled = true) ∨
      (next.driver.slot id).registered = true := by
  cases hmv with
  | @get opts =>
    rw [getElem?_insert_eq] at hf
    split at hf
    · cases hf
      cases henr
    · exact .inl ⟨found, hf, henr⟩
  | @register registered opts hcall =>
    rw [callers_setCaller] at hf
    split at hf
    · rename_i heq
      subst heq
      simp [System.setCaller, register]
    · exact .inl ⟨found, hf, henr⟩
  | count hcall => exact .inl (enrolled_setCaller hcall (fun _ => rfl) hf henr)
  | @submit submitted opts hcall =>
    have hstill : (sys.send (.submit submitted opts)).callers[submitted]? =
        some (.counted opts) := by
      rw [callers_send]
      exact hcall
    have hold := enrolled_setCaller hstill (fun _ => rfl) hf henr
    rw [callers_send] at hold
    exact .inl hold
  | giveUp hcall => exact .inl (enrolled_setCaller hcall (fun _ => rfl) hf henr)
  | @talk act talking caller after cmd hcall htalks =>
    have hstill : (sys.say cmd).callers[talking]? = some caller := by
      rw [callers_say]
      exact hcall
    have hold := enrolled_setCaller hstill (talks_enrolled htalks) hf henr
    rw [callers_say] at hold
    exact .inl hold
  | inner hinner => exact .inl ⟨found, hinner.callers ▸ hf, henr⟩
  | _ => exact .inl ⟨found, hf, henr⟩

theorem Enrolled.moves (h : sys.Enrolled) (hpl : sys.Placed)
    (hmv : Moves rates sys act next) : next.Enrolled := by
  intro id found hf henr
  rcases keeps_moves hpl hmv with hkeeps | ⟨left, rfl⟩
  · rcases enrolled_moves hmv hf henr with ⟨old, hold, hwas⟩ | hnew
    · rcases h id old hold hwas with hreg | hterm
      · exact (hkeeps id).registered hreg
      · obtain ⟨term, hsome⟩ := Option.isSome_iff_exists.mp hterm
        exact .inr (by rw [(hkeeps id).terminal term hsome]; rfl)
    · exact .inl hnew
  · rw [callers_setCaller] at hf
    split at hf
    · cases hf
      cases henr
    · rename_i hne
      have hsame : (sys.driver.modify left unregister).slot id = sys.driver.slot id :=
        (touches_modify unregister).slot_other hne
      have hkept := h id found hf henr
      rw [← hsame] at hkept
      exact hkept

private theorem Reachable.enrolled (h : Reachable rates sys) : sys.Enrolled :=
  h.invariant_along Enrolled (fun id caller hcall => by simp [new] at hcall)
    fun _ _ _ hr henr _ hstep =>
      henr.moves (Reachable.placed hr) (moves_of_step hstep)

def Stage.isSwept : Stage → Bool
  | .drained | .exited => true
  | .top | .commands | .performing | .settling | .turned | .left | .exiting | .unmarked => false

/-- The sink of a transfer that is not submitted, queued, or thrown away with the queue. -/
def Late (slot : Slot) : Prop :=
  slot.registered = true → slot.Idle ∨ slot.Gone .discarded

structure Swept (sys : System ρ) : Prop where
  late : Stage.isSwept sys.stage = true → ∀ id, Late (sys.driver.slot id)
  closed : sys.stage = .exited → sys.closed = true ∧ sys.commands = []

theorem Swept.outside (h : sys.Swept) (hstg : next.stage = sys.stage)
    (hlate : (∀ id, Late (sys.driver.slot id)) → ∀ id, Late (next.driver.slot id))
    (hclos : sys.closed = true ∧ sys.commands = [] →
      next.closed = true ∧ next.commands = []) : next.Swept :=
  ⟨fun hswept => hlate (h.late (hstg ▸ hswept)),
    fun hext => hclos (h.closed (hstg ▸ hext))⟩

theorem Swept.before (hswept : Stage.isSwept next.stage = false) : next.Swept :=
  ⟨fun htrue => absurd htrue (by simp [hswept]),
    fun hext => by simp [hext, Stage.isSwept] at hswept⟩

private theorem isSwept_of_inLoop {stage : Stage} (h : stage.inLoop = true) :
    Stage.isSwept stage = false := by
  cases stage <;> first | rfl | cases h

theorem late_discards {driver : Driver ρ} (h : ∀ id, Late (driver.slot id))
    (cmds : List Command)
    (hidle : ∀ id ∈ cmds.filterMap Command.submission, (driver.slot id).Idle) :
    ∀ id, Late ((cmds.foldl Driver.discard driver).slot id) := by
  intro id hreg
  rw [slot_discards] at hreg ⊢
  split
  · rename_i hmem
    exact .inr (gone_discarded (hidle id hmem))
  · rename_i hout
    rw [if_neg hout] at hreg
    exact h id hreg

theorem late_modify {driver : Driver ρ} (h : ∀ id, Late (driver.slot id)) (change : Slot → Slot)
    (hchg : Late (change (driver.slot id))) :
    ∀ other, Late ((driver.modify id change).slot other) := fun other =>
  (Driver.touches_modify change).all (R := fun slot after => Late slot → Late after)
    (fun _ h => h) (fun _ => hchg) other (h other)

theorem late_send (h : ∀ id, Late (sys.driver.slot id)) (cmd : Command)
    (hidle : ∀ id, cmd.submission = some id → (sys.driver.slot id).Idle) :
    ∀ id, Late ((sys.send cmd).driver.slot id) := by
  unfold send
  split
  · exact late_discards h [cmd] fun id hid => hidle id (by simpa using hid)
  · exact h

theorem closed_of_send (cmd : Command) (h : sys.closed = true ∧ sys.commands = []) :
    (sys.send cmd).closed = true ∧ (sys.send cmd).commands = [] := by
  unfold send
  rw [if_pos h.1]
  exact h

private theorem late_failAll (h : sys.driver.Settled) (id : TransferId) :
    Late (sys.driver.failAll.slot id) := by
  have hemp : (sys.driver.failAll.slot id).registered = false := by
    refine (sweeps_failSink .broken).keys (fun slot => slot.registered = false)
      (fun driver id _ => ?_) rfl h id
    unfold failSink
    split
    · rw [slot_modify]
      rfl
    · simp_all
  exact fun hreg => by simp [hemp] at hreg

theorem Swept.moves (h : sys.Swept) (hpl : sys.Placed)
    (hmv : Moves rates sys act next) : next.Swept := by
  cases hmv with
  | get | miss => exact h.outside rfl id id
  | @register registered opts hcall =>
    refine h.outside rfl (fun hlate => late_modify hlate register fun _ => .inl ?_) id
    have hidle := hpl.idle_of_unsent hcall rfl
    exact ⟨hidle.active, hidle.attempt, hidle.head, hidle.ended⟩
  | count hcall => exact h.outside rfl id id
  | @submit submitted opts hcall =>
    refine h.outside (stage_send ..) (fun hlate => late_send hlate _ fun other ho => ?_)
      (closed_of_send _)
    cases ho
    exact hpl.idle_of_unsent hcall rfl
  | giveUp hcall =>
    exact h.outside rfl (fun hlate => late_modify hlate unregister fun hsome => by
      simp [unregister] at hsome) id
  | @talk act talking caller after cmd hcall htalks =>
    cases cmd with
    | none => exact h.outside rfl id id
    | some said =>
      refine h.outside (stage_send ..) (fun hlate => late_send hlate _ fun other ho => ?_)
        (closed_of_send _)
      cases ((talks_sent htalks).2.2 said rfl).symm.trans ho
  | close =>
    exact h.outside rfl (fun hlate => late_discards hlate _ hpl.idle_commands)
      fun _ => ⟨rfl, rfl⟩
  | drain hstg => exact .before rfl
  | process hstg hpend => exact .before (by rw [hstg]; rfl)
  | inner hinner =>
    rcases hinner.stage with ⟨-, hloop, -⟩ | ⟨-, hunm⟩
    · exact .before (isSwept_of_inLoop hloop)
    · exact .before (by rw [hunm]; rfl)
  | header hstg | failPool hstg | complete hstg hcomps => exact .before (by rw [hstg]; rfl)
  | shutDown hstg | unwind hstg => exact .before rfl
  | failAll hstg => exact ⟨fun _ => late_failAll hpl.settled, by simp⟩
  | closeQueue hstg =>
    have hlate := h.late (by rw [hstg]; rfl)
    exact ⟨fun _ => late_discards hlate _ hpl.idle_commands, fun _ => ⟨rfl, rfl⟩⟩

theorem Reachable.swept (h : Reachable rates sys) : sys.Swept :=
  h.invariant_along Swept (.before rfl) fun _ _ _ hr hswept _ hstep =>
    hswept.moves (Reachable.placed hr) (moves_of_step hstep)

theorem gone_of_exited (h : Reachable rates sys) (hext : sys.stage = .exited)
    (hsent : sys.Sent id) : ∃ ending, (sys.driver.slot id).Gone ending := by
  have hstgd := Reachable.staged h
  have hsub : sys.submits = [] := by
    simp [submits, hstgd.pending (by simp [hext]), ((Reachable.swept h).closed hext).2]
  rcases (Reachable.placed h).placed id hsent (by simp [hsub]) with ⟨tr, hrun⟩ | hgone
  · have hclrd := hstgd.cleared (by rw [hext]; rfl) id
    simpa [hclrd.active] using hrun.active
  · exact hgone

theorem discarded_of_registered (h : Reachable rates sys) (hext : sys.stage = .exited)
    (hsent : sys.Sent id) (hreg : (sys.driver.slot id).registered = true) :
    (sys.driver.slot id).ended = some .discarded := by
  obtain ⟨ending, hgone⟩ := gone_of_exited h hext hsent
  rcases (Reachable.swept h).late (by rw [hext]; rfl) id hreg with hidle | hdiscarded
  · exact absurd hgone hidle.not_gone
  · exact hdiscarded.ended

/-! ## What is thrown away -/

/-- Nothing was unwound, and only the closed queue has dropped submissions. -/
def Excused (sys : System ρ) : Prop := ∀ id, (sys.driver.slot id).ended ≠ some .unwound ∧
  ((sys.driver.slot id).ended = some .discarded → sys.closed = true)

theorem Excused.serves (h : sys.Excused) (hclos : next.closed = sys.closed)
    (hserved : ∀ id, (sys.driver.slot id).Served (next.driver.slot id)) : next.Excused := by
  intro id
  rcases hserved id with hsame | ⟨ending, hend, hunw, hdrop⟩
  · rw [hsame, hclos]
    exact h id
  · rw [hend]
    exact ⟨fun heq => hunw (Option.some.inj heq), fun heq => absurd (Option.some.inj heq) hdrop⟩

theorem Excused.discards (h : sys.Excused) (cmds : List Command)
    (hdrv : next.driver = cmds.foldl Driver.discard sys.driver) (hclos : next.closed = true) :
    next.Excused := by
  intro id
  refine ⟨?_, fun _ => hclos⟩
  rw [hdrv, slot_discards]
  split
  · exact nofun
  · exact (h id).1

theorem Excused.moves (h : sys.Excused) (hpl : sys.Placed) (hact : act ≠ .unwind)
    (hmv : Moves rates sys act next) : next.Excused := by
  have hset := hpl.settled
  cases hmv with
  | get | miss | count | drain => exact h.serves rfl fun _ => .inl rfl
  | register | giveUp =>
    exact h.serves rfl ((touches_modify _).all (R := Served) (fun _ => .inl rfl) (.inl rfl))
  | @submit id opts hcall =>
    cases hclos : sys.closed with
    | true =>
      exact h.discards [.submit id opts] (by simp [send, hclos, setCaller])
        (by simp [setCaller, hclos])
    | false => exact h.serves (closed_send ..) fun _ => .inl (by simp [send, hclos, setCaller])
  | @talk act id caller after cmd hcall htalks =>
    refine h.serves ?_ fun _ => .inl (by rw [setCaller, driver_say htalks])
    cases cmd with
    | none => rfl
    | some said => exact closed_send ..
  | close | closeQueue => exact h.discards sys.commands rfl rfl
  | process hstg hpend => exact h.serves rfl fun id => (serves_process hpl hpend _ _ id).served
  | inner hinner => exact h.serves hinner.closed fun _ => .inl (by rw [hinner.driver])
  | header => exact h.serves rfl fun id => (serves_header _ _ _ id).served
  | failPool =>
    exact h.serves rfl fun id =>
      ((sweeps_failTransfer _ _).leaves hset _ id).served (by simp) (by simp)
  | complete => exact h.serves rfl fun id => (serves_finishTransfer hset _ _ _ _ _ _ id).served
  | shutDown =>
    exact h.serves rfl fun id =>
      ((sweeps_shutDownTransfer _).leaves hset _ id).served (by simp) (by simp)
  | unwind => exact absurd rfl hact
  | failAll =>
    exact h.serves rfl fun id =>
      ((sweeps_failSink .broken).leaves hset _ id).served (by simp) (by simp)

theorem excused_of_run (h : Reaches (step rates) (fun _ action => action ≠ .unwind) new sys) :
    sys.Excused :=
  h.invariant_along Excused (fun _ => ⟨nofun, nofun⟩) fun _ _ _ hr hexcused hact hstep =>
    hexcused.moves (Reachable.placed (hr.mono fun _ _ _ => trivial)) hact (moves_of_step hstep)

/-- The sender of an open head channel is queued or in a parser, and is used once; a sink has a
terminal state when its transfer is gone, unless it was thrown away; the exit guard closes all. -/
theorem waiters_are_served (h : Reachable rates sys) :
    (∀ id, sys.Sent id → (sys.driver.slot id).head.isOpen = true →
      id ∈ sys.submits ∨ ∃ transfer, (sys.driver.slot id).active = some transfer ∧
        transfer.head.sender = true) ∧
    (∀ id, (sys.driver.slot id).head.values.length ≤ 1) ∧
    (∀ later, Reaches (step rates) (fun _ _ => True) sys later → ∀ id terminal,
      (sys.driver.slot id).terminal = some terminal →
        (later.driver.slot id).terminal = some terminal) ∧
    (∀ id, sys.Sent id → id ∉ sys.submits → (sys.driver.slot id).active = none →
      (sys.driver.slot id).terminal.isSome = true ∨
        (sys.driver.slot id).ended = some .discarded ∨
        (sys.driver.slot id).ended = some .unwound) ∧
    (Reaches (step rates) (fun _ action => action ≠ .unwind) new sys → ∀ id,
      (sys.driver.slot id).ended ≠ some .unwound ∧
        ((sys.driver.slot id).ended = some .discarded → sys.closed = true)) ∧
    (sys.stage = .exited → ∀ id, sys.Sent id → (sys.driver.slot id).head.isOpen = false ∧
      ((sys.driver.slot id).registered = true →
        (sys.driver.slot id).ended = some .discarded) ∧
      ((sys.driver.slot id).terminal.isSome = true ∨
        (sys.driver.slot id).ended = some .discarded ∨
        sys.callers[id]? = some .withdrawing ∨ sys.callers[id]? = some .withdrawn)) := by
  have hpl := Reachable.placed h
  refine ⟨fun id hsent hopen => ?_, fun id => (hpl.settled id).values_length,
    fun later hrun id => keepsTerminal_run h hrun, fun id hsent hout hact => ?_, excused_of_run,
    fun hext id hsent => ?_⟩
  · by_cases hqd : id ∈ sys.submits
    · exact .inl hqd
    · rcases hpl.placed id hsent hqd with ⟨transfer, hrun⟩ | ⟨ending, hgone⟩
      · exact .inr ⟨transfer, hrun.active, hrun.sender hopen⟩
      · simp [hgone.not_open] at hopen
  · rcases hpl.placed id hsent hout with ⟨transfer, hrun⟩ | ⟨ending, hgone⟩
    · simp [hrun.active] at hact
    · by_cases hunw : ending = .unwound
      · exact .inr (.inr (hunw ▸ hgone.ended))
      · by_cases hdiscarded : ending = .discarded
        · exact .inr (.inl (hdiscarded ▸ hgone.ended))
        · exact .inl (hgone.terminal hunw hdiscarded)
  · obtain ⟨ending, hgone⟩ := gone_of_exited h hext hsent
    refine ⟨hgone.not_open, discarded_of_registered h hext hsent, ?_⟩
    obtain ⟨caller, hcall, hcallerSent⟩ := hsent
    by_cases henr : caller.isEnrolled = true
    · rcases Reachable.enrolled h id caller hcall henr with hreg | hterm
      · exact .inr (.inl (discarded_of_registered h hext ⟨caller, hcall, hcallerSent⟩ hreg))
      · exact .inl hterm
    · cases caller <;> simp_all [Caller.isEnrolled, Caller.sent]

def waiterView (sys : System Nat) :
    (Stage × Option Caller) × Bool × Option Ending × Nat :=
  ((sys.stage, sys.callers[(1 : TransferId)]?), (sys.driver.slot 1).terminal.isSome,
    (sys.driver.slot 1).ended, sys.submits.length)

theorem exists_unwound : ∃ sys : System Nat, Reachable sampleRates sys ∧
    sys.stage = .exited ∧ sys.callers[(1 : TransferId)]? = some .streaming ∧
      (sys.driver.slot 1).ended = some .unwound := by
  have hview : (runLabels (step sampleRates) (fun _ _ => true) (new : System Nat)
      (sampleRun ++ [.takeHead 1, .unwind, .unmark, .failAll, .closeQueue])).map waiterView =
      some ((.exited, some .streaming), true, some .unwound, 0) := by decide
  obtain ⟨sys, hr, heq⟩ := Reaches.exists_of_run hview
  simp only [waiterView, Prod.mk.injEq] at heq
  exact ⟨sys, hr, heq.1.1, heq.1.2, heq.2.2.1⟩

theorem reader_of_an_unwound_driver : ∃ sys : System Nat,
    Reachable sampleRates sys ∧ sys.stage = .exited ∧
      sys.callers[(1 : TransferId)]? = some .streaming ∧
      (sys.driver.slot 1).terminal.isSome = true := by
  obtain ⟨sys, hr, hstg, hcall, hend⟩ := exists_unwound
  obtain ⟨-, -, -, -, -, hext⟩ := waiters_are_served hr
  obtain ⟨-, -, hserved⟩ := hext hstg 1 ⟨_, hcall, rfl⟩
  refine ⟨sys, hr, hstg, hcall, ?_⟩
  simpa [hend, hcall] using hserved

/-- The closed queue drops a submission the driver has not seen, and its sink has no terminal
state. -/
theorem dropped_submission_has_no_terminal : ∃ sys : System Nat,
    Reachable sampleRates sys ∧ sys.Sent 1 ∧ 1 ∉ sys.submits ∧
      (sys.driver.slot 1).active = none ∧ (sys.driver.slot 1).terminal = none := by
  have hview : (runLabels (step sampleRates) (fun _ _ => true) (new : System Nat)
      [.get (sampleOptions 100), .register 1, .count 1, .submit 1, .dropFuture 1, .withdraw 1,
        .close]).map waiterView =
      some ((.top, some .withdrawn), false, some .discarded, 0) := by decide
  obtain ⟨sys, hr, heq⟩ := Reaches.exists_of_run hview
  simp only [waiterView, Prod.mk.injEq] at heq
  obtain ⟨⟨-, hcall⟩, hterm, hend, hsub⟩ := heq
  refine ⟨sys, hr, ⟨_, hcall, rfl⟩, by simp [List.length_eq_zero_iff.mp hsub], ?_,
    by simpa using hterm⟩
  rcases (Reachable.placed hr).settled 1 with hidle | ⟨transfer, hrun⟩ | ⟨ending, hgone⟩
  · exact hidle.active
  · simp [hrun.ended] at hend
  · exact hgone.active

/-- A thread that has gone leaves nothing behind. -/
theorem exit_leaves_nothing (h : Reachable rates sys) (hexited : sys.stage = .exited) :
    sys.closed = true ∧ sys.pending = [] ∧ sys.commands = [] ∧
      (∀ id, Driver.Cleared (sys.driver.slot id)) ∧
      ∀ id, sys.Sent id → ∃ ending, (sys.driver.slot id).Gone ending := by
  have hstgd := Reachable.staged h
  obtain ⟨hclos, hcmds⟩ := (Reachable.swept h).closed hexited
  exact ⟨hclos, hstgd.pending (by simp [hexited]), hcmds,
    hstgd.cleared (by rw [hexited]; rfl), fun id hsent => gone_of_exited h hexited hsent⟩

theorem unwound_driver_leaves_nothing : ∃ sys : System Nat, Reachable sampleRates sys ∧
    sys.Sent 1 ∧ sys.closed = true ∧ ∃ ending, (sys.driver.slot 1).Gone ending := by
  obtain ⟨sys, hr, hstg, hcall, -⟩ := exists_unwound
  have hsent : sys.Sent 1 := ⟨_, hcall, rfl⟩
  obtain ⟨hclos, -, -, -, hgone⟩ := exit_leaves_nothing hr hstg
  exact ⟨sys, hr, hsent, hclos, hgone 1 hsent⟩

end System

end Bytehaul.Network
