import Bytehaul.Network.DriverLoop

/-!
# Where a transfer is

A transfer is idle until its command is processed, and then running or gone.
-/

namespace Bytehaul.Network

open Foundation Session List Option Driver Slot
open Std (TreeMap)

namespace Slot

variable {slot after last : Slot} {transfer : ActiveTransfer} {ending : Ending}

def Settled (slot : Slot) : Prop :=
  slot.Idle ∨ (∃ transfer, slot.Running transfer) ∨ ∃ ending, slot.Gone ending

def KeepsTerminal (slot after : Slot) : Prop :=
  ∀ terminal, slot.terminal = some terminal → after.terminal = some terminal

/-- A running transfer may be gone, and otherwise the state stays. -/
structure Fades (slot after : Slot) : Prop where
  idle : slot.Idle → after.Idle
  running : ∀ transfer, slot.Running transfer →
    (∃ transfer', after.Running transfer') ∨ ∃ ending, after.Gone ending
  gone : ∀ ending, slot.Gone ending → after.Gone ending
  keeps : slot.KeepsTerminal after

theorem Fades.refl : slot.Fades slot :=
  ⟨id, fun transfer h => .inl ⟨transfer, h⟩, fun _ => id, fun _ => id⟩

theorem Fades.trans (h : slot.Fades after) (hlast : after.Fades last) : slot.Fades last := by
  refine ⟨fun hidle => hlast.idle (h.idle hidle), fun transfer hrun => ?_,
    fun ending hgone => hlast.gone ending (h.gone ending hgone),
    fun term hf => hlast.keeps term (h.keeps term hf)⟩
  rcases h.running transfer hrun with ⟨middle, hmiddle⟩ | ⟨ending, hgone⟩
  · exact hlast.running middle hmiddle
  · exact .inr ⟨ending, hlast.gone ending hgone⟩

theorem Fades.settled (h : slot.Fades after) (hslot : slot.Settled) : after.Settled := by
  rcases hslot with hidle | ⟨transfer, hrun⟩ | ⟨ending, hgone⟩
  · exact .inl (h.idle hidle)
  · exact .inr (h.running transfer hrun)
  · exact .inr (.inr ⟨ending, h.gone ending hgone⟩)

theorem Idle.not_running (h : slot.Idle) : ¬ slot.Running transfer :=
  fun hrun => by simpa [h.active] using hrun.active

theorem Gone.not_running (h : slot.Gone ending) : ¬ slot.Running transfer :=
  fun hrun => by simpa [h.active] using hrun.active

theorem Idle.not_gone (h : slot.Idle) : ¬ slot.Gone ending :=
  fun hgone => by simpa [h.ended] using hgone.ended

theorem Running.unique {transfer' : ActiveTransfer} (h : slot.Running transfer)
    (h' : slot.Running transfer') : transfer = transfer' :=
  some.inj (h.active.symm.trans h'.active)

theorem Fades.of_running (hrun : slot.Running transfer)
    (h : (∃ transfer', after.Running transfer') ∨ ∃ ending, after.Gone ending)
    (hkeeps : slot.KeepsTerminal after) : slot.Fades after :=
  ⟨fun hidle => absurd hrun hidle.not_running, fun _ _ => h,
    fun _ hgone => absurd hrun hgone.not_running, hkeeps⟩

theorem Settled.running (h : slot.Settled) (hact : slot.active = some transfer) :
    slot.Running transfer := by
  rcases h with hidle | ⟨found, hrun⟩ | ⟨ending, hgone⟩
  · simp [hidle.active] at hact
  · obtain rfl : found = transfer := by simpa [hrun.active] using hact
    exact hrun
  · simp [hgone.active] at hact

theorem Fades.of_fields (hact : after.active = slot.active) (hhead : after.head = slot.head)
    (hend : after.ended = slot.ended) (hatt : after.attempt = slot.attempt ∨
      after.attempt = none) (hkeeps : slot.KeepsTerminal after) : slot.Fades after := by
  have hrec : ∀ record, after.attempt = some record → slot.attempt = some record := by
    intro record hsome
    rcases hatt with hsame | hnone
    · exact hsame ▸ hsome
    · simp [hnone] at hsome
  refine ⟨fun h => ⟨hact.trans h.active, ?_, hhead.trans h.head, hend.trans h.ended⟩,
    fun transfer h => .inl ⟨transfer, hact.trans h.active, hhead ▸ h.head,
      hend.trans h.ended, fun record hsome => h.attempt record (hrec record hsome)⟩,
    fun ending h => ⟨hact.trans h.active, hhead ▸ h.head, fun hunw hdiscarded => ?_,
      hend.trans h.ended, fun record hsome => h.attempt record (hrec record hsome)⟩, hkeeps⟩
  · rcases hatt with hsame | hnone
    · exact hsame.trans h.attempt
    · exact hnone
  · obtain ⟨term, hterm⟩ := isSome_iff_exists.mp (h.terminal hunw hdiscarded)
    rw [hkeeps term hterm]
    rfl

/-- No attempt begins, and a transfer that goes leaves no record to the consumer. -/
structure Advances (slot after : Slot) : Prop extends Fades slot after where
  again : ∀ transfer transfer', slot.Running transfer → after.Running transfer' →
    transfer'.retry = transfer.retry ∧
      (transfer.head.sender = false → transfer'.head.sender = false)
  attempt : ∀ record, after.attempt = some record → record.consumed = none →
    slot.attempt = some record ∧
      ((∃ transfer, slot.Running transfer) → ∃ transfer, after.Running transfer)

theorem Advances.of_fields (hact : after.active = slot.active) (hhead : after.head = slot.head)
    (hend : after.ended = slot.ended) (hatt : after.attempt = slot.attempt ∨
      after.attempt = none) (hkeeps : slot.KeepsTerminal after) : slot.Advances after := by
  have hfades : slot.Fades after := .of_fields hact hhead hend hatt hkeeps
  refine ⟨hfades, fun transfer transfer' h h' => ?_, fun record hrec _ => ⟨?_, ?_⟩⟩
  · obtain rfl := some.inj (h'.active.symm.trans (hact.trans h.active))
    exact ⟨rfl, id⟩
  · rcases hatt with hsame | hnone
    · exact hsame ▸ hrec
    · simp [hnone] at hrec
  · rintro ⟨transfer, hrun⟩
    refine (hfades.running transfer hrun).resolve_right fun ⟨ending, hgone⟩ => ?_
    simpa [hact, hrun.active] using hgone.active

theorem Advances.refl : slot.Advances slot := .of_fields rfl rfl rfl (.inl rfl) fun _ => id

theorem Advances.trans (h : slot.Advances after) (hlast : after.Advances last) :
    slot.Advances last := by
  refine ⟨h.toFades.trans hlast.toFades, fun transfer transfer' hrun hrun' => ?_,
    fun record hrec hconsumed => ?_⟩
  · rcases h.running transfer hrun with ⟨middle, hmiddle⟩ | ⟨ending, hgone⟩
    · obtain ⟨hretry, hsend⟩ := h.again transfer middle hrun hmiddle
      obtain ⟨hretry', hsender'⟩ := hlast.again middle transfer' hmiddle hrun'
      exact ⟨hretry'.trans hretry, fun hused => hsender' (hsend hused)⟩
    · exact absurd hrun' (hlast.gone ending hgone).not_running
  · obtain ⟨haft, hrun⟩ := hlast.attempt record hrec hconsumed
    obtain ⟨hslot, hfst⟩ := h.attempt record haft hconsumed
    exact ⟨hslot, fun hlive => hrun (hfst hlive)⟩

theorem Advances.of_gone (hrun : slot.Running transfer) (hgone : after.Gone ending)
    (hatt : after.attempt = none) (hkeeps : slot.KeepsTerminal after) : slot.Advances after :=
  ⟨.of_running hrun (.inr ⟨ending, hgone⟩) hkeeps,
    fun _ _ _ hrun' => absurd hrun' hgone.not_running,
    fun record hrec => absurd hrec (by simp [hatt])⟩

def LeavesAs (ending : Ending) (slot after : Slot) : Prop :=
  after.ended = slot.ended ∨ slot.ended = none ∧ after.ended = some ending

theorem LeavesAs.trans (h : slot.LeavesAs ending after) (hlast : after.LeavesAs ending last) :
    slot.LeavesAs ending last := by
  rcases hlast with hsame | ⟨hnone, hend⟩
  · exact h.imp hsame.trans (And.imp_right hsame.trans)
  · rcases h with hfst | ⟨-, hfst⟩
    · exact .inr ⟨hfst.symm.trans hnone, hend⟩
    · cases hfst.symm.trans hnone

end Slot

namespace Driver

variable {ρ : Type} {rates : RateModel ρ} {driver after last : Driver ρ} {id : TransferId}
  {slot : Slot} {step : Driver ρ → TransferId → Driver ρ} {ids : List TransferId}
  {ending : Ending}

def Settled (driver : Driver ρ) : Prop := ∀ id, (driver.slot id).Settled

def Fades (driver after : Driver ρ) : Prop := ∀ id, (driver.slot id).Fades (after.slot id)

theorem Fades.settled (h : driver.Fades after) (hdrv : driver.Settled) : after.Settled :=
  fun id => (h id).settled (hdrv id)

def Advances (driver after : Driver ρ) : Prop := ∀ id, (driver.slot id).Advances (after.slot id)

theorem Advances.fades (h : driver.Advances after) : driver.Fades after := fun id => (h id).toFades

theorem Touches.advances (h : Touches id driver after slot)
    (hslot : (driver.slot id).Advances slot) : driver.Advances after :=
  h.all (fun _ => .refl) hslot

theorem advances_modify (change : Slot → Slot)
    (h : (driver.slot id).Advances (change (driver.slot id))) :
    driver.Advances (driver.modify id change) :=
  (touches_modify change).advances h

structure Cleared (slot : Slot) : Prop where
  active : slot.active = none
  attempt : slot.attempt = none

/-! ## Loops over transfers -/

structure Drops (ending : Ending) (id : TransferId) (driver after : Driver ρ) (slot : Slot) :
    Prop extends Changes id driver after slot where
  advances : (driver.slot id).Advances slot
  leaves : (driver.slot id).LeavesAs ending slot

theorem Drops.refl : Drops ending id driver driver (driver.slot id) := ⟨.refl, .refl, .inl rfl⟩

theorem Drops.modify {change : Slot → Slot}
    (hkeeps : (driver.slot id).Keeps (change (driver.slot id)))
    (hadvances : (driver.slot id).Advances (change (driver.slot id)))
    (hend : (change (driver.slot id)).ended = (driver.slot id).ended) :
    Drops ending id driver (driver.modify id change) (change (driver.slot id)) :=
  ⟨Changes.refl.modify change hkeeps, hadvances, .inl hend⟩

theorem Drops.removeAttempt :
    Drops ending id driver (driver.modify id Slot.removeAttempt) (driver.slot id).removeAttempt :=
  .modify (keeps_of_eq rfl rfl) (.of_fields rfl rfl rfl (.inr rfl) fun _ h => h) rfl

theorem Changes.drops {transfer : ActiveTransfer} (h : Changes id driver after slot)
    (hrun : (driver.slot id).Running transfer) (hgone : slot.Gone ending)
    (hatt : slot.attempt = none) : Drops ending id driver after slot :=
  ⟨h, .of_gone hrun hgone hatt h.kept.terminal, .inr ⟨hrun.ended, hgone.ended⟩⟩

def Sweeps (ending : Ending) (step : Driver ρ → TransferId → Driver ρ) : Prop :=
  ∀ (driver : Driver ρ) id, driver.Settled → ∃ slot, Drops ending id driver (step driver id) slot

theorem Sweeps.induct (hstep : Sweeps ending step) {P : Driver ρ → Prop} (hset : driver.Settled)
    (h : P driver)
    (hP : ∀ (driver : Driver ρ) id slot, Drops ending id driver (step driver id) slot → P driver →
      P (step driver id)) (ids : List TransferId) : P (ids.foldl step driver) := by
  induction ids generalizing driver with
  | nil => exact h
  | cons id ids ih =>
    obtain ⟨slot, hdrops⟩ := hstep driver id hset
    have hfst := hdrops.toTouches.advances hdrops.advances
    exact ih (hfst.fades.settled hset) (hP driver id slot hdrops h)

theorem Sweeps.advances (hstep : Sweeps ending step) (h : driver.Settled) :
    driver.Advances (ids.foldl step driver) :=
  hstep.induct (P := driver.Advances) h (fun _ => .refl)
    (fun _ _ _ hdrops hold id => (hold id).trans (hdrops.toTouches.advances hdrops.advances id)) ids

theorem Sweeps.leaves (hstep : Sweeps ending step) (h : driver.Settled) (ids : List TransferId) :
    ∀ id, (driver.slot id).LeavesAs ending ((ids.foldl step driver).slot id) :=
  hstep.induct (P := fun after => ∀ id, (driver.slot id).LeavesAs ending (after.slot id)) h
    (fun _ => .inl rfl) (fun _ _ _ hdrops hold id => (hold id).trans
      (hdrops.toTouches.all (R := LeavesAs ending) (fun _ => .inl rfl) hdrops.leaves id)) ids

theorem Sweeps.all (hstep : Sweeps ending step) {Done : Slot → Prop}
    (hdone : ∀ (driver : Driver ρ) id, driver.Settled → Done ((step driver id).slot id))
    (h : driver.Settled) :
    ∀ id, id ∈ ids ∨ Done (driver.slot id) → Done ((ids.foldl step driver).slot id) := by
  induction ids generalizing driver with
  | nil => exact fun id hid => hid.resolve_left not_mem_nil
  | cons first ids ih =>
    obtain ⟨slot, hdrops⟩ := hstep driver first h
    intro id hid
    refine ih ((hdrops.toTouches.advances hdrops.advances).fades.settled h) id ?_
    by_cases heq : id = first
    · subst heq
      exact .inr (hdone driver id h)
    · rw [hdrops.toChanges.slot_other heq]
      exact hid.imp_left fun hmem => (mem_cons.mp hmem).resolve_left heq

theorem Sweeps.keys (hstep : Sweeps ending step) (Done : Slot → Prop)
    (hdone : ∀ (driver : Driver ρ) id, driver.Settled → Done ((step driver id).slot id))
    (hnew : Done .new) (h : driver.Settled) (id : TransferId) :
    Done ((driver.slots.keys.foldl step driver).slot id) := by
  refine hstep.all hdone h id ?_
  by_cases hmem : id ∈ driver.slots
  · exact .inl (TreeMap.mem_keys.mpr hmem)
  · right
    rw [slot, TreeMap.getElem?_eq_none hmem]
    exact hnew

/-! ## The functions of the driver -/

variable (h : driver.Settled)
include h

theorem advances_cancelTransfer (now : Nat) : driver.Advances (driver.cancelTransfer id now) := by
  cases hact : (driver.slot id).active with
  | none =>
    unfold cancelTransfer
    rw [hact]
    exact fun _ => .refl
  | some transfer =>
    have hrun := (h id).running hact
    obtain ⟨last, hlast, -, hgone, hatt⟩ := changes_cancelTransfer hrun now
    exact hlast.advances (.of_gone hrun hgone hatt hlast.kept.terminal)

omit h in
theorem sweeps_failTransfer (msg : String) (now : Nat) :
    Sweeps .broken (failTransfer (ρ := ρ) msg now) := by
  intro driver id h
  unfold failTransfer
  split
  · exact ⟨_, .refl⟩
  · rename_i transfer hact
    have hrun := (h id).running hact
    obtain ⟨last, hlast, hgone, hatt⟩ := changes_dismiss hrun (.internal msg)
      (.failed .other none msg) .broken now
    exact ⟨last, hlast.drops hrun hgone hatt⟩

theorem advances_failPool (key : PoolKey) (msg : String) (now : Nat) :
    driver.Advances (driver.failPool key msg now) :=
  (sweeps_failTransfer msg now).advances h

theorem drops_shutDownTransfer (id : TransferId) (now : Nat) :
    ∃ slot, Drops .shutDown id driver (driver.shutDownTransfer now id) slot ∧ Cleared slot := by
  unfold shutDownTransfer
  split
  · rename_i hact
    exact ⟨_, .removeAttempt, ⟨hact, rfl⟩⟩
  · rename_i transfer hact
    have hrun := (h id).running hact
    obtain ⟨last, hlast, hgone, hatt⟩ := changes_dismiss hrun .cancelled .cancelled .shutDown now
    exact ⟨last, hlast.drops hrun hgone hatt, ⟨hgone.active, hatt⟩⟩

theorem drops_unwindTransfer (id : TransferId) :
    ∃ slot, Drops .unwound id driver (driver.unwindTransfer id) slot ∧ Cleared slot := by
  unfold unwindTransfer
  split
  · rename_i hact
    exact ⟨_, .removeAttempt, ⟨hact, rfl⟩⟩
  · rename_i transfer hact
    have hrun := (h id).running hact
    have hkeeps : (driver.slot id).Keeps ((driver.slot id).unwound transfer.head) :=
      keeps_of_eq (dropHead_terminal ..) (dropHead_registered ..)
    have hgone : ((driver.slot id).unwound transfer.head).Gone .unwound :=
      ⟨rfl, closed_dropHead hrun.head, fun hne => absurd rfl hne, rfl, nofun⟩
    have hchg := Changes.refl.modify (·.unwound transfer.head) hkeeps
    exact ⟨_, hchg.drops hrun hgone rfl, ⟨rfl, rfl⟩⟩

omit h in
theorem sweeps_shutDownTransfer (now : Nat) : Sweeps .shutDown (shutDownTransfer (ρ := ρ) now) :=
  fun _ id h => (drops_shutDownTransfer h id now).imp fun _ hslot => hslot.1

omit h in
theorem sweeps_unwindTransfer : Sweeps .unwound (unwindTransfer (ρ := ρ)) :=
  fun _ id h => (drops_unwindTransfer h id).imp fun _ hslot => hslot.1

theorem advances_shutDown (now : Nat) : driver.Advances (driver.shutDown now) :=
  (sweeps_shutDownTransfer now).advances h

theorem advances_unwind : driver.Advances driver.unwind :=
  sweeps_unwindTransfer.advances h

theorem cleared_shutDown (now : Nat) (id : TransferId) :
    Cleared ((driver.shutDown now).slot id) := by
  refine (sweeps_shutDownTransfer now).keys Cleared (fun driver id h => ?_) ⟨rfl, rfl⟩ h id
  obtain ⟨slot, hdrops, hclrd⟩ := drops_shutDownTransfer h id now
  exact hdrops.here.symm ▸ hclrd

theorem cleared_unwind (id : TransferId) : Cleared (driver.unwind.slot id) := by
  refine sweeps_unwindTransfer.keys Cleared (fun driver id h => ?_) ⟨rfl, rfl⟩ h id
  obtain ⟨slot, hdrops, hclrd⟩ := drops_unwindTransfer h id
  exact hdrops.here.symm ▸ hclrd

omit h in
theorem sweeps_failSink (ending : Ending) : Sweeps ending (failSink (ρ := ρ)) := by
  intro driver id h
  unfold failSink
  split
  · have hkeeps : (driver.slot id).Keeps ((driver.slot id).finish exitTerminal).unregister :=
      keeps_finish exitTerminal rfl
    exact ⟨_, .modify hkeeps (.of_fields rfl rfl rfl (.inl rfl) hkeeps.terminal) rfl⟩
  · exact ⟨_, .refl⟩

theorem advances_failAll : driver.Advances driver.failAll :=
  (sweeps_failSink .broken).advances h

theorem advances_header (line : List UInt8) : driver.Advances (driver.header id line) := by
  cases hact : (driver.slot id).active with
  | none =>
    unfold header
    rw [hact]
    exact fun _ => .refl
  | some transfer =>
    have hrun := (h id).running hact
    obtain ⟨last, hlast, hnext, hatt⟩ := changes_header hrun line
    refine hlast.advances ⟨.of_running hrun (.inl ⟨_, hnext⟩) hlast.kept.terminal,
      fun found found' hf hfound' => ?_,
      fun record hrec _ => ⟨hatt ▸ hrec, fun _ => ⟨_, hnext⟩⟩⟩
    obtain rfl := hrun.unique hf
    obtain rfl := hnext.unique hfound'
    refine ⟨rfl, fun hused => ?_⟩
    rcases HeadParser.sends_push transfer.head line with ⟨hsame, -⟩ | ⟨-, hsent, -⟩
    · exact hsame.trans hused
    · exact hsent

private theorem fades_finishTransfer (key : PoolKey) (result : CurlResult)
    (report : CurlReport) (answers : CurlAnswers) (now later : Nat) :
    driver.Fades (driver.finishTransfer rates key id result report answers now later) := by
  cases hact : (driver.slot id).active with
  | none =>
    unfold finishTransfer completeTransfer
    rw [hact]
    exact fun _ => .refl
  | some transfer =>
    have hrun := (h id).running hact
    obtain ⟨last, hlast, hcases⟩ := changes_finishTransfer hrun rfl
    refine hlast.all (R := Slot.Fades) (fun _ => .refl) (.of_running hrun ?_ hlast.kept.terminal)
    rcases hcases with ⟨-, rfl | ⟨hlive, -⟩ | ⟨hgone | hgone, -⟩⟩ | ⟨-, hgone, -⟩
    · exact .inl ⟨transfer, hrun⟩
    · exact .inl hlive
    · exact .inr ⟨_, hgone⟩
    · exact .inr ⟨_, hgone⟩
    · exact .inr ⟨_, hgone⟩

omit h in
theorem advances_consumedSlot (h : slot.Settled) {consumed : Bool}
    {sample : Option TransferSample} : slot.Advances (consumedSlot consumed sample slot) := by
  unfold consumedSlot
  cases hatt : slot.attempt with
  | none => exact .refl
  | some record =>
    dsimp only
    rcases h with hidle | ⟨transfer, hrun⟩ | ⟨ending, hgone⟩
    · simp [hidle.attempt] at hatt
    · obtain ⟨hpinned, hpool, houtc⟩ := hrun.attempt record hatt
      have hfold : (slot.setAttempt { record with
          consumed := some consumed, sample := sample }).fold = slot.setAttempt { record with
            consumed := some consumed, sample := sample } := by
        simp [fold, setAttempt, houtc]
      rw [hfold]
      have hnext : (slot.setAttempt { record with
          consumed := some consumed, sample := sample }).Running transfer := by
        refine ⟨hrun.active, hrun.head, hrun.ended, ?_⟩
        rintro found ⟨⟩
        exact ⟨hpinned, hpool, houtc⟩
      refine ⟨.of_running hrun (.inl ⟨transfer, hnext⟩) fun _ => id,
        fun found found' hf hfound' => ?_, ?_⟩
      · obtain rfl := hrun.unique hf
        obtain rfl := hnext.unique hfound'
        exact ⟨rfl, id⟩
      · rintro found ⟨⟩ ⟨⟩
    · obtain ⟨houtc, -⟩ := hgone.attempt record hatt
      obtain ⟨outcome, hsome⟩ := isSome_iff_exists.mp houtc
      have hfold : (slot.setAttempt { record with
          consumed := some consumed, sample := sample }).fold = slot.removeAttempt := by
        simp [fold, setAttempt, removeAttempt, hsome]
      rw [hfold]
      exact .of_fields rfl rfl rfl (.inr rfl) fun _ h => h

theorem advances_bodyDone (consumed : Bool) (sample : Option TransferSample)
    (now : Nat) : driver.Advances (driver.bodyDone rates id consumed sample now) :=
  (changes_bodyDone driver id consumed sample now).advances (advances_consumedSlot (h id))

omit h

/-! ## Outside of the loop -/

theorem cleared_modify (h : ∀ id, Cleared (driver.slot id)) (change : Slot → Slot)
    (hchg : Cleared (driver.slot id) → Cleared (change (driver.slot id))) :
    ∀ other, Cleared ((driver.modify id change).slot other) := fun other =>
  (touches_modify change).all (R := fun slot after => Cleared slot → Cleared after)
    (fun _ h => h) hchg other (h other)

private theorem cleared_failAll (h : ∀ id, Cleared (driver.slot id)) :
    ∀ id, Cleared (driver.failAll.slot id) := by
  unfold failAll
  generalize driver.slots.keys = ids
  induction ids generalizing driver with
  | nil => exact h
  | cons first ids ih =>
    refine ih ?_
    unfold failSink
    split
    · exact cleared_modify h _ fun hold => ⟨hold.active, hold.attempt⟩
    · exact h

/-! ## A transfer leaves the queue -/

/-- The transfers in `ids` are taken out of the queue, and the others fade at most. -/
structure Takes (ids : List TransferId) (driver after : Driver ρ) : Prop where
  fades : ∀ id, id ∉ ids → (driver.slot id).Fades (after.slot id)
  taken : ∀ id, id ∈ ids → (driver.slot id).Idle →
    (∃ transfer, (after.slot id).Running transfer) ∨ ∃ ending, (after.slot id).Gone ending
  keeps : ∀ id, (driver.slot id).KeepsTerminal (after.slot id)

theorem Fades.takes (h : driver.Fades after) : driver.Takes [] after :=
  ⟨fun id _ => h id, fun _ hmem => absurd hmem not_mem_nil, fun id => (h id).keeps⟩

theorem Changes.takes (h : Changes id driver after slot)
    (hslot : (∃ transfer, slot.Running transfer) ∨ ∃ ending, slot.Gone ending) :
    driver.Takes [id] after := by
  refine ⟨fun other hne => ?_, fun other hmem _ => ?_, fun other => ?_⟩
  · rw [h.slot_other (by simpa using hne)]
    exact .refl
  · obtain rfl : other = id := by simpa using hmem
    exact h.here.symm ▸ hslot
  · by_cases heq : other = id
    · subst heq
      exact h.here.symm ▸ h.kept.terminal
    · rw [h.slot_other heq]
      exact fun _ h => h

private theorem Takes.fades_after (h : driver.Takes ids after) (hlast : after.Fades last) :
    driver.Takes ids last := by
  refine ⟨fun id hid => (h.fades id hid).trans (hlast id), fun id hid hidle => ?_,
    fun id term hf => (hlast id).keeps term (h.keeps id term hf)⟩
  rcases h.taken id hid hidle with ⟨transfer, hrun⟩ | ⟨ending, hgone⟩
  · exact (hlast id).running transfer hrun
  · exact .inr ⟨ending, (hlast id).gone ending hgone⟩

theorem Takes.settled (h : driver.Takes ids after) (hidle : ∀ id ∈ ids, (driver.slot id).Idle)
    (hdrv : driver.Settled) : after.Settled :=
  fun id => by
    by_cases hid : id ∈ ids
    · exact .inr (h.taken id hid (hidle id hid))
    · exact (h.fades id hid).settled (hdrv id)

private theorem takes_startTransfer (hidle : (driver.slot id).Idle) (opts : TransferOptions)
    (answers : CurlAnswers) (now : Nat) :
    driver.Takes [id] (driver.startTransfer rates id opts answers now) := by
  obtain ⟨last, hlast, ⟨hrun, -⟩ | ⟨hgone | hgone, -⟩⟩ :=
    changes_startTransfer hidle rates opts answers now
  · exact hlast.takes (.inl hrun)
  · exact hlast.takes (.inr ⟨_, hgone⟩)
  · exact hlast.takes (.inr ⟨_, hgone⟩)

theorem gone_discarded (h : slot.Idle) : slot.discarded.Gone .discarded := by
  refine ⟨h.active, ⟨?_, .inr rfl⟩, fun _ hne => absurd rfl hne, rfl, fun record hrec => ?_⟩
  · simp [discarded, leave, h.head]
  · simp [discarded, leave, h.attempt] at hrec

theorem filterMap_cons_submission (cmd : Command) (cmds : List Command) :
    (cmd :: cmds).filterMap Command.submission =
      cmd.submission.toList ++ cmds.filterMap Command.submission := by
  cases cmd <;> rfl

theorem slot_discard (cmd : Command) (id : TransferId) : (driver.discard cmd).slot id =
      if cmd.submission = some id then (driver.slot id).discarded else driver.slot id := by
  cases cmd with
  | submit other opts =>
    by_cases heq : id = other
    · subst heq
      simp [discard, Command.submission]
    · have hsame : (driver.modify other discarded).slot id = driver.slot id :=
        (touches_modify discarded).slot_other heq
      simp [discard, Command.submission, hsame, Ne.symm heq]
  | resume other | cancel other | bodyDone other consumed sample => rfl

theorem slot_discards (cmds : List Command) (id : TransferId) :
    (cmds.foldl Driver.discard driver).slot id =
      if id ∈ cmds.filterMap Command.submission then (driver.slot id).discarded
      else driver.slot id := by
  induction cmds generalizing driver with
  | nil => simp
  | cons cmd cmds ih =>
    rw [foldl_cons, ih, slot_discard, filterMap_cons_submission]
    by_cases hfst : cmd.submission = some id
    · simp [hfst, discarded, leave]
    · by_cases hrest : id ∈ cmds.filterMap Command.submission
      · simp [hfst, hrest]
      · simp [hfst, hrest]

theorem cleared_discards (h : ∀ id, Cleared (driver.slot id)) (cmds : List Command)
    (id : TransferId) : Cleared ((cmds.foldl Driver.discard driver).slot id) := by
  rw [slot_discards]
  split
  · exact ⟨(h id).active, (h id).attempt⟩
  · exact h id

theorem takes_discards (cmds : List Command)
    (hidle : ∀ id ∈ cmds.filterMap Command.submission, (driver.slot id).Idle) :
    driver.Takes (cmds.filterMap Command.submission) (cmds.foldl Driver.discard driver) := by
  refine ⟨fun id hid => ?_, fun id hid _ => .inr ⟨.discarded, ?_⟩, fun id => ?_⟩
  · rw [slot_discards, if_neg hid]
    exact .refl
  · rw [slot_discards, if_pos hid]
    exact gone_discarded (hidle id hid)
  · rw [slot_discards]
    split <;> exact fun _ h => h

end Driver

/-! ## The whole system -/

namespace System

variable {ρ : Type} {rates : RateModel ρ} {sys next : System ρ} {id : TransferId}
  {caller after : Caller}

/-- A transfer is idle until its command is taken from the queue, and then running or
gone. -/
structure Placed (sys : System ρ) : Prop where
  fresh : ∀ id, sys.nextId ≤ id → sys.callers[id]? = none
  once : sys.submits.Nodup
  queued : ∀ id ∈ sys.submits, sys.Sent id
  idle : ∀ id, (sys.Sent id → id ∈ sys.submits) → (sys.driver.slot id).Idle
  placed : ∀ id, sys.Sent id → id ∉ sys.submits →
    (∃ transfer, (sys.driver.slot id).Running transfer) ∨
      ∃ ending, (sys.driver.slot id).Gone ending

theorem Placed.settled (h : sys.Placed) : sys.driver.Settled := fun id => by
  by_cases hid : sys.Sent id → id ∈ sys.submits
  · exact .inl (h.idle id hid)
  · rw [Classical.not_imp] at hid
    exact .inr (h.placed id hid.1 hid.2)

theorem Placed.takes (h : sys.Placed) (ids : List TransferId)
    (hfresh : ∀ id, next.nextId ≤ id → next.callers[id]? = none)
    (hsent : ∀ id, next.Sent id ↔ sys.Sent id)
    (hsub : sys.submits.Perm (ids ++ next.submits))
    (hdrv : sys.driver.Takes ids next.driver) : next.Placed := by
  have honce : (ids ++ next.submits).Nodup := hsub.nodup_iff.mp h.once
  have hmem : ∀ id, id ∈ sys.submits ↔ id ∈ ids ∨ id ∈ next.submits := fun id => by
    rw [hsub.mem_iff, mem_append]
  have hapart : ∀ id ∈ next.submits, id ∉ ids := fun id hid ho =>
    disjoint_of_nodup_append honce ho hid
  refine ⟨hfresh, (nodup_append.mp honce).2.1,
    fun id hid => (hsent id).mpr (h.queued id ((hmem id).mpr (.inr hid))), fun id hid => ?_,
    fun id hid hout => ?_⟩
  · have hnot : id ∉ ids := fun hin => by
      have hqd := h.queued id ((hmem id).mpr (.inl hin))
      exact hapart id (hid ((hsent id).mpr hqd)) hin
    refine (hdrv.fades id hnot).idle (h.idle id fun hwas => ?_)
    exact (hmem id).mpr (.inr (hid ((hsent id).mpr hwas)))
  · by_cases hin : id ∈ ids
    · exact hdrv.taken id hin (h.idle id fun _ => (hmem id).mpr (.inl hin))
    · have hold := h.placed id ((hsent id).mp hid) fun hqd =>
        ((hmem id).mp hqd).elim hin hout
      rcases hold with ⟨transfer, hrun⟩ | ⟨ending, hgone⟩
      · exact (hdrv.fades id hin).running transfer hrun
      · exact .inr ⟨ending, (hdrv.fades id hin).gone ending hgone⟩

theorem Placed.fades (h : sys.Placed) (hnextId : next.nextId = sys.nextId)
    (hcalls : next.callers = sys.callers) (hsub : next.submits = sys.submits)
    (hdrv : sys.driver.Fades next.driver) : next.Placed :=
  h.takes [] (by rw [hnextId, hcalls]; exact h.fresh) (fun id => by rw [Sent, Sent, hcalls])
    (by rw [hsub, nil_append]) hdrv.takes

@[simp] theorem callers_send (sys : System ρ) (cmd : Command) :
    (sys.send cmd).callers = sys.callers := by
  unfold send
  split <;> rfl

@[simp] theorem nextId_send (sys : System ρ) (cmd : Command) :
    (sys.send cmd).nextId = sys.nextId := by
  unfold send
  split <;> rfl

@[simp] theorem stage_send (sys : System ρ) (cmd : Command) :
    (sys.send cmd).stage = sys.stage := by
  unfold send
  split <;> rfl

@[simp] theorem closed_send (sys : System ρ) (cmd : Command) :
    (sys.send cmd).closed = sys.closed := by
  unfold send
  split <;> rfl

@[simp] theorem pending_send (sys : System ρ) (cmd : Command) :
    (sys.send cmd).pending = sys.pending := by
  unfold send
  split <;> rfl

theorem cleared_send (h : ∀ id, Driver.Cleared (sys.driver.slot id)) (cmd : Command) :
    ∀ id, Driver.Cleared ((sys.send cmd).driver.slot id) := by
  unfold send
  split
  · exact cleared_discards h [cmd]
  · exact h

theorem send_of_submission (sys : System ρ) {cmd : Command} (h : cmd.submission = none) :
    (sys.send cmd).driver = sys.driver ∧
      (sys.send cmd).submits = sys.submits := by
  unfold send
  split
  · cases cmd <;> first | exact ⟨rfl, rfl⟩ | cases h
  · exact ⟨rfl, by simp [submits, h]⟩

theorem sent_setCaller (sys : System ρ) (id : TransferId) (caller : Caller)
    (other : TransferId) :
    (sys.setCaller id caller).Sent other ↔
      if other = id then caller.sent = true else sys.Sent other := by
  by_cases heq : other = id
  · subst heq
    simp [Sent, setCaller]
  · simp [Sent, setCaller, heq, getElem?_insert_eq]

variable (h : sys.Placed)
include h

variable (hcaller : sys.callers[id]? = some caller)
include hcaller

theorem Placed.fresh_setCaller : ∀ other, (sys.setCaller id after).nextId ≤ other →
      (sys.setCaller id after).callers[other]? = none := by
  intro other hle
  have hne : other ≠ id := fun heq => by
    simp [h.fresh id (heq ▸ hle)] at hcaller
  simpa [setCaller, getElem?_insert_eq, hne] using h.fresh other hle

theorem Placed.setCaller (hsame : after.sent = caller.sent) : (sys.setCaller id after).Placed := by
  refine h.takes [] (h.fresh_setCaller hcaller) (fun other => ?_) (.refl _) (Driver.Fades.takes
    fun _ => .refl)
  rw [sent_setCaller]
  by_cases heq : other = id
  · subst heq
    simp [Sent, hcaller, hsame]
  · simp [heq]

omit h in
omit hcaller in
theorem talks_sent {slot : Slot} {cmd : Option Command}
    (h : Talks id slot caller cmd after) : caller.sent = true ∧ after.sent = true ∧
      ∀ said, cmd = some said → said.submission = none := by
  cases h with
  | @bodyDone consumed sample heof =>
    cases consumed <;> exact ⟨rfl, rfl, by simp [Command.submission]⟩
  | _ => exact ⟨rfl, rfl, by simp [Command.submission]⟩

omit h in
omit hcaller in
theorem driver_say {slot : Slot} {cmd : Option Command} (h : Talks id slot caller cmd after) :
    (sys.say cmd).driver = sys.driver := by
  cases cmd with
  | none => rfl
  | some said => exact (send_of_submission sys ((talks_sent h).2.2 said rfl)).1

omit hcaller in
theorem Placed.say {cmd : Option Command}
    (hsaid : ∀ said, cmd = some said → said.submission = none) :
    (sys.say cmd).Placed := by
  cases cmd with
  | none => exact h
  | some said =>
    obtain ⟨hdrv, hsub⟩ := send_of_submission sys (hsaid said rfl)
    refine h.fades (nextId_send ..) (callers_send ..) hsub fun id => ?_
    rw [System.say, hdrv]
    exact .refl

omit h in
omit hcaller in
@[simp] theorem callers_say (sys : System ρ) (cmd : Option Command) :
    (sys.say cmd).callers = sys.callers := by
  cases cmd with
  | none => rfl
  | some said => exact callers_send sys said

theorem Placed.enqueue (hsent : caller.sent = false) (opts : TransferOptions) :
    ({ sys with commands := sys.commands ++ [Command.submit id opts] }.setCaller id
      .waiting).Placed := by
  have hnew : ¬ sys.Sent id := fun ⟨found, hf, htrue⟩ => by
    rw [hcaller] at hf
    cases hf
    simp [hsent] at htrue
  have hsub : ({ sys with
      commands := sys.commands ++ [Command.submit id opts] }.setCaller id
        .waiting).submits = sys.submits ++ [id] := by
    simp [submits, System.setCaller, Command.submission]
  have hout : id ∉ sys.submits := fun hmem => hnew (h.queued id hmem)
  refine ⟨h.fresh_setCaller hcaller, ?_, fun other hmem => ?_, fun other hmem => ?_,
    fun other ho hmem => ?_⟩
  · rw [hsub]
    exact nodup_append.mpr ⟨h.once, by simp, fun a ha b hb heq => by simp_all⟩
  · rw [sent_setCaller]
    rw [hsub, mem_append, mem_singleton] at hmem
    split
    · rfl
    · exact h.queued other (hmem.resolve_right ‹_›)
  · refine h.idle other fun hwas => ?_
    rw [hsub, sent_setCaller, mem_append, mem_singleton] at hmem
    by_cases heq : other = id
    · exact absurd (heq ▸ hwas) hnew
    · exact (hmem (by rw [if_neg heq]; exact hwas)).resolve_right heq
  · rw [hsub, mem_append, mem_singleton, not_or] at hmem
    rw [sent_setCaller, if_neg hmem.2] at ho
    exact h.placed other ho hmem.1

theorem Placed.submit (hsent : caller.sent = false) (opts : TransferOptions) :
    ((sys.send (.submit id opts)).setCaller id .waiting).Placed := by
  have hqd := h.enqueue hcaller hsent opts
  unfold send
  split
  · have hidle : (sys.driver.slot id).Idle := hqd.idle id fun _ => by
      simp [submits, System.setCaller, Command.submission]
    refine hqd.takes [id] hqd.fresh (fun _ => .rfl) ?_
      (takes_discards [.submit id opts] fun other ho => ?_)
    · simpa [submits, System.setCaller, Command.submission] using
        (perm_append_singleton id sys.submits)
    · obtain rfl : other = id := by simpa [Command.submission] using ho
      exact hidle
  · exact hqd

theorem Placed.idle_of_unsent (hsent : caller.sent = false) : (sys.driver.slot id).Idle := by
  refine h.idle id fun ⟨found, hf, htrue⟩ => ?_
  rw [hcaller] at hf
  cases hf
  simp [hsent] at htrue

omit hcaller

theorem Placed.idle_of_mem (hmem : id ∈ sys.submits) : (sys.driver.slot id).Idle :=
  h.idle id fun _ => hmem

theorem Placed.idle_head {opts : TransferOptions} {pending : List Command}
    (hpend : sys.pending = .submit id opts :: pending) : (sys.driver.slot id).Idle :=
  h.idle_of_mem (by simp [submits, hpend, Command.submission])

omit h in
theorem submits_eq :
    sys.submits = sys.pending.filterMap Command.submission ++
      sys.commands.filterMap Command.submission :=
  filterMap_append

theorem Placed.idle_pending :
    ∀ id ∈ sys.pending.filterMap Command.submission, (sys.driver.slot id).Idle :=
  fun id hid => h.idle_of_mem (by rw [submits_eq]; exact mem_append_left _ hid)

theorem Placed.idle_commands :
    ∀ id ∈ sys.commands.filterMap Command.submission, (sys.driver.slot id).Idle :=
  fun id hid => h.idle_of_mem (by rw [submits_eq]; exact mem_append_right _ hid)

theorem Placed.close : sys.close.Placed := by
  refine h.takes _ h.fresh (fun _ => .rfl) ?_ (takes_discards _ h.idle_commands)
  simpa [submits, System.close] using perm_append_comm

theorem Placed.discard_pending : sys.driver.Takes (sys.pending.filterMap Command.submission)
      (sys.pending.foldl Driver.discard sys.driver) ∧
    (sys.pending.foldl Driver.discard sys.driver).Settled :=
  have hdiscards := takes_discards _ h.idle_pending
  ⟨hdiscards, hdiscards.settled h.idle_pending h.settled⟩

theorem Placed.unwind : { sys with
      driver := (sys.pending.foldl Driver.discard sys.driver).unwind
      pending := []
      stage := Stage.exiting }.Placed := by
  obtain ⟨hdiscards, hset⟩ := h.discard_pending
  exact h.takes _ h.fresh (fun _ => .rfl) (by rw [submits_eq]; rfl)
    (hdiscards.fades_after (advances_unwind hset).fades)

theorem Placed.process {cmd : Command} {pending : List Command}
    (hpend : sys.pending = cmd :: pending) (answers : CurlAnswers) (now : Nat) :
    { sys with
      driver := processCommand rates sys.driver answers now cmd
      pending := pending }.Placed := by
  have hsub : sys.submits = cmd.submission.toList ++
      (pending ++ sys.commands).filterMap Command.submission := by
    rw [submits, hpend, cons_append, filterMap_cons_submission]
  refine h.takes cmd.submission.toList h.fresh (fun _ => .rfl) (by rw [hsub]; rfl) ?_
  cases cmd with
  | submit id opts =>
    exact takes_startTransfer (h.idle_of_mem (by simp [hsub, Command.submission])) opts answers now
  | resume id => exact Driver.Fades.takes fun _ => .refl
  | cancel id => exact (advances_cancelTransfer h.settled now).fades.takes
  | bodyDone id consumed sample =>
    exact (advances_bodyDone h.settled consumed sample now).fades.takes

theorem Placed.register (change : Slot → Slot)
    (hchg : ∀ slot, (change slot).active = slot.active ∧ (change slot).head = slot.head ∧
      (change slot).ended = slot.ended ∧ (change slot).attempt = slot.attempt ∧
      (change slot).terminal = slot.terminal) :
    { sys with driver := sys.driver.modify id change }.Placed := by
  obtain ⟨hact, hhead, hend, hatt, hterm⟩ := hchg (sys.driver.slot id)
  exact h.fades rfl rfl rfl (advances_modify change
    (.of_fields hact hhead hend (.inl hatt) fun _ h => hterm.trans h)).fades

theorem Placed.get (opts : TransferOptions) : { sys with
      nextId := sys.nextId + 1
      callers := sys.callers.insert sys.nextId (Caller.admitted opts) }.Placed := by
  refine h.takes [] (fun id hid => ?_) (fun id => ?_) (.refl _) (Driver.Fades.takes fun _ => .refl)
  · have hne : id ≠ sys.nextId := fun heq => absurd (heq ▸ hid) (Nat.not_succ_le_self _)
    simpa [getElem?_insert_eq, hne] using h.fresh id (Nat.le_of_succ_le hid)
  · have hset := sent_setCaller sys sys.nextId (.admitted opts) id
    by_cases heq : id = sys.nextId
    · subst heq
      simp [Sent, h.fresh sys.nextId le_rfl, Caller.sent]
    · rw [if_neg heq] at hset
      exact hset

omit h in
private theorem placed_new : (new : System ρ).Placed := by
  have hnob : ∀ id, ¬ (new : System ρ).Sent id := fun id ⟨caller, hcaller, _⟩ => by
    simp [new] at hcaller
  refine ⟨fun id _ => by simp [new], nodup_nil, fun id hid => ?_, fun id _ => ?_,
    fun id hid => absurd hid (hnob id)⟩
  · simp [submits, new] at hid
  · have hslot : (new : System ρ).driver.slot id = .new := by simp [new, Driver.new, Driver.slot]
    rw [hslot]
    exact idle_new

theorem Placed.moves {act : SystemAction} (hmv : Moves rates sys act next) : next.Placed := by
  have hset := h.settled
  cases hmv with
  | @get opts => exact h.get opts
  | miss =>
    exact ⟨fun id hid => h.fresh id (Nat.le_of_succ_le hid), h.once, h.queued, h.idle, h.placed⟩
  | register hcaller =>
    exact (h.register Slot.register fun _ => ⟨rfl, rfl, rfl, rfl, rfl⟩).setCaller hcaller rfl
  | count hcaller =>
    have hcnt : { sys with submitted := sys.submitted + 1 }.Placed :=
      h.fades rfl rfl rfl fun _ => .refl
    exact hcnt.setCaller hcaller rfl
  | submit hcaller => exact h.submit hcaller rfl _
  | giveUp hcaller =>
    exact (h.register unregister fun _ => ⟨rfl, rfl, rfl, rfl, rfl⟩).setCaller hcaller rfl
  | talk hcaller htalks =>
    obtain ⟨hsent, haft, hsaid⟩ := talks_sent htalks
    exact (h.say hsaid).setCaller (by rw [callers_say]; exact hcaller) (by rw [hsent, haft])
  | close => exact h.close
  | drain hstg => exact h.fades rfl rfl (by simp [submits]) fun _ => .refl
  | process hstg hpend => exact h.process hpend _ _
  | inner hinner =>
    refine h.fades hinner.nextId hinner.callers ?_ fun id => ?_
    · rw [submits, submits, hinner.pending, hinner.commands]
    · rw [hinner.driver]
      exact .refl
  | header hstg => exact h.fades rfl rfl rfl (advances_header hset _).fades
  | failPool hstg => exact h.fades rfl rfl rfl (advances_failPool hset _ _ _).fades
  | complete hstg => exact h.fades rfl rfl rfl (fades_finishTransfer hset _ _ _ _ _ _)
  | shutDown hstg => exact h.fades rfl rfl rfl (advances_shutDown hset _).fades
  | unwind hstg => exact h.unwind
  | failAll hstg => exact h.fades rfl rfl rfl (advances_failAll hset).fades
  | closeQueue hstg => exact h.close.fades rfl rfl rfl fun _ => .refl

omit h

theorem Reachable.placed (h : Reachable rates sys) : sys.Placed :=
  h.invariant placed_new fun _ _ _ hpl _ hstep => hpl.moves (moves_of_step hstep)

/-! ## The stages of the driver thread -/

/-- A thread that has left its loop has neither transfers nor records. -/
structure Staged (sys : System ρ) : Prop where
  pending : sys.stage ≠ .commands → sys.pending = []
  cleared : sys.stage.inLoop = false → ∀ id, Driver.Cleared (sys.driver.slot id)

private theorem staged_new : (new : System ρ).Staged := ⟨fun _ => rfl, nofun⟩

theorem Staged.outside (h : sys.Staged) (hstg : next.stage = sys.stage)
    (hpend : next.pending = sys.pending)
    (hdrv : (∀ id, Driver.Cleared (sys.driver.slot id)) →
      ∀ id, Driver.Cleared (next.driver.slot id)) : next.Staged :=
  ⟨fun hne => hpend.trans (h.pending (hstg ▸ hne)),
    fun hout => hdrv (h.cleared (hstg ▸ hout))⟩

theorem Staged.inside (hloop : next.stage.inLoop = true)
    (hpend : next.stage ≠ .commands → next.pending = []) : next.Staged :=
  ⟨hpend, fun hout => absurd hout (by simp [hloop])⟩

theorem Staged.moves (h : sys.Staged) (hpl : sys.Placed) {act : SystemAction}
    (hmv : Moves rates sys act next) : next.Staged := by
  have hset := hpl.settled
  cases hmv with
  | get | miss => exact h.outside rfl rfl id
  | register hcaller =>
    exact h.outside rfl rfl fun hold =>
      cleared_modify hold _ fun h => ⟨h.active, h.attempt⟩
  | count hcaller => exact h.outside rfl rfl id
  | @submit id opts hcaller =>
    refine h.outside (stage_send ..) (pending_send ..) fun hold => ?_
    exact cleared_send hold _
  | giveUp hcaller =>
    exact h.outside rfl rfl fun hold =>
      cleared_modify hold _ fun h => ⟨h.active, h.attempt⟩
  | @talk act id caller after cmd hcaller htalks =>
    cases cmd with
    | none => exact h.outside rfl rfl fun hold => hold
    | some said =>
      exact h.outside (stage_send ..) (pending_send ..) fun hold => cleared_send hold said
  | close => exact h.outside rfl rfl fun hold => cleared_discards hold _
  | drain hstg => exact .inside rfl fun hne => absurd rfl hne
  | process hstg hpend => exact .inside (by rw [hstg]; rfl) fun hne => absurd hstg hne
  | inner hinner =>
    rcases hinner.stage with ⟨-, hloop, -⟩ | ⟨hold, hnew⟩
    · refine .inside hloop fun _ => hinner.pending.trans ?_
      by_cases hcmds : sys.stage = .commands
      · exact hinner.processed hcmds
      · exact h.pending hcmds
    · refine ⟨fun _ => hinner.pending.trans (h.pending (by simp [hold])), fun _ id => ?_⟩
      rw [hinner.driver]
      exact h.cleared (by rw [hold]; rfl) id
  | header hstg | failPool hstg => exact .inside (by rw [hstg]; rfl) fun hne => h.pending hne
  | complete hstg hcomps => exact .inside (by rw [hstg]; rfl) fun hne => h.pending hne
  | shutDown hstg => exact ⟨fun _ => h.pending (by simp [hstg]), fun _ => cleared_shutDown hset _⟩
  | unwind hstg => exact ⟨fun _ => rfl, fun _ => cleared_unwind hpl.discard_pending.2⟩
  | failAll hstg =>
    have hold := h.cleared (by rw [hstg]; rfl)
    exact ⟨fun _ => h.pending (by simp [hstg]), fun _ => cleared_failAll hold⟩
  | closeQueue hstg =>
    have hold := h.cleared (by rw [hstg]; rfl)
    exact ⟨fun _ => h.pending (by simp [hstg]), fun _ => cleared_discards hold _⟩

theorem Reachable.staged (h : Reachable rates sys) : sys.Staged :=
  h.invariant_along Staged staged_new fun _ _ _ hr hstgd _ hstep =>
    hstgd.moves (Reachable.placed hr) (moves_of_step hstep)

end System

end Bytehaul.Network
