import Bytehaul.Network.CommandQueue

/-!
# The last reference

`release_or_close` of `network/curl/driver/mod.rs`: the last one to let go of the command
queue closes it.
-/

namespace Bytehaul.Network

open Foundation Option Finset

inductive Reference
  | absent
  | held
  | upgraded
  | counted (count : Nat)
  | releasing
  deriving DecidableEq, Repr

namespace Reference

def weight : Reference → Nat
  | .absent => 0
  | .upgraded => 2
  | .held | .counted _ | .releasing => 1

def leaving : Reference → Bool
  | .counted _ | .releasing => true
  | .absent | .held | .upgraded => false

def usable : Reference → Bool
  | .held | .upgraded => true
  | .absent | .counted _ | .releasing => false

/-- It stays, or it is going to close the queue. -/
def Keeps (reference : Reference) : Prop := reference.usable = true ∨ reference = .counted 2

private theorem usable_of_stays {reference : Reference} (hpresent : reference ≠ .absent)
    (hstays : reference.leaving = false) : reference.usable = true := by
  cases reference with
  | absent => exact absurd rfl hpresent
  | counted | releasing => cases hstays
  | held | upgraded => rfl

end Reference

structure Ownership (ι π κ : Type) where
  queue : CommandQueue ι π κ
  strongCount : Nat
  references : ι → Reference

inductive OwnershipAction (ι π κ : Type)
  | clone (holder other : ι)
  | upgrade (holder : ι)
  | downgrade (holder : ι)
  | send (holder : ι) (command : κ)
  | count (holder : ι)
  | release (holder : ι)
  | decrement (holder : ι)
  | proceed (holder : ι)
  | check
  | driver (action : QueueAction ι π κ)
  deriving DecidableEq, Repr

namespace Ownership

variable {ι π κ : Type} [DecidableEq ι] [DecidableEq π] {holder : ι}

def start (handle : ι) : Ownership ι π κ where
  queue := .new
  strongCount := 2
  references := Function.update (fun _ => .absent) handle .held

def set (state : Ownership ι π κ) (holder : ι) (reference : Reference) : Ownership ι π κ :=
  { state with references := Function.update state.references holder reference }

def onQueue (state : Ownership ι π κ) (action : QueueAction ι π κ) :
    Option (Ownership ι π κ) :=
  (state.queue.step action).map fun queue => { state with queue := queue }

def isDriverStep : QueueAction ι π κ → Bool
  | .drain | .register _ | .prepare | .poll | .pollEnds | .unregister | .wait | .waitEnds => true
  | .send _ _ | .close _ | .wake _ | .proceed _ | .check _ => false

def step (state : Ownership ι π κ) : OwnershipAction ι π κ → Option (Ownership ι π κ)
  | .clone holder other =>
    if (state.references holder).usable ∧ state.references other = .absent then
      some { state.set other .held with strongCount := state.strongCount + 1 }
    else none
  | .upgrade holder =>
    if state.references holder = .held ∧ state.queue.senders holder = .idle then
      some { state.set holder .upgraded with strongCount := state.strongCount + 1 }
    else none
  | .downgrade holder =>
    if state.references holder = .upgraded ∧ state.queue.senders holder = .idle then
      some { state.set holder .held with strongCount := state.strongCount - 1 }
    else none
  | .send holder command =>
    if (state.references holder).usable then state.onQueue (.send holder command) else none
  | .count holder =>
    if state.references holder = .held ∧ state.queue.senders holder = .idle then
      some (state.set holder (.counted state.strongCount))
    else none
  | .release holder =>
    match state.references holder with
    | .counted count =>
      (state.set holder .releasing).onQueue (if count = 2 then .close holder else .wake holder)
    | _ => none
  | .decrement holder =>
    if state.references holder = .releasing ∧ state.queue.senders holder = .idle then
      some { state.set holder .absent with strongCount := state.strongCount - 1 }
    else none
  | .proceed holder => state.onQueue (.proceed holder)
  | .check => state.onQueue (.check (state.strongCount == 1))
  | .driver action => if isDriverStep action then state.onQueue action else none

/-- The last reference that stays does not read the count while another is on its way out. -/
def Apart (state : Ownership ι π κ) : OwnershipAction ι π κ → Prop
  | .count holder => (∀ other, (state.references other).leaving = false) ∨
      ∃ other, other ≠ holder ∧ (state.references other).usable = true
  | _ => True

instance [Fintype ι] (state : Ownership ι π κ) (action : OwnershipAction ι π κ) :
    Decidable (state.Apart action) :=
  match action with
  | .count holder => inferInstanceAs (Decidable (
      (∀ other, (state.references other).leaving = false) ∨
        ∃ other, other ≠ holder ∧ (state.references other).usable = true))
  | .clone _ _ | .upgrade _ | .downgrade _ | .send _ _ | .release _ | .decrement _
  | .proceed _ | .check | .driver _ => .isTrue trivial

def Released (state : Ownership ι π κ) : Prop := ∀ holder, state.references holder = .absent

omit [DecidableEq π] in
@[simp] theorem set_self (state : Ownership ι π κ) (holder : ι) (reference : Reference) :
    (state.set holder reference).references holder = reference :=
  Function.update_self ..

omit [DecidableEq π] in
theorem set_other (state : Ownership ι π κ) {other : ι} (reference : Reference)
    (hne : other ≠ holder) :
    (state.set holder reference).references other = state.references other :=
  Function.update_of_ne hne ..

variable [Fintype ι] {state next : Ownership ι π κ}

def outside (state : Ownership ι π κ) : Nat := ∑ holder, (state.references holder).weight

omit [DecidableEq π] in
private theorem outside_set (state : Ownership ι π κ) (holder : ι) (reference : Reference) :
    (state.set holder reference).outside + (state.references holder).weight =
      state.outside + reference.weight := by
  have hrest : ∑ other ∈ univ.erase holder, ((state.set holder reference).references other).weight =
        ∑ other ∈ univ.erase holder, (state.references other).weight :=
    sum_congr rfl fun other ho => by
      rw [set_other state reference (ne_of_mem_erase ho)]
  unfold outside
  rw [← add_sum_erase _ _ (mem_univ holder), set_self, hrest,
    ← add_sum_erase _ (fun other => (state.references other).weight) (mem_univ holder)]
  omega

omit [DecidableEq π] in
theorem exists_other (hone : state.outside ≠ 1) (hheld : (state.references holder).weight = 1) :
    ∃ other, other ≠ holder ∧ state.references other ≠ .absent := by
  by_contra hnone
  push Not at hnone
  have hrest : ∑ other ∈ univ.erase holder, (state.references other).weight = 0 :=
    sum_eq_zero fun other ho => by
      rw [hnone other (ne_of_mem_erase ho)]
      rfl
  apply hone
  unfold outside
  rw [← add_sum_erase _ _ (mem_univ holder), hheld, hrest]

structure Orderly (state : Ownership ι π κ) : Prop where
  count : state.strongCount = 1 + state.outside
  queue : state.queue.Reachable
  idle : ∀ holder, state.references holder = .absent → state.queue.senders holder = .idle
  kept : state.queue.closed = true ∨ ∃ holder, (state.references holder).Keeps

private theorem orderly_start {handle : ι} : (start handle : Ownership ι π κ).Orderly := by
  have hself : (start handle : Ownership ι π κ).references handle = .held := by simp [start]
  have ho : ∀ other, other ≠ handle →
      (start handle : Ownership ι π κ).references other = .absent := fun other hne => by
    simp [start, hne]
  have houtside : (start handle : Ownership ι π κ).outside = 1 := by
    unfold outside
    rw [sum_eq_single handle (fun other _ hne => by rw [ho other hne]; rfl)
      (fun hmem => absurd (mem_univ handle) hmem), hself]
    rfl
  exact ⟨by rw [houtside]; rfl, .refl, fun _ _ => rfl, .inr ⟨handle, .inl (by rw [hself]; rfl)⟩⟩

theorem Orderly.onQueue (h : state.Orderly) {act : QueueAction ι π κ}
    (hstep : state.onQueue act = some next)
    (hcall : ∀ holder, act.caller = some holder → state.references holder ≠ .absent) :
    next.Orderly := by
  obtain ⟨queue, hq, rfl⟩ := map_eq_some_iff.mp hstep
  obtain ⟨hclos, hsenders⟩ := CommandQueue.step_frame hq
  refine ⟨h.count, h.queue.step act trivial hq, fun holder habs => ?_, h.kept.imp_left hclos⟩
  rw [hsenders holder fun heq => hcall holder heq habs]
  exact h.idle holder habs

theorem Orderly.set (h : state.Orderly) {reference : Reference} {count : Nat}
    (hc : count + (state.references holder).weight = state.strongCount + reference.weight)
    (hgone : reference = .absent → state.queue.senders holder = .idle)
    (hkeeps : (state.references holder).Keeps → state.queue.closed = true ∨ reference.Keeps ∨
      ∃ other, other ≠ holder ∧ (state.references other).Keeps) :
    ({ state.set holder reference with strongCount := count } : Ownership ι π κ).Orderly := by
  have houtside := outside_set state holder reference
  have hsum := h.count
  constructor
  case count =>
    change count = 1 + (state.set holder reference).outside
    omega
  case queue => exact h.queue
  case idle =>
    intro other habs
    by_cases heq : other = holder
    · subst heq
      exact hgone (by simpa using habs)
    · exact h.idle other (by simpa [set_other state reference heq] using habs)
  case kept =>
    rcases h.kept with hclos | ⟨other, ho⟩
    · exact .inl hclos
    by_cases heq : other = holder
    · subst heq
      rcases hkeeps ho with hclos | hnew | ⟨third, hne, hthird⟩
      · exact .inl hclos
      · exact .inr ⟨other, by rwa [set_self]⟩
      · exact .inr ⟨third, by rwa [set_other state reference hne]⟩
    · exact .inr ⟨other, by rwa [set_other state reference heq]⟩

theorem Orderly.release (h : state.Orderly) (hstep : state.step (.release holder) = some next) :
    next.Orderly := by
  unfold Ownership.step at hstep
  dsimp only at hstep
  split at hstep
  case h_2 => cases hstep
  case h_1 count hcnt =>
    obtain ⟨queue, hq, rfl⟩ := map_eq_some_iff.mp hstep
    have hmid : ({ state with queue := queue } : Ownership ι π κ).Orderly := by
      refine h.onQueue (map_eq_some_iff.mpr ⟨queue, hq, rfl⟩) fun caller hcall => ?_
      obtain rfl : holder = caller := by split at hcall <;> exact some.inj hcall
      simp [hcnt]
    have hweight : state.strongCount + (state.references holder).weight =
        state.strongCount + Reference.releasing.weight := by simp [hcnt, Reference.weight]
    refine hmid.set hweight (by simp) fun hkeeps => .inl ?_
    obtain rfl : count = 2 := by simpa [Reference.Keeps, Reference.usable, hcnt] using hkeeps
    obtain ⟨-, hnext⟩ := ite_none_right_eq_some.mp hq
    cases hnext
    rfl

theorem Orderly.step (h : state.Orderly) {act : OwnershipAction ι π κ}
    (hapart : state.Apart act) (hstep : state.step act = some next) : next.Orderly := by
  cases act with
  | clone holder other =>
    exact of_guard hstep fun ⟨_, habs⟩ => h.set (by simp [habs, Reference.weight]) (by simp)
      fun _ => .inr (.inl (.inl rfl))
  | upgrade holder =>
    exact of_guard hstep fun ⟨hheld, _⟩ => h.set (by simp [hheld, Reference.weight]) (by simp)
      fun _ => .inr (.inl (.inl rfl))
  | downgrade holder =>
    obtain ⟨⟨hupgraded, -⟩, hnext⟩ := ite_none_right_eq_some.mp hstep
    cases hnext
    have hpos := h.count
    refine h.set ?_ (by simp) fun _ => .inr (.inl (.inl rfl))
    simp only [hupgraded, Reference.weight]
    omega
  | send holder cmd =>
    obtain ⟨husab, hnext⟩ := ite_none_right_eq_some.mp hstep
    refine h.onQueue hnext fun caller hcall habs => ?_
    obtain rfl : holder = caller := some.inj hcall
    simp [habs, Reference.usable] at husab
  | count holder =>
    obtain ⟨⟨hheld, -⟩, hnext⟩ := ite_none_right_eq_some.mp hstep
    cases hnext
    refine h.set (by simp [hheld, Reference.weight]) (by simp) fun _ => .inr ?_
    rcases hapart with hnone | ⟨other, hne, husab⟩
    · by_cases htwo : state.strongCount = 2
      · exact .inl (.inr (by rw [htwo]))
      · have hone : state.outside ≠ 1 := by
          have hc := h.count
          omega
        obtain ⟨other, hne, ho⟩ := exists_other hone (by rw [hheld]; rfl)
        exact .inr ⟨other, hne, .inl (Reference.usable_of_stays ho (hnone other))⟩
    · exact .inr ⟨other, hne, .inl husab⟩
  | release holder => exact h.release hstep
  | decrement holder =>
    obtain ⟨⟨hreleasing, hidle⟩, hnext⟩ := ite_none_right_eq_some.mp hstep
    cases hnext
    have hpos := h.count
    refine h.set ?_ (fun _ => hidle) fun hkeeps => ?_
    · simp only [hreleasing, Reference.weight]
      omega
    · simp [hreleasing, Reference.Keeps, Reference.usable] at hkeeps
  | proceed holder =>
    refine h.onQueue hstep fun caller hcall habs => ?_
    obtain rfl : holder = caller := some.inj hcall
    obtain ⟨queue, hq, -⟩ := map_eq_some_iff.mp hstep
    simp [CommandQueue.step, CommandQueue.proceed, h.idle holder habs] at hq
  | check => exact h.onQueue hstep fun caller hcall => by simp [QueueAction.caller] at hcall
  | driver act =>
    obtain ⟨hdrv, hnext⟩ := ite_none_right_eq_some.mp hstep
    refine h.onQueue hnext fun caller hcall => ?_
    cases act <;> simp_all [isDriverStep, QueueAction.caller]

/-- If the last one that stays is not counted while another one is on its way out, it closes the
queue and interrupts the driver. -/
theorem last_reference_closes {handle : ι}
    (hreach : Reaches step Apart (start handle : Ownership ι π κ) state)
    (hreleased : state.Released) : state.queue.closed = true ∧ state.queue.driver ≠ .waiting ∧
      ∀ pool, state.queue.driver = .checked pool ∨ state.queue.driver = .polling pool →
        state.queue.woken pool = true := by
  have horderly : state.Orderly := hreach.invariant (orderly_start)
    fun _ _ _ h hapart hstep => h.step hapart hstep
  have hclos : state.queue.closed = true := by
    rcases horderly.kept with hclos | ⟨holder, hkeeps⟩
    · exact hclos
    · simp [hreleased holder, Reference.Keeps, Reference.usable] at hkeeps
  have htold := horderly.queue.told
  obtain ⟨call, hcall⟩ : ∃ call, call ∈ state.queue.closers := by
    apply List.exists_mem_of_ne_nil
    intro hnil
    simp [htold.closers.mp hnil] at hclos
  have hann : call ∈ state.queue.announced := List.mem_append_right _ hcall
  have hidle : ∀ holder, state.queue.senders holder = .idle := fun holder =>
    horderly.idle holder (hreleased holder)
  refine ⟨hclos, fun hwait => ?_, fun pool hpool => ?_⟩
  · obtain ⟨sender, hsend⟩ := htold.wait hwait call hann
    simp [hidle] at hsend
  · rcases htold.poll pool hpool call hann with hwoken | ⟨sender, hsend⟩
    · exact hwoken
    · simp [hidle] at hsend

def view (state : Ownership Bool Unit Unit) : Bool × Turn Unit × Reference × Reference :=
  (state.queue.closed, state.queue.driver, state.references false, state.references true)

theorem two_references_close : ∃ state : Ownership Bool Unit Unit,
    Reaches step Apart (start false) state ∧ state.Released ∧ state.queue.closed = true ∧
      state.queue.driver ≠ .waiting := by
  have hview : (runLabels step (fun state action => decide (state.Apart action))
      (start false : Ownership Bool Unit Unit)
      [.clone false true, .driver .drain, .check, .driver .wait, .count false, .release false,
        .proceed false, .proceed false, .driver .drain, .check, .driver .wait,
        .decrement false, .count true, .release true, .proceed true, .proceed true,
        .decrement true]).map view = some (true, .running, .absent, .absent) := by decide
  obtain ⟨state, hrun, heq⟩ := map_eq_some_iff.mp hview
  simp only [view, Prod.mk.injEq] at heq
  obtain ⟨-, -, hfst, hsnd⟩ := heq
  have hr : Reaches step Apart (start false) state :=
    Reaches.of_runLabels hrun .refl fun _ _ hapart => of_decide_eq_true hapart
  have hrel : state.Released := fun holder => by cases holder <;> assumption
  obtain ⟨hclos, hdrv, -⟩ := last_reference_closes hr hrel
  exact ⟨state, hr, hrel, hclos, hdrv⟩

/-- Two references are counted before either is given back, and neither closes the queue. -/
theorem simultaneous_drops_do_not_close : ∃ state : Ownership Bool Unit Unit,
    Reaches step (fun _ _ => True) (start false) state ∧ state.Released ∧
      state.queue.closed = false ∧ state.queue.driver = .waiting := by
  have hview : (runLabels step (fun _ _ => true) (start false : Ownership Bool Unit Unit)
      [.clone false true, .driver .drain, .check, .driver .wait, .count false, .count true,
        .release false, .proceed false, .proceed false, .release true, .proceed true,
        .proceed true, .driver .drain, .check, .driver .wait, .decrement false,
        .decrement true]).map view = some (false, .waiting, .absent, .absent) := by decide
  obtain ⟨state, hr, heq⟩ := Reaches.exists_of_run hview
  simp only [view, Prod.mk.injEq] at heq
  obtain ⟨hclos, hdrv, hfst, hsnd⟩ := heq
  exact ⟨state, hr, fun holder => by cases holder <;> assumption, hclos, hdrv⟩

end Ownership

end Bytehaul.Network
