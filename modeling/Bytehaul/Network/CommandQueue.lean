import Bytehaul.Foundation.Runs

/-!
# The command queue

`CommandQueue` of `network/curl/driver/mod.rs`: how `send`, `close` and `wake` interrupt a
waiting driver. Commands and waker are under two locks, so each critical section is a step.
-/

namespace Bytehaul.Network

open Foundation List Option Function

/-- Where a caller of `send`, `close` or `wake` is; the number is the call's. -/
inductive Sender
  | idle
  | signalling (call : Nat)
  | notifying (call : Nat)
  deriving DecidableEq, Repr

/-- Where the driver thread is in its loop. -/
inductive Turn (π : Type)
  | running
  | drained
  | turned
  | registered (pool : π)
  | refused
  | checked (pool : π)
  | polling (pool : π)
  | returned
  | waiting
  | stopped
  deriving DecidableEq, Repr

/-- A command stands next to the number of its call; `closers` are the calls that closed the queue,
and `woken` are the pools signalled since their last poll. -/
structure CommandQueue (ι π κ : Type) where
  commands : List (Nat × κ)
  closed : Bool
  pollWaker : Option π
  woken : π → Bool
  calls : Nat
  closers : List Nat
  senders : ι → Sender
  driver : Turn π

inductive QueueAction (ι π κ : Type)
  | send (sender : ι) (command : κ)
  | close (sender : ι)
  | wake (sender : ι)
  | proceed (sender : ι)
  | drain
  | check (last : Bool)
  | register (pool : π)
  | prepare
  | poll
  | pollEnds
  | unregister
  | wait
  | waitEnds
  deriving DecidableEq, Repr

def QueueAction.caller {ι π κ : Type} : QueueAction ι π κ → Option ι
  | .send sender _ | .close sender | .wake sender | .proceed sender => some sender
  | .drain | .check _ | .register _ | .prepare | .poll | .pollEnds | .unregister | .wait
  | .waitEnds => none

namespace CommandQueue

section Source

variable {ι π κ : Type} [DecidableEq ι] [DecidableEq π]

def new : CommandQueue ι π κ where
  commands := []
  closed := false
  pollWaker := none
  woken := fun _ => false
  calls := 0
  closers := []
  senders := fun _ => .idle
  driver := .running

def hasWork (queue : CommandQueue ι π κ) : Bool := !queue.commands.isEmpty || queue.closed

def called (queue : CommandQueue ι π κ) (sender : ι) : CommandQueue ι π κ :=
  { queue with
    calls := queue.calls + 1
    senders := update queue.senders sender (.signalling queue.calls) }

/-- A command that is sent after the queue was closed is dropped. -/
def send (queue : CommandQueue ι π κ) (sender : ι) (command : κ) : CommandQueue ι π κ :=
  if queue.closed then queue
  else
    { queue with commands := queue.commands ++ [(queue.calls, command)] }.called sender

def close (queue : CommandQueue ι π κ) (sender : ι) : CommandQueue ι π κ :=
  { queue with
    closed := true
    commands := []
    closers := queue.calls :: queue.closers }.called sender

def wakePoll (queue : CommandQueue ι π κ) : CommandQueue ι π κ :=
  match queue.pollWaker with
  | some pool => { queue with woken := update queue.woken pool true }
  | none => queue

def notify (queue : CommandQueue ι π κ) : CommandQueue ι π κ :=
  if queue.driver = .waiting then { queue with driver := .running } else queue

def proceed (queue : CommandQueue ι π κ) (sender : ι) : Option (CommandQueue ι π κ) :=
  match queue.senders sender with
  | .idle => none
  | .signalling call =>
    some { queue.wakePoll with
      senders := update queue.senders sender (.notifying call) }
  | .notifying _ =>
    some { queue.notify with senders := update queue.senders sender .idle }

def step (queue : CommandQueue ι π κ) : QueueAction ι π κ → Option (CommandQueue ι π κ)
  | .send sender command =>
    if queue.senders sender = .idle then some (queue.send sender command) else none
  | .close sender =>
    if queue.senders sender = .idle then some (queue.close sender) else none
  | .wake sender =>
    if queue.senders sender = .idle then some (queue.called sender) else none
  | .proceed sender => queue.proceed sender
  | .drain =>
    if queue.driver = .running then some { queue with commands := [], driver := .drained }
    else none
  | .check last =>
    if queue.driver = .drained then
      some { queue with driver := if queue.closed || last then .stopped else .turned }
    else none
  | .register pool =>
    if queue.driver = .turned then
      some { queue with pollWaker := some pool, driver := .registered pool }
    else none
  | .prepare =>
    match queue.driver with
    | .registered pool =>
      some { queue with driver := if queue.hasWork then .refused else .checked pool }
    | _ => none
  | .poll =>
    match queue.driver with
    | .checked pool => some { queue with driver := .polling pool }
    | _ => none
  | .pollEnds =>
    match queue.driver with
    | .polling pool =>
      some { queue with
        woken := update queue.woken pool false
        driver := .returned }
    | _ => none
  | .unregister =>
    if queue.driver = .refused ∨ queue.driver = .returned then
      some { queue with pollWaker := none, driver := .running }
    else none
  | .wait =>
    if queue.driver = .turned then
      some { queue with driver := if queue.hasWork then .running else .waiting }
    else none
  | .waitEnds =>
    if queue.driver = .waiting then some { queue with driver := .running } else none

abbrev Reachable : CommandQueue ι π κ → Prop := Reaches step (fun _ _ => True) new

end Source

section Frame

variable {ι π κ : Type} [DecidableEq ι] [DecidableEq π] {queue next : CommandQueue ι π κ}

omit [DecidableEq π] in
theorem called_senders {sender other : ι} (hne : other ≠ sender) :
    (queue.called sender).senders other = queue.senders other :=
  update_of_ne hne ..

private theorem proceed_frame {sender : ι} (hstep : queue.proceed sender = some next) :
    next.closed = queue.closed ∧
      ∀ other, other ≠ sender → next.senders other = queue.senders other := by
  unfold proceed at hstep
  split at hstep
  · cases hstep
  · cases hstep
    refine ⟨?_, fun other hne => update_of_ne hne ..⟩
    unfold wakePoll
    split <;> rfl
  · cases hstep
    refine ⟨?_, fun other hne => update_of_ne hne ..⟩
    unfold notify
    split <;> rfl

theorem step_frame {act : QueueAction ι π κ} (hstep : queue.step act = some next) :
    (queue.closed = true → next.closed = true) ∧
      ∀ other, act.caller ≠ some other → next.senders other = queue.senders other := by
  cases act with
  | proceed sender =>
    obtain ⟨hclos, hsenders⟩ := proceed_frame hstep
    exact ⟨fun h => hclos ▸ h, fun other hne => hsenders other fun heq => hne (heq ▸ rfl)⟩
  | send sender cmd =>
    obtain ⟨-, hnext⟩ := ite_none_right_eq_some.mp hstep
    cases hnext
    unfold send
    split
    · exact ⟨id, fun _ _ => rfl⟩
    · exact ⟨id, fun other hne => called_senders fun heq => hne (heq ▸ rfl)⟩
  | close sender =>
    apply of_guard hstep
    exact fun _ => ⟨fun _ => rfl, fun other hne => called_senders fun heq => hne (heq ▸ rfl)⟩
  | wake sender =>
    apply of_guard hstep
    exact fun _ => ⟨id, fun other hne => called_senders fun heq => hne (heq ▸ rfl)⟩
  | drain | check last | register pool | unregister | wait | waitEnds =>
    apply of_guard hstep
    exact fun _ => ⟨id, fun _ _ => rfl⟩
  | prepare | poll | pollEnds =>
    unfold step at hstep
    dsimp only at hstep
    split at hstep
    · cases hstep
      exact ⟨id, fun _ _ => rfl⟩
    · cases hstep

end Frame

variable {ι π κ : Type}

def announced (queue : CommandQueue ι π κ) : List Nat :=
  queue.commands.map Prod.fst ++ queue.closers

/-- What the driver waits for has a caller that is still to interrupt it. -/
structure Told (queue : CommandQueue ι π κ) : Prop where
  closers : queue.closers = [] ↔ queue.closed = false
  waker : ∀ pool, queue.driver = .registered pool ∨ queue.driver = .checked pool ∨
    queue.driver = .polling pool → queue.pollWaker = some pool
  poll : ∀ pool, queue.driver = .checked pool ∨ queue.driver = .polling pool →
    ∀ call ∈ queue.announced, queue.woken pool = true ∨
      ∃ sender, queue.senders sender = .signalling call
  wait : queue.driver = .waiting → ∀ call ∈ queue.announced,
    ∃ sender, queue.senders sender = .signalling call ∨ queue.senders sender = .notifying call

variable {queue next : CommandQueue ι π κ}

private theorem told_new : (new : CommandQueue ι π κ).Told where
  closers := ⟨fun _ => rfl, fun _ => rfl⟩
  waker pool h := by simp [new] at h
  poll pool h := by simp [new] at h
  wait h := by simp [new] at h

variable (h : queue.Told)
include h

theorem announced_of_idle (hwork : queue.hasWork = false) : queue.announced = [] := by
  obtain ⟨hcmds, hclos⟩ : queue.commands = [] ∧ queue.closed = false := by
    simpa [hasWork] using hwork
  simp [announced, hcmds, h.closers.mpr hclos]

variable [DecidableEq ι] {sender : ι}

variable (hidle : queue.senders sender = .idle)
include hidle

theorem Told.called {cmds : List (Nat × κ)} {closed : Bool} {closers : List Nat}
    (hclosers : closers = [] ↔ closed = false)
    (hann : ∀ call ∈ cmds.map Prod.fst ++ closers,
      call = queue.calls ∨ call ∈ queue.announced) :
    ({ queue with commands := cmds, closed := closed, closers := closers }.called sender).Told := by
  have hself : (update queue.senders sender (.signalling queue.calls)) sender =
      .signalling queue.calls := update_self ..
  have ho : ∀ {other state}, queue.senders other = state → state ≠ .idle →
      (update queue.senders sender (.signalling queue.calls)) other = state := by
    rintro other state rfl hstate
    have hne : other ≠ sender := by
      rintro rfl
      exact hstate hidle
    exact update_of_ne hne ..
  refine ⟨hclosers, h.waker, ?_, ?_⟩
  · intro pool hpool call hcall
    rcases hann call hcall with rfl | hold
    · exact .inr ⟨sender, hself⟩
    · rcases h.poll pool hpool call hold with hwoken | ⟨other, hsig⟩
      · exact .inl hwoken
      · exact .inr ⟨other, ho hsig (by simp)⟩
  · intro hwait call hcall
    rcases hann call hcall with rfl | hold
    · exact ⟨sender, .inl hself⟩
    · obtain ⟨other, hsig | hnotify⟩ := h.wait hwait call hold
      · exact ⟨other, .inl (ho hsig (by simp))⟩
      · exact ⟨other, .inr (ho hnotify (by simp))⟩

theorem Told.send {cmd : κ} : (queue.send sender cmd).Told := by
  unfold CommandQueue.send
  split
  · exact h
  · refine h.called hidle h.closers fun call hcall => ?_
    simp only [map_append, map_cons, map_nil, append_assoc, mem_append, mem_singleton] at hcall
    rcases hcall with hold | hnew | hclose
    · exact .inr (mem_append_left _ hold)
    · exact .inl hnew
    · exact .inr (mem_append_right _ hclose)

theorem Told.close : (queue.close sender).Told := by
  refine h.called hidle (by simp) fun call hcall => ?_
  rw [map_nil, nil_append, mem_cons] at hcall
  rcases hcall with hnew | hclose
  · exact .inl hnew
  · exact .inr (mem_append_right _ hclose)

theorem Told.wake : (queue.called sender).Told :=
  h.called hidle h.closers fun _ hcall => .inr hcall

omit hidle

variable [DecidableEq π]

theorem Told.proceed (hstep : queue.proceed sender = some next) : next.Told := by
  unfold CommandQueue.proceed at hstep
  split at hstep
  case h_1 => cases hstep
  case h_2 call hsend =>
    have ho : ∀ {other mine}, queue.senders other = .signalling mine ∨
        queue.senders other = .notifying mine →
        (update queue.senders sender (.notifying call)) other = .signalling mine ∨
          (update queue.senders sender (.notifying call)) other = .notifying mine := by
      intro other mine hstate
      by_cases heq : other = sender
      · simp_all
      · rw [update_of_ne heq]
        exact hstate
    cases hstep
    unfold wakePoll
    split
    case h_1 pool hpool =>
      refine ⟨h.closers, h.waker, ?_, ?_⟩
      · intro polled hpolled call hcall
        have hsame := h.waker polled (.inr hpolled)
        rw [hpool, some.injEq] at hsame
        exact .inl (by simp [hsame])
      · intro hwait call hcall
        obtain ⟨other, hstate⟩ := h.wait hwait call hcall
        exact ⟨other, ho hstate⟩
    case h_2 hnone =>
      refine ⟨h.closers, h.waker, ?_, ?_⟩
      · intro polled hpolled
        simp [h.waker polled (.inr hpolled)] at hnone
      · intro hwait call hcall
        obtain ⟨other, hstate⟩ := h.wait hwait call hcall
        exact ⟨other, ho hstate⟩
  case h_3 call hsend =>
    cases hstep
    unfold CommandQueue.notify
    split
    · exact ⟨h.closers, fun pool hpool => by simp at hpool, fun pool hpool => by simp at hpool,
        fun hwait => by simp at hwait⟩
    · rename_i hwaiting
      refine ⟨h.closers, h.waker, ?_, fun hwait => absurd hwait hwaiting⟩
      intro pool hpool call hcall
      rcases h.poll pool hpool call hcall with hwoken | ⟨other, hsig⟩
      · exact .inl hwoken
      · refine .inr ⟨other, ?_⟩
        rw [← hsig]
        exact update_of_ne (fun heq => by simp_all) ..

theorem Told.step {act : QueueAction ι π κ} (hstep : queue.step act = some next) : next.Told := by
  cases act with
  | send sender cmd => exact of_guard hstep fun hidle => h.send hidle
  | close sender => exact of_guard hstep h.close
  | wake sender => exact of_guard hstep h.wake
  | proceed sender => exact h.proceed hstep
  | drain | register pool | unregister | waitEnds =>
    exact of_guard hstep fun _ => ⟨h.closers, by simp, by simp, by simp⟩
  | check last => exact of_guard hstep fun _ => ⟨h.closers, by grind, by grind, by grind⟩
  | prepare =>
    unfold CommandQueue.step at hstep
    dsimp only at hstep
    split at hstep
    case h_1 pool hdrv =>
      cases hstep
      have hwaker := h.waker pool (.inl hdrv)
      cases hwork : queue.hasWork with
      | true => exact ⟨h.closers, by simp, by simp, by simp⟩
      | false =>
        have hnone := announced_of_idle h hwork
        refine ⟨h.closers, by simpa using hwaker, ?_, by simp⟩
        intro _ _ call hcall
        change call ∈ queue.announced at hcall
        simp [hnone] at hcall
    case h_2 => cases hstep
  | poll =>
    unfold CommandQueue.step at hstep
    dsimp only at hstep
    split at hstep
    case h_1 pool hdrv =>
      cases hstep
      refine ⟨h.closers, by simpa using h.waker pool (.inr (.inl hdrv)), ?_, by simp⟩
      intro polled hpolled
      obtain rfl : pool = polled := by simpa using hpolled
      exact h.poll pool (.inl hdrv)
    case h_2 => cases hstep
  | pollEnds =>
    unfold CommandQueue.step at hstep
    dsimp only at hstep
    split at hstep
    · cases hstep
      exact ⟨h.closers, by simp, by simp, by simp⟩
    · cases hstep
  | wait =>
    obtain ⟨-, hnext⟩ := ite_none_right_eq_some.mp hstep
    cases hnext
    cases hwork : queue.hasWork with
    | true => exact ⟨h.closers, by simp, by simp, by simp⟩
    | false =>
      have hnone := announced_of_idle h hwork
      refine ⟨h.closers, by simp, by simp, ?_⟩
      intro _ call hcall
      change call ∈ queue.announced at hcall
      simp [hnone] at hcall

omit h

theorem Reachable.told (h : queue.Reachable) : queue.Told :=
  h.invariant told_new fun _ _ _ htold _ hstep => htold.step hstep

/-- A command or close whose caller has signalled makes the next poll return at once, and one whose
caller has notified does not find the driver waiting. -/
theorem no_wakeup_is_lost (hreach : queue.Reachable) {call : Nat} (hcall : call ∈ queue.announced) :
    (∀ pool, queue.driver = .checked pool ∨ queue.driver = .polling pool →
      (∀ sender, queue.senders sender ≠ .signalling call) → queue.woken pool = true) ∧
    ((∀ sender, queue.senders sender ≠ .signalling call ∧
      queue.senders sender ≠ .notifying call) → queue.driver ≠ .waiting) := by
  have htold := hreach.told
  refine ⟨fun pool hpool hdone => ?_, fun hdone hwait => ?_⟩
  · rcases htold.poll pool hpool call hcall with hwoken | ⟨sender, hsig⟩
    · exact hwoken
    · exact absurd hsig (hdone sender)
  · obtain ⟨sender, hsig | hnotify⟩ := htold.wait hwait call hcall
    · exact (hdone sender).1 hsig
    · exact (hdone sender).2 hnotify

theorem command_before_poll : ∃ queue : CommandQueue Unit Unit Unit, queue.Reachable ∧
    queue.driver = .polling () ∧ 0 ∈ queue.announced ∧ queue.woken () = true := by
  have hview : (runLabels step (fun _ _ => true) (new : CommandQueue Unit Unit Unit)
      [.drain, .check false, .register (), .prepare, .send () (), .poll, .proceed ()]).map
      (fun queue => (queue.driver, queue.announced, queue.senders ())) =
        some (.polling (), [0], .notifying 0) := by decide
  obtain ⟨queue, hr, heq⟩ := Reaches.exists_of_run hview
  simp only [Prod.mk.injEq] at heq
  obtain ⟨hdrv, hann, hsend⟩ := heq
  have hcall : 0 ∈ queue.announced := by simp [hann]
  exact ⟨queue, hr, hdrv, hcall, (no_wakeup_is_lost hr hcall).1 () (.inr hdrv)
    fun _ => by simp [hsend]⟩

end CommandQueue

end Bytehaul.Network
