import Bytehaul.Storage.Delivery

/-!
# What is on its way to the file

`InFlight` bounds the bytes that can still be written; `Sends` and `Awaits` say what the
writer will know once it has worked off the channel.
-/

namespace Bytehaul.Storage

open Foundation Foundation.DiskFile List

def WriterCommand.ack? {α : Type} : WriterCommand α → Option α
  | .flushLease _ ack | .discardLease _ ack | .flushAll _ ack => some ack
  | _ => none

namespace WriterTask

variable {α : Type} {P Q : Allowance} {G : Nat → UInt8 → Prop} {task next : WriterTask}
  {channel : List (WriterCommand α)} {command head : WriterCommand α} {key : LeaseKey}
  {lo hi : Nat}

theorem CommandWithin.mono (h : CommandWithin P command)
    (hPQ : ∀ key b v, P key b v → Q key b v) : CommandWithin Q command := by
  cases command with
  | data offset data permit leaseKey => exact fun b v hv => hPQ _ b v (h b v hv)
  | _ => trivial

/-- Everything buffered or still in the channel is allowed. -/
structure InFlight (P : Allowance) (task : WriterTask) (channel : List (WriterCommand α)) :
    Prop where
  within : Within P task
  commands : ∀ command ∈ channel, CommandWithin P command

theorem InFlight.mono (h : InFlight P task channel) (hPQ : ∀ key b v, P key b v → Q key b v) :
    InFlight Q task channel :=
  ⟨h.within.mono hPQ, fun command hcmd => (h.commands command hcmd).mono hPQ⟩

theorem InFlight.all {ι : Type} {s : ι → Prop} {R : ι → Allowance} (h : InFlight P task channel)
    (hall : ∀ i, s i → InFlight (R i) task channel) :
    InFlight (fun key b v => P key b v ∧ ∀ i, s i → R i key b v) task channel := by
  refine ⟨⟨fun key b v hv => ⟨h.within.cached key b v hv,
    fun i hi => (hall i hi).within.cached key b v hv⟩,
    fun offset data hsing b v hv => ⟨h.within.single offset data hsing b v hv,
      fun i hi => (hall i hi).within.single offset data hsing b v hv⟩, h.within.cursor⟩, ?_⟩
  intro command hcmd
  have hP := h.commands command hcmd
  have hR := fun i hi => (hall i hi).commands command hcmd
  cases command with
  | data offset data permit leaseKey => exact fun b v hv => ⟨hP b v hv, fun i hi => hR i hi b v hv⟩
  | _ => trivial

theorem InFlight.post (h : InFlight P task channel) (hcmd : CommandWithin P command) :
    InFlight P task (channel ++ [command]) := by
  refine ⟨h.within, fun other ho => ?_⟩
  rcases mem_append.mp ho with ho | ho
  · exact h.commands other ho
  · obtain rfl := mem_singleton.mp ho
    exact hcmd

theorem InFlight.moves (h : InFlight P task (command :: channel)) :
    Moves P task (task.process command) :=
  process_moves h.within (h.commands command mem_cons_self)

theorem InFlight.process (h : InFlight P task (command :: channel))
    (hok : task.process command = .ok next) : InFlight P next channel :=
  ⟨h.moves.within next hok, fun other ho => h.commands other (mem_cons_of_mem _ ho)⟩

theorem InFlight.run (h : InFlight P task channel) (hok : task.runCommands channel = .ok next) :
    Within P next :=
  runCommands_within h.within h.commands hok

theorem InFlight.new (file : DiskFile) (watermark : Nat) :
    InFlight P (WriterTask.new file watermark) ([] : List (WriterCommand α)) := by
  refine ⟨⟨fun _ _ _ hv => absurd hv WriteBackCache.not_buffers_new, ?_, ?_⟩, by simp⟩
  · rintro _ _ ⟨⟩
  · rintro _ ⟨⟩

abbrev Without (key : LeaseKey) : Allowance := fun owner _ _ => owner ≠ some key

abbrev Quiet (task : WriterTask) (channel : List (WriterCommand α)) (key : LeaseKey) : Prop :=
  InFlight (Without key) task channel

/-- Once the channel is worked off, the writer carries `[lo, hi)` of the lease. -/
def Sends (G : Nat → UInt8 → Prop) (task : WriterTask) (channel : List (WriterCommand α))
    (key : LeaseKey) (lo hi : Nat) : Prop :=
  ∀ done, task.runCommands channel = .ok done → Carries G done key lo hi

theorem Sends.process (h : Sends G task (command :: channel) key lo hi)
    (hok : task.process command = .ok next) : Sends G next channel key lo hi := by
  intro done hdone
  apply h done
  simp only [runCommands, hok]
  exact hdone

theorem runCommands_snoc (hok : task.runCommands (channel ++ [command]) = .ok next) :
    ∃ mid, task.runCommands channel = .ok mid ∧ mid.process command = .ok next := by
  rw [runCommands_append] at hok
  obtain ⟨mid, hmid, hok⟩ := bind_eq_ok hok
  obtain ⟨last, hlast, hdone⟩ := bind_eq_ok hok
  cases hdone
  exact ⟨mid, hmid, hlast⟩

theorem Sends.post (h : Sends G task channel key lo hi)
    (hfly : InFlight (fun _ => G) task channel) (hcmd : CommandWithin (fun _ => G) command)
    (hret : ¬ Retires key command) : Sends G task (channel ++ [command]) key lo hi := by
  intro done hdone
  obtain ⟨mid, hmid, hlast⟩ := runCommands_snoc hdone
  exact process_carries (hfly.run hmid) hcmd (h mid hmid) hret hlast

theorem Sends.begin : Sends G task (channel ++ [.beginLease key]) key lo lo := by
  intro done hdone
  obtain ⟨mid, -, hlast⟩ := runCommands_snoc hdone
  exact process_beginLease_carries hlast

theorem Sends.data {data : List UInt8} {permit : Option Nat} (h : Sends G task channel key lo hi)
    (hfly : InFlight (fun _ => G) task channel) (hdata : ∀ b v, Lays hi data b v → G b v) :
    Sends G task (channel ++ [.data hi data permit (some key)]) key lo (hi + data.length) := by
  intro done hdone
  obtain ⟨mid, hmid, hlast⟩ := runCommands_snoc hdone
  exact processData_carries (hfly.run hmid) (fun _ => hdata) (h mid hmid)
    (.inr ⟨rfl, rfl, rfl⟩) hlast

/-- When the writer gets to its party's one command, it carries `[lo, hi)` of the lease, and
nothing of the lease follows. -/
def Awaits (G : Nat → UInt8 → Prop) (task : WriterTask) (channel : List (WriterCommand α))
    (command : WriterCommand α) (key : LeaseKey) (lo hi : Nat) : Prop :=
  ∃ before after, channel = before ++ command :: after ∧
    (∀ other ∈ before ++ after, other.ack? ≠ command.ack?) ∧
    (∀ other ∈ after, CommandWithin (Without key) other) ∧ Sends G task before key lo hi

theorem Sends.ask (h : Sends G task channel key lo hi)
    (hclear : ∀ other ∈ channel, other.ack? ≠ command.ack?) :
    Awaits G task (channel ++ [command]) command key lo hi :=
  ⟨channel, [], rfl, by simpa using hclear, by simp, h⟩

theorem Awaits.post {other : WriterCommand α} (h : Awaits G task channel command key lo hi)
    (hack : other.ack? ≠ command.ack?) (hwithout : CommandWithin (Without key) other) :
    Awaits G task (channel ++ [other]) command key lo hi := by
  obtain ⟨before, after, rfl, hclear, haft, hsends⟩ := h
  refine ⟨before, after ++ [other], by simp, ?_, ?_, hsends⟩
  · intro found hf
    rw [← append_assoc, mem_append, mem_singleton] at hf
    rcases hf with hf | rfl
    · exact hclear found hf
    · exact hack
  · intro found hf
    rcases mem_append.mp hf with hf | hf
    · exact haft found hf
    · obtain rfl := mem_singleton.mp hf
      exact hwithout

theorem Awaits.process (h : Awaits G task (head :: channel) command key lo hi)
    (hok : task.process head = .ok next) :
    (head.ack? ≠ command.ack? ∧ Awaits G next channel command key lo hi) ∨
      (head = command ∧ (∀ other ∈ channel, other.ack? ≠ command.ack?) ∧
        (∀ other ∈ channel, CommandWithin (Without key) other) ∧ Carries G task key lo hi) := by
  obtain ⟨before, after, heq, hclear, haft, hsends⟩ := h
  cases before with
  | nil =>
    obtain ⟨rfl, rfl⟩ := heq
    exact .inr ⟨rfl, hclear, haft, hsends task rfl⟩
  | cons first before =>
    obtain ⟨rfl, rfl⟩ := heq
    refine .inl ⟨hclear head (by simp), before, after, rfl, ?_, haft, hsends.process hok⟩
    exact fun other ho => hclear other (by
      exact mem_cons_of_mem _ ho)

theorem quiet_of_retires (hfly : InFlight (fun _ => G) task (command :: channel))
    (hret : Retires key command) (haft : ∀ other ∈ channel, CommandWithin (Without key) other)
    (hok : task.process command = .ok next) : Quiet next channel key := by
  refine ⟨⟨?_, fun _ _ _ _ _ _ => by simp, (hfly.process hok).within.cursor⟩, haft⟩
  rintro other b v hv heq
  obtain rfl := Option.some.inj heq
  exact not_buffers_of_retires hfly.within hret hok hv

end WriterTask

end Bytehaul.Storage
