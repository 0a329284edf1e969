import Bytehaul.Session.Single.Run
import Bytehaul.Storage.Stream

/-!
# The written prefix

The task sends its data in file order, so at every point the writer has been given the
bytes below one position and no others.
-/

namespace Bytehaul.Session

open Foundation Storage Storage.WriterTask Option

def IsData : WriterCommand Unit → Prop
  | .data _ _ _ none => True
  | _ => False

theorem IsData.unkeyed {command : WriterCommand Unit} (h : IsData command) : Unkeyed command := by
  cases command with
  | data offset data permit leaseKey => cases leaseKey <;> exact h
  | _ => cases h

namespace SingleWriter

def outlook (writer : SingleWriter) : Canvas := writer.task.outlook writer.channel

structure Settled (writer : SingleWriter) : Prop where
  channel : writer.channel = []
  ground : writer.task.ground = writer.outlook
  synced : writer.task.Synced

structure Fed (writer : SingleWriter) (n : Nat) : Prop where
  streaming : writer.task.Streaming
  filled : writer.outlook.Filled n

structure Flowing (writer : SingleWriter) (n : Nat) : Prop extends writer.Fed n where
  sender : writer.sender = true
  running : writer.outcome = none
  mailbox : writer.mailbox = none
  data : ∀ command ∈ writer.channel, IsData command

/-- A flush was asked for: it is still the last command, or it has been acknowledged. -/
structure Waiting (writer : SingleWriter) (n : Nat) : Prop extends writer.Fed n where
  sender : writer.sender = true
  running : writer.outcome = none
  answer : (writer.mailbox = none ∧ ∃ earlier, writer.channel = earlier ++ [.flushAll true ()] ∧
      ∀ command ∈ earlier, IsData command) ∨
    (writer.mailbox = some n ∧ writer.Settled)

structure Closing (writer : SingleWriter) (n : Nat) : Prop extends writer.Fed n where
  sender : writer.sender = false
  mailbox : writer.mailbox = none
  data : ∀ command ∈ writer.channel, IsData command
  ended : writer.outcome = none ∨ (writer.outcome = some (.ok ()) ∧ writer.Settled)

structure Closed (writer : SingleWriter) (n : Nat) : Prop extends writer.Closing n where
  done : writer.outcome = some (.ok ())

structure Resting (writer : SingleWriter) (n : Nat) : Prop extends writer.Flowing n where
  settled : writer.Settled

/-- The writer task ended with an error, and no acknowledgement is left behind. -/
structure Broken (writer : SingleWriter) : Prop where
  failed : ∃ error, writer.outcome = some (.error error)
  mailbox : writer.mailbox = none

variable {writer next : SingleWriter} {n : Nat}

theorem Broken.ended (h : writer.Broken) : writer.outcome ≠ none := by
  obtain ⟨error, herr⟩ := h.failed
  rw [herr]
  exact some_ne_none _

theorem Closed.settled (h : writer.Closed n) : writer.Settled := by
  rcases h.ended with hnone | ⟨-, hset⟩
  · rw [h.done] at hnone
    cases hnone
  · exact hset

theorem Closed.of_closing (h : writer.Closing n) (hdone : writer.outcome = some (.ok ())) :
    writer.Closed n :=
  ⟨h, hdone⟩

theorem Fed.writtenBytes (h : writer.Fed n) (hset : writer.Settled) :
    writer.task.writtenBytes = n := by
  have hr : writer.task.ground.reach = n := by
    rw [hset.ground]
    exact h.filled.reach
  exact hr

theorem Fed.durable_iff (h : writer.Fed n) (hset : writer.Settled) (b : Nat) :
    writer.task.file.durable b = true ↔ b < n := by
  have hwr : writer.task.ground.written b = true ↔ b < n := by
    rw [hset.ground]
    exact h.filled.written b
  rw [← hset.synced.delivered.alike.durable, hset.synced.durable b]
  exact hwr

theorem Flowing.close (h : writer.Flowing n) : Closing { writer with sender := false } n where
  streaming := h.streaming
  filled := h.filled
  sender := rfl
  mailbox := h.mailbox
  data := h.data
  ended := .inl h.running

theorem Flowing.flush (h : writer.Flowing n) : (writer.post (.flushAll true ())).Waiting n where
  streaming := h.streaming
  filled := by
    have hsame : (writer.post (.flushAll true ())).outlook = writer.outlook := outlook_snoc _ _
    rw [hsame]
    exact h.filled
  sender := h.sender
  running := h.running
  answer := .inl ⟨h.mailbox, writer.channel, rfl, h.data⟩

theorem Flowing.send (h : writer.Flowing n) (part : List UInt8) (permit : Option Nat) :
    (writer.post (.data n part permit none)).Flowing (n + part.length) where
  streaming := h.streaming
  filled := by
    have hlaid : (writer.post (.data n part permit none)).outlook = writer.outlook.lay n part :=
      outlook_snoc _ _
    rw [hlaid]
    exact h.filled.lay
  sender := h.sender
  running := h.running
  mailbox := h.mailbox
  data := by
    intro cmd hcmd
    rcases List.mem_append.mp hcmd with hold | hnew
    · exact h.data cmd hold
    · obtain rfl := List.mem_singleton.mp hnew
      trivial

theorem Waiting.receive {writtenBytes : Nat} (h : writer.Waiting n)
    (hmail : writer.mailbox = some writtenBytes) :
    writtenBytes = n ∧ Resting { writer with mailbox := none } n := by
  rcases h.answer with ⟨hnone, -⟩ | ⟨hsome, hset⟩
  · rw [hnone] at hmail
    cases hmail
  · rw [hsome] at hmail
    cases hmail
    refine ⟨rfl, { h with mailbox := rfl, data := ?_, settled := ?_ }⟩
    · intro cmd hcmd
      rw [hset.channel] at hcmd
      cases hcmd
    · exact ⟨hset.channel, hset.ground, hset.synced⟩

theorem resting_start {cfg : SingleConfig} {file : DiskFile} {totalSize : Option Nat}
    (hwr : ∀ b, file.written b = true ↔ b < n) (hlen : n ≤ file.content.length)
    (hdur : ∀ b, file.durable b = file.written b) :
    (SingleWriter.start cfg file n totalSize).Resting n where
  streaming := streaming_new _ _ fun b hb => (hdur b).symm.trans hb
  filled := ⟨hwr, rfl, hlen⟩
  sender := rfl
  running := rfl
  mailbox := rfl
  data _ h := by cases h
  settled := ⟨rfl, rfl, ⟨rfl, rfl⟩, hdur⟩

theorem Fed.process {cmd : WriterCommand Unit} {channel : List (WriterCommand Unit)}
    {task : WriterTask} (h : writer.Fed n) (hchan : writer.channel = cmd :: channel)
    (hcmd : Unkeyed cmd) (hok : writer.task.process cmd = .ok task) :
    Fed { writer with channel := channel, task := task } n where
  streaming := (process_paints h.streaming hcmd hok).1
  filled := by
    have hsame : outlook { writer with channel := channel, task := task } = writer.outlook := by
      unfold outlook
      rw [hchan]
      exact outlook_process h.streaming hcmd hok
    rw [hsame]
    exact h.filled

theorem write_cases (hstep : writer.write = some next) :
    writer.outcome = none ∧ ∃ cmd channel, writer.channel = cmd :: channel ∧
      ((∃ task, writer.task.process cmd = .ok task ∧
        next = { writer with channel := channel, task := task }.deliver
          (writer.task.reply task cmd)) ∨
      ∃ error task, next = { writer with
        channel := [], task := task, outcome := some (.error error) }) := by
  unfold write at hstep
  split at hstep
  · cases hstep
  · rename_i hlive
    refine ⟨by simpa using hlive, ?_⟩
    split at hstep
    · cases hstep
    · rename_i cmd channel hchan
      refine ⟨cmd, channel, hchan, ?_⟩
      split at hstep
      · rename_i task hok
        exact .inl ⟨task, hok, (some.inj hstep).symm⟩
      · rename_i error task herr
        exact .inr ⟨error, task, (some.inj hstep).symm⟩

theorem deliver_data {cmd : WriterCommand Unit} (hdata : IsData cmd)
    (before after : WriterTask) : writer.deliver (before.reply after cmd) = writer := by
  cases cmd with
  | data offset data permit leaseKey => rfl
  | _ => cases hdata

theorem Flowing.write (h : writer.Flowing n) (hstep : writer.write = some next) :
    next.Broken ∨ next.Flowing n := by
  obtain ⟨-, command, channel, hchan, ⟨task, hok, rfl⟩ | ⟨error, task, rfl⟩⟩ := write_cases hstep
  · right
    have hdata : IsData command := h.data command (by simp [hchan])
    rw [deliver_data hdata]
    exact { h.toFed.process hchan hdata.unkeyed hok with
      sender := h.sender
      running := h.running
      mailbox := h.mailbox
      data := fun other ho => h.data other (by simp [hchan, ho]) }
  · exact .inl ⟨⟨error, rfl⟩, h.mailbox⟩

theorem Closing.write (h : writer.Closing n) (hstep : writer.write = some next) :
    next.Broken ∨ next.Closing n := by
  obtain ⟨hlive, command, channel, hchan, ⟨task, hok, rfl⟩ | ⟨error, task, rfl⟩⟩ :=
    write_cases hstep
  · right
    have hdata : IsData command := h.data command (by simp [hchan])
    rw [deliver_data hdata]
    exact { h.toFed.process hchan hdata.unkeyed hok with
      sender := h.sender
      mailbox := h.mailbox
      data := fun other ho => h.data other (by simp [hchan, ho])
      ended := .inl hlive }
  · exact .inl ⟨⟨error, rfl⟩, h.mailbox⟩

theorem Waiting.write (h : writer.Waiting n) (hstep : writer.write = some next) :
    next.Broken ∨ next.Waiting n := by
  obtain ⟨-, command, channel, hchan, hnext⟩ := write_cases hstep
  rcases h.answer with ⟨hnone, earlier, hearl, hdata⟩ | ⟨-, hset⟩
  · rcases hnext with ⟨task, hok, rfl⟩ | ⟨error, task, rfl⟩
    · right
      cases earlier with
      | nil =>
        obtain ⟨rfl, rfl⟩ : command = .flushAll true () ∧ channel = [] := by
          rw [hchan] at hearl
          simpa using hearl
        have hunkeyed : Unkeyed (.flushAll true () : WriterCommand Unit) := trivial
        have hfed := h.toFed.process hchan hunkeyed hok
        obtain ⟨hgrd, hsync⟩ := flushAll_settles h.streaming hok
        have hset : Settled { writer with channel := [], task := task } := by
          refine ⟨rfl, ?_, hsync⟩
          exact hgrd.trans (process_paints h.streaming hunkeyed hok).2.symm
        have hwr := hfed.writtenBytes hset
        exact { hfed with
          sender := h.sender
          running := h.running
          answer := .inr ⟨congrArg some hwr,
            ⟨hset.channel, hset.ground, hset.synced⟩⟩ }
      | cons first rest =>
        obtain ⟨rfl, rfl⟩ : command = first ∧ channel = rest ++ [.flushAll true ()] := by
          rw [hchan] at hearl
          simpa using hearl
        have hfst : IsData command := hdata command List.mem_cons_self
        rw [deliver_data hfst]
        exact { h.toFed.process hchan hfst.unkeyed hok with
          sender := h.sender
          running := h.running
          answer := .inl ⟨hnone, rest, rfl,
            fun other ho => hdata other (List.mem_cons_of_mem _ ho)⟩ }
    · exact .inl ⟨⟨error, rfl⟩, hnone⟩
  · rw [hset.channel] at hchan
    cases hchan

theorem not_write_of_settled (h : writer.Settled) : writer.write ≠ some next := by
  intro hstep
  obtain ⟨-, cmd, channel, hchan, -⟩ := write_cases hstep
  rw [h.channel] at hchan
  cases hchan

theorem finish_cases (hstep : writer.finish = some next) :
    writer.outcome = none ∧ writer.sender = false ∧ writer.channel = [] ∧
      ((∃ task, writer.task.finish = .ok task ∧
        next = { writer with task := task, outcome := some (.ok ()) }) ∨
      ∃ error task, next = { writer with task := task, outcome := some (.error error) }) := by
  unfold finish at hstep
  split at hstep
  · cases hstep
  · rename_i hopen
    push Not at hopen
    refine ⟨by simpa using hopen.1, by simpa using hopen.2.1, hopen.2.2, ?_⟩
    split at hstep
    · rename_i task hok
      exact .inl ⟨task, hok, (some.inj hstep).symm⟩
    · rename_i error task herr
      exact .inr ⟨error, task, (some.inj hstep).symm⟩

theorem Closing.finish (h : writer.Closing n) (hstep : writer.finish = some next) :
    next.Broken ∨ next.Closing n := by
  obtain ⟨-, -, hchan, ⟨task, hok, rfl⟩ | ⟨error, task, rfl⟩⟩ := finish_cases hstep
  · right
    obtain ⟨hstrm, hcanv, hgrd, hsync⟩ := finish_settles h.streaming hok
    have hsame : outlook { writer with task := task, outcome := some (.ok ()) } =
        writer.outlook := by
      unfold outlook
      rw [hchan]
      exact hcanv
    exact {
      streaming := hstrm
      filled := hsame ▸ h.filled
      sender := h.sender
      mailbox := h.mailbox
      data := h.data
      ended := .inr ⟨rfl, hchan, by
        rw [hsame, outlook, hchan]
        exact hgrd, hsync⟩ }
  · exact .inl ⟨⟨error, rfl⟩, h.mailbox⟩

end SingleWriter

end Bytehaul.Session
