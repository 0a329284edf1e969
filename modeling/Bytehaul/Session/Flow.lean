import Bytehaul.Foundation.Counting
import Bytehaul.Foundation.Runs
import Bytehaul.Foundation.Semaphore
import Bytehaul.Storage.Bitset
import Bytehaul.Storage.Permits

/-!
# The memory budget

`session/flow.rs`: producers take a permit for every byte of a chunk, wait for a slot of the
channel and send the chunk to the writer task.
-/

namespace Bytehaul.Session

open Foundation Storage List Function

structure MemoryBudget where
  bytes : Nat
  maxChunk : Nat
  watermark : Nat

def MemoryBudget.new (bytes : Nat) : MemoryBudget where
  bytes := bytes
  maxChunk := min (divCeil bytes 2) (2 ^ 32 - 1)
  watermark := max (bytes / 2) 1

/-- Where a call of `forward_observed` is. -/
inductive ForwardPhase
  | idle
  | rateLimited
  | memoryBlocked
  | channelBlocked
  deriving DecidableEq, Repr

structure Producer where
  phase : ForwardPhase
  data : List UInt8
  offset : Nat
  leaseKey : Option LeaseKey
  deriving DecidableEq

def Producer.new : Producer := ⟨.idle, [], 0, none⟩

structure Flow (n : Nat) (α : Type) where
  semaphore : Semaphore (Fin n)
  producers : Fin n → Producer
  channel : List (WriterCommand α)
  writer : WriterTask
  ended : Bool

def Producer.chunkLen (budget : MemoryBudget) (producer : Producer) : Nat :=
  min producer.data.length budget.maxChunk

def Producer.enter (producer : Producer) (phase : ForwardPhase) : Producer :=
  { producer with phase := phase }

def Producer.next (producer : Producer) : Producer :=
  producer.enter (if producer.data = [] then .idle else .rateLimited)

inductive FlowAction (n : Nat) (α : Type)
  | call (p : Fin n) (data : List UInt8) (offset : Nat) (leaseKey : Option LeaseKey)
  | throttle (p : Fin n)
  | grant
  | send (p : Fin n)
  | interrupt (p : Fin n)
  | command (command : WriterCommand α)
  | write
  | finish

namespace Flow

variable {n : Nat} {α : Type}

def start (budget : MemoryBudget) (file : DiskFile) : Flow n α where
  semaphore := .new budget.bytes
  producers := fun _ => .new
  channel := []
  writer := .new file budget.watermark
  ended := false

def setProducer (flow : Flow n α) (p : Fin n) (producer : Producer) : Flow n α :=
  { flow with producers := update flow.producers p producer }

def inTransit (channel : List (WriterCommand α)) : Nat :=
  (channel.map WriterCommand.permitBytes).sum

def close (flow : Flow n α) (last : WriterTask) : Flow n α :=
  { flow with
    semaphore := flow.semaphore.release
      (WriterTask.held flow.writer.permits + inTransit flow.channel)
    channel := []
    writer := { last with permits := [] }
    ended := true }

def call (flow : Flow n α) (p : Fin n) (data : List UInt8) (offset : Nat)
    (leaseKey : Option LeaseKey) : Option (Flow n α) :=
  if (flow.producers p).phase = .idle then
    some (flow.setProducer p (Producer.next ⟨.idle, data, offset, leaseKey⟩))
  else none

def throttle (budget : MemoryBudget) (flow : Flow n α) (p : Fin n) : Option (Flow n α) :=
  let producer := flow.producers p
  if producer.phase = .rateLimited then
    some { flow.setProducer p (producer.enter .memoryBlocked) with
      semaphore := flow.semaphore.request p (producer.chunkLen budget) }
  else none

def grant (flow : Flow n α) : Option (Flow n α) :=
  match flow.semaphore.grant with
  | some (p, semaphore) =>
    some { flow.setProducer p ((flow.producers p).enter .channelBlocked) with
      semaphore := semaphore }
  | none => none

def send (budget : MemoryBudget) (capacity : Nat) (flow : Flow n α) (p : Fin n) :
    Option (Flow n α) :=
  let producer := flow.producers p
  let len := producer.chunkLen budget
  if producer.phase = .channelBlocked ∧ flow.ended = false ∧ flow.channel.length < capacity then
    some { flow.setProducer p (Producer.next
        { producer with data := producer.data.drop len, offset := producer.offset + len }) with
      channel := flow.channel ++
        [.data producer.offset (producer.data.take len) (some len) producer.leaseKey] }
  else none

/-- The future is dropped: a queued request is withdrawn, acquired permits go back. -/
def interrupt (budget : MemoryBudget) (flow : Flow n α) (p : Fin n) : Option (Flow n α) :=
  let producer := flow.producers p
  let idle := flow.setProducer p (producer.enter .idle)
  match producer.phase with
  | .idle => none
  | .rateLimited => some idle
  | .memoryBlocked => some { idle with semaphore := flow.semaphore.withdraw p }
  | .channelBlocked => some { idle with
      semaphore := flow.semaphore.release (producer.chunkLen budget) }

def command (capacity : Nat) (flow : Flow n α) (command : WriterCommand α) :
    Option (Flow n α) :=
  if command.isData = false ∧ flow.ended = false ∧ flow.channel.length < capacity then
    some { flow with channel := flow.channel ++ [command] }
  else none

/-- One turn of the writer: the permits it lets go return to the semaphore. -/
def write (flow : Flow n α) : Option (Flow n α) :=
  match flow.channel with
  | [] => none
  | command :: channel =>
    if flow.ended then none
    else match flow.writer.process command with
      | .ok next => some { flow with
          semaphore := flow.semaphore.release
            (WriterTask.held flow.writer.permits + command.permitBytes -
              WriterTask.held next.permits)
          channel := channel
          writer := next }
      | .error (_, last) => some (flow.close last)

def finish (flow : Flow n α) : Option (Flow n α) :=
  if flow.channel = [] ∧ flow.ended = false ∧ ∀ p, (flow.producers p).phase = .idle then
    match flow.writer.finish with
    | .ok last => some (flow.close last)
    | .error (_, last) => some (flow.close last)
  else none

def step (budget : MemoryBudget) (capacity : Nat) (flow : Flow n α) :
    FlowAction n α → Option (Flow n α)
  | .call p data offset leaseKey => flow.call p data offset leaseKey
  | .throttle p => flow.throttle budget p
  | .grant => flow.grant
  | .send p => flow.send budget capacity p
  | .interrupt p => flow.interrupt budget p
  | .command command => flow.command capacity command
  | .write => flow.write
  | .finish => flow.finish

def holds (budget : MemoryBudget) (producer : Producer) : Nat :=
  if producer.phase = .channelBlocked then producer.chunkLen budget else 0

def outstanding (budget : MemoryBudget) (flow : Flow n α) : Nat :=
  ∑ p, holds budget (flow.producers p) + inTransit flow.channel +
    WriterTask.held flow.writer.permits

/-- The queue holds the waiting producers, each once and with the length of its chunk. -/
structure Lined (budget : MemoryBudget) (queue : List (Fin n × Nat))
    (producers : Fin n → Producer) : Prop where
  queued : ∀ entry ∈ queue, (producers entry.1).phase = .memoryBlocked ∧
    entry.2 = (producers entry.1).chunkLen budget
  waiting : ∀ p, (producers p).phase = .memoryBlocked → p ∈ queue.map Prod.fst
  nodup : (queue.map Prod.fst).Nodup

structure Balanced (budget : MemoryBudget) (flow : Flow n α) : Prop where
  conserved : flow.semaphore.free + flow.outstanding budget = budget.bytes
  backed : ∀ command ∈ flow.channel, command.Backed
  accounted : flow.ended = false → flow.writer.Accounted
  watermark : flow.ended = false → flow.writer.cacheHighWatermark = budget.watermark
  low : WriterTask.held flow.writer.permits < budget.watermark
  closed : flow.ended = true → flow.channel = [] ∧ flow.writer.permits = []
  lined : Lined budget flow.semaphore.queue flow.producers

variable {budget : MemoryBudget} {flow next : Flow n α} {capacity : Nat}

private theorem balanced_start {bytes : Nat} {file : DiskFile} :
    Balanced (.new bytes) (start (.new bytes) file : Flow n α) where
  conserved := by
    simp [outstanding, start, holds, Producer.new, inTransit, Semaphore.new, WriterTask.new,
      WriterTask.held, MemoryBudget.new]
  backed := by simp [start]
  accounted _ := WriterTask.accounted_new file _
  watermark _ := rfl
  low := by
    change 0 < max _ 1
    omega
  closed h := Bool.noConfusion h
  lined := by
    refine ⟨fun entry he => ?_, fun p hp => ?_, nodup_nil⟩
    · cases he
    · cases hp

theorem sum_holds (budget : MemoryBudget) (flow : Flow n α) (p : Fin n) (producer : Producer) :
    ∑ q, holds budget ((flow.setProducer p producer).producers q) +
        holds budget (flow.producers p) =
      ∑ q, holds budget (flow.producers q) + holds budget producer := by
  have hexch := sum_exchange (Finset.mem_univ p) (f := fun q => holds budget (flow.producers q))
    (g := fun q => holds budget ((flow.setProducer p producer).producers q))
    fun q hq => by simp [setProducer, update_of_ne hq]
  simpa [setProducer] using hexch

section Lined

variable {queue : List (Fin n × Nat)} {producers : Fin n → Producer} {p : Fin n}
  {producer : Producer}

variable (h : Lined budget queue producers)
include h

theorem Lined.not_mem (hphase : (producers p).phase ≠ .memoryBlocked) : p ∉ queue.map Prod.fst := by
  intro hmem
  obtain ⟨entry, he, rfl⟩ := mem_map.mp hmem
  exact hphase (h.queued entry he).1

theorem Lined.update (hbef : p ∉ queue.map Prod.fst) (haft : producer.phase ≠ .memoryBlocked) :
    Lined budget queue (update producers p producer) where
  queued entry he := by
    have hne : entry.1 ≠ p := by
      rintro rfl
      exact hbef (mem_map_of_mem he)
    rw [update_of_ne hne]
    exact h.queued entry he
  waiting q hq := by
    by_cases hne : q = p
    · subst hne
      rw [update_self] at hq
      exact absurd hq haft
    · rw [update_of_ne hne] at hq
      exact h.waiting q hq
  nodup := h.nodup

theorem Lined.push
    (hbef : (producers p).phase ≠ .memoryBlocked) (haft : producer.phase = .memoryBlocked) :
    Lined budget (queue ++ [(p, producer.chunkLen budget)])
      (Function.update producers p producer) where
  queued entry he := by
    rcases mem_append.mp he with hold | hnew
    · have hne : entry.1 ≠ p := by
        rintro rfl
        exact h.not_mem hbef (mem_map_of_mem hold)
      rw [update_of_ne hne]
      exact h.queued entry hold
    · rw [mem_singleton] at hnew
      subst hnew
      rw [update_self]
      exact ⟨haft, rfl⟩
  waiting q hq := by
    rw [map_append, mem_append]
    by_cases hne : q = p
    · exact .inr (by simp [hne])
    · rw [update_of_ne hne] at hq
      exact .inl (h.waiting q hq)
  nodup := by
    rw [map_append]
    refine nodup_append.mpr ⟨h.nodup, nodup_singleton _, fun q hq r hr => ?_⟩
    rintro rfl
    rw [map_singleton, mem_singleton] at hr
    subst hr
    exact h.not_mem hbef hq

theorem Lined.leave {rest : List (Fin n × Nat)}
    (hrest : ∀ entry, entry ∈ rest ↔ entry ∈ queue ∧ entry.1 ≠ p)
    (hsublist : rest.Sublist queue) (haft : producer.phase ≠ .memoryBlocked) :
    Lined budget rest (Function.update producers p producer) where
  queued entry he := by
    obtain ⟨hmem, hne⟩ := (hrest entry).mp he
    rw [update_of_ne hne]
    exact h.queued entry hmem
  waiting q hq := by
    by_cases hne : q = p
    · subst hne
      rw [update_self] at hq
      exact absurd hq haft
    · rw [update_of_ne hne] at hq
      obtain ⟨entry, hmem, rfl⟩ := mem_map.mp (h.waiting q hq)
      exact mem_map_of_mem ((hrest entry).mpr ⟨hmem, hne⟩)
  nodup := (hsublist.map Prod.fst).nodup h.nodup

end Lined

section Producers

variable {p : Fin n} {producer : Producer}

variable (h : Balanced budget flow)
include h

theorem Balanced.turn {semaphore : Semaphore (Fin n)}
    {channel : List (WriterCommand α)} (hback : ∀ cmd ∈ channel, cmd.Backed)
    (hchan : flow.ended = true → channel = [])
    (hcons : semaphore.free + holds budget producer + inTransit channel =
      flow.semaphore.free + holds budget (flow.producers p) + inTransit flow.channel)
    (hlined : Lined budget semaphore.queue (update flow.producers p producer)) :
    Balanced budget { flow.setProducer p producer with
      semaphore := semaphore
      channel := channel } where
  conserved := by
    have hsum := sum_holds budget flow p producer
    have hbef := h.conserved
    unfold outstanding at hbef ⊢
    change semaphore.free + (∑ q, holds budget ((flow.setProducer p producer).producers q) +
      inTransit channel + WriterTask.held flow.writer.permits) = _
    omega
  backed := hback
  accounted := h.accounted
  watermark := h.watermark
  low := h.low
  closed hclos := ⟨hchan hclos, (h.closed hclos).2⟩
  lined := hlined

theorem Balanced.pause {semaphore : Semaphore (Fin n)}
    (hcons : semaphore.free + holds budget producer =
      flow.semaphore.free + holds budget (flow.producers p))
    (hlined : Lined budget semaphore.queue (update flow.producers p producer)) :
    Balanced budget { flow.setProducer p producer with semaphore := semaphore } := by
  refine h.turn h.backed (fun hclos => (h.closed hclos).1) ?_ hlined
  rw [hcons]
  rfl

omit h in
theorem holds_enter {phase : ForwardPhase} (h : phase ≠ .channelBlocked) :
    holds budget (producer.enter phase) = 0 :=
  if_neg h

omit h in
theorem holds_eq {phase : ForwardPhase} (hphase : producer.phase = phase) : holds budget producer =
      if phase = .channelBlocked then producer.chunkLen budget else 0 := by
  rw [holds, hphase]

omit h in
theorem Lined.not_mem_of {phase : ForwardPhase} {queue : List (Fin n × Nat)}
    {producers : Fin n → Producer} (h : Lined budget queue producers)
    (hphase : (producers p).phase = phase) (hne : phase ≠ .memoryBlocked) :
    p ∉ queue.map Prod.fst :=
  h.not_mem (hphase ▸ hne)

omit h in
theorem next_phase (budget : MemoryBudget) (producer : Producer) :
    producer.next.phase ≠ .memoryBlocked ∧ holds budget producer.next = 0 := by
  unfold Producer.next
  split
  · exact ⟨(nomatch ·), rfl⟩
  · exact ⟨(nomatch ·), rfl⟩

theorem Balanced.call {data : List UInt8} {offset : Nat} {leaseKey : Option LeaseKey}
    (hok : flow.call p data offset leaseKey = some next) : Balanced budget next := by
  unfold Flow.call at hok
  split at hok
  case isFalse => cases hok
  case isTrue hidle =>
    cases hok
    obtain ⟨hphase, hholds⟩ := next_phase budget ⟨.idle, data, offset, leaseKey⟩
    refine h.pause ?_ (h.lined.update (h.lined.not_mem_of hidle (by decide)) hphase)
    rw [hholds, holds_eq hidle]
    rfl

theorem Balanced.throttle (hok : flow.throttle budget p = some next) : Balanced budget next := by
  unfold Flow.throttle at hok
  dsimp only at hok
  split at hok
  case isFalse => cases hok
  case isTrue hlimited =>
    cases hok
    have hlined : Lined budget _ (update flow.producers p
        ((flow.producers p).enter .memoryBlocked)) :=
      h.lined.push (hlimited ▸ by decide) rfl
    refine h.pause ?_ hlined
    rw [holds_enter (by decide), holds_eq hlimited]
    rfl

theorem Balanced.grant (hok : flow.grant = some next) : Balanced budget next := by
  unfold Flow.grant at hok
  split at hok
  case h_2 => cases hok
  case h_1 p semaphore hgrant =>
    cases hok
    obtain ⟨len, hq, hfree⟩ := Semaphore.grant_eq_some hgrant
    obtain ⟨hphase, hlen⟩ := h.lined.queued (p, len) (by rw [hq]; exact mem_cons_self)
    have hnodup := h.lined.nodup
    rw [hq, map_cons, nodup_cons] at hnodup
    refine h.pause ?_ (h.lined.leave (fun entry => ?_) (hq ▸ sublist_cons_self _ _)
      fun hblocked => nomatch hblocked)
    · have hblocked : ((flow.producers p).enter .channelBlocked).phase = .channelBlocked := rfl
      have hchunk : ((flow.producers p).enter .channelBlocked).chunkLen budget = len := hlen.symm
      rw [holds_eq hphase, holds_eq hblocked, hfree, if_pos rfl, if_neg (by decide), hchunk,
        Nat.add_zero]
    · rw [hq, mem_cons]
      constructor
      · refine fun hmem => ⟨.inr hmem, fun hp => hnodup.1 ?_⟩
        exact mem_map.mpr ⟨entry, hmem, hp⟩
      · rintro ⟨rfl | hmem, hne⟩
        · exact absurd rfl hne
        · exact hmem

theorem Balanced.send (hok : flow.send budget capacity p = some next) : Balanced budget next := by
  unfold Flow.send at hok
  dsimp only at hok
  split at hok
  case isFalse => cases hok
  case isTrue hready =>
    cases hok
    obtain ⟨hblocked, hlive, -⟩ := hready
    obtain ⟨hphase, hholds⟩ := next_phase budget { flow.producers p with
      data := (flow.producers p).data.drop ((flow.producers p).chunkLen budget)
      offset := (flow.producers p).offset + (flow.producers p).chunkLen budget }
    refine h.turn ?_ ?_ ?_ (h.lined.update (h.lined.not_mem_of hblocked (by decide)) hphase)
    · intro cmd hcmd
      rcases mem_append.mp hcmd with hold | hnew
      · exact h.backed cmd hold
      · rw [mem_singleton] at hnew
        subst hnew
        change some _ = some _
        rw [Producer.chunkLen]
        simp
    · intro hclos
      rw [hlive] at hclos
      cases hclos
    · rw [hholds, holds_eq hblocked, if_pos rfl, inTransit, inTransit, map_append, sum_append]
      change flow.semaphore.free + 0 + (_ + (flow.producers p).chunkLen budget) = _
      omega

theorem Balanced.interrupt (hok : flow.interrupt budget p = some next) : Balanced budget next := by
  have hidle : ((flow.producers p).enter .idle).phase ≠ .memoryBlocked := fun hp => nomatch hp
  unfold Flow.interrupt at hok
  dsimp only at hok
  cases hphase : (flow.producers p).phase with
  | idle =>
    rw [hphase] at hok
    cases hok
  | rateLimited =>
    rw [hphase] at hok
    cases hok
    refine h.pause ?_ (h.lined.update (h.lined.not_mem_of hphase (by decide)) hidle)
    rw [holds_enter (by decide), holds_eq hphase]
    rfl
  | memoryBlocked =>
    rw [hphase] at hok
    cases hok
    refine h.pause ?_ (h.lined.leave (fun entry => ?_) filter_sublist hidle)
    · rw [holds_enter (by decide), holds_eq hphase]
      rfl
    · simp [Semaphore.withdraw]
  | channelBlocked =>
    rw [hphase] at hok
    cases hok
    refine h.pause ?_ (h.lined.update (h.lined.not_mem_of hphase (by decide)) hidle)
    rw [holds_enter (by decide), holds_eq hphase]
    rfl

end Producers

variable (h : Balanced budget flow)
include h

theorem Balanced.command {cmd : WriterCommand α}
    (hok : flow.command capacity cmd = some next) : Balanced budget next := by
  unfold Flow.command at hok
  split at hok
  case isFalse => cases hok
  case isTrue hready =>
    cases hok
    obtain ⟨hplain, hlive, -⟩ := hready
    have hnoth : cmd.Backed ∧ cmd.permitBytes = 0 := by
      cases cmd with
      | data offset data permit leaseKey => cases hplain
      | _ => exact ⟨trivial, rfl⟩
    have hcons := h.conserved
    refine ⟨?_, ?_, h.accounted, h.watermark, h.low, ?_, h.lined⟩
    · simp only [outstanding, inTransit, map_append, map_singleton, sum_append,
        sum_singleton, hnoth.2, Nat.add_zero] at hcons ⊢
      exact hcons
    · intro other ho
      rcases mem_append.mp ho with hold | hnew
      · exact h.backed other hold
      · rw [mem_singleton] at hnew
        exact hnew ▸ hnoth.1
    · intro hclos
      rw [hlive] at hclos
      cases hclos

theorem Balanced.close {last : WriterTask} : Balanced budget (flow.close last) where
  conserved := by
    have hcons := h.conserved
    unfold outstanding at hcons ⊢
    change flow.semaphore.free + (WriterTask.held flow.writer.permits + inTransit flow.channel) +
      (∑ p, holds budget (flow.producers p) + 0 + 0) = _
    omega
  backed cmd hcmd := by cases hcmd
  accounted hlive := by cases hlive
  watermark hlive := by cases hlive
  low := Nat.lt_of_le_of_lt (Nat.zero_le _) h.low
  closed _ := ⟨rfl, rfl⟩
  lined := h.lined

theorem Balanced.processed {cmd : WriterCommand α} {channel : List (WriterCommand α)}
    {writer : WriterTask} (hchan : flow.channel = cmd :: channel)
    (hlive : flow.ended = false) (hok : flow.writer.process cmd = .ok writer) :
    Balanced budget { flow with
      semaphore := flow.semaphore.release (WriterTask.held flow.writer.permits +
        cmd.permitBytes - WriterTask.held writer.permits)
      channel := channel
      writer := writer } := by
  have hback := h.backed
  rw [hchan, forall_mem_cons] at hback
  obtain ⟨hkeeps, hdata⟩ := (h.accounted hlive).process hback.1 hok
  have hheld := hkeeps.held
  have hlow := h.low
  refine ⟨?_, hback.2, fun _ => hkeeps.accounted, fun _ => ?_, ?_, fun hclos => ?_, h.lined⟩
  · have hcons := h.conserved
    unfold outstanding inTransit at hcons ⊢
    rw [hchan, map_cons, sum_cons] at hcons
    change flow.semaphore.free + (WriterTask.held flow.writer.permits +
      cmd.permitBytes - WriterTask.held writer.permits) +
        (∑ p, holds budget (flow.producers p) + (channel.map WriterCommand.permitBytes).sum +
          WriterTask.held writer.permits) = _
    omega
  · exact hkeeps.watermark.trans (h.watermark hlive)
  · cases hkind : cmd.isData with
    | true =>
      have hbelow := hdata hkind (by rw [h.watermark hlive]; omega)
      rw [← hkeeps.accounted.total, h.watermark hlive] at hbelow
      exact hbelow
    | false =>
      have hnone : cmd.permitBytes = 0 := by
        cases cmd with
        | data offset data permit leaseKey => cases hkind
        | _ => rfl
      change WriterTask.held writer.permits < _
      omega
  · rw [hlive] at hclos
    cases hclos

theorem Balanced.write (hok : flow.write = some next) : Balanced budget next := by
  unfold Flow.write at hok
  split at hok
  case h_1 => cases hok
  case h_2 cmd channel hchan =>
    split at hok
    case isTrue => cases hok
    case isFalse hlive =>
      split at hok
      · rename_i writer hproc
        cases hok
        exact h.processed hchan (Bool.eq_false_of_not_eq_true hlive) hproc
      · cases hok
        exact h.close

theorem Balanced.finish (hok : flow.finish = some next) : Balanced budget next := by
  unfold Flow.finish at hok
  split at hok
  case isFalse => cases hok
  case isTrue =>
    split at hok
    · cases hok
      exact h.close
    · cases hok
      exact h.close

theorem Balanced.step {act : FlowAction n α}
    (hok : flow.step budget capacity act = some next) : Balanced budget next := by
  cases act with
  | call p data offset leaseKey => exact h.call hok
  | throttle p => exact h.throttle hok
  | grant => exact h.grant hok
  | send p => exact h.send hok
  | interrupt p => exact h.interrupt hok
  | command cmd => exact h.command hok
  | write => exact h.write hok
  | finish => exact h.finish hok

omit h

abbrev Reachable (budget : MemoryBudget) (capacity : Nat) (start flow : Flow n α) : Prop :=
  Reaches (step budget capacity) (fun _ _ => True) start flow

theorem Reachable.balanced {bytes : Nat} {file : DiskFile}
    (hr : Reachable (.new bytes) capacity (start (.new bytes) file) flow) :
    Balanced (.new bytes) flow :=
  Reaches.invariant hr (balanced_start) fun _ _ _ h _ hstep => h.step hstep

private theorem chunk_fits {bytes buffered : Nat} (hpos : 0 < bytes)
    (hlow : buffered < (MemoryBudget.new bytes).watermark) (producer : Producer) :
    producer.chunkLen (.new bytes) + buffered ≤ bytes := by
  have hchunk : producer.chunkLen (.new bytes) ≤ (bytes + 2 - 1) / 2 :=
    (Nat.min_le_right _ _).trans (Nat.min_le_left _ _)
  change buffered < max (bytes / 2) 1 at hlow
  omega

/-- The permits of the writer are the bytes it buffers, below the watermark and within the budget;
the first producer to wait can be served; a writer that has ended holds nothing. -/
theorem memory_budget_is_exact {bytes capacity : Nat} {file : DiskFile} (hpos : 0 < bytes)
    (hreach : Reachable (.new bytes) capacity (start (.new bytes) file) flow) :
    (flow.ended = false → WriterTask.held flow.writer.permits =
      flow.writer.cache.stored + flow.writer.singleBytes) ∧
    (flow.ended = false →
      flow.writer.cache.stored + flow.writer.singleBytes < (MemoryBudget.new bytes).watermark) ∧
    flow.semaphore.free + flow.outstanding (.new bytes) = bytes ∧
    (flow.channel = [] → (∀ p, (flow.producers p).phase ≠ .channelBlocked) →
      ∀ p, (flow.producers p).phase = .memoryBlocked →
        ∃ first len rest, flow.semaphore.queue = (first, len) :: rest ∧ len ≤ flow.semaphore.free) ∧
    (flow.ended = true → flow.channel = [] ∧ flow.writer.permits = [] ∧
      flow.semaphore.free + ∑ p, holds (.new bytes) (flow.producers p) = bytes) := by
  have h := hreach.balanced
  have hbooks : flow.ended = false → WriterTask.held flow.writer.permits =
      flow.writer.cache.stored + flow.writer.singleBytes := by
    intro hlive
    have haccounted := h.accounted hlive
    rw [haccounted.total, haccounted.counted]
  have hcons : flow.semaphore.free + flow.outstanding (.new bytes) = bytes := h.conserved
  refine ⟨hbooks, fun hlive => ?_, hcons, fun hchan hqt p hp => ?_, fun hclos => ?_⟩
  · rw [← hbooks hlive]
    exact h.low
  · cases hq : flow.semaphore.queue with
    | nil =>
      have hmem := h.lined.waiting p hp
      rw [hq] at hmem
      cases hmem
    | cons entry rest =>
      obtain ⟨-, hlen⟩ := h.lined.queued entry (by rw [hq]; exact mem_cons_self)
      refine ⟨entry.1, entry.2, rest, rfl, ?_⟩
      have hholds : ∑ q, holds (.new bytes) (flow.producers q) = 0 :=
        Finset.sum_eq_zero fun q _ => if_neg (hqt q)
      have hfits := chunk_fits hpos h.low (flow.producers entry.1)
      unfold outstanding at hcons
      rw [hholds, hchan] at hcons
      change flow.semaphore.free + (0 + 0 + _) = _ at hcons
      omega
  · obtain ⟨hchan, hperms⟩ := h.closed hclos
    refine ⟨hchan, hperms, ?_⟩
    unfold outstanding at hcons
    rw [hchan, hperms] at hcons
    exact hcons

local instance neZeroPair : NeZero 2 := ⟨Nat.succ_ne_zero 1⟩

/-- Two producers share three permits: the first has sent two bytes, the second waits. -/
def twoProducers : List (FlowAction 2 Unit) :=
  [.call 0 [7, 8, 9] 0 none, .call 1 [5] 3 none, .throttle 0, .grant, .throttle 1, .send 0, .write]

theorem second_producer_is_served : ∃ flow : Flow 2 Unit,
      Reachable (.new 3) 1 (start (.new 3) (.ofContent [])) flow ∧
      (flow.producers 1).phase = .memoryBlocked ∧
      ∃ first len rest, flow.semaphore.queue = (first, len) :: rest ∧
        len ≤ flow.semaphore.free := by
  have hrun : (runLabels (step (.new 3) 1) (fun _ _ => true)
      (start (.new 3) (.ofContent []) : Flow 2 Unit) twoProducers).map
        (fun flow => (flow.channel.length, (flow.producers 0).phase, (flow.producers 1).phase)) =
      some (0, .rateLimited, .memoryBlocked) := by decide
  obtain ⟨flow, hr, hview⟩ := Reaches.exists_of_run hrun
  simp only [Prod.mk.injEq, length_eq_zero_iff] at hview
  obtain ⟨hchan, hfst, hsnd⟩ := hview
  refine ⟨flow, hr, hsnd, ?_⟩
  refine (memory_budget_is_exact (by decide) hr).2.2.2.1 hchan (fun p => ?_) 1 hsnd
  match p with
  | 0 => rw [hfst]; decide
  | 1 => rw [hsnd]; decide

end Flow

end Bytehaul.Session
