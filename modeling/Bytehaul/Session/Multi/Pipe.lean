import Bytehaul.Session.Multi.Queue
import Bytehaul.Storage.Channel

/-!
# The way of the bytes

The part of the pool that moves bytes. `Shift` lists what can happen to it, and `Flows` is
its invariant.
-/

namespace Bytehaul.Session

open Foundation Foundation.DiskFile Storage Scheduler List Function WriterTask

inductive Stage
  | idle (leases : List Segment)
  | streaming (segment : Segment) (sent : Nat) (queued : List Segment)
  | waiting (segment : Segment) (sent : Nat) (queued : List Segment) (flush : Bool)
  | gone

def Stage.leases : Stage → List Segment
  | .idle leases => leases
  | .streaming segment _ queued | .waiting segment _ queued _ => segment :: queued
  | .gone => []

structure Pipe (n : Nat) where
  sched : SchedulerState
  acked : List Span
  channel : List (WriterCommand (Party n))
  writer : WriterTask
  status : WriterStatus
  stage : Fin n → Stage
  mail : Fin n → Option WriterReply

def Leaves (sched next : SchedulerState) (segments : List Segment) : Prop :=
  ∀ key span, sched.leaseRange key = some span →
    (∀ segment ∈ segments, segment.leaseKey ≠ key) → next.leaseRange key = some span

namespace Pipe

variable {n : Nat}

def set (pipe : Pipe n) (w : Fin n) (stage : Stage) : Pipe n :=
  { pipe with stage := update pipe.stage w stage }

def clear (pipe : Pipe n) (w : Fin n) : Pipe n :=
  { pipe with mail := update pipe.mail w none }

def post (pipe : Pipe n) (command : WriterCommand (Party n)) : Pipe n :=
  { pipe with channel := pipe.channel ++ [command] }

def deliver (pipe : Pipe n) : Option (Party n × WriterReply) → Pipe n
  | some (.worker w, reply) => { pipe with mail := update pipe.mail w (some reply) }
  | _ => pipe

def request (w : Fin n) (key : LeaseKey) (flush : Bool) : WriterCommand (Party n) :=
  if flush then .flushLease key (.worker w) else .discardLease key (.worker w)

inductive Shift (G : Nat → UInt8 → Prop) (pipe : Pipe n) : Pipe n → Prop
  | still : Shift G pipe pipe
  | lend {w segments sched} (hstage : pipe.stage w = .idle [])
      (hlends : pipe.sched.Lends sched segments) :
      Shift G pipe ({ pipe with sched := sched }.set w (.idle segments))
  | begin {w segment queued} (hrunning : pipe.status = .running)
      (hstage : pipe.stage w = .idle (segment :: queued)) :
      Shift G pipe ((pipe.post (.beginLease segment.leaseKey)).set w (.streaming segment 0 queued))
  | send {w segment sent queued} {data : List UInt8} {permit} (hrunning : pipe.status = .running)
      (hstage : pipe.stage w = .streaming segment sent queued)
      (hdata : Spells G (segment.start + sent) data)
      (hfits : segment.start + sent + data.length ≤ segment.stop) :
      Shift G pipe ((pipe.post (.data (segment.start + sent) data permit
        (some segment.leaseKey))).set w (.streaming segment (sent + data.length) queued))
  | ask {w segment sent queued} (flush : Bool) (hrunning : pipe.status = .running)
      (hstage : pipe.stage w = .streaming segment sent queued) :
      Shift G pipe ((pipe.post (request w segment.leaseKey flush)).set w
        (.waiting segment sent queued flush))
  | complete {w segment sent queued sched}
      (hstage : pipe.stage w = .waiting segment sent queued true)
      (hmail : pipe.mail w ≠ none) (hall : segment.start + sent = segment.stop)
      (hleaves : Leaves pipe.sched sched [segment]) :
      Shift G pipe (({ pipe with
        sched := sched
        acked := segment.span :: pipe.acked }.clear w).set w (.idle queued))
  | retain {w segment sent queued sched}
      (hstage : pipe.stage w = .waiting segment sent queued true)
      (hmail : pipe.mail w ≠ none) (hleaves : Leaves pipe.sched sched [segment]) :
      Shift G pipe (({ pipe with
        sched := sched
        acked := ⟨segment.start, segment.start + sent⟩ :: pipe.acked }.clear w).set w
          (.idle ({ segment with start := segment.start + sent } :: queued)))
  | drop {w segment sent queued} (hstage : pipe.stage w = .waiting segment sent queued false)
      (hmail : pipe.mail w ≠ none) :
      Shift G pipe ((pipe.clear w).set w (.idle (segment :: queued)))
  /-- Idle leases are given back, the last of them perhaps with the worker. -/
  | release {w before segments leases sched} (hstage : pipe.stage w = .idle before)
      (hparts : before.Perm (segments ++ leases))
      (hleaves : Leaves pipe.sched sched segments) :
      Shift G pipe ({ pipe with sched := sched }.set w (.idle leases))
  | handOff {w segment sent queued sched}
      (hstage : pipe.stage w = .streaming segment sent queued)
      (hleaves : Leaves pipe.sched sched queued) :
      Shift G pipe ({ pipe with sched := sched }.set w (.streaming segment sent []))
  | renew {w segment sched} {renewed : Segment}
      (hstage : pipe.stage w = .idle [segment]) (hleaves : Leaves pipe.sched sched [segment])
      (hfresh : pipe.sched.leaseRange renewed.leaseKey = none) :
      Shift G pipe ({ pipe with sched := sched }.set w (.idle [renewed]))
  | surrender {w segment queued sched} (hstage : pipe.stage w = .idle (segment :: queued))
      (hleaves : Leaves pipe.sched sched [segment]) :
      Shift G pipe ({ pipe with sched := sched }.set w .gone)
  | lost {w leases} (hstatus : pipe.status ≠ .running) :
      Shift G pipe (pipe.set w (.idle leases))
  | leave {w} : Shift G pipe (pipe.set w .gone)
  | write {command channel writer} (hrunning : pipe.status = .running)
      (hchannel : pipe.channel = command :: channel)
      (hprocess : pipe.writer.process command = .ok writer) :
      Shift G pipe ({ pipe with channel := channel, writer := writer }.deliver
        (pipe.writer.reply writer command))
  | spoil {command channel error writer} (hrunning : pipe.status = .running)
      (hchannel : pipe.channel = command :: channel)
      (hprocess : pipe.writer.process command = .error (error, writer)) :
      Shift G pipe { pipe with channel := [], writer := writer, status := .failed }
  | finish {status} (result : Attempt) (hrunning : pipe.status = .running)
      (hresult : pipe.writer.finish = result) (hstatus : status ≠ .running)
      (hended : status = .finished → ∃ writer, result = .ok writer) :
      Shift G pipe { pipe with writer := result.last, status := status }
  | sync : pipe.status = .running → Shift G pipe (pipe.post (.flushAll true .monitor))

end Pipe

/-- Bytes that may be on their way: allowed, and covered by the lease they are under. -/
def Leased (G : Nat → UInt8 → Prop) (sched : SchedulerState) : Allowance := fun owner b v =>
  G b v ∧ ∃ key span, owner = some key ∧ sched.leaseRange key = some span ∧ b ∈ span

variable {n : Nat}

def Clear (channel : List (WriterCommand (Party n))) (w : Fin n) : Prop :=
  ∀ command ∈ channel, command.ack? ≠ some (.worker w)

def Stage.Flow (G : Nat → UInt8 → Prop) (writer : WriterTask)
    (channel : List (WriterCommand (Party n))) (w : Fin n) (mail : Option WriterReply) :
    Stage → Prop
  | .idle leases =>
    mail = none ∧ Clear channel w ∧ ∀ lease ∈ leases, Quiet writer channel lease.leaseKey
  | .streaming segment sent queued =>
    mail = none ∧ Clear channel w ∧ (∀ lease ∈ queued, Quiet writer channel lease.leaseKey) ∧
      Sends G writer channel segment.leaseKey segment.start (segment.start + sent)
  | .waiting segment sent queued flush =>
    (∀ lease ∈ queued, Quiet writer channel lease.leaseKey) ∧
      (mail = none → Awaits G writer channel (Pipe.request w segment.leaseKey flush)
        segment.leaseKey segment.start (segment.start + sent)) ∧
      (mail ≠ none → Clear channel w ∧ Quiet writer channel segment.leaseKey)
  | .gone => True

/-- The acknowledgement of a flush means that the bytes are in the file. -/
def Stage.Delivered (G : Nat → UInt8 → Prop) (file : DiskFile) (mail : Option WriterReply) :
    Stage → Prop
  | .waiting segment sent _ true => mail ≠ none → ∀ b, segment.start ≤ b →
      b < segment.start + sent → file.Good G b
  | _ => True

/-- No two workers have the same lease, and the scheduler knows each of them. -/
structure Pipe.Exclusive (pipe : Pipe n) : Prop where
  backed : ∀ w, Backed pipe.sched (pipe.stage w).leases
  distinct : ∀ w, ((pipe.stage w).leases.map Segment.pieceId).Nodup
  apart : ∀ w other, other ≠ w → ∀ first ∈ (pipe.stage w).leases,
    ∀ second ∈ (pipe.stage other).leases, first.leaseKey ≠ second.leaseKey

structure Pipe.Flows (G : Nat → UInt8 → Prop) (total : Nat) (pipe : Pipe n) : Prop where
  written : ∀ b, 0 < hits pipe.acked b → pipe.writer.file.image.Good G b
  bounded : pipe.writer.file.image.content.length ≤ total
  delivered : ∀ w, (pipe.stage w).Delivered G pipe.writer.file.image (pipe.mail w)
  leased : pipe.status = .running → InFlight (Leased G pipe.sched) pipe.writer pipe.channel
  flow : pipe.status = .running → ∀ w,
    (pipe.stage w).Flow G pipe.writer pipe.channel w (pipe.mail w)

section Flow

variable {G : Nat → UInt8 → Prop} {writer next : WriterTask}
  {channel : List (WriterCommand (Party n))} {cmd : WriterCommand (Party n)} {w : Fin n}
  {mail : Option WriterReply} {stage : Stage} {sched : SchedulerState}

theorem Leased.good {owner : Option LeaseKey} {b : Nat} {v : UInt8}
    (h : Leased G sched owner b v) : G b v := h.1

theorem Clear.post (h : Clear channel w) (hack : cmd.ack? ≠ some (.worker w)) :
    Clear (channel ++ [cmd]) w := by
  intro other ho
  rcases mem_append.mp ho with ho | ho
  · exact h other ho
  · obtain rfl := mem_singleton.mp ho
    exact hack

theorem Clear.tail (h : Clear (cmd :: channel) w) : Clear channel w :=
  fun other ho => h other (mem_cons_of_mem _ ho)

@[simp] theorem Pipe.request_ack (w : Fin n) (key : LeaseKey) (flush : Bool) :
    (Pipe.request w key flush).ack? = some (.worker w) := by
  cases flush <;> rfl

private theorem Pipe.request_retires (w : Fin n) (key : LeaseKey) (flush : Bool) :
    Retires key (Pipe.request w key flush) := by
  cases flush <;> rfl

def Concerns (command : WriterCommand (Party n)) (own : LeaseKey) : Prop :=
  ∀ key, key ≠ own → CommandWithin (Without key) command ∧ ¬ Retires key command

def Spares (command : WriterCommand (Party n)) (leases : List Segment) : Prop :=
  ∀ lease ∈ leases, CommandWithin (Without lease.leaseKey) command ∧
    ¬ Retires lease.leaseKey command

theorem Stage.Flow.post (h : stage.Flow G writer channel w mail)
    (hfly : InFlight (fun _ => G) writer channel) (hcmd : CommandWithin (fun _ => G) cmd)
    (hack : cmd.ack? ≠ some (.worker w)) (hspares : Spares cmd stage.leases) :
    stage.Flow G writer (channel ++ [cmd]) w mail := by
  cases stage with
  | idle leases =>
    obtain ⟨hmail, hclear, hqt⟩ := h
    exact ⟨hmail, hclear.post hack,
      fun lease hl => (hqt lease hl).post (hspares lease hl).1⟩
  | streaming seg sent queued =>
    obtain ⟨hmail, hclear, hqt, hsends⟩ := h
    refine ⟨hmail, hclear.post hack, fun lease hl => (hqt lease hl).post
      (hspares lease (mem_cons_of_mem _ hl)).1, ?_⟩
    exact hsends.post hfly hcmd (hspares seg mem_cons_self).2
  | waiting seg sent queued flush =>
    obtain ⟨hqt, hawaits, hdone⟩ := h
    have hseg := (hspares seg mem_cons_self).1
    refine ⟨fun lease hl => (hqt lease hl).post
      (hspares lease (mem_cons_of_mem _ hl)).1, fun hmail => ?_, fun hmail => ?_⟩
    · exact (hawaits hmail).post (by simpa using hack) hseg
    · exact ⟨(hdone hmail).1.post hack, (hdone hmail).2.post hseg⟩
  | gone => trivial

theorem Stage.Flow.process (h : stage.Flow G writer (cmd :: channel) w mail)
    (hok : writer.process cmd = .ok next) (hack : cmd.ack? ≠ some (.worker w)) :
    stage.Flow G next channel w mail := by
  cases stage with
  | idle leases =>
    obtain ⟨hmail, hclear, hqt⟩ := h
    exact ⟨hmail, hclear.tail, fun lease hl => (hqt lease hl).process hok⟩
  | streaming seg sent queued =>
    obtain ⟨hmail, hclear, hqt, hsends⟩ := h
    exact ⟨hmail, hclear.tail, fun lease hl => (hqt lease hl).process hok, hsends.process hok⟩
  | waiting seg sent queued flush =>
    obtain ⟨hqt, hawaits, hdone⟩ := h
    refine ⟨fun lease hl => (hqt lease hl).process hok, fun hmail => ?_,
      fun hmail => ⟨(hdone hmail).1.tail, (hdone hmail).2.process hok⟩⟩
    rcases (hawaits hmail).process hok with ⟨-, hrest⟩ | ⟨heq, -⟩
    · exact hrest
    · exact absurd (heq ▸ Pipe.request_ack w seg.leaseKey flush) hack
  | gone => trivial

theorem Stage.Flow.answered (h : stage.Flow G writer (cmd :: channel) w mail)
    (hfly : InFlight (fun _ => G) writer (cmd :: channel))
    (hok : writer.process cmd = .ok next) (hack : cmd.ack? = some (.worker w))
    (reply : WriterReply) :
    stage.Flow G next channel w (some reply) ∧ stage.Delivered G next.file.image (some reply) := by
  have hunclear : ¬ Clear (cmd :: channel) w := fun hclear =>
    hclear cmd mem_cons_self hack
  cases stage with
  | idle leases | streaming seg sent queued => exact absurd h.2.1 hunclear
  | waiting seg sent queued flush =>
    obtain ⟨hqt, hawaits, hdone⟩ := h
    have hmail : mail = none := by
      by_contra hmail
      exact hunclear (hdone hmail).1
    rcases (hawaits hmail).process hok with ⟨hne, -⟩ | ⟨rfl, hclear, haft, hcarr⟩
    · exact absurd (by simpa using hack) hne
    · rw [Pipe.request_ack] at hclear
      have hseg := quiet_of_retires hfly (Pipe.request_retires w seg.leaseKey flush) haft hok
      refine ⟨⟨fun lease hl => (hqt lease hl).process hok, by simp,
        fun _ => ⟨hclear, hseg⟩⟩, ?_⟩
      cases flush with
      | false => trivial
      | true =>
        exact fun _ b hlo hhi =>
          process_flushLease_delivers hfly.within hcarr hok hlo hhi
  | gone => exact ⟨trivial, trivial⟩

theorem Stage.Delivered.mono {file after : DiskFile} (h : stage.Delivered G file mail)
    (hgood : ∀ b, file.Good G b → after.Good G b) : stage.Delivered G after mail := by
  cases stage with
  | waiting seg sent queued flush =>
    cases flush with
    | false => trivial
    | true => exact fun hmail b hlo hhi => hgood b (h hmail b hlo hhi)
  | _ => trivial

theorem leased_leave {after : SchedulerState} {segs : List Segment}
    (h : InFlight (Leased G sched) writer channel) (hlv : Leaves sched after segs)
    (hqt : ∀ seg ∈ segs, Quiet writer channel seg.leaseKey) :
    InFlight (Leased G after) writer channel := by
  apply (h.all hqt).mono
  rintro owner b v ⟨⟨hG, key, span, rfl, hheld, hb⟩, hoths⟩
  refine ⟨hG, key, span, rfl, hlv key span hheld ?_, hb⟩
  exact fun seg hseg heq => hoths seg hseg (congrArg some heq.symm)

theorem leased_quiet {key : LeaseKey} (h : InFlight (Leased G sched) writer channel)
    (hnone : sched.leaseRange key = none) : Quiet writer channel key := by
  apply h.mono
  rintro owner b v ⟨-, found, span, rfl, hheld, -⟩ heq
  obtain rfl := Option.some.inj heq
  rw [hnone] at hheld
  cases hheld

end Flow

namespace Pipe

variable {sched : SchedulerState} {seg : Segment} {queued segs : List Segment}

variable {G : Nat → UInt8 → Prop} {total : Nat} {pipe next : Pipe n} {w : Fin n}
  {cmd : WriterCommand (Party n)}

variable (h : pipe.Flows G total)
include h

theorem Flows.inFlight (hlive : pipe.status = .running) :
    InFlight (fun _ => G) pipe.writer pipe.channel :=
  (h.leased hlive).mono fun _ _ _ hv => hv.good

theorem Flows.flow_at {stage : Stage} (hlive : pipe.status = .running)
    (hstg : pipe.stage w = stage) : stage.Flow G pipe.writer pipe.channel w (pipe.mail w) :=
  hstg ▸ h.flow hlive w

theorem Flows.change {acked : List Span} {stage : Stage}
    {mail : Fin n → Option WriterReply} (hmail : ∀ other, other ≠ w → mail other = pipe.mail other)
    (hwr : ∀ b, 0 < hits acked b → 0 < hits pipe.acked b ∨ pipe.writer.file.image.Good G b)
    (hdel : stage.Delivered G pipe.writer.file.image (mail w))
    (hlsd : pipe.status = .running → InFlight (Leased G sched) pipe.writer pipe.channel)
    (hflow : pipe.status = .running → stage.Flow G pipe.writer pipe.channel w (mail w)) :
    ({ pipe with
      sched := sched
      acked := acked
      stage := update pipe.stage w stage
      mail := mail } : Pipe n).Flows G total where
  written b hb := (hwr b hb).elim (h.written b) id
  bounded := h.bounded
  delivered other := by
    by_cases ho : other = w
    · simpa [ho] using hdel
    · simpa [ho, hmail other ho] using h.delivered other
  leased := hlsd
  flow hlive other := by
    by_cases ho : other = w
    · simpa [ho] using hflow hlive
    · simpa [ho, hmail other ho] using h.flow hlive other

theorem Flows.place {before stage : Stage} (hstg : pipe.stage w = before)
    (hdel : stage.Delivered G pipe.writer.file.image (pipe.mail w))
    (hplace : InFlight (Leased G pipe.sched) pipe.writer pipe.channel →
      before.Flow G pipe.writer pipe.channel w (pipe.mail w) →
      InFlight (Leased G sched) pipe.writer pipe.channel ∧
        stage.Flow G pipe.writer pipe.channel w (pipe.mail w)) :
    ({ pipe with sched := sched }.set w stage).Flows G total := by
  have hboth (hlive : pipe.status = .running) := hplace (h.leased hlive) (h.flow_at hlive hstg)
  exact h.change (fun _ _ => rfl) (fun _ hb => .inl hb) hdel
    (fun hlive => (hboth hlive).1) fun hlive => (hboth hlive).2

theorem Flows.sent {stage : Fin n → Stage}
    (hlive : pipe.status = .running) (hcmd : CommandWithin (Leased G pipe.sched) cmd)
    (hdel : ∀ other, (stage other).Delivered G pipe.writer.file.image (pipe.mail other))
    (hflow : ∀ other, (stage other).Flow G pipe.writer (pipe.channel ++ [cmd]) other
      (pipe.mail other)) :
    ({ pipe.post cmd with stage := stage } : Pipe n).Flows G total where
  written := h.written
  bounded := h.bounded
  delivered := hdel
  leased _ := (h.leased hlive).post hcmd
  flow _ := hflow

omit h in
private theorem Exclusive.spares_queued (h : pipe.Exclusive)
    (hls : (pipe.stage w).leases = seg :: queued)
    (hown : Concerns cmd seg.leaseKey) : Spares cmd queued := by
  have hdist := h.distinct w
  rw [hls, map_cons, nodup_cons] at hdist
  intro lease hl
  apply hown
  intro heq
  have hp : lease.pieceId = seg.pieceId := congrArg LeaseKey.pieceId heq
  exact hdist.1 (hp ▸ mem_map_of_mem hl)

variable (hexclusive : pipe.Exclusive)
include hexclusive

theorem Flows.sentBy {stage : Stage}
    (hlive : pipe.status = .running) (hls : (pipe.stage w).leases = seg :: queued)
    (hcmd : CommandWithin (Leased G pipe.sched) cmd)
    (hack : ∀ other, other ≠ w → cmd.ack? ≠ some (.worker other))
    (hown : Concerns cmd seg.leaseKey)
    (hdel : stage.Delivered G pipe.writer.file.image (pipe.mail w))
    (hflow : stage.Flow G pipe.writer (pipe.channel ++ [cmd]) w (pipe.mail w)) :
    ((pipe.post cmd).set w stage).Flows G total := by
  apply h.sent hlive hcmd
  · intro other
    by_cases ho : other = w
    · rw [ho, update_self]
      exact hdel
    · rw [update_of_ne ho]
      exact h.delivered other
  · intro other
    by_cases ho : other = w
    · rw [ho, update_self]
      exact hflow
    · rw [update_of_ne ho]
      refine (h.flow hlive other).post (h.inFlight hlive)
        (hcmd.mono fun _ _ _ hv => hv.good) (hack other ho) fun lease hl => ?_
      have hfst : seg ∈ (pipe.stage w).leases := by simp [hls]
      exact hown _ (hexclusive.apart w other ho seg hfst lease hl).symm

theorem Flows.begin
    (hlive : pipe.status = .running) (hstg : pipe.stage w = .idle (seg :: queued)) :
    ((pipe.post (.beginLease seg.leaseKey)).set w (.streaming seg 0 queued)).Flows G total := by
  obtain ⟨hmail, hclear, hqt⟩ := h.flow_at hlive hstg
  apply h.sentBy hexclusive hlive (congrArg Stage.leases hstg)
  · trivial
  · exact fun other _ => by simp [WriterCommand.ack?]
  · exact fun key _ => ⟨trivial, id⟩
  · trivial
  · refine ⟨hmail, hclear.post (by simp [WriterCommand.ack?]), fun lease hl => ?_, ?_⟩
    · exact (hqt lease (mem_cons_of_mem _ hl)).post trivial
    · exact Sends.begin

theorem Flows.send {sent : Nat} {data : List UInt8} {permit : Option Nat}
    (hlive : pipe.status = .running) (hstg : pipe.stage w = .streaming seg sent queued)
    (hdata : Spells G (seg.start + sent) data)
    (hfits : seg.start + sent + data.length ≤ seg.stop) :
    ((pipe.post (.data (seg.start + sent) data permit (some seg.leaseKey))).set w
      (.streaming seg (sent + data.length) queued)).Flows G total := by
  obtain ⟨hmail, hclear, hqt, hsends⟩ := h.flow_at hlive hstg
  have hls : (pipe.stage w).leases = seg :: queued := congrArg Stage.leases hstg
  have hown : Concerns (WriterCommand.data (α := Party n) (seg.start + sent) data permit
      (some seg.leaseKey)) seg.leaseKey :=
    fun key hne => ⟨fun _ _ _ heq => hne (Option.some.inj heq).symm, id⟩
  apply h.sentBy hexclusive hlive hls
  · intro b v hv
    refine ⟨hdata b v hv, seg.leaseKey, seg.span, rfl, hexclusive.backed w seg (by simp [hls]), ?_⟩
    have hlt := hv.lt
    have hle := hv.1
    simp only [Span.mem_iff, Segment.span]
    omega
  · exact fun other _ => by simp [WriterCommand.ack?]
  · exact hown
  · trivial
  · have hspares := hexclusive.spares_queued hls hown
    refine ⟨hmail, hclear.post (by simp [WriterCommand.ack?]),
      fun lease hl => (hqt lease hl).post (hspares lease hl).1, ?_⟩
    rw [← Nat.add_assoc]
    exact hsends.data (h.inFlight hlive) hdata

theorem Flows.ask {sent : Nat} (flush : Bool)
    (hlive : pipe.status = .running) (hstg : pipe.stage w = .streaming seg sent queued) :
    ((pipe.post (request w seg.leaseKey flush)).set w
      (.waiting seg sent queued flush)).Flows G total := by
  obtain ⟨hmail, hclear, hqt, hsends⟩ := h.flow_at hlive hstg
  have hany : ∀ P : Allowance, CommandWithin P (request w seg.leaseKey flush) := by
    intro P
    cases flush <;> trivial
  apply h.sentBy hexclusive hlive (congrArg Stage.leases hstg) (hany _)
  · intro other ho
    rw [request_ack]
    intro heq
    exact ho (by simpa using heq.symm)
  · intro key hne
    refine ⟨hany _, ?_⟩
    cases flush <;> exact hne.symm
  · cases flush with
    | false => trivial
    | true => exact fun hsome => absurd hmail hsome
  · refine ⟨fun lease hl => (hqt lease hl).post (hany _), fun _ => ?_,
      fun hsome => absurd hmail hsome⟩
    exact hsends.ask (by rw [request_ack]; exact hclear)

omit hexclusive

theorem Flows.sync (hlive : pipe.status = .running) :
    (pipe.post (.flushAll true .monitor)).Flows G total := by
  apply h.sent hlive
  · trivial
  · exact h.delivered
  intro other
  refine (h.flow hlive other).post (h.inFlight hlive) trivial (by simp [WriterCommand.ack?]) ?_
  exact fun lease _ => ⟨trivial, id⟩

theorem Flows.lend (hstg : pipe.stage w = .idle []) (hlnd : pipe.sched.Lends sched segs) :
    ({ pipe with sched := sched }.set w (.idle segs)).Flows G total := by
  have hlv : Leaves pipe.sched sched [] := by
    intro key span hheld _
    rw [hlnd.held_old key, hheld]
    intro seg hseg heq
    have hnone := hlnd.unused seg hseg
    rw [heq, hheld] at hnone
    cases hnone
  exact h.place hstg trivial fun hlsd hflow => ⟨leased_leave hlsd hlv (by simp),
    hflow.1, hflow.2.1, fun lease hl => leased_quiet hlsd (hlnd.unused lease hl)⟩

theorem Flows.settle {sent : Nat} {leases : List Segment} {flush : Bool}
    {acked : List Span} (hstg : pipe.stage w = .waiting seg sent queued flush)
    (hmail : pipe.mail w ≠ none) (hlv : Leaves pipe.sched sched [seg])
    (hacked : ∀ b, 0 < hits acked b → 0 < hits pipe.acked b ∨
      (flush = true ∧ seg.start ≤ b ∧ b < seg.start + sent))
    (hls : ∀ lease ∈ leases, lease ∈ queued ∨ lease.leaseKey = seg.leaseKey) :
    (({ pipe with sched := sched, acked := acked }.clear w).set w (.idle leases)).Flows G
      total := by
  have hqt : pipe.status = .running → Clear pipe.channel w ∧
      (∀ lease ∈ queued, Quiet pipe.writer pipe.channel lease.leaseKey) ∧
      Quiet pipe.writer pipe.channel seg.leaseKey := by
    intro hlive
    obtain ⟨hqd, -, hdone⟩ := h.flow_at hlive hstg
    exact ⟨(hdone hmail).1, hqd, (hdone hmail).2⟩
  apply h.change
  · exact fun other ho => update_of_ne ho _ _
  · intro b hb
    refine (hacked b hb).imp id ?_
    rintro ⟨rfl, hlo, hhi⟩
    have hdel := h.delivered w
    rw [hstg] at hdel
    exact hdel hmail b hlo hhi
  · trivial
  · intro hlive
    apply leased_leave (h.leased hlive) hlv
    simpa using (hqt hlive).2.2
  · intro hlive
    obtain ⟨hclear, hqd, hseg⟩ := hqt hlive
    refine ⟨update_self _ _ _, hclear, fun lease hl => ?_⟩
    rcases hls lease hl with hl | heq
    · exact hqd lease hl
    · rw [heq]
      exact hseg

theorem Flows.yield {before leases : List Segment}
    (hstg : pipe.stage w = .idle before) (hsegs : ∀ seg ∈ segs, seg ∈ before)
    (hls : ∀ lease ∈ leases, lease ∈ before ∨ pipe.sched.leaseRange lease.leaseKey = none)
    (hlv : Leaves pipe.sched sched segs) :
    ({ pipe with sched := sched }.set w (.idle leases)).Flows G total := by
  refine h.place hstg trivial fun hlsd hflow => ⟨leased_leave hlsd hlv ?_, hflow.1,
    hflow.2.1, fun lease hl => ?_⟩
  · exact fun seg hseg => hflow.2.2 seg (hsegs seg hseg)
  · rcases hls lease hl with hl | hnone
    · exact hflow.2.2 lease hl
    · exact leased_quiet hlsd hnone

theorem Flows.handOff {sent : Nat} (hstg : pipe.stage w = .streaming seg sent queued)
    (hlv : Leaves pipe.sched sched queued) :
    ({ pipe with sched := sched }.set w (.streaming seg sent [])).Flows G total :=
  h.place hstg trivial fun hlsd hflow =>
    ⟨leased_leave hlsd hlv hflow.2.2.1, hflow.1, hflow.2.1, by simp, hflow.2.2.2⟩

theorem Flows.moves {result : Attempt}
    (hin : ∀ key span b, pipe.sched.leaseRange key = some span → b ∈ span → b < total)
    (hmv : Moves (Leased G pipe.sched) pipe.writer result) :
    (∀ b, pipe.writer.file.image.Good G b → result.last.file.image.Good G b) ∧
      result.last.file.image.content.length ≤ total := by
  refine ⟨fun b hb => hmv.good (fun _ _ _ hv => hv.good) hb, ?_⟩
  refine hmv.stores.image.length_le ?_ h.bounded
  rintro b v ⟨owner, -, key, span, -, hheld, hb⟩
  exact hin key span b hheld hb

theorem Flows.ended {writer : WriterTask} {status : WriterStatus}
    {channel : List (WriterCommand (Party n))} (hstat : status ≠ .running)
    (hgood : ∀ b, pipe.writer.file.image.Good G b → writer.file.image.Good G b)
    (hbdd : writer.file.image.content.length ≤ total) :
    ({ pipe with channel := channel, writer := writer, status := status } : Pipe n).Flows G
      total where
  written b hb := hgood b (h.written b hb)
  bounded := hbdd
  delivered w := (h.delivered w).mono hgood
  leased hlive := absurd hlive hstat
  flow hlive := absurd hlive hstat

omit h in
theorem reply_ack (before after : WriterTask) (cmd : WriterCommand (Party n)) :
    (before.reply after cmd).map Prod.fst = cmd.ack? := by
  cases cmd <;> rfl

theorem Flows.write
    (hin : ∀ key span b, pipe.sched.leaseRange key = some span → b ∈ span → b < total)
    {channel : List (WriterCommand (Party n))} {writer : WriterTask}
    (hlive : pipe.status = .running) (hchan : pipe.channel = cmd :: channel)
    (hproc : pipe.writer.process cmd = .ok writer) :
    ({ pipe with channel := channel, writer := writer }.deliver
      (pipe.writer.reply writer cmd)).Flows G total := by
  have hlsd := h.leased hlive
  have hfly := h.inFlight hlive
  have hflow := h.flow hlive
  rw [hchan] at hlsd hfly hflow
  have hmv := hlsd.moves
  rw [hproc] at hmv
  obtain ⟨hgood, hbdd⟩ := h.moves hin hmv
  have hack := reply_ack pipe.writer writer cmd
  have hoths : ∀ w, cmd.ack? ≠ some (.worker w) →
      (pipe.stage w).Delivered G writer.file.image (pipe.mail w) ∧
      (pipe.stage w).Flow G writer channel w (pipe.mail w) :=
    fun w hne => ⟨(h.delivered w).mono hgood, (hflow w).process hproc hne⟩
  have hsilent (hnone : ∀ w, cmd.ack? ≠ some (.worker w)) :
      ({ pipe with channel := channel, writer := writer } : Pipe n).Flows G total :=
    ⟨fun b hb => hgood b (h.written b hb), hbdd, fun w => (hoths w (hnone w)).1,
      fun _ => hlsd.process hproc, fun _ w => (hoths w (hnone w)).2⟩
  rcases hreply : pipe.writer.reply writer cmd with _ | ⟨party, reply⟩
  · rw [hreply] at hack
    exact hsilent (by simp [← hack])
  · rw [hreply] at hack
    cases party with
    | monitor => exact hsilent (by simp [← hack])
    | worker w =>
      have hboth (other : Fin n) : (pipe.stage other).Delivered G writer.file.image
            (update pipe.mail w (some reply) other) ∧
          (pipe.stage other).Flow G writer channel other
            (update pipe.mail w (some reply) other) := by
        by_cases ho : other = w
        · subst ho
          rw [update_self]
          exact ((hflow other).answered hfly hproc hack.symm reply).symm
        · rw [update_of_ne ho]
          refine hoths other ?_
          rw [← hack]
          simpa using Ne.symm ho
      exact ⟨fun b hb => hgood b (h.written b hb), hbdd, fun other => (hboth other).1,
        fun _ => hlsd.process hproc, fun _ other => (hboth other).2⟩

omit h

theorem Shift.flows (hshift : Shift G pipe next) (hexclusive : pipe.Exclusive)
    (hinside : ∀ key span b, pipe.sched.leaseRange key = some span → b ∈ span → b < total)
    (h : pipe.Flows G total) : next.Flows G total := by
  cases hshift with
  | still => exact h
  | lend hstg hlnd => exact h.lend hstg hlnd
  | begin hlive hstg => exact h.begin hexclusive hlive hstg
  | send hlive hstg hdata hfits => exact h.send hexclusive hlive hstg hdata hfits
  | ask flush hlive hstg => exact h.ask hexclusive flush hlive hstg
  | @complete w seg _ _ _ hstg hmail hall hlv =>
    refine h.settle hstg hmail hlv (fun b hb => ?_) fun lease hl => .inl hl
    by_cases hin : b ∈ seg.span
    · simp only [Span.mem_iff, Segment.span] at hin
      exact .inr ⟨rfl, hin.1, by omega⟩
    · exact .inl (by simpa [hin] using hb)
  | @retain w seg sent _ _ hstg hmail hlv =>
    refine h.settle hstg hmail hlv (fun b hb => ?_) ?_
    · rw [hits_cons] at hb
      by_cases hin : b ∈ (⟨seg.start, seg.start + sent⟩ : Span)
      · exact .inr ⟨rfl, hin⟩
      · exact .inl (by simpa only [if_neg hin, Nat.add_zero] using hb)
    · intro lease hl
      rcases mem_cons.mp hl with rfl | hl
      · exact .inr rfl
      · exact .inl hl
  | drop hstg hmail =>
    refine h.settle hstg hmail (fun key span hheld _ => hheld) (fun b hb => .inl hb) ?_
    intro lease hl
    rcases mem_cons.mp hl with rfl | hl
    · exact .inr rfl
    · exact .inl hl
  | release hstg hparts hlv =>
    refine h.yield hstg ?_ ?_ hlv
    · exact fun seg hseg => hparts.mem_iff.mpr (mem_append_left _ hseg)
    · exact fun lease hl => .inl (hparts.mem_iff.mpr (mem_append_right _ hl))
  | handOff hstg hlv => exact h.handOff hstg hlv
  | renew hstg hlv hfresh =>
    refine h.yield hstg (fun _ hseg => hseg) ?_ hlv
    intro lease hl
    obtain rfl := mem_singleton.mp hl
    exact .inr hfresh
  | surrender hstg hlv =>
    refine h.place hstg trivial fun hlsd hflow => ⟨leased_leave hlsd hlv ?_, trivial⟩
    intro other ho
    obtain rfl := mem_singleton.mp ho
    exact hflow.2.2 other mem_cons_self
  | lost hstat =>
    exact h.change (fun _ _ => rfl) (fun _ hb => .inl hb) trivial (absurd · hstat) (absurd · hstat)
  | leave => exact h.place rfl trivial fun hlsd _ => ⟨hlsd, trivial⟩
  | write hlive hchan hproc => exact h.write hinside hlive hchan hproc
  | spoil hlive hchan hproc =>
    have hmv := (hchan ▸ h.leased hlive).moves
    rw [hproc] at hmv
    obtain ⟨hgood, hbdd⟩ := h.moves hinside hmv
    exact h.ended (by simp) hgood hbdd
  | finish result hlive hres hstat =>
    have hmv := finish_moves (h.leased hlive).within
    rw [hres] at hmv
    obtain ⟨hgood, hbdd⟩ := h.moves hinside hmv
    exact h.ended hstat hgood hbdd
  | sync hlive => exact h.sync hlive

theorem deliver_same (pipe : Pipe n) (mail : Option (Party n × WriterReply)) :
    (pipe.deliver mail).writer = pipe.writer ∧ (pipe.deliver mail).acked = pipe.acked ∧
      (pipe.deliver mail).status = pipe.status := by
  rcases mail with _ | ⟨party, reply⟩
  · exact ⟨rfl, rfl, rfl⟩
  · cases party <;> exact ⟨rfl, rfl, rfl⟩

theorem Shift.synced (hshift : Shift G pipe next)
    (h : pipe.status = .finished → pipe.writer.file.Delivered) (hstat : next.status = .finished) :
    next.writer.file.Delivered := by
  cases hshift with
  | write hlive hchan hproc =>
      rw [(deliver_same _ _).2.2] at hstat
      cases hlive.symm.trans hstat
  | spoil => cases hstat
  | finish result hlive hres _ hend =>
      obtain ⟨writer, rfl⟩ := hend hstat
      exact finish_delivered hres
  | _ => exact h hstat

end Pipe

end Bytehaul.Session
