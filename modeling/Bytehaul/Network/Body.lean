import Bytehaul.Foundation.Runs
import Bytehaul.Session.Error

/-!
# The body channel

`BodySink` of `network/curl/driver/mod.rs`: a byte channel with a budget. A chunk that does
not fit pauses the transfer until the consumer asks for more.
-/

namespace Bytehaul.Network

open Foundation Session List Option

inductive Terminal
  | eof
  | cancelled
  | failed (kind : TransportErrorKind) (code : Option Nat) (message : String)
  deriving DecidableEq, Repr

structure TransferSample where
  bytes : Nat
  window : Nat
  backpressure : Nat
  deriving DecidableEq, Repr

structure SinkState where
  queue : List (List UInt8)
  buffered : Nat
  terminal : Option Terminal
  paused : Bool
  drainedSincePause : Bool
  firstByteAt : Option Nat
  lastByteAt : Option Nat
  pausedAt : Option Nat
  pausedTotal : Nat
  pauseCount : Nat
  acceptedBytes : Nat
  deriving DecidableEq, Repr

inductive SinkPoll
  | chunk (data : List UInt8)
  | terminal (terminal : Terminal)
  | pending
  deriving DecidableEq, Repr

inductive WriteResult
  | accepted (len : Nat)
  | pause
  deriving DecidableEq, Repr

namespace SinkState

variable (state : SinkState)

def new : SinkState where
  queue := []
  buffered := 0
  terminal := none
  paused := false
  drainedSincePause := false
  firstByteAt := none
  lastByteAt := none
  pausedAt := none
  pausedTotal := 0
  pauseCount := 0
  acceptedBytes := 0

def startPause (now : Nat) : SinkState :=
  { state with
    paused := true
    drainedSincePause := false
    pausedAt := state.pausedAt.or (some now)
    pauseCount := state.pauseCount + 1 }

/-- `BodySink::write`; `budget` is the one the sink was made with. -/
def write (budget : Nat) (state : SinkState) (now : Nat) (data : List UInt8) :
    WriteResult × SinkState :=
  if data = [] then (.accepted 0, state)
  else if state.terminal.isSome then (.pause, state.startPause now)
  else if state.queue ≠ [] ∧ state.buffered + data.length > max budget 1 then
    (.pause, state.startPause now)
  else
    (.accepted data.length, { state with
      buffered := state.buffered + data.length
      queue := state.queue ++ [data]
      firstByteAt := state.firstByteAt.or (some now)
      lastByteAt := some now
      acceptedBytes := state.acceptedBytes + data.length })

def endPause (now : Nat) : SinkState :=
  match state.pausedAt with
  | some at_ => { state with pausedAt := none, pausedTotal := state.pausedTotal + (now - at_) }
  | none => state

def finish (now : Nat) (terminal : Terminal) : SinkState :=
  if state.terminal.isSome then state
  else { state.endPause now with terminal := some terminal }

def sample : Option TransferSample := do
  let first ← state.firstByteAt
  let last ← state.lastByteAt
  some ⟨state.acceptedBytes, last - first, state.pausedTotal⟩

def poll : SinkPoll × SinkState :=
  match state.queue with
  | data :: rest =>
    (.chunk data, { state with
      queue := rest
      buffered := state.buffered - data.length
      drainedSincePause := state.drainedSincePause || state.paused })
  | [] =>
    match state.terminal with
    | some terminal => (.terminal terminal, state)
    | none => (.pending, state)

def needsResume (now : Nat) : Bool × SinkState :=
  if state.paused && state.drainedSincePause then
    (true, { state.endPause now with paused := false, drainedSincePause := false })
  else (false, state)

@[simp] theorem endPause_queue (state : SinkState) (now : Nat) :
    (state.endPause now).queue = state.queue := by
  unfold endPause
  split <;> rfl

@[simp] theorem endPause_buffered (state : SinkState) (now : Nat) :
    (state.endPause now).buffered = state.buffered := by
  unfold endPause
  split <;> rfl

@[simp] theorem endPause_terminal (state : SinkState) (now : Nat) :
    (state.endPause now).terminal = state.terminal := by
  unfold endPause
  split <;> rfl

theorem write_cases {budget : Nat} {sink : SinkState} {now : Nat} {data : List UInt8} :
    (data = [] ∧ sink.write budget now data = (.accepted 0, sink)) ∨
    (data ≠ [] ∧ (sink.terminal.isSome = true ∨ sink.queue ≠ []) ∧
      sink.write budget now data = (.pause, sink.startPause now)) ∨
    (data ≠ [] ∧ sink.terminal = none ∧
      (sink.queue = [] ∨ sink.buffered + data.length ≤ max budget 1) ∧
      ∃ after, sink.write budget now data = (.accepted data.length, after) ∧
        after.queue = sink.queue ++ [data] ∧ after.buffered = sink.buffered + data.length ∧
        after.terminal = none ∧ after.paused = sink.paused ∧
        after.drainedSincePause = sink.drainedSincePause) := by
  unfold write
  split
  · exact .inl ⟨‹_›, rfl⟩
  · split
    · exact .inr (.inl ⟨‹_›, .inl ‹_›, rfl⟩)
    · rename_i hterm
      have hnone : sink.terminal = none := by simpa using hterm
      split
      · rename_i hfull
        exact .inr (.inl ⟨‹_›, .inr hfull.1, rfl⟩)
      · rename_i hroom
        refine .inr (.inr ⟨‹_›, hnone, ?_, _, rfl, rfl, rfl, hnone, rfl, rfl⟩)
        by_cases hq : sink.queue = []
        · exact .inl hq
        · by_contra hlong
          exact hroom ⟨hq, by omega⟩

end SinkState

inductive Consumer
  | idle
  | polled
  | asking
  deriving DecidableEq, Repr

/-- A transfer's body with the bytes that libcurl produced, the sink took and the consumer got. -/
structure Body where
  budget : Nat
  sink : SinkState
  resumes : Nat
  handlePaused : Bool
  held : Option (List UInt8)
  consumer : Consumer
  wire : List UInt8
  accepted : List UInt8
  delivered : List UInt8
  chunks : List (List UInt8)
  reported : Option Terminal
  deriving DecidableEq, Repr

inductive BodyAction
  | write (now : Nat) (data : List UInt8)
  | poll
  | needsResume (now : Nat)
  | requestResume
  | resume
  | finish (now : Nat) (terminal : Terminal)
  deriving DecidableEq, Repr

namespace Body

def start (budget : Nat) : Body where
  budget := budget
  sink := .new
  resumes := 0
  handlePaused := false
  held := none
  consumer := .idle
  wire := []
  accepted := []
  delivered := []
  chunks := []
  reported := none

/-- A paused handle does not write, and it delivers the chunk again that it paused on. -/
def write (body : Body) (now : Nat) (data : List UInt8) : Option Body :=
  if body.handlePaused ∨ body.held.any (· != data) then none
  else
    let body := { body with
      wire := if body.held.isNone then body.wire ++ data else body.wire }
    match body.sink.write body.budget now data with
    | (.pause, sink) =>
      some { body with sink := sink, handlePaused := true, held := some data }
    | (.accepted _, sink) =>
      some { body with
        sink := sink
        held := none
        accepted := body.accepted ++ data
        chunks := body.chunks ++ [data] }

def poll (body : Body) : Option Body :=
  if body.consumer ≠ .idle then none
  else
    match body.sink.poll with
    | (.chunk data, sink) =>
      some { body with
        sink := sink
        consumer := .polled
        delivered := body.delivered ++ data }
    | (.terminal terminal, sink) => some { body with sink := sink, reported := some terminal }
    | (.pending, sink) => some { body with sink := sink }

def needsResume (body : Body) (now : Nat) : Option Body :=
  if body.consumer ≠ .polled then none
  else
    match body.sink.needsResume now with
    | (true, sink) => some { body with sink := sink, consumer := .asking }
    | (false, sink) => some { body with sink := sink, consumer := .idle }

def step (body : Body) : BodyAction → Option Body
  | .write now data => body.write now data
  | .poll => body.poll
  | .needsResume now => body.needsResume now
  | .requestResume =>
    if body.consumer = .asking then
      some { body with resumes := body.resumes + 1, consumer := .idle }
    else none
  | .resume =>
    if 0 < body.resumes then
      some { body with resumes := body.resumes - 1, handlePaused := false }
    else none
  | .finish now terminal => some { body with sink := body.sink.finish now terminal }

abbrev Reachable (budget : Nat) : Body → Prop :=
  Reaches step (fun _ _ => True) (start budget)

/-- The bytes of the channel, from libcurl to the consumer. -/
structure Exact (body : Body) : Prop where
  wire : body.wire = body.accepted ++ body.held.getD []
  accepted : body.accepted = body.delivered ++ body.sink.queue.flatten
  nonempty : [] ∉ body.sink.queue
  buffered : body.sink.buffered = (body.sink.queue.map length).sum
  bounded : body.sink.buffered ≤ body.budget ∨
    ∃ chunk ∈ body.chunks, body.sink.buffered ≤ chunk.length
  reported : ∀ terminal, body.reported = some terminal →
    body.sink.terminal = some terminal ∧ body.delivered = body.accepted

/-- The flags of the pause, as long as the transfer has not ended. -/
structure Flags (body : Body) : Prop where
  drained : body.sink.drainedSincePause = true →
    body.sink.paused = true ∧ body.consumer = .polled
  asking : body.consumer = .asking →
    body.sink.paused = false ∧ body.handlePaused = true ∧ body.resumes = 0
  pending : 0 < body.resumes →
    body.sink.paused = false ∧ body.handlePaused = true ∧ body.resumes = 1
  paused : body.sink.paused = true →
    body.handlePaused = true ∧ (body.sink.queue ≠ [] ∨ body.sink.drainedSincePause = true)
  stalled : body.handlePaused = true →
    body.sink.paused = true ∨ 0 < body.resumes ∨ body.consumer = .asking

structure Good (body : Body) : Prop where
  exact : body.Exact
  flags : body.sink.terminal = none → body.Flags

private theorem good_start {budget : Nat} : (start budget).Good where
  exact := ⟨rfl, rfl, by simp [start, SinkState.new], rfl, .inl (Nat.zero_le _), by simp [start]⟩
  flags _ := ⟨by simp [start, SinkState.new], by simp [start], by simp [start],
    by simp [start, SinkState.new], by simp [start]⟩

private theorem queue_pos {queue : List (List UInt8)} (hnemp : [] ∉ queue) (hq : queue ≠ []) :
    0 < (queue.map length).sum := by
  cases queue with
  | nil => exact absurd rfl hq
  | cons chunk rest =>
    have hchunk : chunk ≠ [] := fun h => hnemp (h ▸ mem_cons_self)
    have hpos := length_pos_iff.mpr hchunk
    rw [map_cons, sum_cons]
    omega

variable {body next : Body} {now : Nat} {data : List UInt8}

theorem write_cases (hstep : body.write now data = some next) :
    body.handlePaused = false ∧ ¬ body.held.any (· != data) = true ∧
    ∃ wire, wire = (if body.held.isNone then body.wire ++ data else body.wire) ∧
    ((data = [] ∧ next = { body with
        wire := wire, held := none, accepted := body.accepted ++ data,
        chunks := body.chunks ++ [data] }) ∨
      (data ≠ [] ∧ (body.sink.terminal.isSome = true ∨ body.sink.queue ≠ []) ∧ next = { body with
          wire := wire, sink := body.sink.startPause now, handlePaused := true,
          held := some data }) ∨
      (data ≠ [] ∧ body.sink.terminal = none ∧
        (body.sink.queue = [] ∨ body.sink.buffered + data.length ≤ max body.budget 1) ∧
        ∃ sink : SinkState, sink.queue = body.sink.queue ++ [data] ∧
          sink.buffered = body.sink.buffered + data.length ∧
          sink.terminal = none ∧ sink.paused = body.sink.paused ∧
          sink.drainedSincePause = body.sink.drainedSincePause ∧
          next = { body with
            wire := wire, sink := sink, held := none, accepted := body.accepted ++ data,
            chunks := body.chunks ++ [data] })) := by
  unfold Body.write at hstep
  split at hstep
  · cases hstep
  · rename_i hready
    rw [not_or, Bool.not_eq_true] at hready
    refine ⟨hready.1, hready.2, _, rfl, ?_⟩
    dsimp only at hstep
    rcases SinkState.write_cases with ⟨hdata, hw⟩ |
      ⟨hdata, hfull, hw⟩ | ⟨hdata, hterm, hroom, sink, hw, hsink⟩
    · rw [hw] at hstep
      exact .inl ⟨hdata, (some.inj hstep).symm⟩
    · rw [hw] at hstep
      exact .inr (.inl ⟨hdata, hfull, (some.inj hstep).symm⟩)
    · rw [hw] at hstep
      obtain ⟨hq, hbyt, hterminal', hpaus, hdrn⟩ := hsink
      exact .inr (.inr ⟨hdata, hterm, hroom, sink, hq, hbyt, hterminal', hpaus,
        hdrn, (some.inj hstep).symm⟩)

private theorem write_terminal (hstep : body.write now data = some next)
    (hterm : next.sink.terminal = none) : body.sink.terminal = none := by
  obtain ⟨-, -, wire, -, ⟨-, rfl⟩ | ⟨-, -, rfl⟩ | ⟨-, hnone, -⟩⟩ := write_cases hstep
  · exact hterm
  · exact hterm
  · exact hnone

private theorem Exact.wire_write (h : body.Exact) (hheld : ¬ body.held.any (· != data) = true) :
    (if body.held.isNone then body.wire ++ data else body.wire) = body.accepted ++ data := by
  rw [h.wire]
  cases hcase : body.held with
  | none => simp
  | some chunk =>
    have hsame : chunk = data := by simpa [hcase] using hheld
    simp [hsame]

theorem Flags.running (h : body.Flags) (hhand : body.handlePaused = false) :
    body.sink.paused = false ∧ body.sink.drainedSincePause = false ∧ body.resumes = 0 ∧
      body.consumer ≠ .asking := by
  have hpaus : body.sink.paused = false := by
    cases hcase : body.sink.paused with
    | false => rfl
    | true => simp [(h.paused hcase).1] at hhand
  refine ⟨hpaus, ?_, ?_, ?_⟩
  · cases hcase : body.sink.drainedSincePause with
    | false => rfl
    | true => simp [(h.drained hcase).1] at hpaus
  · by_contra hrsms
    simp [(h.pending (Nat.pos_of_ne_zero hrsms)).2.1] at hhand
  · intro hask
    simp [(h.asking hask).2.1] at hhand

theorem Exact.write (h : body.Exact) (hstep : body.write now data = some next) : next.Exact := by
  obtain ⟨-, hheld, wire, hwire, hcases⟩ := write_cases hstep
  rw [h.wire_write hheld] at hwire
  have hacc := h.accepted
  rcases hcases with ⟨rfl, rfl⟩ | ⟨-, -, rfl⟩ |
    ⟨hdata, hterm, hroom, sink, hq, hbyt, hterminal', -, -, rfl⟩
  · refine ⟨by simp [hwire], by simp [hacc], h.nonempty, h.buffered, ?_, ?_⟩
    · exact h.bounded.imp_right fun ⟨chunk, hchunk, hle⟩ =>
        ⟨chunk, mem_append_left _ hchunk, hle⟩
    · intro term hrep
      obtain ⟨hterm, hall⟩ := h.reported term hrep
      exact ⟨hterm, by simp [hall]⟩
  · exact ⟨by simp [hwire], hacc, h.nonempty, h.buffered, h.bounded, h.reported⟩
  · refine ⟨by simp [hwire], ?_, ?_, ?_, ?_, ?_⟩
    · simp [hq, hacc]
    · simp only [hq, mem_append, mem_singleton, not_or]
      exact ⟨h.nonempty, fun heq => hdata heq.symm⟩
    · simp [hq, hbyt, h.buffered]
    · dsimp only
      rw [hbyt]
      rcases hroom with hemp | hfits
      · simp [h.buffered, hemp]
      · by_cases hemp : body.sink.queue = []
        · simp [h.buffered, hemp]
        · have hpos := queue_pos h.nonempty hemp
          have hlen := length_pos_iff.mpr hdata
          rw [← h.buffered] at hpos
          omega
    · intro term hrep
      obtain ⟨hterminal'', -⟩ := h.reported term hrep
      rw [hterm] at hterminal''
      cases hterminal''

theorem Flags.write (h : body.Flags) (hterm : body.sink.terminal = none)
    (hstep : body.write now data = some next) : next.Flags := by
  obtain ⟨hhand, -, wire, -, hcases⟩ := write_cases hstep
  obtain ⟨hpaus, hdrn, hrsms, hask⟩ := h.running hhand
  rcases hcases with ⟨-, rfl⟩ | ⟨-, hfull, rfl⟩ | ⟨-, -, -, sink, -, -, -, hpaused', hdrained', rfl⟩
  · exact ⟨h.drained, h.asking, h.pending, h.paused, h.stalled⟩
  · have hq : body.sink.queue ≠ [] := by simpa [hterm] using hfull
    refine ⟨by simp [SinkState.startPause], fun h => absurd h hask, by simp [hrsms], ?_, ?_⟩
    · exact fun _ => ⟨rfl, .inl hq⟩
    · exact fun _ => .inl rfl
  · exact ⟨by simp [hdrained', hdrn], fun h => absurd h hask, by simp [hrsms],
      by simp [hpaused', hpaus], by simp [hhand]⟩

theorem poll_cases (hstep : body.poll = some next) : body.consumer = .idle ∧
    ((∃ data rest, body.sink.queue = data :: rest ∧ next = { body with
        sink := { body.sink with
          queue := rest, buffered := body.sink.buffered - data.length,
          drainedSincePause := body.sink.drainedSincePause || body.sink.paused },
        consumer := .polled, delivered := body.delivered ++ data }) ∨
      (∃ term, body.sink.queue = [] ∧ body.sink.terminal = some term ∧
        next = { body with reported := some term }) ∨
      next = body) := by
  unfold Body.poll SinkState.poll at hstep
  split at hstep
  · cases hstep
  · rename_i hidle
    refine ⟨not_not.mp hidle, ?_⟩
    cases hq : body.sink.queue with
    | cons data rest =>
      simp only [hq] at hstep
      exact .inl ⟨data, rest, rfl, (some.inj hstep).symm⟩
    | nil =>
      cases hterm : body.sink.terminal with
      | some term =>
        simp only [hq, hterm] at hstep
        exact .inr (.inl ⟨term, rfl, rfl, (some.inj hstep).symm⟩)
      | none =>
        simp only [hq, hterm] at hstep
        exact .inr (.inr (some.inj hstep).symm)

theorem Good.poll (h : body.Good) (hstep : body.poll = some next) : next.Good := by
  obtain ⟨hidle, ⟨data, rest, hq, rfl⟩ | ⟨term, hq, hterm, rfl⟩ | rfl⟩ := poll_cases hstep
  · have hacc := h.exact.accepted
    have hbuf := h.exact.buffered
    have hnemp := h.exact.nonempty
    rw [hq] at hacc hbuf hnemp
    rw [map_cons, sum_cons] at hbuf
    constructor
    · refine ⟨h.exact.wire, by simpa using hacc,
        fun hmem => hnemp (mem_cons_of_mem _ hmem), ?_, ?_, ?_⟩
      · dsimp only
        omega
      · dsimp only
        refine h.exact.bounded.imp (fun hle => ?_) fun ⟨chunk, hchunk, hle⟩ => ⟨chunk, hchunk, ?_⟩
        all_goals omega
      · intro term hrep
        obtain ⟨-, hall⟩ := h.exact.reported term hrep
        have hlen := congrArg length hacc
        have hdata := length_pos_iff.mpr fun heq => hnemp (heq ▸ mem_cons_self)
        simp only [hall, length_append, flatten_cons] at hlen
        omega
    · intro hterm
      have hflags := h.flags hterm
      refine ⟨?_, by simp, ?_, ?_, ?_⟩
      · intro hdrn
        refine ⟨?_, rfl⟩
        rcases Bool.or_eq_true_iff.mp hdrn with hdrn | hpaus
        · exact (hflags.drained hdrn).1
        · exact hpaus
      · exact hflags.pending
      · intro hpaus
        refine ⟨(hflags.paused hpaus).1, .inr ?_⟩
        simp [show body.sink.paused = true from hpaus]
      · intro hhand
        rcases hflags.stalled hhand with hpaus | hrsms | hask
        · exact .inl hpaus
        · exact .inr (.inl hrsms)
        · rw [hidle] at hask
          cases hask
  · refine ⟨⟨h.exact.wire, h.exact.accepted, h.exact.nonempty, h.exact.buffered,
      h.exact.bounded, ?_⟩, ?_⟩
    · intro terminal' hrep
      obtain rfl := some.inj hrep
      have hacc := h.exact.accepted
      rw [hq] at hacc
      exact ⟨hterm, by simpa using hacc.symm⟩
    · intro hnone
      rw [hterm] at hnone
      cases hnone
  · exact h

theorem Exact.of_flags (h : body.Exact) {sink : SinkState} (hq : sink.queue = body.sink.queue)
    (hbuf : sink.buffered = body.sink.buffered)
    (hterm : ∀ term, body.sink.terminal = some term → sink.terminal = some term)
    {resumes : Nat} {handlePaused : Bool} {consumer : Consumer} : Exact { body with
      sink := sink, resumes := resumes, handlePaused := handlePaused, consumer := consumer } where
  wire := h.wire
  accepted := hq ▸ h.accepted
  nonempty := hq ▸ h.nonempty
  buffered := by
    rw [hbuf, hq]
    exact h.buffered
  bounded := hbuf ▸ h.bounded
  reported term hrep := by
    obtain ⟨hsome, hall⟩ := h.reported term hrep
    exact ⟨hterm term hsome, hall⟩

theorem Good.needsResume (h : body.Good) (hstep : body.needsResume now = some next) :
    next.Good := by
  unfold Body.needsResume SinkState.needsResume at hstep
  split at hstep
  · cases hstep
  · rename_i hpolled
    rw [not_not] at hpolled
    by_cases hdrain : (body.sink.paused && body.sink.drainedSincePause) = true
    · simp only [hdrain, if_true] at hstep
      obtain rfl := some.inj hstep
      rw [Bool.and_eq_true] at hdrain
      refine ⟨h.exact.of_flags (by simp) (by simp) (by simp), fun hterm => ?_⟩
      have hflags := h.flags (by simpa using hterm)
      obtain ⟨hhand, -⟩ := hflags.paused hdrain.1
      have hrsms : body.resumes = 0 := by
        by_contra hpos
        simp [(hflags.pending (Nat.pos_of_ne_zero hpos)).1] at hdrain
      exact ⟨by simp, fun _ => ⟨rfl, hhand, hrsms⟩, by simp [hrsms], by simp,
        fun _ => .inr (.inr rfl)⟩
    · simp only [hdrain] at hstep
      obtain rfl := some.inj hstep
      refine ⟨h.exact.of_flags rfl rfl (fun _ hsome => hsome), fun hterm => ?_⟩
      have hflags := h.flags hterm
      refine ⟨?_, by simp, hflags.pending, hflags.paused, ?_⟩
      · intro hdrn
        exact absurd (Bool.and_eq_true_iff.mpr ⟨(hflags.drained hdrn).1, hdrn⟩) hdrain
      · intro hhand
        rcases hflags.stalled hhand with hpaus | hrsms | hask
        · exact .inl hpaus
        · exact .inr (.inl hrsms)
        · rw [hpolled] at hask
          cases hask

theorem Good.requestResume (h : body.Good) (hask : body.consumer = .asking) :
    Good { body with resumes := body.resumes + 1, consumer := .idle } := by
  refine ⟨h.exact.of_flags rfl rfl (fun _ hsome => hsome), fun hterm => ?_⟩
  have hflags := h.flags hterm
  obtain ⟨hpaus, hhand, hrsms⟩ := hflags.asking hask
  refine ⟨?_, by simp, fun _ => ⟨hpaus, hhand, by simp [hrsms]⟩, hflags.paused,
    fun _ => .inr (.inl (Nat.succ_pos _))⟩
  intro hdrn
  obtain ⟨-, hpolled⟩ := hflags.drained hdrn
  rw [hask] at hpolled
  cases hpolled

theorem Good.resume (h : body.Good) (hrsms : 0 < body.resumes) :
    Good { body with resumes := body.resumes - 1, handlePaused := false } := by
  refine ⟨h.exact.of_flags rfl rfl (fun _ hsome => hsome), fun hterm => ?_⟩
  have hflags := h.flags hterm
  obtain ⟨hpaus, -, hone⟩ := hflags.pending hrsms
  refine ⟨hflags.drained, ?_, by simp [hone], by simp [hpaus], by simp⟩
  intro hask
  obtain ⟨-, -, hzero⟩ := hflags.asking hask
  omega

theorem Good.finish (h : body.Good) {now : Nat} {term : Terminal} :
    Good { body with sink := body.sink.finish now term } := by
  unfold SinkState.finish
  split
  · exact h
  · rename_i hnone
    refine ⟨h.exact.of_flags (by simp) (by simp) ?_, by simp⟩
    intro terminal' hsome
    simp [hsome] at hnone

theorem Good.step (h : body.Good) {act : BodyAction} (hstep : body.step act = some next) :
    next.Good := by
  cases act with
  | write now data =>
    refine ⟨h.exact.write hstep, fun hterm => ?_⟩
    have hbef : body.sink.terminal = none := write_terminal hstep hterm
    exact (h.flags hbef).write hbef hstep
  | poll => exact h.poll hstep
  | needsResume now => exact h.needsResume hstep
  | requestResume =>
    simp only [Body.step, ite_none_right_eq_some] at hstep
    obtain ⟨hask, hnext⟩ := hstep
    exact some.inj hnext ▸ h.requestResume hask
  | resume =>
    simp only [Body.step, ite_none_right_eq_some] at hstep
    obtain ⟨hrsms, hnext⟩ := hstep
    exact some.inj hnext ▸ h.resume hrsms
  | finish now term =>
    obtain rfl := some.inj hstep
    exact h.finish

private theorem step_budget {act : BodyAction} (hstep : body.step act = some next) :
    next.budget = body.budget := by
  cases act with
  | write now data =>
    obtain ⟨-, -, wire, -, ⟨-, rfl⟩ | ⟨-, -, rfl⟩ | ⟨-, -, -, sink, -, -, -, -, -, rfl⟩⟩ :=
      write_cases hstep <;> rfl
  | poll => obtain ⟨-, ⟨data, rest, -, rfl⟩ | ⟨term, -, -, rfl⟩ | rfl⟩ := poll_cases hstep <;> rfl
  | needsResume now =>
    simp only [Body.step, Body.needsResume] at hstep
    split at hstep
    · cases hstep
    · split at hstep <;> (obtain rfl := some.inj hstep; rfl)
  | requestResume | resume =>
    simp only [Body.step, ite_none_right_eq_some] at hstep
    obtain ⟨-, hnext⟩ := hstep
    exact some.inj hnext ▸ rfl
  | finish now term =>
    obtain rfl := some.inj hstep
    rfl

theorem Reachable.good {budget : Nat} (h : Reachable budget body) :
    body.Good ∧ body.budget = budget := by
  apply h.invariant
  · exact ⟨good_start, rfl⟩
  · rintro _ _ _ ⟨hgood, hbudget⟩ _ hstep
    exact ⟨hgood.step hstep, (step_budget hstep).trans hbudget⟩

def largest (body : Body) : Nat := (body.chunks.map length).foldr max 0

theorem le_largest {chunk : List UInt8} (h : chunk ∈ body.chunks) : chunk.length ≤ body.largest :=
  le_max_of_le' 0 (mem_map_of_mem h) le_rfl

/-- Nothing is lost or reordered between libcurl and the consumer, a terminal state comes last, the
buffer keeps its bound, and a paused handle is going to be resumed. -/
theorem body_channel_is_exact {budget : Nat} (h : Reachable budget body) :
    body.wire = body.accepted ++ body.held.getD [] ∧
    body.accepted = body.delivered ++ body.sink.queue.flatten ∧
    (∀ terminal, body.reported = some terminal → body.delivered = body.accepted) ∧
    body.sink.buffered = (body.sink.queue.map length).sum ∧
    body.sink.buffered ≤ max budget body.largest ∧
    (body.handlePaused = true → body.sink.terminal = none →
      body.sink.queue ≠ [] ∨ (0 < body.resumes ∨ body.consumer = .asking) ∨
        body.consumer = .polled ∧ body.sink.drainedSincePause = true) := by
  obtain ⟨⟨hexact, hflags⟩, rfl⟩ := h.good
  refine ⟨hexact.wire, hexact.accepted, fun terminal hrep =>
    (hexact.reported terminal hrep).2, hexact.buffered, ?_, ?_⟩
  · rcases hexact.bounded with hle | ⟨chunk, hchunk, hle⟩
    · exact hle.trans (le_max_left _ _)
    · exact (hle.trans (le_largest hchunk)).trans (le_max_right _ _)
  · intro hhand hterm
    have hflags := hflags hterm
    rcases hflags.stalled hhand with hpaus | hrsms | hask
    · rcases (hflags.paused hpaus).2 with hq | hdrn
      · exact .inl hq
      · exact .inr (.inr ⟨(hflags.drained hdrn).2, hdrn⟩)
    · exact .inr (.inl (.inl hrsms))
    · exact .inr (.inl (.inr hask))

theorem three_bytes_in_a_budget_of_two :
    ∃ body : Body, Reachable 2 body ∧ body.sink.pauseCount = 1 ∧ body.reported = some .eof ∧
      body.wire = [1, 2, 3] ∧ body.delivered = body.accepted := by
  have hvalue : (runLabels step (fun _ _ => true) (start 2)
      [.write 0 [1, 2], .write 1 [3], .poll, .needsResume 2, .requestResume, .resume,
        .write 3 [3], .poll, .needsResume 4, .finish 5 .eof, .poll]).map (fun body =>
          (body.sink.pauseCount, body.reported, body.wire)) =
      some (1, some .eof, [1, 2, 3]) := by decide
  obtain ⟨body, hr, hview⟩ := Reaches.exists_of_run hvalue
  simp only [Prod.mk.injEq] at hview
  obtain ⟨hpauses, hrep, hwire⟩ := hview
  exact ⟨body, hr, hpauses, hrep, hwire, (body_channel_is_exact hr).2.2.1 _ hrep⟩

end Body

end Bytehaul.Network
