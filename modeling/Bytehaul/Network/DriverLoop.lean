import Bytehaul.Network.Transfers

/-!
# The driver and its callers

`network/curl/driver/mod.rs`: the loop of the driver thread, the queue and the callers. A
future may be dropped whenever it waits, the queue closed at any time, and the thread may
unwind anywhere.
-/

namespace Bytehaul.Network

open Foundation Session Option
open Std (TreeMap)

inductive Command
  | submit (id : TransferId) (options : TransferOptions)
  | resume (id : TransferId)
  | cancel (id : TransferId)
  | bodyDone (id : TransferId) (consumed : Bool) (sample : Option TransferSample)
  deriving DecidableEq, Repr

def Command.submission : Command → Option TransferId
  | .submit id _ => some id
  | .resume _ | .cancel _ | .bodyDone _ _ _ => none

inductive Caller
  | admitted (options : TransferOptions)
  | registered (options : TransferOptions)
  | counted (options : TransferOptions)
  | waiting
  | withdrawing
  | withdrawn
  | streaming
  /-- The body stream is being dropped: `BodyDone` is sent, `Cancel` is not. -/
  | abandoning
  | finished
  deriving DecidableEq, Repr

def Caller.sent : Caller → Bool
  | .admitted _ | .registered _ | .counted _ => false
  | .waiting | .withdrawing | .withdrawn | .streaming | .abandoning | .finished => true

def Caller.tookHead : Caller → Bool
  | .streaming | .abandoning | .finished => true
  | .admitted _ | .registered _ | .counted _ | .waiting | .withdrawing | .withdrawn => false

inductive Stage
  | top
  | commands
  | performing
  | settling
  | turned
  | left
  /-- The thread has returned or unwound; its exit guard is dropped in three steps. -/
  | exiting
  | unmarked
  | drained
  | exited
  deriving DecidableEq, Repr

def Stage.inLoop : Stage → Bool
  | .top | .commands | .performing | .settling | .turned | .left => true
  | .exiting | .unmarked | .drained | .exited => false

structure System (ρ : Type) where
  driver : Driver ρ
  callers : TreeMap TransferId Caller
  nextId : TransferId
  submitted : Nat
  alive : Bool
  commands : List Command
  closed : Bool
  pending : List Command
  completions : List (PoolKey × TransferId × CurlResult)
  broken : List (PoolKey × String)
  shuttingDown : Bool
  stage : Stage

inductive SystemAction
  | get (options : TransferOptions)
  | register (id : TransferId)
  | count (id : TransferId)
  | submit (id : TransferId)
  | takeHead (id : TransferId)
  | giveUp (id : TransferId)
  | dropFuture (id : TransferId)
  | withdraw (id : TransferId)
  | requestResume (id : TransferId)
  /-- `BodyStream::drop`, in two steps. -/
  | bodyDone (id : TransferId) (consumed : Bool) (sample : Option TransferSample)
  | cancelBody (id : TransferId)
  | close
  | drain
  | process (answers : CurlAnswers) (now : Nat)
  | check (last : Bool)
  | header (id : TransferId) (line : List UInt8)
  | message (pool : PoolKey) (id : TransferId) (result : CurlResult)
  | breakPool (pool : PoolKey) (message : String)
  | performed
  | failPool (now : Nat)
  | complete (report : CurlReport) (answers : CurlAnswers) (now later : Nat)
  | endTurn
  | wait
  | shutDown (now : Nat)
  | unwind
  | unmark
  | failAll
  | closeQueue
  deriving DecidableEq, Repr

def Slot.discarded (slot : Slot) : Slot :=
  { slot with head := { slot.head with dropped := true } }.leave .discarded

def Slot.unwound (slot : Slot) (head : HeadParser) : Slot :=
  (slot.dropHead head).detach.removeAttempt.leave .unwound

namespace Driver

variable {ρ : Type} (driver : Driver ρ)

def discard : Command → Driver ρ
  | .submit id _ => driver.modify id Slot.discarded
  | .resume _ | .cancel _ | .bodyDone _ _ _ => driver

def unwindTransfer (id : TransferId) : Driver ρ :=
  match (driver.slot id).active with
  | none => driver.modify id Slot.removeAttempt
  | some transfer => driver.modify id (·.unwound transfer.head)

def unwind : Driver ρ :=
  { driver.slots.keys.foldl unwindTransfer driver with policy := .new }

def exitTerminal : Terminal := .failed .other none "libcurl driver exited"

def failSink (id : TransferId) : Driver ρ :=
  if (driver.slot id).registered then
    driver.modify id fun slot => (slot.finish exitTerminal).unregister
  else driver

def failAll : Driver ρ := driver.slots.keys.foldl failSink driver

end Driver

namespace System

variable {ρ : Type} (rates : RateModel ρ) (sys : System ρ)

def new : System ρ where
  driver := .new
  callers := ∅
  nextId := 1
  submitted := 0
  alive := true
  commands := []
  closed := false
  pending := []
  completions := []
  broken := []
  shuttingDown := false
  stage := .top

def goto (stage : Stage) : System ρ := { sys with stage := stage }

def setCaller (id : TransferId) (caller : Caller) : System ρ :=
  { sys with callers := sys.callers.insert id caller }

def send (command : Command) : System ρ :=
  if sys.closed then { sys with driver := sys.driver.discard command }
  else { sys with commands := sys.commands ++ [command] }

def close : System ρ :=
  { sys with
    driver := sys.commands.foldl Driver.discard sys.driver
    commands := []
    closed := true }

def stepCaller (id : TransferId) : SystemAction → Option (System ρ)
  | .register _ =>
    match sys.callers[id]? with
    | some (.admitted options) =>
      some ({ sys with driver := sys.driver.modify id Slot.register }.setCaller id
        (.registered options))
    | _ => none
  | .count _ =>
    match sys.callers[id]? with
    | some (.registered options) =>
      some ({ sys with submitted := sys.submitted + 1 }.setCaller id (.counted options))
    | _ => none
  | .submit _ =>
    match sys.callers[id]? with
    | some (.counted options) =>
      some ((sys.send (.submit id options)).setCaller id .waiting)
    | _ => none
  | .takeHead _ =>
    match sys.callers[id]?, (sys.driver.slot id).head.values with
    | some .waiting, .ok _ :: _ => some (sys.setCaller id .streaming)
    | _, _ => none
  | .giveUp _ =>
    if sys.callers[id]? = some .waiting then
      some ({ sys with driver := sys.driver.modify id Slot.unregister }.setCaller id .withdrawing)
    else none
  | .dropFuture _ =>
    if sys.callers[id]? = some .waiting then some (sys.setCaller id .withdrawing)
    else none
  | .withdraw _ =>
    if sys.callers[id]? = some .withdrawing then
      some ((sys.send (.cancel id)).setCaller id .withdrawn)
    else none
  | .requestResume _ =>
    if sys.callers[id]? = some .streaming then
      some ((sys.send (.resume id)).setCaller id .streaming)
    else none
  | .bodyDone _ consumed sample =>
    if sys.callers[id]? = some .streaming ∧
        (consumed = true → (sys.driver.slot id).terminal = some .eof) then
      some ((sys.send (.bodyDone id consumed sample)).setCaller id
        (if consumed then .finished else .abandoning))
    else none
  | .cancelBody _ =>
    if sys.callers[id]? = some .abandoning then
      some ((sys.send (.cancel id)).setCaller id .finished)
    else none
  | _ => none

def processCommand (driver : Driver ρ) (answers : CurlAnswers) (now : Nat) :
    Command → Driver ρ
  | .submit id options => driver.startTransfer rates id options answers now
  | .resume _ => driver
  | .cancel id => driver.cancelTransfer id now
  | .bodyDone id consumed sample => driver.bodyDone rates id consumed sample now

def stepDriver : SystemAction → Option (System ρ)
  | .drain =>
    if sys.stage = .top then
      some { sys with
        pending := sys.pending ++ sys.commands
        commands := []
        stage := .commands }
    else none
  | .process answers now =>
    match sys.stage, sys.pending with
    | .commands, command :: pending =>
      some { sys with
        driver := processCommand rates sys.driver answers now command
        pending := pending }
    | _, _ => none
  | .check last =>
    if sys.stage = .commands ∧ sys.pending = [] then
      some { sys with shuttingDown := sys.closed || last, stage := .performing }
    else none
  | .header id line =>
    if sys.stage = .performing then
      some { sys with driver := sys.driver.header id line }
    else none
  | .message pool id result =>
    if sys.stage = .performing then
      some { sys with completions := sys.completions ++ [(pool, id, result)] }
    else none
  | .breakPool pool message =>
    if sys.stage = .performing then
      some { sys with broken := sys.broken ++ [(pool, message)] }
    else none
  | .performed => if sys.stage = .performing then some (sys.goto .settling) else none
  | .failPool now =>
    match sys.stage, sys.broken with
    | .settling, (pool, message) :: broken =>
      some { sys with
        driver := sys.driver.failPool pool message now
        broken := broken }
    | _, _ => none
  | .complete report answers now later =>
    match sys.stage, sys.broken, sys.completions with
    | .settling, [], (pool, id, result) :: completions =>
      some { sys with
        driver := sys.driver.finishTransfer rates pool id result report answers now later
        completions := completions }
    | _, _, _ => none
  | .endTurn =>
    if sys.stage = .settling ∧ sys.broken = [] ∧ sys.completions = [] then
      some (sys.goto (if sys.shuttingDown then .left else .turned))
    else none
  | .wait => if sys.stage = .turned then some (sys.goto .top) else none
  | .shutDown now =>
    if sys.stage = .left then
      some { sys with driver := sys.driver.shutDown now, stage := .exiting }
    else none
  | .unwind =>
    if sys.stage.inLoop then
      some { sys with
        driver := (sys.pending.foldl Driver.discard sys.driver).unwind
        pending := []
        stage := .exiting }
    else none
  | .unmark =>
    if sys.stage = .exiting then some { sys with alive := false, stage := .unmarked }
    else none
  | .failAll =>
    if sys.stage = .unmarked then
      some { sys with driver := sys.driver.failAll, stage := .drained }
    else none
  | .closeQueue =>
    if sys.stage = .drained then some (sys.close.goto .exited) else none
  | _ => none

def step (action : SystemAction) : Option (System ρ) :=
  match action with
  | .get options =>
    if sys.alive then
      some { sys with
        nextId := sys.nextId + 1
        callers := sys.callers.insert sys.nextId (.admitted options) }
    else some { sys with nextId := sys.nextId + 1 }
  | .register id | .count id | .submit id | .takeHead id | .giveUp id | .dropFuture id
  | .withdraw id | .requestResume id | .bodyDone id _ _ | .cancelBody id =>
    sys.stepCaller id action
  | .close => some sys.close
  | _ => sys.stepDriver rates action

abbrev Reachable : System ρ → Prop := Reaches (step rates) (fun _ _ => True) new

def submits : List TransferId :=
  (sys.pending ++ sys.commands).filterMap Command.submission

def Sent (id : TransferId) : Prop :=
  ∃ caller, sys.callers[id]? = some caller ∧ caller.sent = true

def sampleRates : RateModel Nat where
  measure _ := 0
  decay rate _ := rate
  blend rate _ := rate
  le := fun rate other => decide (rate ≤ other)
  clearlyBetter _ _ := false
  unpolluted _ := true

def samplePool : PoolKey := ⟨['h'], none⟩

def sampleAddress : IpAddr := .v4 1

/-- A request with two addresses to choose from, valid until the time given. -/
def sampleOptions (validUntil : Nat) : TransferOptions where
  url := []
  proxy := none
  poolKey := samplePool
  connectTimeout := 10
  headTimeout := 10
  candidates := some ⟨[sampleAddress, .v4 2], validUntil⟩

def sampleAnswers : CurlAnswers := ⟨none, none, none⟩

/-- A pinned transfer gets its head, `HTTP/1 200`. -/
def sampleRun : List SystemAction :=
  [.get (sampleOptions 100), .register 1, .count 1, .submit 1, .drain, .process sampleAnswers 0,
    .check false, .header 1 [72, 84, 84, 80, 47, 49, 32, 50, 48, 48], .header 1 [13, 10]]

def say : Option Command → System ρ
  | none => sys
  | some command => sys.send command

inductive Talks (id : TransferId) (slot : Slot) : Caller → Option Command → Caller → Prop
  | takeHead {head : ResponseHead} {rest : List (Except DownloadError ResponseHead)} :
      slot.head.values = .ok head :: rest → Talks id slot .waiting none .streaming
  | dropFuture : Talks id slot .waiting none .withdrawing
  | withdraw : Talks id slot .withdrawing (some (.cancel id)) .withdrawn
  | requestResume : Talks id slot .streaming (some (.resume id)) .streaming
  | bodyDone {consumed : Bool} {sample : Option TransferSample} :
      (consumed = true → slot.terminal = some .eof) →
      Talks id slot .streaming (some (.bodyDone id consumed sample))
        (if consumed then .finished else .abandoning)
  | cancelBody : Talks id slot .abandoning (some (.cancel id)) .finished

/-- A step of the driver thread between two of its functions. -/
structure Inner (sys next : System ρ) : Prop where
  driver : next.driver = sys.driver
  callers : next.callers = sys.callers
  nextId : next.nextId = sys.nextId
  submitted : next.submitted = sys.submitted
  closed : next.closed = sys.closed
  commands : next.commands = sys.commands
  pending : next.pending = sys.pending
  processed : sys.stage = .commands → sys.pending = []
  stage : (sys.stage.inLoop = true ∧ next.stage.inLoop = true ∧ next.stage ≠ .commands) ∨
    (sys.stage = .exiting ∧ next.stage = .unmarked)

inductive Moves (sys : System ρ) : SystemAction → System ρ → Prop
  | get {options : TransferOptions} : Moves sys (.get options)
      { sys with
        nextId := sys.nextId + 1
        callers := sys.callers.insert sys.nextId (.admitted options) }
  | miss {options : TransferOptions} :
      Moves sys (.get options) { sys with nextId := sys.nextId + 1 }
  | register {id : TransferId} {options : TransferOptions} :
      sys.callers[id]? = some (.admitted options) →
      Moves sys (.register id)
        ({ sys with driver := sys.driver.modify id Slot.register }.setCaller id
          (.registered options))
  | count {id : TransferId} {options : TransferOptions} :
      sys.callers[id]? = some (.registered options) →
      Moves sys (.count id)
        ({ sys with submitted := sys.submitted + 1 }.setCaller id (.counted options))
  | submit {id : TransferId} {options : TransferOptions} :
      sys.callers[id]? = some (.counted options) →
      Moves sys (.submit id) ((sys.send (.submit id options)).setCaller id .waiting)
  | giveUp {id : TransferId} : sys.callers[id]? = some .waiting →
      Moves sys (.giveUp id)
        ({ sys with driver := sys.driver.modify id Slot.unregister }.setCaller id .withdrawing)
  | talk {action : SystemAction} {id : TransferId} {caller after : Caller}
      {command : Option Command} : sys.callers[id]? = some caller →
      Talks id (sys.driver.slot id) caller command after →
      Moves sys action ((sys.say command).setCaller id after)
  | close : Moves sys .close sys.close
  | drain : sys.stage = .top → Moves sys .drain
      { sys with
        pending := sys.pending ++ sys.commands
        commands := []
        stage := .commands }
  | process {answers : CurlAnswers} {now : Nat} {command : Command} {pending : List Command} :
      sys.stage = .commands → sys.pending = command :: pending →
      Moves sys (.process answers now)
        { sys with
          driver := processCommand rates sys.driver answers now command
          pending := pending }
  | inner {action : SystemAction} {next : System ρ} : sys.Inner next → Moves sys action next
  | header {id : TransferId} {line : List UInt8} : sys.stage = .performing →
      Moves sys (.header id line) { sys with driver := sys.driver.header id line }
  | failPool {now : Nat} {pool : PoolKey} {message : String} {broken : List (PoolKey × String)} :
      sys.stage = .settling →
      Moves sys (.failPool now)
        { sys with
          driver := sys.driver.failPool pool message now
          broken := broken }
  | complete {report : CurlReport} {answers : CurlAnswers} {now later : Nat} {pool : PoolKey}
      {id : TransferId} {result : CurlResult}
      {completions : List (PoolKey × TransferId × CurlResult)} :
      sys.stage = .settling → sys.completions = (pool, id, result) :: completions →
      Moves sys (.complete report answers now later)
        { sys with
          driver := sys.driver.finishTransfer rates pool id result report answers now later
          completions := completions }
  | shutDown {now : Nat} : sys.stage = .left → Moves sys (.shutDown now)
      { sys with driver := sys.driver.shutDown now, stage := .exiting }
  | unwind : sys.stage.inLoop = true → Moves sys .unwind
      { sys with
        driver := (sys.pending.foldl Driver.discard sys.driver).unwind
        pending := []
        stage := .exiting }
  | failAll : sys.stage = .unmarked → Moves sys .failAll
      { sys with driver := sys.driver.failAll, stage := .drained }
  | closeQueue : sys.stage = .drained →
      Moves sys .closeQueue (sys.close.goto .exited)

variable {rates} {sys next : System ρ}

theorem Inner.of_stage (hnext : next = { sys with
      completions := next.completions
      broken := next.broken
      shuttingDown := next.shuttingDown
      stage := next.stage })
    (hprocessed : sys.stage = .commands → sys.pending = [])
    (hstg : sys.stage.inLoop = true ∧ next.stage.inLoop = true ∧ next.stage ≠ .commands) :
    sys.Inner next := by
  rw [hnext]
  exact ⟨rfl, rfl, rfl, rfl, rfl, rfl, rfl, hprocessed, .inl hstg⟩

theorem moves_of_stepDriver {act : SystemAction}
    (h : sys.stepDriver rates act = some next) : Moves rates sys act next := by
  cases act with
  | drain => exact of_guard h .drain
  | process answers now =>
    simp only [stepDriver] at h
    split at h
    · rename_i cmd pending hstg hpend
      cases h
      exact .process hstg hpend
    · cases h
  | check last =>
    exact of_guard h fun ⟨hstg, hpend⟩ =>
      .inner (.of_stage rfl (fun _ => hpend) (by simp [hstg, Stage.inLoop]))
  | header id line => exact of_guard h .header
  | message pool id result | breakPool pool msg =>
    exact of_guard h fun hstg =>
      .inner (.of_stage rfl (by simp [hstg]) (by simp [hstg, Stage.inLoop]))
  | performed =>
    exact of_guard h fun hstg =>
      .inner (.of_stage rfl (by simp [hstg]) (by simp [hstg, goto, Stage.inLoop]))
  | failPool now =>
    simp only [stepDriver] at h
    split at h
    · rename_i pool msg broken hstg hbrok
      cases h
      exact .failPool hstg
    · cases h
  | complete report answers now later =>
    simp only [stepDriver] at h
    split at h
    · rename_i pool id result comps hstg hbrok hcomps
      cases h
      exact .complete hstg hcomps
    · cases h
  | endTurn =>
    obtain ⟨⟨hstg, -⟩, hnext⟩ := ite_none_right_eq_some.mp h
    cases hnext
    refine .inner (.of_stage rfl (by simp [hstg]) ?_)
    cases sys.shuttingDown <;> simp [hstg, goto, Stage.inLoop]
  | wait =>
    exact of_guard h fun hstg =>
      .inner (.of_stage rfl (by simp [hstg]) (by simp [hstg, goto, Stage.inLoop]))
  | shutDown now => exact of_guard h .shutDown
  | unwind => exact of_guard h .unwind
  | unmark =>
    exact of_guard h fun hstg =>
      .inner ⟨rfl, rfl, rfl, rfl, rfl, rfl, rfl, by simp [hstg], .inr ⟨hstg, rfl⟩⟩
  | failAll => exact of_guard h .failAll
  | closeQueue => exact of_guard h .closeQueue
  | _ => cases h

theorem moves_of_step {act : SystemAction} (h : step rates sys act = some next) :
    Moves rates sys act next := by
  cases act with
  | get opts =>
    simp only [step] at h
    split at h <;> cases h
    · exact .get
    · exact .miss
  | register id =>
    simp only [step, stepCaller] at h
    split at h
    · rename_i opts hcall
      cases h
      exact .register hcall
    · cases h
  | count id =>
    simp only [step, stepCaller] at h
    split at h
    · rename_i opts hcall
      cases h
      exact .count hcall
    · cases h
  | submit id =>
    simp only [step, stepCaller] at h
    split at h
    · rename_i opts hcall
      cases h
      exact .submit hcall
    · cases h
  | takeHead id =>
    simp only [step, stepCaller] at h
    split at h
    · rename_i head rest hcall hvalues
      cases h
      exact .talk hcall (.takeHead hvalues)
    · cases h
  | giveUp id => exact of_guard h .giveUp
  | dropFuture id => exact of_guard h fun hcall => .talk hcall .dropFuture
  | withdraw id => exact of_guard h fun hcall => .talk hcall .withdraw
  | requestResume id => exact of_guard h fun hcall => .talk hcall .requestResume
  | bodyDone id consumed sample =>
    exact of_guard h fun ⟨hcall, heof⟩ => .talk hcall (.bodyDone heof)
  | cancelBody id => exact of_guard h fun hcall => .talk hcall .cancelBody
  | close =>
    cases h
    exact .close
  | _ => exact moves_of_stepDriver h

end System

end Bytehaul.Network
