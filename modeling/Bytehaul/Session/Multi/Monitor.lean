import Bytehaul.Session.Multi.Durability
import Bytehaul.Session.Single.Run

/-!
# The monitor loop

`run_multi_worker`: the task that polls the stop signal, the save ticker and the workers in
every pass, while the pool keeps running.
-/

namespace Bytehaul.Session

open Foundation Storage Scheduler

structure MultiConfig where
  pool : PoolConfig
  resume : Bool

inductive MonitorStage
  | select
  | polling
  | autosaving
  | checkpointing (error : DownloadError)
  | draining
  | joining
  | recording
  | deleting
  | returned (result : Except DownloadError Unit)
  deriving DecidableEq, Repr

structure MultiRun (n : Nat) where
  pool : Pool n
  stage : MonitorStage
  downloadError : Option DownloadError
  joined : Fin n → Bool

namespace MultiRun

variable {n : Nat} (cfg : PoolConfig) (run : MultiRun n)

def goto (stage : MonitorStage) : MultiRun n := { run with stage := stage }

def fail (error : DownloadError) : MultiRun n :=
  { run with downloadError := some error, stage := .draining }

def persist (cfg : MultiConfig) (run : MultiRun n) (reason : ControlSaveReason) (live : Bool)
    (stage : MonitorStage) : Option (MultiRun n) :=
  (Pool.step cfg.pool run.pool (.persist reason live)).map fun pool =>
    { run with pool := pool, stage := stage }

def pollStop (cfg : MultiConfig) (run : MultiRun n) : Option (MultiRun n) :=
  if run.stage ≠ .select then none
  else
    match stopSignalError run.pool.stop with
    | none => some (run.goto .polling)
    | some error =>
      if cfg.resume then persist cfg run .terminal true (.checkpointing error)
      else some (run.fail error)

def pollSave (cfg : MultiConfig) (run : MultiRun n) : Option (MultiRun n) :=
  if run.stage ≠ .polling ∨ ¬ cfg.resume then none
  else
    (persist cfg run .autosave true .autosaving).map fun next =>
      if next.pool.monitor.pc = .idle then next.goto .select else next

def pollWorker (w : Fin n) : Option (MultiRun n) :=
  if run.stage ≠ .polling ∨ run.joined w then none
  else
    match (run.pool.workers w).pc with
    | .exited result =>
      let run := { run with joined := Function.update run.joined w true }
      match result with
      | none => some (run.goto (if ∀ other, run.joined other then .draining else .select))
      | some error => some (run.fail error)
    | _ => none

def endPass : Option (MultiRun n) :=
  if run.stage = .polling then some (run.goto .select) else none

def incomplete : DownloadError := .internal "download incomplete"

def report : MultiRun n :=
  run.goto (.returned (.error (run.downloadError.getD incomplete)))

/-- The checkpoint ended.  Only that of a stop request decides the result. -/
def finishCheckpoint (result : Except DownloadError Unit) : MultiRun n :=
  match run.stage with
  | .autosaving => run.goto .select
  | .checkpointing stop =>
    match result with
    | .ok () => run.fail stop
    | .error error => run.fail error
  | .recording => run.report
  | _ => run

def checkpointResult (kind : IoErrorKind) : Action n → Except DownloadError Unit
  | .save (some _) => .error (.io kind)
  | .requestSync | .confirmSync => .error .channelClosed
  | _ => .ok ()

def saves : Action n → Bool
  | .freeze | .requestSync | .confirmSync | .save _ => true
  | _ => false

def checkpoint (cfg : MultiConfig) (run : MultiRun n) (action : Action n) (kind : IoErrorKind) :
    Option (MultiRun n) :=
  if saves action then
    (Pool.step cfg.pool run.pool action).map fun pool =>
      let next := { run with pool := pool }
      if pool.monitor.pc = .idle then next.finishCheckpoint (checkpointResult kind action)
      else next
  else none

/-- On an error the other workers are aborted and awaited; then the sender is dropped. -/
def drain (cfg : MultiConfig) (run : MultiRun n) : Option (MultiRun n) :=
  if run.stage ≠ .draining ∨
      (run.downloadError.isSome ∧ ¬ ∀ w, Pool.exitedPc (run.pool.workers w).pc) then none
  else (Pool.step cfg.pool run.pool .dropSender).map fun pool =>
    { run with pool := pool, stage := .joining }

/-- The writer is joined; its error replaces whatever the loop ended with. -/
def joinWriter (cfg : MultiConfig) (run : MultiRun n) (error : WriterError) (kind : IoErrorKind) :
    Option (MultiRun n) :=
  if run.stage ≠ .joining then none
  else
    match run.pool.writerStatus with
    | .running => none
    | .failed => some { run with downloadError := some (writerFailure kind error) }.report
    | .finished =>
      if run.downloadError.isNone ∧ run.pool.sched.allDone then some (run.goto .deleting)
      else if cfg.resume then persist cfg run .terminal false .recording
      else some run.report

def delete (fault : Bool) (kind : IoErrorKind) : Option (MultiRun n) :=
  if run.stage ≠ .deleting then none
  else if fault then some (run.goto (.returned (.error (.io kind))))
  else
    let pool := { run.pool with files := { run.pool.files with control := none } }
    some ({ run with pool := pool }.goto (.returned (.ok ())))

end MultiRun

inductive MultiAction (n : Nat)
  | pool (action : Action n)
  | pollStop
  | pollSave
  | pollWorker (w : Fin n)
  | endPass
  | checkpoint (action : Action n) (kind : IoErrorKind)
  | drain
  | joinWriter (error : WriterError) (kind : IoErrorKind)
  | delete (fault : Bool) (kind : IoErrorKind)
  deriving DecidableEq, Repr

namespace MultiRun

variable {n : Nat}

/-- The pool's own steps; a worker is aborted only on the monitor's word. -/
def runs (run : MultiRun n) : Action n → Bool
  | .worker _ _ | .notify _ | .write | .finishWriter | .tick _ | .signal _ => true
  | .abort _ =>
    match run.stage with
    | .checkpointing _ => true
    | .draining => run.downloadError.isSome
    | _ => false
  | _ => false

def step (cfg : MultiConfig) (run : MultiRun n) : MultiAction n → Option (MultiRun n)
  | .pool action =>
    if run.runs action then
      (Pool.step cfg.pool run.pool action).map fun pool => { run with pool := pool }
    else none
  | .pollStop => pollStop cfg run
  | .pollSave => pollSave cfg run
  | .pollWorker w => run.pollWorker w
  | .endPass => run.endPass
  | .checkpoint action kind => checkpoint cfg run action kind
  | .drain => drain cfg run
  | .joinWriter error kind => joinWriter cfg run error kind
  | .delete fault kind => run.delete fault kind

def start (pool : Pool n) : MultiRun n := ⟨pool, .select, none, fun _ => false⟩

end MultiRun

end Bytehaul.Session
