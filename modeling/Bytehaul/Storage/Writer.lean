import Bytehaul.Foundation.AsyncFile
import Bytehaul.Storage.Cache

/-!
# The writer task

`storage/writer.rs`. A command names the party waiting for its acknowledgement by a value of
`α`; a failure carries the task it ended in, with what had reached the file.
-/

namespace Bytehaul.Storage

open Foundation Foundation.DiskFile Std

inductive WriterCommand (α : Type)
  | beginLease (leaseKey : LeaseKey)
  | data (offset : Nat) (data : List UInt8) (permit : Option Nat)
      (leaseKey : Option LeaseKey)
  | flushLease (leaseKey : LeaseKey) (ack : α)
  | discardLease (leaseKey : LeaseKey) (ack : α)
  | flushAll (syncData : Bool) (ack : α)
  deriving DecidableEq

inductive WriterReply
  | flushed
  | discarded (bytes : Nat)
  | flushedAll (writtenBytes : Nat)
  deriving DecidableEq, Repr

inductive WriterError
  | io
  | nonContiguousWrite (error : NonContiguousWrite)
  deriving DecidableEq, Repr

structure WriterTask where
  file : AsyncFile
  writtenBytes : Nat
  cache : WriteBackCache
  activeLeases : TreeMap LeaseKey (Option Nat)
  single : Option (Nat × List UInt8)
  fileOffset : Option Nat
  permits : List (Option LeaseKey × Nat)
  cacheHighWatermark : Nat

namespace WriterTask

variable (task : WriterTask)

/-- The task after an operation, or the error that ended it and the task it ended in. -/
abbrev Attempt := Except (WriterError × WriterTask) WriterTask

def new (file : DiskFile) (cacheHighWatermark : Nat) : WriterTask where
  file := .ofDisk file
  writtenBytes := 0
  cache := WriteBackCache.new
  activeLeases := ∅
  single := none
  fileOffset := none
  permits := []
  cacheHighWatermark := cacheHighWatermark

def singleBytes : Nat :=
  task.single.elim 0 fun (_, data) => data.length

def writeBlock (offset : Nat) (data : List UInt8) : Attempt :=
  let file := if task.fileOffset = some offset then task.file else task.file.seek offset
  match file.writeAll data with
  | .ok file => .ok { task with
      file := file
      fileOffset := some (offset + data.length)
      writtenBytes := max task.writtenBytes (offset + data.length) }
  | .error file => .error (.io, { task with file := file, fileOffset := none })

def writeBlocks (task : WriterTask) : List FlushBlock → Attempt
  | [] => .ok task
  | block :: blocks => do
      let task ← task.writeBlock block.offset block.data
      task.writeBlocks blocks

def retainPermits (keep : Option LeaseKey → Bool) : WriterTask :=
  { task with permits := task.permits.filter fun permit => keep permit.1 }

def flushSingle : Attempt :=
  match task.single with
  | some (offset, data) => { task with single := none }.writeBlock offset data
  | none => .ok task

def flushLease (leaseKey : LeaseKey) : Attempt := do
  let drained := task.cache.drainLease leaseKey
  let task ← { task with cache := drained.2 }.writeBlocks drained.1
  pure (task.retainPermits (· ≠ some leaseKey))

def flushAll : Attempt := do
  let task ← task.flushSingle
  let task ← { task with cache := task.cache.drainAll.2 }.writeBlocks task.cache.drainAll.1
  pure { task with permits := [] }

def syncFile : Attempt :=
  match task.file.sync with
  | .ok file => .ok { task with file := file }
  | .error file => .error (.io, { task with file := file })

def singleLimit : Nat := 256 * 1024

def appendSingle (offset : Nat) (data : List UInt8) : Attempt :=
  let buffer := task.single.getD (offset, [])
  let task := { task with single := some (buffer.1, buffer.2 ++ data) }
  if singleLimit ≤ task.singleBytes then do
    let task ← task.flushSingle
    pure (task.retainPermits Option.isSome)
  else .ok task

def bufferSingle (offset : Nat) (data : List UInt8) : Attempt :=
  if data = [] then .ok task
  else if min singleLimit task.cacheHighWatermark ≤ data.length then do
    let task ← task.flushSingle
    let task ← task.writeBlock offset data
    pure (task.retainPermits Option.isSome)
  else task.appendSingle offset data

def yieldSingle (offset : Nat) (data : List UInt8) (leaseKey : Option LeaseKey) : Attempt :=
  if data ≠ [] ∧
      task.single.any fun (start, buffered) =>
        leaseKey.isSome || start + buffered.length != offset then do
    let task ← task.flushSingle
    pure (task.retainPermits Option.isSome)
  else .ok task

def holdPermit (leaseKey : Option LeaseKey) (permit : Option Nat) : WriterTask :=
  { task with permits := task.permits ++ (permit.map fun bytes => (leaseKey, bytes)).toList }

/-- Data of an active lease must continue what the lease has sent so far. -/
def bufferActive (leaseKey : LeaseKey) (expected : Option Nat)
    (offset : Nat) (data : List UInt8) : Attempt :=
  if data = [] then .ok task
  else if expected.any (· != offset) then
    .error (.nonContiguousWrite ⟨expected.getD offset, offset⟩, task)
  else
    match task.cache.insert leaseKey offset data with
    | .error error => .error (.nonContiguousWrite error, task)
    | .ok cache => .ok { task with
        cache := cache
        activeLeases := task.activeLeases.insert leaseKey (some (offset + data.length)) }

def bufferData (offset : Nat) (data : List UInt8) (leaseKey : Option LeaseKey) : Attempt :=
  match leaseKey with
  | some key =>
    match task.activeLeases[key]? with
    | some expected => task.bufferActive key expected offset data
    | none => .ok (task.retainPermits (· ≠ some key))
  | none => task.bufferSingle offset data

def flushAllWhen (condition : Bool) : Attempt :=
  if condition then task.flushAll else .ok task

def processData (offset : Nat) (data : List UInt8) (permit : Option Nat)
    (leaseKey : Option LeaseKey) : Attempt := do
  let task ← task.yieldSingle offset data leaseKey
  let task ← task.flushAllWhen (leaseKey.isNone && task.cache.totalBytes != 0)
  let task ← (task.holdPermit leaseKey permit).bufferData offset data leaseKey
  task.flushAllWhen (task.cacheHighWatermark ≤ task.cache.totalBytes + task.singleBytes)

variable {α : Type}

def process : WriterCommand α → Attempt
  | .beginLease key => .ok { task with activeLeases := task.activeLeases.insert key none }
  | .data offset data permit leaseKey => task.processData offset data permit leaseKey
  | .flushLease key _ => do
      let task ← task.flushLease key
      pure { task with activeLeases := task.activeLeases.erase key }
  | .discardLease key _ => .ok
      ({ task with
        activeLeases := task.activeLeases.erase key
        cache := (task.cache.discardLease key).2 }.retainPermits (· ≠ some key))
  | .flushAll syncData _ => do
      let task ← task.flushAll
      if syncData then task.syncFile else pure task

/-- The acknowledgement sent once `process` took the task from `before` to `after`. -/
def reply (before after : WriterTask) : WriterCommand α → Option (α × WriterReply)
  | .beginLease _ => none
  | .data _ _ _ _ => none
  | .flushLease _ ack => some (ack, .flushed)
  | .discardLease key ack => some (ack, .discarded (before.cache.discardLease key).1)
  | .flushAll _ ack => some (ack, .flushedAll after.writtenBytes)

def runCommands (task : WriterTask) : List (WriterCommand α) → Attempt
  | [] => .ok task
  | command :: commands => do
      let task ← task.process command
      task.runCommands commands

/-- The channel is closed and empty: flush what is left and sync the file. -/
def finish : Attempt := do
  let task ← task.flushAll
  task.syncFile

end WriterTask

end Bytehaul.Storage
