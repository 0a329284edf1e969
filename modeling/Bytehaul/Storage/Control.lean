import Bytehaul.Storage.PieceMap

/-!
# Control files

`storage/control.rs`: the checkpoint of a download. The hints that travel with it are read
back by nothing.
-/

namespace Bytehaul.Storage

structure ControlSnapshot where
  url : String
  totalSize : Nat
  pieceSize : Nat
  pieceCount : Nat
  completedBitset : List UInt8
  downloadedBytes : Nat
  etag : Option (List UInt8)
  lastModified : Option (List UInt8)
  deriving DecidableEq, Repr

def ControlSnapshot.pieceMap (snapshot : ControlSnapshot) : PieceMap :=
  PieceMap.fromBitset snapshot.totalSize snapshot.pieceSize snapshot.completedBitset
    snapshot.pieceCount

/-- What a temporary file holds: a whole snapshot, or less. -/
inductive ControlImage
  | torn
  | whole (snapshot : ControlSnapshot)
  deriving DecidableEq, Repr

structure ControlFiles where
  control : Option ControlSnapshot
  temporary : Option ControlImage
  deriving DecidableEq, Repr

inductive SaveFault
  | create
  | write
  | sync
  | rename
  deriving DecidableEq, Repr

/-- Write a temporary file, sync it, rename it over the control file. -/
def saveSync (files : ControlFiles) (snapshot : ControlSnapshot) :
    Option SaveFault → Bool × ControlFiles
  | some .create => (false, files)
  | some .write => (false, { files with temporary := some .torn })
  | some .sync | some .rename => (false, { files with temporary := some (.whole snapshot) })
  | none => (true, ⟨some snapshot, none⟩)

theorem saveSync_failed {files next : ControlFiles} {snap : ControlSnapshot}
    {fault : Option SaveFault} (h : saveSync files snap fault = (false, next)) :
    next.control = files.control := by
  unfold saveSync at h
  split at h <;> cases h <;> rfl

theorem saveSync_saved {files next : ControlFiles} {snapshot : ControlSnapshot}
    {fault : Option SaveFault} (h : saveSync files snapshot fault = (true, next)) :
    next.control = some snapshot := by
  unfold saveSync at h
  split at h <;> cases h
  rfl

end Bytehaul.Storage
