import Bytehaul.Foundation.Codec
import Bytehaul.Storage.Control

/-!
# Control files, byte by byte

`save_sync` and `load_sync_with_hints` of `storage/control.rs`. Serializer and checksum are
parameters; `bincode` is the layout of the source.
-/

namespace Bytehaul.Storage

open Foundation List Nat

structure ControlHints where
  dirtyPieceIds : List Nat
  inflightPieceIds : List Nat
  snapshotSeq : Nat
  deriving DecidableEq, Repr

def ControlHints.default : ControlHints := ⟨[], [], 0⟩

structure ControlSnapshotV2 where
  snapshot : ControlSnapshot
  hints : ControlHints
  deriving DecidableEq, Repr

inductive ControlPayload
  | v2 (payload : ControlSnapshotV2)
  deriving DecidableEq, Repr

inductive ControlError
  | io
  | controlFileCorrupted (message : String)
  deriving DecidableEq, Repr

namespace ControlFile

variable (crates : Crates)

def magic : Nat := 0x42594845

def versionV1 : Nat := 1

def versionV2 : Nat := 2

def headerSize : Nat := 16

/-- What the crates `bincode` and `crc32fast` provide. -/
structure Crates where
  v1 : Codec ControlSnapshot
  v2 : Codec ControlPayload
  hash : List UInt8 → UInt32

def layout (version : Nat) (payload : List UInt8) : List UInt8 :=
  toLe32 magic ++ toLe32 version ++ toLe32 payload.length ++
    toLe32 (crates.hash payload).toNat ++ payload

def fileV2 (snapshot : ControlSnapshot) (hints : ControlHints) : List UInt8 :=
  layout crates versionV2 (crates.v2.encode (.v2 ⟨snapshot, hints⟩))

def fileV1 (snapshot : ControlSnapshot) : List UInt8 :=
  layout crates versionV1 (crates.v1.encode snapshot)

def wordAt (data : List UInt8) (at' : Nat) : Nat := fromLe ((data.drop at').take 4)

def corrupted {α : Type} (message : String) : Except ControlError α :=
  .error (.controlFileCorrupted message)

def deserialize {α : Type} (codec : Codec α) (payload : List UInt8) : Except ControlError α :=
  match codec.decode payload with
  | .ok (value, _) => .ok value
  | .error message => corrupted s!"deserialize: {message}"

def readV1 (payload : List UInt8) : Except ControlError (ControlSnapshot × ControlHints) := do
  let snapshot ← deserialize crates.v1 payload
  .ok (snapshot, ControlHints.default)

def readV2 (payload : List UInt8) : Except ControlError (ControlSnapshot × ControlHints) := do
  match ← deserialize crates.v2 payload with
  | .v2 payload => .ok (payload.snapshot, payload.hints)

def parse (data : List UInt8) : Except ControlError (ControlSnapshot × ControlHints) :=
  if data.length < headerSize then corrupted "too short"
  else
    let version := wordAt data 4
    let payloadLen := wordAt data 8
    if wordAt data 0 ≠ magic then corrupted "bad magic"
    else if version ≠ versionV1 ∧ version ≠ versionV2 then
      corrupted s!"unsupported version: {version}"
    else if data.length < headerSize + payloadLen then corrupted "truncated payload"
    else
      let payload := (data.drop headerSize).take payloadLen
      if (crates.hash payload).toNat ≠ wordAt data 12 then corrupted "checksum mismatch"
      else if version = versionV1 then readV1 crates payload
      else readV2 crates payload

def loadSyncWithHints (file : Option (List UInt8)) :
    Except ControlError (ControlSnapshot × ControlHints) :=
  match file with
  | none => .error .io
  | some data => parse crates data

structure Directory where
  control : Option (List UInt8)
  temporary : Option (List UInt8)
  deriving DecidableEq, Repr

inductive FileOp
  | create
  | write (byte : UInt8)
  | sync
  | rename
  deriving DecidableEq, Repr

def FileOp.apply (directory : Directory) : FileOp → Directory
  | .create => { directory with temporary := some [] }
  | .write byte => { directory with temporary := directory.temporary.map (· ++ [byte]) }
  | .sync => directory
  | .rename =>
    match directory.temporary with
    | some data => ⟨some data, none⟩
    | none => directory

/-- `save_sync`, one operation at a time; a `write_all` may be cut after any byte. -/
def saveOps (snapshot : ControlSnapshot) (hints : ControlHints) : List FileOp :=
  .create :: ((fileV2 crates snapshot hints).map FileOp.write ++ [.sync, .rename])

def interrupted (snapshot : ControlSnapshot) (hints : ControlHints)
    (count : Nat) (directory : Directory) : Directory :=
  ((saveOps crates snapshot hints).take count).foldl FileOp.apply directory

def saveSync (snapshot : ControlSnapshot) (hints : ControlHints)
    (directory : Directory) : Directory :=
  (saveOps crates snapshot hints).foldl FileOp.apply directory

section Parse

variable {crates : Crates} {version : Nat} {payload : List UInt8}

theorem length_layout (crates : Crates) (version : Nat) (payload : List UInt8) :
    (layout crates version payload).length = headerSize + payload.length := by
  simp [layout, headerSize]
  omega

theorem wordAt_layout (crates : Crates) (version : Nat) (payload : List UInt8) {count : Nat}
    (hc : headerSize ≤ count) : wordAt ((layout crates version payload).take count) 0 = magic ∧
    wordAt ((layout crates version payload).take count) 4 = version % 2 ^ 32 ∧
    wordAt ((layout crates version payload).take count) 8 = payload.length % 2 ^ 32 ∧
    wordAt ((layout crates version payload).take count) 12 = (crates.hash payload).toNat := by
  have htake : (layout crates version payload).take count =
      toLe32 magic ++ toLe32 version ++ toLe32 payload.length ++
        toLe32 (crates.hash payload).toNat ++ payload.take (count - headerSize) := by
    rw [layout, take_append, take_of_length_le (by simpa [headerSize] using hc)]
    rfl
  rw [htake]
  refine ⟨fromLe_toLe32 magic, fromLe_toLe32 version, fromLe_toLe32 payload.length, ?_⟩
  refine (fromLe_toLe32 (crates.hash payload).toNat).trans (mod_eq_of_lt ?_)
  exact (crates.hash payload).toNat_lt

theorem parse_layout (hlen : payload.length < 2 ^ 32)
    (hversion : version = versionV1 ∨ version = versionV2) :
    parse crates (layout crates version payload) =
      if version = versionV1 then readV1 crates payload else readV2 crates payload := by
  have hwords := wordAt_layout crates version payload (le_add_right headerSize payload.length)
  rw [← length_layout crates version, take_length] at hwords
  obtain ⟨hmagic, hword, hpayload, hhash⟩ := hwords
  have hknown : version % 2 ^ 32 = version := by rcases hversion with rfl | rfl <;> rfl
  rw [hknown] at hword
  rw [mod_eq_of_lt hlen] at hpayload
  have hbody : ((layout crates version payload).drop headerSize).take payload.length = payload := by
    have hdrop : (layout crates version payload).drop headerSize = payload := rfl
    rw [hdrop, take_length]
  have hsupported : ¬ (version ≠ versionV1 ∧ version ≠ versionV2) := by
    rintro ⟨hfst, hsnd⟩
    exact hversion.elim hfst hsnd
  simp only [parse, length_layout, hmagic, hword, hpayload, hhash, hbody, hsupported]
  simp [not_lt.mpr (le_add_right headerSize payload.length)]

theorem parse_cut {count : Nat} (hlen : payload.length < 2 ^ 32)
    (hc : count < (layout crates version payload).length) :
    ∃ message, parse crates ((layout crates version payload).take count) = corrupted message := by
  have hlength : ((layout crates version payload).take count).length = count := by
    rw [length_take]
    omega
  by_cases hheader : count < headerSize
  · simp [parse, hlength, hheader]
  · obtain ⟨hmagic, hword, hpayload, -⟩ := wordAt_layout crates version payload (not_lt.mp hheader)
    rw [mod_eq_of_lt hlen] at hpayload
    rw [length_layout] at hc
    simp only [parse, hlength, hheader, hmagic, hpayload, hc]
    split
    · contradiction
    · split
      · exact ⟨_, rfl⟩
      · split
        · exact ⟨_, rfl⟩
        · exact ⟨_, rfl⟩

end Parse

section Save

variable {crates : Crates} {snapshot old : ControlSnapshot} {hints oldHints : ControlHints}
  {directory : Directory}

theorem load_fileV2 (hfits : crates.v2.Fits (.v2 ⟨snapshot, hints⟩))
    (hlen : (crates.v2.encode (.v2 ⟨snapshot, hints⟩)).length < 2 ^ 32) :
    loadSyncWithHints crates (some (fileV2 crates snapshot hints)) = .ok (snapshot, hints) := by
  have hparse : parse crates (layout crates versionV2 _) = _ := parse_layout hlen (.inr rfl)
  rw [loadSyncWithHints, fileV2, hparse, readV2, deserialize, crates.v2.decode_self hfits]
  rfl

private theorem load_fileV1 (hfits : crates.v1.Fits snapshot)
    (hlen : (crates.v1.encode snapshot).length < 2 ^ 32) :
    loadSyncWithHints crates (some (fileV1 crates snapshot)) =
      .ok (snapshot, ControlHints.default) := by
  have hparse : parse crates (layout crates versionV1 _) = _ := parse_layout hlen (.inl rfl)
  rw [loadSyncWithHints, fileV1, hparse, readV1, deserialize, crates.v1.decode_self hfits]
  rfl

private theorem control_unchanged {ops : List FileOp} (h : FileOp.rename ∉ ops) :
    (ops.foldl FileOp.apply directory).control = directory.control := by
  induction ops generalizing directory with
  | nil => rfl
  | cons op ops ih =>
    rw [mem_cons, not_or] at h
    obtain ⟨hop, hops⟩ := h
    rw [foldl_cons, ih hops]
    cases op with
    | rename => exact absurd rfl hop
    | _ => rfl

theorem temporary_written {data written : List UInt8} {control : Option (List UInt8)} :
    (data.map FileOp.write).foldl FileOp.apply ⟨control, some written⟩ =
      ⟨control, some (written ++ data)⟩ := by
  induction data generalizing written with
  | nil => simp
  | cons byte data ih =>
    change (data.map FileOp.write).foldl FileOp.apply ⟨control, some (written ++ [byte])⟩ = _
    rw [ih, append_assoc]
    rfl

theorem saveSync_eq :
    saveSync crates snapshot hints directory = ⟨some (fileV2 crates snapshot hints), none⟩ := by
  rw [saveSync, saveOps, foldl_cons, foldl_append]
  change [FileOp.sync, .rename].foldl FileOp.apply
    (((fileV2 crates snapshot hints).map FileOp.write).foldl FileOp.apply
      ⟨directory.control, some []⟩) = _
  rw [temporary_written]
  rfl

private theorem length_saveOps :
    (saveOps crates snapshot hints).length = 3 + (fileV2 crates snapshot hints).length := by
  simp [saveOps]
  omega

private theorem interrupted_control {count : Nat}
    (hc : count < 3 + (fileV2 crates snapshot hints).length) :
    (interrupted crates snapshot hints count directory).control = directory.control := by
  apply control_unchanged
  intro hmem
  have hspl : saveOps crates snapshot hints =
      (.create :: (fileV2 crates snapshot hints).map FileOp.write ++ [.sync]) ++ [.rename] := by
    simp [saveOps]
  rw [hspl, take_append_of_le_length (by simp; omega)] at hmem
  have hinit := mem_of_mem_take hmem
  simp at hinit

theorem interrupted_last {count : Nat}
    (hc : 3 + (fileV2 crates snapshot hints).length ≤ count) :
    interrupted crates snapshot hints count directory =
      saveSync crates snapshot hints directory := by
  rw [interrupted, take_of_length_le (by rwa [length_saveOps])]
  rfl

def view (crates : Crates) (file : Option (List UInt8)) : Option ControlSnapshot :=
  (loadSyncWithHints crates file).toOption.map Prod.fst

/-- The two files as the abstract model has them. -/
def files (crates : Crates) (directory : Directory) : ControlFiles where
  control := view crates directory.control
  temporary := directory.temporary.map fun data =>
    (view crates (some data)).elim .torn .whole

/-- The operation of the abstract save at which `count` operations of `saveOps` stop. -/
def faultAt (crates : Crates) (snapshot : ControlSnapshot) (hints : ControlHints)
    (count : Nat) : Option SaveFault :=
  if count = 0 then some .create
  else if count ≤ (fileV2 crates snapshot hints).length then some .write
  else if count = (fileV2 crates snapshot hints).length + 1 then some .sync
  else if count = (fileV2 crates snapshot hints).length + 2 then some .rename
  else none

theorem view_fileV2 (hfits : crates.v2.Fits (.v2 ⟨snapshot, hints⟩))
    (hlen : (crates.v2.encode (.v2 ⟨snapshot, hints⟩)).length < 2 ^ 32) :
    view crates (some (fileV2 crates snapshot hints)) = some snapshot := by
  rw [view, load_fileV2 hfits hlen]
  rfl

private theorem view_cut {count : Nat}
    (hlen : (crates.v2.encode (.v2 ⟨snapshot, hints⟩)).length < 2 ^ 32)
    (hc : count < (fileV2 crates snapshot hints).length) :
    view crates (some ((fileV2 crates snapshot hints).take count)) = none := by
  obtain ⟨message, hcut⟩ := parse_cut hlen hc
  rw [view, loadSyncWithHints, fileV2, hcut]
  rfl

theorem interrupted_writing {count : Nat}
    (hc : count ≤ (fileV2 crates snapshot hints).length) :
    interrupted crates snapshot hints (count + 1) directory =
      ⟨directory.control, some ((fileV2 crates snapshot hints).take count)⟩ := by
  rw [interrupted, saveOps, take_succ_cons, take_append_of_le_length (by simpa using hc),
    ← map_take, foldl_cons]
  exact temporary_written

private theorem interrupted_synced :
    interrupted crates snapshot hints ((fileV2 crates snapshot hints).length + 2) directory =
      ⟨directory.control, some (fileV2 crates snapshot hints)⟩ := by
  have htake : (saveOps crates snapshot hints).take
      ((fileV2 crates snapshot hints).length + 2) =
        (saveOps crates snapshot hints).take ((fileV2 crates snapshot hints).length + 1) ++
          [.sync] := by
    simp [saveOps, take_append]
  have hwr : interrupted crates snapshot hints
      ((fileV2 crates snapshot hints).length + 1) directory = _ :=
    interrupted_writing (le_refl _)
  rw [interrupted] at hwr
  rw [interrupted, htake, foldl_append, hwr, take_length]
  rfl

/-- Wherever a save stops, a reader finds the two files as the abstract save leaves them that fails
at the operation under way. -/
theorem view_interrupted (hfits : crates.v2.Fits (.v2 ⟨snapshot, hints⟩))
    (hlen : (crates.v2.encode (.v2 ⟨snapshot, hints⟩)).length < 2 ^ 32) (count : Nat) :
    files crates (interrupted crates snapshot hints count directory) =
      (Storage.saveSync (files crates directory) snapshot
        (faultAt crates snapshot hints count)).2 := by
  unfold faultAt
  split_ifs with hcreate hw hsync hrename
  · subst hcreate
    rfl
  · obtain ⟨written, rfl⟩ := exists_eq_succ_of_ne_zero hcreate
    rw [interrupted_writing (le_of_succ_le hw), files, Option.map_some, view_cut hlen hw]
    rfl
  · rw [hsync, interrupted_writing (le_refl _), take_length, files, Option.map_some,
      view_fileV2 hfits hlen]
    rfl
  · rw [hrename, interrupted_synced, files, Option.map_some, view_fileV2 hfits hlen]
    rfl
  · rw [interrupted_last (by omega), saveSync_eq, files, view_fileV2 hfits hlen]
    rfl

/-- A saved file loads as what was saved, a part of it is corrupted, a file of the first version
has empty hints, and an interrupted save leaves the old snapshot or the new one. -/
theorem control_file_round_trip (crates : Crates) (snapshot : ControlSnapshot)
    (hints : ControlHints) (hfits : crates.v2.Fits (.v2 ⟨snapshot, hints⟩))
    (hlen : (crates.v2.encode (.v2 ⟨snapshot, hints⟩)).length < 2 ^ 32) :
    (∀ directory, loadSyncWithHints crates (saveSync crates snapshot hints directory).control =
      .ok (snapshot, hints)) ∧
    (∀ count < (fileV2 crates snapshot hints).length,
      ∃ message, loadSyncWithHints crates (some ((fileV2 crates snapshot hints).take count)) =
        .error (.controlFileCorrupted message)) ∧
    (crates.v1.Fits snapshot → (crates.v1.encode snapshot).length < 2 ^ 32 →
      loadSyncWithHints crates (some (fileV1 crates snapshot)) =
        .ok (snapshot, ControlHints.default)) ∧
    ∀ directory old oldHints, loadSyncWithHints crates directory.control = .ok (old, oldHints) →
      ∀ count,
        loadSyncWithHints crates (interrupted crates snapshot hints count directory).control =
          .ok (old, oldHints) ∨
        loadSyncWithHints crates (interrupted crates snapshot hints count directory).control =
          .ok (snapshot, hints) := by
  have hsaved : ∀ directory, loadSyncWithHints crates
      (saveSync crates snapshot hints directory).control = .ok (snapshot, hints) := by
    intro directory
    rw [saveSync_eq]
    exact load_fileV2 hfits hlen
  refine ⟨hsaved, fun count hc => parse_cut hlen hc, load_fileV1, ?_⟩
  intro directory old oldHints hold count
  by_cases hc : count < 3 + (fileV2 crates snapshot hints).length
  · left
    rw [interrupted_control hc]
    exact hold
  · right
    rw [interrupted_last (not_lt.mp hc)]
    exact hsaved directory

def snapshotCodec : Codec ControlSnapshot :=
  (Codec.text.pair ((Codec.word 8).pair ((Codec.word 8).pair ((Codec.word 8).pair
    (Codec.byte.list.pair ((Codec.word 8).pair
      (Codec.byte.list.option.pair Codec.byte.list.option))))))).via
      (fun snapshot => (snapshot.url, snapshot.totalSize, snapshot.pieceSize,
        snapshot.pieceCount, snapshot.completedBitset, snapshot.downloadedBytes, snapshot.etag,
        snapshot.lastModified))
      (fun (url, totalSize, pieceSize, pieceCount, completedBitset, downloadedBytes, etag,
        lastModified) => .ok ⟨url, totalSize, pieceSize, pieceCount, completedBitset,
          downloadedBytes, etag, lastModified⟩) fun _ => rfl

def hintsCodec : Codec ControlHints :=
  ((Codec.word 8).list.pair ((Codec.word 8).list.pair (Codec.word 8))).via
    (fun hints => (hints.dirtyPieceIds, hints.inflightPieceIds, hints.snapshotSeq))
    (fun (dirty, inflight, seq) => .ok ⟨dirty, inflight, seq⟩) fun _ => rfl

/-- An enumeration starts with the index of its variant. -/
def payloadCodec : Codec ControlPayload :=
  ((Codec.word 4).pair (snapshotCodec.pair hintsCodec)).via
    (fun | .v2 payload => (0, payload.snapshot, payload.hints))
    (fun (variant, snapshot, hints) =>
      if variant = 0 then .ok (.v2 ⟨snapshot, hints⟩) else .error "invalid variant") fun _ => rfl

def bincode : Crates where
  v1 := snapshotCodec
  v2 := payloadCodec
  hash := crc32

def smallSnapshot (completed : UInt8) (downloaded : Nat) : ControlSnapshot :=
  ⟨"u", 4, 2, 2, [completed], downloaded, some [7], none⟩

theorem small_snapshot_fits {completed : UInt8} {downloaded : Nat} (h : downloaded ≤ 4) :
    bincode.v2.Fits (.v2 ⟨smallSnapshot completed downloaded, ⟨[1], [], 3⟩⟩) := by
  have hurl : "u".utf8ByteSize = 1 := by decide +kernel
  simp [bincode, payloadCodec, snapshotCodec, hintsCodec, smallSnapshot, Codec.via, Codec.pair,
    Codec.word, Codec.list, Codec.option, Codec.byte, Codec.text]
  omega

theorem small_file_round_trip :
    (∀ count < (fileV2 bincode (smallSnapshot 1 2) ⟨[1], [], 3⟩).length,
      ∃ message, loadSyncWithHints bincode
        (some ((fileV2 bincode (smallSnapshot 1 2) ⟨[1], [], 3⟩).take count)) =
          .error (.controlFileCorrupted message)) ∧
    loadSyncWithHints bincode
      (saveSync bincode (smallSnapshot 1 2) ⟨[1], [], 3⟩ ⟨none, none⟩).control =
        .ok (smallSnapshot 1 2, ⟨[1], [], 3⟩) := by
  have hround := control_file_round_trip bincode (smallSnapshot 1 2) ⟨[1], [], 3⟩
    (small_snapshot_fits (by decide)) (by decide +kernel)
  exact ⟨hround.2.1, hround.1 ⟨none, none⟩⟩

/-- The header and five bytes of the payload are written when the process stops. -/
theorem cut_save_keeps_the_old_snapshot :
    files bincode (interrupted bincode (smallSnapshot 1 2) ⟨[1], [], 3⟩ 22
      ⟨some (fileV2 bincode (smallSnapshot 0 0) ⟨[1], [], 3⟩), none⟩) =
        ⟨some (smallSnapshot 0 0), some .torn⟩ := by
  have hfault : faultAt bincode (smallSnapshot 1 2) ⟨[1], [], 3⟩ 22 = some .write := by
    decide +kernel
  rw [view_interrupted (small_snapshot_fits (by decide)) (by decide +kernel) 22, hfault, files,
    view_fileV2 (small_snapshot_fits (by decide)) (by decide +kernel)]
  rfl

end Save

end ControlFile

end Bytehaul.Storage
