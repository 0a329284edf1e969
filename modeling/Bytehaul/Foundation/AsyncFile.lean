import Bytehaul.Foundation.Disk

/-!
# Files that write behind

Another thread performs the writes of a file. The last block handed over is queued until the
next operation, which reports a refusal; the image is the file without the delay.
-/

namespace Bytehaul.Foundation

open List

structure AsyncFile extends DiskFile where
  queued : List UInt8
  refused : Bool
  image : DiskFile
  intact : refused = false → image.Alike (toDiskFile.store queued)
  kept : ∀ b, image.durable b = true →
    durable b = true ∧ (b < cursor ∨ cursor + queued.length ≤ b)

namespace AsyncFile

open DiskFile

def ofDisk (file : DiskFile) : AsyncFile where
  toDiskFile := file
  queued := []
  refused := false
  image := file
  intact _ := by rw [store_nil]; exact ⟨rfl, rfl, rfl, rfl⟩
  kept b h := ⟨h, by simp only [length_nil]; omega⟩

def perform (file : AsyncFile) : AsyncFile where
  toDiskFile := file.store (file.queued.take (file.accepted file.queued))
  queued := []
  refused := file.refused || file.accepted file.queued != file.queued.length
  image := file.image
  intact h := by
    obtain ⟨hrefused, hall⟩ := Bool.or_eq_false_iff.mp h
    rw [bne_eq_false_iff_eq] at hall
    rw [store_nil, hall, take_length]
    exact file.intact hrefused
  kept b h := by
    obtain ⟨hdurable, hout⟩ := file.kept b h
    refine ⟨durable_store hdurable ?_, by simp only [length_nil]; omega⟩
    rw [length_take]
    omega

theorem perform_intact {file : AsyncFile} (h : file.perform.refused = false) :
    file.image.Alike file.perform.toDiskFile := by
  have hintact := file.perform.intact h
  rwa [show file.perform.queued = [] from rfl, store_nil] at hintact

def seek (file : AsyncFile) (pos : Nat) : AsyncFile where
  toDiskFile := file.perform.toDiskFile.seek pos
  queued := []
  refused := file.perform.refused
  image := file.image.seek pos
  intact h := by
    obtain ⟨hcontent, -, hwritten, hdurable⟩ := perform_intact h
    rw [store_nil]
    exact ⟨hcontent, rfl, hwritten, hdurable⟩
  kept b h := ⟨(file.perform.kept b h).1, by simp only [length_nil]; omega⟩

/-- Hand a block over, which waits for the block before it. -/
def hand (file : AsyncFile) (block : List UInt8) (h : file.perform.refused = false) :
    AsyncFile where
  toDiskFile := file.perform.toDiskFile
  queued := block
  refused := false
  image := file.image.store block
  intact _ := (perform_intact h).store
  kept b hb := by
    simp only [store, Bool.and_eq_true, Bool.not_eq_true', ← Bool.not_eq_true, ahead_iff,
      (perform_intact h).cursor] at hb
    exact ⟨(file.perform.kept b hb.1).1, by omega⟩

def handOver (file : AsyncFile) (block : List UInt8) : Except AsyncFile AsyncFile :=
  if h : file.perform.refused = false then .ok (file.hand block h) else .error file.perform

def maxBlock : Nat := 2 * 1024 * 1024

def blocks : Nat → List UInt8 → List (List UInt8)
  | 0, _ => []
  | fuel + 1, data =>
    if data = [] then [] else data.take maxBlock :: blocks fuel (data.drop maxBlock)

def writeAll (file : AsyncFile) (data : List UInt8) : Except AsyncFile AsyncFile :=
  (blocks data.length data).foldlM handOver file

/-- Flush and sync.  Neither happens once a block was refused. -/
def sync (file : AsyncFile) : Except AsyncFile AsyncFile :=
  if h : file.perform.refused = false then
    match hsync : file.perform.toDiskFile.sync with
    | none => .error file.perform
    | some disk => .ok {
        toDiskFile := disk
        queued := []
        refused := false
        image := file.image.synced
        intact := fun _ => by
          rw [store_nil]
          exact (perform_intact h).synced.trans (sync_eq_some hsync)
        kept := fun b hb => by
          refine ⟨?_, by simp only [length_nil]; omega⟩
          rwa [← ((perform_intact h).synced.trans (sync_eq_some hsync)).durable] }
  else .error file.perform

variable {file next : AsyncFile} {data : List UInt8} {b : Nat}

def Delivered (file : AsyncFile) : Prop := file.queued = [] ∧ file.refused = false

theorem Delivered.alike (h : file.Delivered) : file.image.Alike file.toDiskFile := by
  have hintact := file.intact h.2
  rwa [h.1, store_nil] at hintact

theorem sync_ok (h : file.sync = .ok next) :
    next.image = file.image.synced ∧ next.Delivered := by
  unfold sync at h
  split at h
  · split at h
    · cases h
    · cases h
      exact ⟨rfl, rfl, rfl⟩
  · cases h

private theorem performed_of_sync (h : file.sync = .ok next) : file.perform.refused = false := by
  unfold sync at h
  split at h
  · assumption
  · cases h

theorem content_perform (h : file.queued = []) : file.perform.content = file.content := by
  change (file.store (file.queued.take _)).content = _
  rw [h, take_nil, store_nil]

theorem sync_error (h : file.sync = .error next) : next = file.perform := by
  unfold sync at h
  split at h
  · split at h
    · cases h
      rfl
    · cases h
  · cases h
    rfl

structure Unfailing (file : AsyncFile) : Prop where
  writes : file.writeBudget = none
  syncs : file.syncBudget = none
  accepted : file.refused = false

theorem Unfailing.perform (h : file.Unfailing) : file.perform.Unfailing where
  writes := by simp [AsyncFile.perform, store, h.writes]
  syncs := h.syncs
  accepted := by simp [AsyncFile.perform, DiskFile.accepted, h.writes, h.accepted]

theorem Unfailing.writeAll (h : file.Unfailing) (data : List UInt8) :
    ∃ next, file.writeAll data = .ok next ∧ next.Unfailing := by
  unfold AsyncFile.writeAll
  induction blocks data.length data generalizing file with
  | nil => exact ⟨file, rfl, h⟩
  | cons block blocks ih =>
      have hperf := h.perform
      rw [foldlM_cons, handOver, dif_pos hperf.accepted]
      exact ih ⟨hperf.writes, hperf.syncs, rfl⟩

theorem Unfailing.sync (h : file.Unfailing) : ∃ next, file.sync = .ok next ∧ next.Unfailing := by
  have hperf := h.perform
  have hsync : file.perform.toDiskFile.sync =
      some { file.perform.toDiskFile.synced with syncBudget := none } := by
    rw [DiskFile.sync, hperf.syncs]
    rfl
  unfold AsyncFile.sync
  rw [dif_pos hperf.accepted]
  split
  · next hnone => cases hsync.symm.trans hnone
  · next disk hdisk =>
    cases hsync.symm.trans hdisk
    exact ⟨_, rfl, hperf.writes, rfl, rfl⟩

theorem flatten_blocks {fuel : Nat} (h : data.length ≤ fuel) :
    (blocks fuel data).flatten = data := by
  induction fuel generalizing data with
  | zero => rw [length_eq_zero_iff.mp (Nat.le_zero.mp h), blocks, flatten_nil]
  | succ fuel ih =>
      unfold blocks
      split
      · next hnil => rw [hnil, flatten_nil]
      · next hnil =>
        have hpos := length_pos_iff.mpr hnil
        have hdrop : (data.drop maxBlock).length ≤ fuel := by
          rw [length_drop, maxBlock]
          omega
        rw [flatten_cons, ih hdrop, take_append_drop]

/-- `file` becomes `next` by handing over bytes that `P` allows, among other operations. -/
inductive Stores (P : Nat → UInt8 → Prop) (file : AsyncFile) : AsyncFile → Prop
  | refl : Stores P file file
  | perform {mid : AsyncFile} : Stores P file mid → Stores P file mid.perform
  | seek {mid : AsyncFile} (pos : Nat) : Stores P file mid → Stores P file (mid.seek pos)
  | hand {mid : AsyncFile} (block : List UInt8) (h : mid.perform.refused = false) :
      Stores P file mid → (∀ b v, Lays mid.image.cursor block b v → P b v) →
      Stores P file (mid.hand block h)
  | sync {mid next : AsyncFile} : Stores P file mid → mid.sync = .ok next → Stores P file next

namespace Stores

variable {P : Nat → UInt8 → Prop} {last : AsyncFile}

theorem trans (h : Stores P file next) (hlast : Stores P next last) : Stores P file last := by
  induction hlast with
  | refl => exact h
  | perform _ ih => exact ih.perform
  | seek pos _ ih => exact ih.seek pos
  | hand block href _ hblock ih => exact ih.hand block href hblock
  | sync _ hsync ih => exact ih.sync hsync

theorem image (h : Stores P file next) : DiskFile.Stores P file.image next.image := by
  induction h with
  | refl => exact .refl
  | perform _ ih => exact ih
  | @seek mid pos _ ih =>
      have hseek := ih.write pos [] fun b v hv => absurd hv not_lays_nil
      rwa [store_nil] at hseek
  | @hand mid block _ _ hblock ih => exact ih.write mid.image.cursor block hblock
  | sync _ hsync ih =>
      rw [(sync_ok hsync).1]
      exact ih.sync

theorem get (h : Stores P file next) {u v : UInt8} (hP : ∀ w, P b w → w = v)
    (hu : file.perform.content[b]? = some u) :
    next.perform.content[b]? = some u ∨ next.perform.content[b]? = some v := by
  induction h with
  | refl => exact .inl hu
  | perform _ ih | seek pos _ ih => rwa [content_perform rfl]
  | sync _ hsync ih =>
      rw [content_perform (sync_ok hsync).2.1, ← (sync_ok hsync).2.alike.content, (sync_ok hsync).1]
      exact (perform_intact (performed_of_sync hsync)).content ▸ ih
  | @hand mid block href _ hblock ih =>
      rw [(perform_intact href).cursor] at hblock
      let taken := block.take ((mid.hand block href).accepted block)
      change (mid.perform.store taken).content[b]? = some u ∨
        (mid.perform.store taken).content[b]? = some v
      by_cases hin : mid.perform.cursor ≤ b ∧ b < mid.perform.cursor + taken.length
      · right
        obtain ⟨w, hw⟩ := exists_lays hin.1 hin.2
        rw [store, getElem?_overlay_inside hin.1 hin.2, hw.2, hP w (hblock b w hw.of_take)]
      · exact ih.imp (getElem?_store_outside · (by omega)) (getElem?_store_outside · (by omega))

theorem foldlM_handOver {blocks : List (List UInt8)}
    (hP : ∀ b v, Lays file.image.cursor blocks.flatten b v → P b v) :
    (∀ next, blocks.foldlM handOver file = .ok next →
      next.image = file.image.store blocks.flatten ∧ Stores P file next) ∧
    ∀ next, blocks.foldlM handOver file = .error next → Stores P file next := by
  induction blocks generalizing file with
  | nil =>
      constructor
      · intro next h
        cases h
        exact ⟨store_nil.symm, .refl⟩
      · intro next h
        cases h
  | cons block blocks ih =>
      rw [flatten_cons] at hP ⊢
      rw [foldlM_cons, handOver]
      split
      · next h =>
        have hblock : Stores P file (file.hand block h) :=
          refl.hand block h fun b v hv => hP b v (lays_append.mpr (.inl hv))
        obtain ⟨hok, herr⟩ := @ih (file.hand block h) fun b v hv =>
          hP b v (lays_append.mpr (.inr hv))
        refine ⟨fun next hnext => ?_, fun next hnext => hblock.trans (herr next hnext)⟩
        obtain ⟨himage, hstores⟩ := hok next hnext
        exact ⟨himage.trans (store_append _ _ _), hblock.trans hstores⟩
      · constructor
        · intro next h
          cases h
        · intro next h
          cases h
          exact refl.perform

theorem writeAll (hP : ∀ b v, Lays file.image.cursor data b v → P b v) :
    (∀ next, file.writeAll data = .ok next →
      next.image = file.image.store data ∧ Stores P file next) ∧
    ∀ next, file.writeAll data = .error next → Stores P file next := by
  rw [← flatten_blocks (Nat.le_refl data.length)] at hP
  have hw := foldlM_handOver hP
  rwa [flatten_blocks (Nat.le_refl data.length)] at hw

end Stores

end AsyncFile

end Bytehaul.Foundation
