import Bytehaul.Foundation.Canvas
import Bytehaul.Storage.Delivery

/-!
# Unkeyed data

Unkeyed chunks are joined in one contiguous buffer.
-/

namespace Bytehaul.Storage

open Foundation Foundation.DiskFile

namespace WriterTask

variable {α : Type}

def ground (task : WriterTask) : Canvas where
  content := task.file.image.content
  written := task.file.image.written
  reach := task.writtenBytes

def canvas (task : WriterTask) : Canvas :=
  match task.single with
  | none => task.ground
  | some (offset, data) => task.ground.lay offset data

structure Streaming (task : WriterTask) : Prop where
  cache : task.cache = WriteBackCache.new
  buffered : ∀ offset data, task.single = some (offset, data) → data ≠ []
  cursor : ∀ offset, task.fileOffset = some offset → task.file.image.cursor = offset
  durable : ∀ b, task.file.image.durable b = true → task.file.image.written b = true

/-- All that was written is on the device, and it is durable. -/
structure Synced (task : WriterTask) : Prop where
  delivered : task.file.Delivered
  durable : ∀ b, task.file.image.durable b = task.file.image.written b

variable {task next : WriterTask} {offset : Nat} {data : List UInt8}

theorem Streaming.retainPermits (h : task.Streaming) {keep : Option LeaseKey → Bool} :
    (task.retainPermits keep).Streaming :=
  ⟨h.cache, h.buffered, h.cursor, h.durable⟩

theorem canvas_of_none (h : task.single = none) : task.canvas = task.ground := by
  simp [canvas, h]

theorem streaming_new {file : DiskFile} (watermark writtenBytes : Nat)
    (hdur : ∀ b, file.durable b = true → file.written b = true) :
    Streaming { WriterTask.new file watermark with writtenBytes := writtenBytes } where
  cache := rfl
  buffered _ _ hsing := by cases hsing
  cursor _ hoff := by cases hoff
  durable := hdur

variable (h : task.Streaming)
include h

theorem writeBlock_paints (hdata : data ≠ []) (hok : task.writeBlock offset data = .ok next) :
    next.Streaming ∧ next.ground = task.ground.lay offset data ∧ next.single = task.single := by
  obtain ⟨file, -, himage, rfl⟩ :=
    (writeBlock_spec (Q := fun _ _ => True) h.cursor fun _ _ _ => trivial).1 next hok
  refine ⟨⟨h.cache, h.buffered, ?_, ?_⟩, ?_, rfl⟩
  · rintro pos hpos
    cases hpos
    exact congrArg DiskFile.cursor himage
  · intro b hb
    simp only [himage, store, seek, Bool.and_eq_true] at hb
    simp [himage, store, seek, h.durable b hb.1]
  · rw [Canvas.lay, if_neg hdata]
    simp only [ground, himage]
    rfl

theorem flushSingle_paints (hok : task.flushSingle = .ok next) :
    next.Streaming ∧ next.canvas = task.canvas ∧ next.single = none := by
  unfold flushSingle at hok
  split at hok
  · rename_i offset data hsing
    have hstrm : Streaming { task with single := none } :=
      ⟨h.cache, fun _ _ hnone => (nomatch hnone), h.cursor, h.durable⟩
    obtain ⟨hnext, hgrd, hnone⟩ := writeBlock_paints hstrm (h.buffered offset data hsing) hok
    refine ⟨hnext, ?_, hnone⟩
    rw [canvas_of_none hnone, hgrd, canvas, hsing]
    rfl
  · rename_i hsing
    cases hok
    exact ⟨h, rfl, hsing⟩

theorem flushAll_paints (hok : task.flushAll = .ok next) :
    next.Streaming ∧ next.canvas = task.canvas ∧ next.single = none := by
  obtain ⟨mid, hsing, hrest⟩ := bind_eq_ok hok
  obtain ⟨hmid, hcanv, hnone⟩ := flushSingle_paints h hsing
  have hblocks : mid.cache.drainAll.1 = [] := by
    rw [hmid.cache]
    rfl
  rw [hblocks] at hrest
  cases hrest
  exact ⟨⟨rfl, hmid.buffered, hmid.cursor, hmid.durable⟩, hcanv, hnone⟩

theorem flushAllWhen_paints {condition : Bool} (hok : task.flushAllWhen condition = .ok next) :
    next.Streaming ∧ next.canvas = task.canvas := by
  unfold flushAllWhen at hok
  split at hok
  · obtain ⟨hnext, hcanv, -⟩ := flushAll_paints h hok
    exact ⟨hnext, hcanv⟩
  · cases hok
    exact ⟨h, rfl⟩

private theorem yieldSingle_paints {leaseKey : Option LeaseKey}
    (hok : task.yieldSingle offset data leaseKey = .ok next) :
    next.Streaming ∧ next.canvas = task.canvas := by
  unfold yieldSingle at hok
  split at hok
  · obtain ⟨mid, hfl, hmid⟩ := bind_eq_ok hok
    cases hmid
    obtain ⟨hmid, hcanv, -⟩ := flushSingle_paints h hfl
    exact ⟨hmid.retainPermits, hcanv⟩
  · cases hok
    exact ⟨h, rfl⟩

theorem appendSingle_paints (hdata : data ≠ [])
    (hnext : ∀ start buffered, task.single = some (start, buffered) →
      start + buffered.length = offset)
    (hok : task.appendSingle offset data = .ok next) :
    next.Streaming ∧ next.canvas = task.canvas.lay offset data := by
  let buffer := task.single.getD (offset, [])
  let grown : WriterTask := { task with single := some (buffer.1, buffer.2 ++ data) }
  have hgrown : grown.Streaming := by
    refine ⟨h.cache, ?_, h.cursor, h.durable⟩
    rintro start joined hjoined
    cases hjoined
    simp [hdata]
  have hcanv : grown.canvas = task.canvas.lay offset data := by
    change task.ground.lay buffer.1 (buffer.2 ++ data) = _
    cases hsing : task.single with
    | none => simp [buffer, hsing, canvas_of_none hsing]
    | some held =>
      obtain ⟨start, buffered⟩ := held
      simp only [buffer, hsing, Option.getD_some, canvas]
      rw [← hnext start buffered hsing, Canvas.lay_lay]
  have hcases : (grown.flushSingle >>= fun done => pure (done.retainPermits Option.isSome)) =
      .ok next ∨ grown = next := by
    unfold appendSingle at hok
    dsimp only at hok
    split at hok
    · exact .inl hok
    · exact .inr (Except.ok.inj hok)
  rcases hcases with hflushed | rfl
  · obtain ⟨mid, hfl, hmid⟩ := bind_eq_ok hflushed
    cases hmid
    obtain ⟨hmid, hsame, -⟩ := flushSingle_paints hgrown hfl
    exact ⟨hmid.retainPermits, hsame.trans hcanv⟩
  · exact ⟨hgrown, hcanv⟩

private theorem bufferSingle_paints
    (hnext : data ≠ [] → ∀ start buffered, task.single = some (start, buffered) →
      start + buffered.length = offset)
    (hok : task.bufferSingle offset data = .ok next) :
    next.Streaming ∧ next.canvas = task.canvas.lay offset data := by
  unfold bufferSingle at hok
  split at hok
  · rename_i hnil
    cases hok
    exact ⟨h, by rw [hnil, Canvas.lay_nil]⟩
  · rename_i hdata
    split at hok
    · obtain ⟨mid, hfl, hrest⟩ := bind_eq_ok hok
      obtain ⟨last, hw, hlast⟩ := bind_eq_ok hrest
      cases hlast
      obtain ⟨hmid, hcanv, hnone⟩ := flushSingle_paints h hfl
      obtain ⟨hlast, hgrd, hsame⟩ := writeBlock_paints hmid hdata hw
      refine ⟨hlast.retainPermits, ?_⟩
      have hemp : last.single = none := hsame.trans hnone
      change last.canvas = _
      rw [canvas_of_none hemp, hgrd, ← canvas_of_none hnone, hcanv]
    · exact appendSingle_paints h hdata (hnext hdata) hok

omit h in
theorem flushAllWhen_continues {condition : Bool} (hok : task.flushAllWhen condition = .ok next)
    (h : ∀ start buffered, task.single = some (start, buffered) →
      start + buffered.length = offset) :
    ∀ start buffered, next.single = some (start, buffered) → start + buffered.length = offset := by
  intro start buffered hsing
  rcases flushAllWhen_single hok with hnone | hsame
  · rw [hnone] at hsing
    cases hsing
  · exact h start buffered (hsame.symm.trans hsing)

theorem processData_paints {permit : Option Nat}
    (hok : task.processData offset data permit none = .ok next) :
    next.Streaming ∧ next.canvas = task.canvas.lay offset data := by
  obtain ⟨first, hyield, hok⟩ := bind_eq_ok hok
  obtain ⟨second, hfl, hok⟩ := bind_eq_ok hok
  obtain ⟨third, hbuf, hlast⟩ := bind_eq_ok hok
  obtain ⟨hfst, hfirstCanvas⟩ := yieldSingle_paints h hyield
  obtain ⟨hsnd, hsecondCanvas⟩ := flushAllWhen_paints hfst hfl
  have hheld : (second.holdPermit none permit).Streaming :=
    ⟨hsnd.cache, hsnd.buffered, hsnd.cursor, hsnd.durable⟩
  have hcontinues : data ≠ [] → ∀ start buffered, second.single = some (start, buffered) →
      start + buffered.length = offset :=
    fun hdata => flushAllWhen_continues hfl (yieldSingle_continues hyield hdata)
  obtain ⟨hthird, hthirdCanvas⟩ := bufferSingle_paints hheld hcontinues hbuf
  obtain ⟨hnext, hcanv⟩ := flushAllWhen_paints hthird hlast
  have hsame : (second.holdPermit none permit).canvas = task.canvas :=
    hsecondCanvas.trans hfirstCanvas
  exact ⟨hnext, by rw [hcanv, hthirdCanvas, hsame]⟩

theorem syncFile_paints (hok : task.syncFile = .ok next) :
    next.Streaming ∧ next.ground = task.ground ∧ next.single = task.single ∧ next.Synced := by
  unfold syncFile at hok
  split at hok
  · next file hsync =>
    cases hok
    obtain ⟨himage, hdel⟩ := AsyncFile.sync_ok hsync
    have hsynced : ∀ b, file.image.durable b = file.image.written b := by
      intro b
      rw [himage, synced, Bool.or_eq_right_iff_imp]
      exact h.durable b
    refine ⟨⟨h.cache, h.buffered, ?_, ?_⟩, ?_, rfl, hdel, hsynced⟩
    · intro offset hoff
      rw [himage]
      exact h.cursor offset hoff
    · intro b hb
      exact (hsynced b).symm.trans hb
    · simp only [ground, himage, synced]
  · cases hok

/-- A command of a single connection: data without a lease, or a flush. -/
def Unkeyed : WriterCommand α → Prop
  | .data _ _ _ none | .flushAll _ _ => True
  | _ => False

def drawn (canvas : Canvas) : WriterCommand α → Canvas
  | .data offset data _ _ => canvas.lay offset data
  | _ => canvas

theorem process_paints {command : WriterCommand α}
    (hcmd : Unkeyed command) (hok : task.process command = .ok next) :
    next.Streaming ∧ next.canvas = drawn task.canvas command := by
  cases command with
  | beginLease key | flushLease key ack | discardLease key ack => cases hcmd
  | data offset data permit leaseKey =>
    cases leaseKey with
    | some key => cases hcmd
    | none => exact processData_paints h hok
  | flushAll syncData ack =>
    obtain ⟨mid, hfl, hrest⟩ := bind_eq_ok hok
    obtain ⟨hmid, hcanv, hnone⟩ := flushAll_paints h hfl
    split at hrest
    · obtain ⟨hnext, hgrd, hsame, -⟩ := syncFile_paints hmid hrest
      refine ⟨hnext, ?_⟩
      rw [canvas_of_none (hsame.trans hnone), hgrd, ← canvas_of_none hnone, hcanv]
      rfl
    · cases hrest
      exact ⟨hmid, hcanv⟩

theorem flushAll_settles {ack : α}
    (hok : task.process (.flushAll true ack : WriterCommand α) = .ok next) :
    next.ground = task.canvas ∧ next.Synced := by
  obtain ⟨mid, hfl, hrest⟩ := bind_eq_ok hok
  obtain ⟨hmid, hcanv, hnone⟩ := flushAll_paints h hfl
  obtain ⟨-, hgrd, -, hsync⟩ := syncFile_paints hmid hrest
  exact ⟨by rw [hgrd, ← canvas_of_none hnone, hcanv], hsync⟩

theorem finish_settles (hok : task.finish = .ok next) :
    next.Streaming ∧ next.canvas = task.canvas ∧ next.ground = task.canvas ∧ next.Synced := by
  obtain ⟨mid, hfl, hrest⟩ := bind_eq_ok hok
  obtain ⟨hmid, hcanv, hnone⟩ := flushAll_paints h hfl
  obtain ⟨hnext, hgrd, hsame, hsync⟩ := syncFile_paints hmid hrest
  have hdone : next.ground = task.canvas := by rw [hgrd, ← canvas_of_none hnone, hcanv]
  exact ⟨hnext, (canvas_of_none (hsame.trans hnone)).trans hdone, hdone, hsync⟩

omit h

/-- The file as it will be once the channel is drained, too. -/
def outlook (task : WriterTask) (channel : List (WriterCommand α)) : Canvas :=
  channel.foldl drawn task.canvas

theorem outlook_snoc (channel : List (WriterCommand α)) (command : WriterCommand α) :
    task.outlook (channel ++ [command]) = drawn (task.outlook channel) command := by
  simp [outlook]

/-- Taking a command from the channel changes nothing about where the file is heading. -/
theorem outlook_process {command : WriterCommand α} {channel : List (WriterCommand α)}
    (h : task.Streaming) (hcmd : Unkeyed command) (hok : task.process command = .ok next) :
    next.outlook channel = task.outlook (command :: channel) := by
  simp only [outlook, List.foldl_cons, (process_paints h hcmd hok).2]

end WriterTask

end Bytehaul.Storage
