import Bytehaul.Storage.Stream

/-!
# Buffered and direct writing

The writer of a single connection coalesces chunks, passes large ones by the buffer and
leaves out seeks; the specification performs every write at once.
-/

namespace Bytehaul.Storage

open Foundation List

namespace WriterTask

variable {α : Type}

def writeDirect (content : List UInt8) : WriterCommand α → List UInt8
  | .data offset data _ _ => overlay content offset data
  | _ => content

def chunkEnd : WriterCommand α → Option Nat
  | .data offset data _ _ => if data = [] then none else some (offset + data.length)
  | _ => none

/-- The largest of `initial` and the ends of all chunks. -/
def furthest (initial : Nat) (commands : List (WriterCommand α)) : Nat :=
  (commands.filterMap chunkEnd).foldl max initial

private theorem drawn_content (canvas : Canvas) (command : WriterCommand α) :
    (drawn canvas command).content = writeDirect canvas.content command := by
  cases command with
  | data offset data permit leaseKey => exact Canvas.content_lay
  | _ => rfl

private theorem drawn_reach (canvas : Canvas) (cmd : WriterCommand α) :
    (drawn canvas cmd).reach = furthest canvas.reach [cmd] := by
  cases cmd with
  | data offset data permit leaseKey =>
    simp only [drawn, Canvas.lay, furthest, chunkEnd, filterMap_cons]
    split <;> rfl
  | _ => rfl

private theorem furthest_append (initial : Nat) (first second : List (WriterCommand α)) :
    furthest initial (first ++ second) = furthest (furthest initial first) second := by
  simp only [furthest, filterMap_append, foldl_append]

private theorem foldl_drawn (canvas : Canvas) (commands : List (WriterCommand α)) :
    (commands.foldl drawn canvas).content = commands.foldl writeDirect canvas.content ∧
      (commands.foldl drawn canvas).reach = furthest canvas.reach commands := by
  induction commands generalizing canvas with
  | nil => exact ⟨rfl, rfl⟩
  | cons cmd commands ih =>
    obtain ⟨hcont, hr⟩ := ih (drawn canvas cmd)
    rw [foldl_cons, foldl_cons]
    refine ⟨by rw [hcont, drawn_content], ?_⟩
    rw [hr, drawn_reach, ← furthest_append]
    rfl

variable {task next : WriterTask} {commands : List (WriterCommand α)}

private theorem runCommands_paints (h : task.Streaming) (hcmds : ∀ cmd ∈ commands, Unkeyed cmd)
    (hok : task.runCommands commands = .ok next) :
    next.Streaming ∧ next.canvas = commands.foldl drawn task.canvas := by
  induction commands generalizing task with
  | nil =>
    cases hok
    exact ⟨h, rfl⟩
  | cons cmd commands ih =>
    obtain ⟨mid, hproc, hrest⟩ := bind_eq_ok hok
    obtain ⟨hmid, hcanv⟩ := process_paints h (hcmds cmd mem_cons_self) hproc
    obtain ⟨hnext, hfinal⟩ :=
      ih hmid (fun later hlater => hcmds later (mem_cons_of_mem _ hlater)) hrest
    exact ⟨hnext, by rw [hfinal, hcanv, foldl_cons]⟩

private theorem flushAll_grounds {syncData : Bool} {ack : α} (h : task.Streaming)
    (hok : task.process (.flushAll syncData ack : WriterCommand α) = .ok next) :
    next.ground = task.canvas ∧ (syncData = true → next.file.Delivered) := by
  obtain ⟨mid, hfl, hrest⟩ := bind_eq_ok hok
  obtain ⟨hmid, hcanv, hnone⟩ := flushAll_paints h hfl
  cases syncData with
  | true =>
      obtain ⟨-, hgrd, -, hsynced⟩ := syncFile_paints hmid hrest
      exact ⟨by rw [hgrd, ← canvas_of_none hnone, hcanv], fun _ => hsynced.delivered⟩
  | false =>
      cases hrest
      exact ⟨by rw [← canvas_of_none hnone, hcanv], fun hsync => Bool.noConfusion hsync⟩

def Unfailing (task : WriterTask) : Prop := task.file.Unfailing

def Succeeds (result : Attempt) : Prop := ∃ task, result = .ok task ∧ task.Unfailing

variable (h : task.Unfailing) {data : List UInt8}
include h

theorem Succeeds.ok : Succeeds (.ok task) := ⟨task, rfl, h⟩

omit h in
theorem Succeeds.bind {result : Attempt} {continue' : WriterTask → Attempt}
    (h : Succeeds result) (hnext : ∀ task, task.Unfailing → Succeeds (continue' task)) :
    Succeeds (result >>= continue') := by
  obtain ⟨task, rfl, hunfailing⟩ := h
  exact hnext task hunfailing

theorem writeBlock_succeeds {offset : Nat} : Succeeds (task.writeBlock offset data) := by
  have hfile : AsyncFile.Unfailing (if task.fileOffset = some offset then task.file
      else task.file.seek offset) := by
    split
    · exact h
    · exact ⟨h.perform.writes, h.perform.syncs, h.perform.accepted⟩
  obtain ⟨stored, hstored, hnext⟩ := hfile.writeAll data
  unfold writeBlock
  dsimp only
  rw [hstored]
  exact ⟨_, rfl, hnext⟩

theorem writeBlocks_succeeds {blocks : List FlushBlock} : Succeeds (task.writeBlocks blocks) := by
  induction blocks generalizing task with
  | nil => exact .ok h
  | cons block blocks ih => exact (writeBlock_succeeds h).bind fun mid hmid => ih hmid

theorem flushSingle_succeeds : Succeeds task.flushSingle := by
  unfold flushSingle
  split
  · apply writeBlock_succeeds
    exact h
  · exact .ok h

theorem flushSingle_retaining_succeeds {keep : Option LeaseKey → Bool} :
    Succeeds (task.flushSingle >>= fun done => pure (done.retainPermits keep)) :=
  (flushSingle_succeeds h).bind fun _ hmid => .ok hmid

theorem flushAll_succeeds : Succeeds task.flushAll := by
  refine (flushSingle_succeeds h).bind fun mid hmid => ?_
  refine Succeeds.bind ?_ fun done hdone => .ok hdone
  apply writeBlocks_succeeds
  exact hmid

theorem flushAllWhen_succeeds {condition : Bool} : Succeeds (task.flushAllWhen condition) := by
  unfold flushAllWhen
  split
  · exact flushAll_succeeds h
  · exact .ok h

theorem syncFile_succeeds : Succeeds task.syncFile := by
  obtain ⟨file, hsync, hnext⟩ := AsyncFile.Unfailing.sync h
  unfold syncFile
  rw [hsync]
  exact ⟨_, rfl, hnext⟩

private theorem yieldSingle_succeeds {offset : Nat} {leaseKey : Option LeaseKey} :
    Succeeds (task.yieldSingle offset data leaseKey) := by
  unfold yieldSingle
  split
  · exact flushSingle_retaining_succeeds h
  · exact .ok h

theorem bufferSingle_succeeds {offset : Nat} : Succeeds (task.bufferSingle offset data) := by
  unfold bufferSingle
  split
  · exact .ok h
  · split
    · exact (flushSingle_succeeds h).bind fun _ hmid =>
        (writeBlock_succeeds hmid).bind fun _ hdone => .ok hdone
    · unfold appendSingle
      dsimp only
      split
      · apply flushSingle_retaining_succeeds
        exact h
      · exact .ok h

private theorem process_succeeds {cmd : WriterCommand α}
    (hcmd : Unkeyed cmd) : Succeeds (task.process cmd) := by
  cases cmd with
  | beginLease key | flushLease key ack | discardLease key ack => cases hcmd
  | data offset data permit leaseKey =>
    cases leaseKey with
    | some key => cases hcmd
    | none =>
      refine (yieldSingle_succeeds h).bind fun first hfst => ?_
      refine (flushAllWhen_succeeds hfst).bind fun second hsnd => ?_
      refine Succeeds.bind ?_ fun third hthird => flushAllWhen_succeeds hthird
      apply bufferSingle_succeeds
      exact hsnd
  | flushAll syncData ack =>
    refine (flushAll_succeeds h).bind fun mid hmid => ?_
    cases syncData with
    | true => exact syncFile_succeeds hmid
    | false => exact .ok hmid

private theorem runCommands_succeeds
    (hcmds : ∀ cmd ∈ commands, Unkeyed cmd) : Succeeds (task.runCommands commands) := by
  induction commands generalizing task with
  | nil => exact .ok h
  | cons cmd commands ih =>
    refine (process_succeeds h (hcmds cmd mem_cons_self)).bind fun mid hmid => ?_
    exact ih hmid fun later hlater => hcmds later (mem_cons_of_mem _ hlater)

private theorem finish_succeeds : Succeeds task.finish :=
  (flushAll_succeeds h).bind fun _ hmid => syncFile_succeeds hmid

omit h

/-- The file may be positioned anywhere, and the device may fail at any time. -/
def opened (content : List UInt8) (cursor : Nat) (writeBudget syncBudget : Option Nat)
    (writtenBytes watermark : Nat) : WriterTask :=
  { WriterTask.new { DiskFile.ofContent content with cursor, writeBudget, syncBudget }
      watermark with writtenBytes }

section Opened

variable {content : List UInt8} {cursor writtenBytes watermark : Nat}
  {writeBudget syncBudget : Option Nat}

private theorem opened_streaming :
    (opened content cursor writeBudget syncBudget writtenBytes watermark).Streaming :=
  streaming_new _ _ fun _ h => h

theorem opened_canvas (hcmds : ∀ cmd ∈ commands, Unkeyed cmd)
    (hrun : (opened content cursor writeBudget syncBudget writtenBytes watermark).runCommands
      commands = .ok task) :
    task.Streaming ∧ task.canvas.content = commands.foldl writeDirect content ∧
      task.canvas.reach = furthest writtenBytes commands := by
  obtain ⟨hstrm, hcanv⟩ := runCommands_paints opened_streaming hcmds hrun
  rw [hcanv]
  exact ⟨hstrm, foldl_drawn _ commands⟩

end Opened

/-- A flush that syncs and the end of the writer leave the file that direct writing would have
left, and any other flush does so once the queued block is performed. -/
theorem buffered_writing_is_direct (content : List UInt8) (cursor : Nat)
    (writeBudget syncBudget : Option Nat) (writtenBytes watermark : Nat)
    (commands : List (WriterCommand α)) (hcommands : ∀ command ∈ commands, Unkeyed command) :
    (∀ before syncData ack after task next, commands = before ++ .flushAll syncData ack :: after →
      (opened content cursor writeBudget syncBudget writtenBytes watermark).runCommands before =
        .ok task →
      task.process (.flushAll syncData ack : WriterCommand α) = .ok next →
      (syncData = true → next.file.content = before.foldl writeDirect content) ∧
      (next.file.perform.refused = false →
        next.file.perform.content = before.foldl writeDirect content) ∧
      reply task next (.flushAll syncData ack) =
        some (ack, .flushedAll (furthest writtenBytes before))) ∧
    (∀ task last,
      (opened content cursor writeBudget syncBudget writtenBytes watermark).runCommands commands =
        .ok task →
      task.finish = .ok last → last.file.content = commands.foldl writeDirect content) ∧
    (writeBudget = none → syncBudget = none → ∃ task last,
      (opened content cursor writeBudget syncBudget writtenBytes watermark).runCommands commands =
        .ok task ∧ task.finish = .ok last) := by
  refine ⟨?_, ?_, ?_⟩
  · rintro before syncData ack after task next rfl hrun hfl
    obtain ⟨hstrm, hcont, hr⟩ := opened_canvas
      (fun command hcmd => hcommands command (mem_append_left _ hcmd)) hrun
    obtain ⟨hgrd, hdel⟩ := flushAll_grounds hstrm hfl
    have himage : next.file.image.content = before.foldl writeDirect content :=
      (congrArg Canvas.content hgrd).trans hcont
    refine ⟨fun hsync => (hdel hsync).alike.content.symm.trans himage,
      fun hacc => (AsyncFile.perform_intact hacc).content.symm.trans himage, ?_⟩
    have hwr : next.writtenBytes = furthest writtenBytes before :=
      (congrArg Canvas.reach hgrd).trans hr
    rw [reply, hwr]
  · intro task last hrun hfin
    obtain ⟨hstrm, hcont, -⟩ := opened_canvas hcommands hrun
    obtain ⟨-, -, hgrd, hsynced⟩ := finish_settles hstrm hfin
    exact hsynced.delivered.alike.content.symm.trans ((congrArg Canvas.content hgrd).trans hcont)
  · rintro rfl rfl
    have hunfailing : (opened content cursor none none writtenBytes watermark).Unfailing :=
      ⟨rfl, rfl, rfl⟩
    obtain ⟨task, hrun, htask⟩ := runCommands_succeeds hunfailing hcommands
    obtain ⟨last, hfin, -⟩ := finish_succeeds htask
    exact ⟨task, last, hrun, hfin⟩

theorem three_chunks_and_a_flush :
    (∀ command ∈ [WriterCommand.data 4 [1, 2] none none, .data 0 [3] none none,
      .data 9 [] none none, .flushAll false (), .data 3 [4, 5, 6] none none],
      Unkeyed command) ∧
    ∃ task last, (opened [9, 9] 0 none none 1 3).runCommands [WriterCommand.data 4 [1, 2] none none,
        .data 0 [3] none none, .data 9 [] none none, .flushAll false (),
        .data 3 [4, 5, 6] none none] = .ok task ∧
      task.finish = .ok last ∧ last.file.content = [3, 9, 0, 4, 5, 6] := by
  have hcmds : ∀ command ∈ [WriterCommand.data 4 [1, 2] none none, .data 0 [3] none none,
      .data 9 [] none none, .flushAll false (), .data 3 [4, 5, 6] none none],
      Unkeyed command := by
    simp [Unkeyed]
  obtain ⟨-, hend, hsucceeds⟩ := buffered_writing_is_direct [9, 9] 0 none none 1 3 _ hcmds
  obtain ⟨task, last, hrun, hfin⟩ := hsucceeds rfl rfl
  exact ⟨hcmds, task, last, hrun, hfin, (hend task last hrun hfin).trans (by decide)⟩

/-- The flush is acknowledged before the device refuses its block. -/
theorem unsynced_flush_leaves_the_file :
    ((opened [] 0 (some 0) none 0 1).runCommands
        [WriterCommand.data 0 [7] none none, .flushAll false ()]).toOption.map (fun task =>
      (task.writtenBytes, task.file.content, task.file.perform.content)) = some (1, [], []) ∧
    [WriterCommand.data 0 [7] none none, .flushAll false ()].foldl writeDirect [] = [7] := by
  decide

end WriterTask

end Bytehaul.Storage
