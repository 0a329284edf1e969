import Bytehaul.Session.Single.Sources

/-!
# Assembling the file

A step of the task begins a body, receives or sends some of it, adopts a baseline before
anything is written, creates the file again, or leaves the sources alone.
-/

namespace Bytehaul.Session

open Foundation Storage Storage.WriterTask Option

namespace SingleRun

def sources (cfg : SingleConfig) (run : SingleRun) : Sources where
  canvas := run.writer.outlook
  reserved := reserved cfg.fileAllocation run.writer.fileTotalSize
  baseline := run.baseline
  totalSize := run.totalSize
  base := run.base
  contributions := run.contributions

def Sized (cfg : SingleConfig) (run : SingleRun) : Prop :=
  reserved cfg.fileAllocation run.writer.fileTotalSize = reserved cfg.fileAllocation run.totalSize

def Known (cfg : SingleConfig) (origin : Origin) (run : SingleRun) : Prop :=
  run.writer.Broken ∨ ∃ n, (run.sources cfg).Traced origin n

def Carries (cfg : SingleConfig) (run : SingleRun) (frame : List UInt8) : Prop :=
  run.writer.Broken ∨ (run.sources cfg).Streams frame

/-- The file is as long as the size that is known, unless the writer has failed. -/
def Complete (run : SingleRun) : Prop :=
  ∀ total, run.totalSize = some total → run.writer.Broken ∨ run.writer.outlook.reach = total

/-- A file that is about to be created again need not have the right length. -/
def Placed (cfg : SingleConfig) (run : SingleRun) : SinglePc → Prop
  | .streaming attempt | .flushing (.autosave attempt) | .syncing (.autosave attempt)
  | .saving _ (.stream attempt) => run.Sized cfg ∧ run.Carries cfg attempt.frame
  | .closing .complete | .deleting none | .returned (.ok ()) => run.Sized cfg ∧ run.Complete
  | .closing (.recreate (.resize response)) | .recreating (.resize response) =>
    Sources.Agrees run.baseline run.totalSize ⟨response, 0, [], 0⟩
  | .deleting (some _) => reserved cfg.fileAllocation run.writer.fileTotalSize = 0
  | .closing (.recreate (.restart _)) | .recreating (.restart _) | .returned (.error _) => True
  | _ => run.Sized cfg

def failed : SinglePc → Bool
  | .returned (.error _) => true
  | _ => false

def Sourced (cfg : SingleConfig) (origin : Origin) (run : SingleRun) : Prop :=
  failed run.pc = false → run.Known cfg origin ∧ Placed cfg run run.pc

variable {cfg : SingleConfig} {origin : Origin} {run next : SingleRun} {n : Nat}
  {attempt : SingleAttempt} {purpose : FlushPurpose} {tracked : Prop} {pc : SinglePc}
  {writer : SingleWriter} {snapshot : ControlSnapshot} {after : AfterSave} {kind : IoErrorKind}
  {totalSize : Option Nat} {file : DiskFile} {startOffset : Nat}

theorem sourced_failed {error : DownloadError} :
    Sourced cfg origin (run.goto (.returned (.error error))) :=
  fun hpc => by cases hpc

variable (h : run.Known cfg origin)
include h

theorem Known.close (after : AfterClose) : (run.close after).Known cfg origin :=
  h.imp (fun hbrok => ⟨hbrok.failed, hbrok.mailbox⟩) id

theorem close_sourced (hsized : run.Sized cfg) (error : DownloadError) :
    Sourced cfg origin (run.close (.finish error)) :=
  fun _ => ⟨h.close _, hsized⟩

omit h in
theorem Placed.sized_of_idle (h : Placed cfg run pc) (hpc : idle pc = true) : run.Sized cfg := by
  cases pc <;> first
    | exact h
    | cases hpc

omit h in
private theorem placed_of_idle (h : run.Sized cfg) (hpc : idle pc = true) : Placed cfg run pc := by
  cases pc <;> first
    | exact h
    | cases hpc

omit h in
private theorem Placed.sized_of_flush (h : Placed cfg run (.flushing purpose)) : run.Sized cfg := by
  cases purpose with
  | autosave attempt => exact h.1
  | _ => exact h

/-! ## Responses -/

theorem Known.traced (hfed : run.writer.Fed n)
    (hlive : run.writer.outcome = none) : (run.sources cfg).Traced origin n := by
  rcases h with hbrok | ⟨m, htrd⟩
  · exact absurd hlive hbrok.ended
  · have hsame : m = n := htrd.filled.reach.symm.trans hfed.filled.reach
    exact hsame ▸ htrd

theorem stream_sourced {resp : HttpResponse} (hsized : run.Sized cfg) (hrest : run.AtRest n)
    (hagr : Sources.Agrees run.baseline run.totalSize ⟨resp, n, [], 0⟩) :
    Sourced cfg origin (run.stream resp) := by
  have htrd := h.traced hrest.resting.toFed hrest.resting.running
  obtain rfl := hrest.offset
  unfold stream
  rw [if_pos hrest.resting.sender]
  have hstrs : ((run.sources cfg).begin resp run.offset).Streams [] := Sources.streams_begin hagr
  exact fun _ => ⟨.inr ⟨_, htrd.begin⟩, hsized, .inr hstrs⟩

omit h in
private theorem agrees_of_valid {total : Nat} {resp : HttpResponse} (hoff : 0 < run.offset)
    (hval : run.validationError total resp = none) :
    Sources.Agrees run.baseline run.totalSize ⟨resp, run.offset, [], 0⟩ := by
  unfold validationError at hval
  split at hval
  · rename_i haccept
    split at hval
    · rename_i hmatches
      obtain ⟨-, hstat, hrangeTotal, hstart, -⟩ := validateRangeResponse_exact (by decide) haccept
      refine ⟨fun hzero => ?_, fun _ => ⟨hstat, hstart, hmatches⟩, fun announced hann => ?_⟩
      · dsimp only at hzero
        omega
      · rw [singleResponseTotalSize, if_pos hstat, hrangeTotal] at hann
        exact hann
    · cases hval
  · cases hval
  · cases hval

omit h in
theorem agrees_adopt (cfg : SingleConfig) (run : SingleRun) (resp : HttpResponse) :
    Sources.Agrees (adopt cfg run resp).baseline (adopt cfg run resp).totalSize
      ⟨resp, 0, [], 0⟩ where
  first _ := rfl
  later hstart := absurd hstart (Nat.lt_irrefl 0)
  total announced hann := by
    simp only [adopt, hann, some_or]

theorem adopt_known (hrest : run.AtRest n) (hoff : run.offset = 0)
    (resp : HttpResponse) : (adopt cfg run resp).Known cfg origin ∧
      (adopt cfg run resp).AtRest 0 := by
  obtain rfl : n = 0 := hrest.offset.symm.trans hoff
  have htrd := h.traced hrest.resting.toFed hrest.resting.running
  exact ⟨.inr ⟨0, htrd.adopt _ _⟩, hrest.resting, hrest.offset, hrest.saved⟩

omit h in
private theorem sized_of_prealloc (hsize : cfg.fileAllocation = .prealloc →
    run.writer.fileTotalSize = run.totalSize) : run.Sized cfg := by
  unfold Sized reserved
  cases halloc : cfg.fileAllocation with
  | none => rfl
  | prealloc => rw [hsize halloc]

/-! ## During an attempt -/

private theorem receive_sourced (hsized : run.Sized cfg)
    (hcarr : run.Carries cfg []) (data : List UInt8) :
    Sourced cfg origin ((run.note fun c => { c with body := c.body ++ data }).goto
      (.streaming { attempt with frame := data })) := by
  rcases hcarr with hbrok | hstrs
  · exact fun _ => ⟨.inl hbrok, hsized, .inl hbrok⟩
  rcases h with hbrok | ⟨m, htrd⟩
  · exact fun _ => ⟨.inl hbrok, hsized, .inl hbrok⟩
  · obtain ⟨htrd, hstrs⟩ := htrd.receive hstrs data
    exact fun _ => ⟨.inr ⟨m, htrd⟩, hsized, .inr hstrs⟩

theorem forward_sourced {part : List UInt8} (hsized : run.Sized cfg)
    (hflows : run.Flows fun n => attempt.downloaded = n) (hcarr : run.Carries cfg attempt.frame)
    (hpart : part = attempt.frame.take cfg.maxChunk) (hlive : run.writer.outcome = none) :
    Sourced cfg origin ((note { run with
      writer := run.writer.post (.data attempt.downloaded part (some part.length) none) }
        fun c => { c with forwarded := c.forwarded + part.length }).goto
      (.streaming { attempt with
        downloaded := attempt.downloaded + part.length
        receivedInAttempt := attempt.receivedInAttempt + part.length
        frame := attempt.frame.drop cfg.maxChunk })) := by
  have hunb : ¬ run.writer.Broken := fun hbrok => hbrok.ended hlive
  obtain ⟨n, hflow, rfl, -⟩ := hflows.resolve_left hunb
  have hstrs := hcarr.resolve_left hunb
  have htrd := h.traced hflow.toFed hlive
  rw [← List.take_append_drop cfg.maxChunk attempt.frame, ← hpart] at hstrs
  obtain ⟨htrd, hstrs⟩ := htrd.send hstrs
  let sent := note { run with
    writer := run.writer.post (.data attempt.downloaded part (some part.length) none) }
    fun c => { c with forwarded := c.forwarded + part.length }
  have hsrcs : sent.sources cfg = (run.sources cfg).send attempt.downloaded part := by
    have hlaid : sent.writer.outlook = run.writer.outlook.lay attempt.downloaded part :=
      outlook_snoc _ _
    simp only [sources, hlaid]
    rfl
  have hknown : sent.Known cfg origin := .inr ⟨_, hsrcs ▸ htrd⟩
  have hsent : sent.Carries cfg (attempt.frame.drop cfg.maxChunk) := .inr (hsrcs ▸ hstrs)
  exact fun _ => ⟨hknown, hsized, hsent⟩

/-! ## Flushes and saves -/

private theorem flushFailed_sourced (hpl : Placed cfg run (.flushing purpose)) :
    Sourced cfg origin (run.flushFailed purpose) := by
  cases purpose with
  | autosave attempt => exact fun _ => ⟨h, hpl⟩
  | _ => exact fun _ => ⟨h.close _, hpl⟩

omit h in
theorem Placed.syncing (h : Placed cfg run (.flushing purpose))
    (hlook : writer.outlook = run.writer.outlook)
    (hsize : writer.fileTotalSize = run.writer.fileTotalSize)
    (hbrok : run.writer.Broken → writer.Broken) :
    Placed cfg { run with writer := writer } (.syncing purpose) := by
  have hsrcs : sources cfg { run with writer := writer } = run.sources cfg := by
    simp only [sources, hlook, hsize]
  have hsized : Sized cfg { run with writer := writer } := by
    unfold Sized
    rw [hsize]
    exact h.sized_of_flush
  cases purpose with
  | autosave attempt => exact ⟨hsized, h.2.imp hbrok (hsrcs ▸ ·)⟩
  | _ => exact hsized

theorem saveIfNew_sourced {writtenBytes : Nat} (after : AfterSave) (skipped : SingleRun → SingleRun)
    (haft : ∀ snapshot, Placed cfg run (.saving snapshot after))
    (hskipped : Sourced cfg origin (skipped run)) :
    Sourced cfg origin (run.saveIfNew writtenBytes after skipped) := by
  unfold saveIfNew
  split
  · exact hskipped
  · exact fun _ => ⟨h, haft (run.snapshotAt writtenBytes)⟩

theorem flushed_sourced (hrstg : run.writer.Resting n)
    (hpl : Placed cfg run (.syncing purpose)) : Sourced cfg origin (run.flushed n purpose) := by
  cases purpose with
  | autosave attempt =>
    exact saveIfNew_sourced h (.stream attempt) (fun run => run.goto (.streaming attempt))
      (fun _ => hpl) fun _ => ⟨h, hpl⟩
  | stop error =>
    exact saveIfNew_sourced h (.finish error) (fun run => run.finishSingleError error)
      (fun _ => hpl) (close_sourced h hpl error)
  | barrier error =>
    have hdeciding : Sourced cfg origin (goto { run with offset := n } (.deciding error)) :=
      fun _ => ⟨h, hpl⟩
    unfold flushed
    dsimp only
    split
    · have hknown : Known cfg origin { run with offset := n } := h
      exact saveIfNew_sourced hknown (.decide error) _ (fun _ => hpl) hdeciding
    · exact hdeciding
  | complete finalOffset =>
    unfold flushed
    dsimp only
    split
    · exact fun _ => ⟨h.close _, hpl⟩
    · rename_i hwh
      push Not at hwh
      obtain ⟨hwr, htot⟩ := hwh
      refine fun _ => ⟨h.close .complete, hpl, fun total hsome => ?_⟩
      have hr : run.writer.outlook.reach = n := hrstg.filled.reach
      have hsize : run.totalSize = some total := hsome
      rw [hsize] at htot
      simp only [any_some, bne_iff_ne, ne_eq, not_not] at htot
      exact .inr (hr.trans (hwr.trans htot.symm))

private theorem save_sourced {fault : Option SaveFault}
    (hpl : Placed cfg run (.saving snapshot after)) :
    Sourced cfg origin (run.save snapshot after fault kind) := by
  generalize saveSync run.files snapshot fault = answer
  cases after with
  | stream attempt => exact fun _ => ⟨h, hpl⟩
  | finish error => exact close_sourced h hpl error
  | decide error => exact fun _ => ⟨h, hpl⟩
  | report error => exact sourced_failed

/-! ## Closing and starting over -/

private theorem join_sourced {after : AfterClose} (hpl : Placed cfg run (.closing after))
    (hstep : join cfg run after kind = some next) : Sourced cfg origin next := by
  unfold join at hstep
  split at hstep
  · cases hstep
  · cases hstep
    exact sourced_failed
  · cases after with
    | recreate recreation =>
      cases hstep
      cases recreation <;> exact fun _ => ⟨h, hpl⟩
    | finish error =>
      dsimp only at hstep
      split at hstep
      · cases hstep
        unfold persistTerminal
        dsimp only
        split
        · exact fun _ => ⟨h, hpl⟩
        · exact sourced_failed
      · cases hstep
        exact sourced_failed
    | complete =>
      cases hstep
      split <;> exact fun _ => ⟨h, hpl⟩
    | give error =>
      cases hstep
      exact sourced_failed

omit h in
theorem known_created {device : Device} {created : SingleRun}
    (hwri : created.writer = .start cfg (createOutputFile totalSize cfg.fileAllocation device)
      0 totalSize) (hbase : created.base = 0) (hnone : created.contributions = []) :
    created.Known cfg origin := by
  have hrest : created.writer.Resting 0 := hwri ▸ resting_create totalSize device
  have hlen : created.writer.outlook.content.length ≤
      reserved cfg.fileAllocation created.writer.fileTotalSize := by
    rw [hwri]
    exact Nat.le_of_eq (length_createOutputFile totalSize cfg.fileAllocation device)
  refine .inr ⟨0, ?_⟩
  unfold sources
  rw [hbase, hnone]
  exact Sources.traced_new hrest.filled (le_max_of_le_right hlen)
    fun hpos => absurd hpos (Nat.lt_irrefl 0)

omit h in
private theorem create_sourced {recreation : Recreation} {device : Option Device}
    (hstdy : run.Steady n (.recreating recreation))
    (hpl : Placed cfg run (.recreating recreation)) :
    Sourced cfg origin (create cfg run recreation device kind) := by
  cases device with
  | none => exact sourced_failed
  | some device =>
    cases recreation with
    | restart restart =>
      exact fun _ => ⟨known_created rfl rfl rfl, reserved_none cfg.fileAllocation⟩
    | resize resp =>
      obtain ⟨-, ⟨hoff, rfl⟩, hsaved⟩ := hstdy
      let created : SingleRun := { run with
        writer := .start cfg (createOutputFile run.totalSize cfg.fileAllocation device) 0
          run.totalSize
        base := 0
        contributions := [] }
      have hknown : created.Known cfg origin := known_created rfl rfl rfl
      have hrest : created.AtRest 0 := ⟨resting_create run.totalSize device, hoff, hsaved⟩
      exact stream_sourced hknown rfl hrest hpl

private theorem delete_sourced {restart : Option Restart} {fault : Bool}
    (hstdy : run.Steady n (.deleting restart)) (hpl : Placed cfg run (.deleting restart)) :
    Sourced cfg origin (delete cfg run restart fault kind) := by
  unfold delete
  split
  · exact sourced_failed
  · cases restart with
    | none => exact fun _ => ⟨h, hpl⟩
    | some restart =>
      obtain ⟨hrstg, rfl⟩ := hstdy
      have htrd := h.traced hrstg.toFed hrstg.running
      have hemp := Eq.trans hpl (reserved_none cfg.fileAllocation).symm
      cases restart <;> exact fun _ => ⟨.inr ⟨0, htrd.adopt _ _⟩, hemp⟩

omit h

/-! ## Steps of the writer -/

/-- Until the task fails its writer takes unkeyed commands, and has not failed if its
position is known. -/
theorem Steady.fed (h : run.Steady n run.pc) (hpc : failed run.pc = false) :
    run.writer.Fed n ∧ (∀ cmd ∈ run.writer.channel, Unkeyed cmd) ∧
      ∀ error, run.writer.outcome ≠ some (.error error) := by
  have hflow (h : run.writer.Flowing n) : run.writer.Fed n ∧
      (∀ cmd ∈ run.writer.channel, Unkeyed cmd) ∧
        ∀ error, run.writer.outcome ≠ some (.error error) :=
    ⟨h.toFed, fun cmd hcmd => (h.data cmd hcmd).unkeyed, by simp [h.running]⟩
  have hclg (h : run.writer.Closing n) : run.writer.Fed n ∧
      (∀ cmd ∈ run.writer.channel, Unkeyed cmd) ∧
        ∀ error, run.writer.outcome ≠ some (.error error) := by
    refine ⟨h.toFed, fun cmd hcmd => (h.data cmd hcmd).unkeyed, ?_⟩
    rcases h.ended with hend | ⟨hend, -⟩ <;> simp [hend]
  revert h hpc
  cases run.pc with
  | streaming attempt | flushing purpose => exact fun h _ => hflow h.1
  | syncing purpose =>
    rintro ⟨hwait, -⟩ -
    refine ⟨hwait.toFed, fun cmd hcmd => ?_, by simp [hwait.running]⟩
    rcases hwait.answer with ⟨-, earlier, hchan, hdata⟩ | ⟨-, hset⟩
    · rw [hchan] at hcmd
      rcases List.mem_append.mp hcmd with hcmd | hcmd
      · exact (hdata cmd hcmd).unkeyed
      · obtain rfl := List.mem_singleton.mp hcmd
        trivial
    · rw [hset.channel] at hcmd
      cases hcmd
  | saving snapshot after =>
    rintro ⟨htied, -⟩ -
    cases after with
    | stream attempt => exact hflow htied.1.toFlowing
    | finish error => exact hflow (SingleWriter.Resting.toFlowing htied)
    | decide error => exact hflow htied.1.toFlowing
    | report error => exact hclg (SingleWriter.Closed.toClosing htied)
  | closing after => exact fun h _ => hclg h.1
  | recreating recreation => exact fun h _ => hclg h.1.toClosing
  | deleting restart =>
    cases restart with
    | none => exact fun h _ => hclg (SingleWriter.Closed.toClosing h)
    | some restart => exact fun h _ => hflow h.1.toFlowing
  | returned result =>
    cases result with
    | ok value => exact fun h _ => hclg (SingleWriter.Closed.toClosing h)
    | error error => exact fun _ hpc => by cases hpc
  | _ => exact fun h _ => hflow h.1.toFlowing

theorem Sourced.rewrite (h : Sourced cfg origin run)
    (hkept : Kept cfg tracked { run with writer := writer })
    (hsize : writer.fileTotalSize = run.writer.fileTotalSize) (hunb : ¬ run.writer.Broken)
    (hwri : (∃ error, writer.outcome = some (.error error)) ∨
      writer.outlook = run.writer.outlook) : Sourced cfg origin { run with writer := writer } := by
  intro hpc
  obtain ⟨hknown, hpl⟩ := h hpc
  have hcases : writer.Broken ∨ writer.outlook = run.writer.outlook := by
    refine hwri.imp (fun hfail => ?_) id
    obtain ⟨error, herr⟩ := hfail
    rcases hkept.writer with ⟨hbrok, -⟩ | ⟨n, hstdy⟩
    · exact hbrok
    · exact absurd herr ((hstdy.fed hpc).2.2 error)
  have hsized (hsized : run.Sized cfg) : Sized cfg { run with writer := writer } := by
    unfold Sized
    rw [hsize]
    exact hsized
  have hsrcs (hlook : writer.outlook = run.writer.outlook) :
      sources cfg { run with writer := writer } = run.sources cfg := by
    simp only [sources, hlook, hsize]
  have hcarr {frame : List UInt8} (hcarr : run.Carries cfg frame) :
      Carries cfg { run with writer := writer } frame :=
    hcases.imp id fun hlook => hsrcs hlook ▸ hcarr.resolve_left hunb
  have hcomp (hcomp : run.Complete) : Complete { run with writer := writer } :=
    fun total htot => hcases.imp id fun (hlook : writer.outlook = run.writer.outlook) =>
      hlook ▸ (hcomp total htot).resolve_left hunb
  refine ⟨hcases.imp id fun hlook => hsrcs hlook ▸ hknown.resolve_left hunb, ?_⟩
  revert hpl
  change Placed cfg run run.pc → Placed cfg { run with writer := writer } run.pc
  unfold Placed
  split
  · exact fun h => ⟨hsized h.1, hcarr h.2⟩
  · exact fun h => ⟨hsized h.1, hcarr h.2⟩
  · exact fun h => ⟨hsized h.1, hcarr h.2⟩
  · exact fun h => ⟨hsized h.1, hcarr h.2⟩
  · exact fun h => ⟨hsized h.1, hcomp h.2⟩
  · exact fun h => ⟨hsized h.1, hcomp h.2⟩
  · exact fun h => ⟨hsized h.1, hcomp h.2⟩
  · exact id
  · exact id
  · rw [hsize]
    exact id
  · exact id
  · exact id
  · exact id
  · exact hsized

theorem Sourced.write (h : Sourced cfg origin run) (hkept : Kept cfg tracked run)
    (hstep : run.writer.write = some writer) :
    Sourced cfg origin { run with writer := writer } := by
  intro hpc
  obtain ⟨hlive, cmd, channel, hchan, hnext⟩ := SingleWriter.write_cases hstep
  have hunb : ¬ run.writer.Broken := fun hbrok => hbrok.ended hlive
  obtain ⟨n, hstdy⟩ : ∃ n, run.Steady n run.pc :=
    hkept.writer.resolve_left fun hbrok => hunb hbrok.1
  obtain ⟨hfed, hunkeyed, -⟩ := hstdy.fed hpc
  refine h.rewrite (hkept.write hstep) ?_ hunb ?_ hpc
  · rcases hnext with ⟨task, hok, rfl⟩ | ⟨error, task, rfl⟩
    · unfold SingleWriter.deliver
      split <;> rfl
    · rfl
  · rcases hnext with ⟨task, hok, rfl⟩ | ⟨error, task, rfl⟩
    · right
      have hsame : task.outlook channel = run.writer.task.outlook (cmd :: channel) :=
        outlook_process hfed.streaming (hunkeyed cmd (by simp [hchan])) hok
      have hlook : SingleWriter.outlook (SingleWriter.deliver
          { run.writer with channel := channel, task := task }
          (run.writer.task.reply task cmd)) = task.outlook channel := by
        unfold SingleWriter.deliver
        split <;> rfl
      rw [hlook, hsame, SingleWriter.outlook, hchan]
    · exact .inl ⟨error, rfl⟩

theorem Sourced.finish (h : Sourced cfg origin run) (hkept : Kept cfg tracked run)
    (hstep : run.writer.finish = some writer) :
    Sourced cfg origin { run with writer := writer } := by
  intro hpc
  obtain ⟨hlive, -, hchan, hnext⟩ := SingleWriter.finish_cases hstep
  have hunb : ¬ run.writer.Broken := fun hbrok => hbrok.ended hlive
  obtain ⟨n, hstdy⟩ : ∃ n, run.Steady n run.pc :=
    hkept.writer.resolve_left fun hbrok => hunb hbrok.1
  obtain ⟨hfed, -, -⟩ := hstdy.fed hpc
  refine h.rewrite (hkept.finish hstep) ?_ hunb ?_ hpc
  · rcases hnext with ⟨task, hok, rfl⟩ | ⟨error, task, rfl⟩ <;> rfl
  · rcases hnext with ⟨task, hok, rfl⟩ | ⟨error, task, rfl⟩
    · right
      obtain ⟨-, hcanv, -⟩ := finish_settles hfed.streaming hok
      simp only [SingleWriter.outlook, hchan]
      exact hcanv
    · exact .inl ⟨error, rfl⟩

/-! ## Every step -/

theorem Turn.sourced (hturn : Turn cfg run pc next) (hpc : run.pc = pc)
    (hkept : Kept cfg tracked run) (h : Sourced cfg origin run) : Sourced cfg origin next := by
  have hpl (hopen : failed pc = false) : run.Known cfg origin ∧ Placed cfg run pc :=
    hpc ▸ h (hpc ▸ hopen)
  have hidles (hidle : idle pc = true) : run.Known cfg origin ∧ run.Sized cfg ∧
      ∃ n, run.AtRest n := by
    obtain ⟨hknown, hpl⟩ := hpl (by cases pc <;> first | rfl | cases hidle)
    exact ⟨hknown, hpl.sized_of_idle hidle, (hkept.atRest (hpc ▸ hidle)).2⟩
  cases hturn with
  | rest hidle hidle' =>
    obtain ⟨hknown, hsized, -⟩ := hidles hidle
    exact fun _ => ⟨hknown, placed_of_idle hsized hidle'⟩
  | giveUp hidle =>
    obtain ⟨hknown, hsized, -⟩ := hidles hidle
    exact close_sourced hknown hsized _
  | restart => exact fun _ => ⟨(hpl rfl).1.close _, trivial⟩
  | unsized => exact sourced_failed
  | resume hoff hval =>
    obtain ⟨hknown, hsized, n, hrest⟩ := hidles rfl
    exact stream_sourced hknown hsized hrest (hrest.offset ▸ agrees_of_valid hoff hval)
  | adopt hoff hsize =>
    obtain ⟨hknown, -, n, hrest⟩ := hidles rfl
    obtain ⟨hadopted, hrest⟩ := adopt_known hknown hrest hoff _
    exact stream_sourced hadopted (sized_of_prealloc hsize) hrest (agrees_adopt cfg run _)
  | resize hoff =>
    obtain ⟨hknown, -, n, hrest⟩ := hidles rfl
    obtain ⟨hadopted, -⟩ := adopt_known hknown hrest hoff _
    exact fun _ => ⟨hadopted.close _, agrees_adopt cfg run _⟩
  | receive hframe =>
    obtain ⟨hknown, hsized, hcarr⟩ := hpl rfl
    rw [hframe] at hcarr
    exact receive_sourced hknown hsized hcarr _
  | forward hpart hlive =>
    obtain ⟨hknown, hsized, hcarr⟩ := hpl rfl
    exact forward_sourced hknown hsized (hkept.flows (by simp [hpc, Steady])) hcarr hpart hlive
  | goOn => exact fun _ => hpl rfl
  | leave =>
    obtain ⟨hknown, hsized, -⟩ := hpl rfl
    exact close_sourced hknown hsized _
  | @flush attempt _ purpose _ hpurp =>
    obtain ⟨hknown, hsized, hcarr⟩ := hpl rfl
    refine fun _ => ⟨hknown, ?_⟩
    cases purpose with
    | autosave other =>
      obtain rfl : other = attempt := hpurp
      exact ⟨hsized, hcarr⟩
    | _ => exact hsized
  | ask =>
    obtain ⟨hknown, hpl⟩ := hpl rfl
    have hsame : (run.writer.post (.flushAll true ())).outlook = run.writer.outlook :=
      outlook_snoc _ _
    have hbrok (hbrok : run.writer.Broken) : (run.writer.post (.flushAll true ())).Broken :=
      ⟨hbrok.failed, hbrok.mailbox⟩
    have hsrcs : sources cfg { run with writer := run.writer.post (.flushAll true ()) } =
        run.sources cfg := by
      simp only [sources, hsame]
      rfl
    exact fun _ => ⟨hknown.imp hbrok (hsrcs ▸ ·), hpl.syncing hsame rfl hbrok⟩
  | @lost _ purpose hlost =>
    obtain ⟨hknown, hpl⟩ := hpl (by rcases hlost with rfl | rfl <;> rfl)
    refine flushFailed_sourced hknown ?_
    rcases hlost with rfl | rfl
    · exact hpl
    · cases purpose <;> exact hpl
  | @answered purpose _ hmail =>
    obtain ⟨hknown, hpl⟩ := hpl rfl
    rcases hkept.writer with ⟨hbrok, -⟩ | ⟨n, hstdy⟩
    · rw [hbrok.mailbox] at hmail
      cases hmail
    · rw [hpc] at hstdy
      obtain ⟨rfl, hrstg⟩ := hstdy.1.receive hmail
      have hbrok (hbrok : run.writer.Broken) :
          SingleWriter.Broken { run.writer with mailbox := none } :=
        ⟨hbrok.failed, rfl⟩
      have hasked : Placed cfg run (.flushing purpose) := by cases purpose <;> exact hpl
      exact flushed_sourced (hknown.imp hbrok id) hrstg (hasked.syncing rfl rfl hbrok)
  | save => exact save_sourced (hpl rfl).1 (hpl rfl).2
  | join hjoin => exact join_sourced (hpl rfl).1 (hpl rfl).2 hjoin
  | create =>
    obtain ⟨n, hstdy⟩ := hkept.steady (by simp [hpc, Doomed])
    exact create_sourced (hpc ▸ hstdy) (hpl rfl).2
  | delete =>
    obtain ⟨n, hstdy⟩ := hkept.steady (by simp [hpc, Doomed])
    exact delete_sourced (hpl rfl).1 (hpc ▸ hstdy) (hpl rfl).2

theorem Sourced.step {act : SingleAction} (h : Sourced cfg origin run)
    (hkept : Kept cfg tracked run) (hstep : step cfg run act = some next) :
    Sourced cfg origin next := by
  unfold SingleRun.step at hstep
  split at hstep
  · obtain ⟨writer, hw, rfl⟩ := map_eq_some_iff.mp hstep
    exact h.write hkept hw
  · obtain ⟨writer, hfin, rfl⟩ := map_eq_some_iff.mp hstep
    exact h.finish hkept hfin
  · cases hstep
    exact h
  · cases hstep
    exact h
  · exact (taskStep_turn hstep).sourced rfl hkept h

/-! ## Whole runs -/

/-- On a file just created, or on one that passed the check of the local resume state. -/
inductive Begins (cfg : SingleConfig) (file : DiskFile) (startOffset : Nat)
    (totalSize : Option Nat) : Prop
  | fresh (device : Device) (hfile : file = createOutputFile totalSize cfg.fileAllocation device)
      (hoffset : startOffset = 0)
  | resumed (ctrl : ControlSnapshot) (spec : ResumeSpec)
      (hvalid : validateLocalResumeState (.found file.content.length) ctrl spec = some (.ok ()))
      (hsingle : isMulti ctrl spec = false) (hspec : spec.fileAllocation = cfg.fileAllocation)
      (hoffset : ctrl.downloadedBytes = startOffset) (hbelow : startOffset < ctrl.totalSize)
      (htotal : totalSize = some ctrl.totalSize)
      (hwritten : ∀ b, file.written b = true ↔ b < startOffset)
      (hdurable : ∀ b, file.durable b = file.written b)

theorem length_of_checkSingle {actualLen : Nat} {ctrl : ControlSnapshot} {preallocated : Bool}
    (h : checkSingle actualLen ctrl preallocated = .ok ()) :
    actualLen = if preallocated then ctrl.totalSize else ctrl.downloadedBytes := by
  by_contra hne
  simp only [checkSingle, ne_eq, hne, not_false_eq_true, if_true] at h
  cases h

theorem Begins.length (h : Begins cfg file startOffset totalSize) :
    file.content.length = max startOffset (reserved cfg.fileAllocation totalSize) := by
  cases h with
  | fresh device hfile hoff =>
    rw [hfile, length_createOutputFile]
    omega
  | resumed ctrl spec hval hsing hspec hoff hbelow htot hwr hdur =>
    simp only [validateLocalResumeState, hsing, hspec, Bool.false_eq_true, if_false] at hval
    split at hval
    · cases hval
    · have hexp := length_of_checkSingle (some.inj hval)
      rw [hexp, htot]
      cases cfg.fileAllocation with
      | none => simp [reserved, hoff]
      | prealloc =>
        simp only [reserved, beq_self_eq_true, if_true]
        omega

theorem Begins.launch (h : Begins cfg file startOffset totalSize) : Launch file startOffset := by
  have hlen := h.length
  cases h with
  | fresh device hfile hoff =>
    rw [hfile, hoff]
    exact Launch.created totalSize cfg.fileAllocation device
  | resumed ctrl spec hval hsing hspec hoff hbelow htot hwr hdur =>
    exact ⟨hwr, hdur, hlen ▸ Nat.le_max_left _ _⟩

private theorem sourced_start (h : Launch file startOffset)
    (hlen : file.content.length ≤ max startOffset (reserved cfg.fileAllocation totalSize))
    (resp : HttpResponse) (files : ControlFiles) : Sourced cfg ⟨resp.metadata, file.content⟩
      (start cfg file startOffset totalSize resp files) := by
  have hrstg : (SingleWriter.start cfg file startOffset totalSize).Resting startOffset :=
    SingleWriter.resting_start h.written h.length h.durable
  refine fun _ => ⟨.inr ⟨startOffset, ?_⟩, rfl⟩
  exact Sources.traced_new hrstg.filled hlen fun _ => ⟨rfl, fun _ _ => rfl⟩

theorem Reachable.sourced {first : SingleRun} (hr : Reachable cfg first run)
    (hkept : Kept cfg tracked first) (h : Sourced cfg origin first) : Sourced cfg origin run := by
  induction hr with
  | refl => exact h
  | step act hr _ hstep ih => exact ih.step (Reachable.kept hr hkept) hstep

structure Assembled (origin : Origin) (run : SingleRun) (content : List UInt8) : Prop where
  length : ∀ total, run.totalSize = some total → content.length = total
  chain : Chained run.base run.contributions content.length
  byte : ∀ b, run.base ≤ b → b < content.length → ∃ c ∈ run.contributions,
    0 < c.forwarded ∧ c.start ≤ b ∧ b < c.stop ∧ content[b]? = c.body[b - c.start]?
  agrees : ∀ c ∈ run.contributions, 0 < c.forwarded →
    Sources.Agrees run.baseline run.totalSize c
  resumed : 0 < run.base → run.baseline = origin.metadata ∧
    ∀ b < run.base, content[b]? = origin.content[b]?

theorem Sourced.assembled (h : Sourced cfg origin run) (hkept : Kept cfg tracked run)
    (hpc : run.pc = .returned (.ok ())) : Assembled origin run run.writer.task.file.content := by
  obtain ⟨n, hstdy⟩ := hkept.steady (by simp [hpc, Doomed])
  rw [hpc] at hstdy
  have hclos : run.writer.Closed n := hstdy
  have hunb : ¬ run.writer.Broken := by
    rintro ⟨⟨error, herr⟩, -⟩
    rw [hclos.done] at herr
    cases herr
  obtain ⟨hknown, hpl⟩ := h (by rw [hpc]; rfl)
  rw [hpc] at hpl
  obtain ⟨hsized, hwh⟩ := hpl
  obtain ⟨m, htrd⟩ := hknown.resolve_left hunb
  have hcont : run.writer.task.file.content = run.writer.outlook.content :=
    hclos.settled.synced.delivered.alike.content.symm.trans
      (congrArg Canvas.content hclos.settled.ground)
  have hr : run.writer.outlook.reach = m := htrd.filled.reach
  have hcomp : ∀ total, run.totalSize = some total → m = total := fun total htot =>
    hr.symm.trans ((hwh total htot).resolve_left hunb)
  have hlen : run.writer.outlook.content.length = m := by
    have hle : run.writer.outlook.content.length ≤
        max m (reserved cfg.fileAllocation run.writer.fileTotalSize) := htrd.length
    have hge : m ≤ run.writer.outlook.content.length := htrd.filled.length
    have hresd : reserved cfg.fileAllocation run.totalSize ≤ m := by
      unfold reserved
      split
      · rename_i size _ hsize
        exact Nat.le_of_eq (hcomp size hsize).symm
      · exact Nat.zero_le m
    rw [hsized] at hle
    omega
  rw [hcont]
  exact {
    length := fun total htot => hlen.trans (hcomp total htot)
    chain := hlen ▸ htrd.chain
    byte := fun b hbase hb => htrd.byte hbase (hlen ▸ hb)
    agrees := htrd.agrees
    resumed := htrd.resumed }

theorem Kept.saves (h : Kept cfg tracked run) (hpc : run.pc = .saving snapshot after) (b : Nat) :
    run.writer.task.file.durable b = true ↔ b < snapshot.downloadedBytes := by
  obtain ⟨n, hstdy⟩ := h.steady (by simp [hpc, Doomed])
  rw [hpc] at hstdy
  obtain ⟨htied, rfl, -⟩ := hstdy
  cases after with
  | stream attempt => exact htied.1.durable_iff htied.1.settled b
  | finish error => exact SingleWriter.Fed.durable_iff htied.toFed htied.settled b
  | decide error => exact htied.1.durable_iff htied.1.settled b
  | report error => exact SingleWriter.Fed.durable_iff htied.toFed htied.settled b

private theorem save_file (hpc : run.pc = .saving snapshot after)
    (hstep : step cfg run (.save none kind) = some next) :
    next.writer.task = run.writer.task ∧ next.files.control = some snapshot := by
  simp only [SingleRun.step, SingleRun.taskStep, hpc, some.injEq] at hstep
  rw [← hstep]
  cases after <;> exact ⟨rfl, rfl⟩

/-- The output has the announced length and its bodies follow each other without a gap, all but the
baseline `206` responses that continue the file and agree with it; a checkpoint records exactly the
durable prefix. -/
theorem single_connection_is_assembled_in_order {file : DiskFile} {startOffset : Nat}
    {totalSize : Option Nat} (hbegins : Begins cfg file startOffset totalSize)
    (response : HttpResponse) (files : ControlFiles)
    (hreach : Reachable cfg (start cfg file startOffset totalSize response files) run) :
    (run.pc = .returned (.ok ()) →
      Assembled ⟨response.metadata, file.content⟩ run run.writer.task.file.content) ∧
    (∀ restart device kind next, run.pc = .recreating (.restart restart) →
      step cfg run (.create (some device) kind) = some next →
      next.writer.task.file.content = [] ∧ next.writer.task.single = none ∧
        next.writer.channel = [] ∧ next.base = 0 ∧ next.contributions = []) ∧
    ∀ snapshot after kind next, run.pc = .saving snapshot after →
      step cfg run (.save none kind) = some next →
      next.files.control = some snapshot ∧
        ∀ b, next.writer.task.file.durable b = true ↔ b < snapshot.downloadedBytes := by
  have hkept := hreach.kept (kept_start hbegins.launch totalSize response files)
  have hsourced := hreach.sourced (kept_start hbegins.launch totalSize response files)
    (sourced_start hbegins.launch (Nat.le_of_eq hbegins.length) response files)
  refine ⟨hsourced.assembled hkept, fun restart device kind next hpc hstep => ?_,
    fun snapshot after kind next hpc hstep => ?_⟩
  · simp only [SingleRun.step, SingleRun.taskStep, hpc, some.injEq] at hstep
    rw [← hstep]
    refine ⟨?_, rfl, rfl, rfl, rfl⟩
    refine List.eq_nil_of_length_eq_zero ?_
    exact (length_createOutputFile none cfg.fileAllocation device).trans
      (reserved_none cfg.fileAllocation)
  · obtain ⟨htask, hctrl⟩ := save_file hpc hstep
    exact ⟨hctrl, fun b => htask ▸ hkept.saves hpc b⟩

end SingleRun

/-! ## Two transfers -/

def smallSingle : SingleConfig where
  url := "https://host/object"
  retry := ⟨2, 1, 1, none⟩
  resume := true
  fileAllocation := .none
  autosaveSyncEvery := 1
  channelBuffer := 8
  maxChunk := 8
  watermark := 16

def fullContent (total : Nat) : HttpResponse where
  status := 200
  retryAfter := none
  metadata := ⟨some total, none, none, none, none, none, none⟩
  framedLength := some total
  transferEncoding := false

def restOf (start total : Nat) (etag : Option HeaderText) : HttpResponse where
  status := 206
  retryAfter := none
  metadata := ⟨some (total - start), some start, some (total - 1), some total, etag, none, none⟩
  framedLength := some (total - start)
  transferEncoding := false

def again (response : HttpResponse) : List SingleAction :=
  [.decide 1 0, .tick 1, .advance, .advance, .respond response, .check 0 0]

def lastByte (byte : UInt8) : List SingleAction :=
  [.chunk [byte], .forward, .eof, .advance, .write, .write, .advance, .finishWriter,
    .join .other, .delete false .other]

def retriedRun : List SingleAction :=
  [.advance, .check 0 0, .chunk [7], .forward, .eof, .advance, .write, .write, .advance,
    .save none .other] ++ again (restOf 1 2 none) ++ lastByte 8

theorem two_bodies_are_assembled : ∃ run : SingleRun, run.pc = .returned (.ok ()) ∧
      run.writer.task.file.content = [7, 8] ∧
      SingleRun.Assembled ⟨(fullContent 2).metadata, []⟩ run [7, 8] := by
  have hrun : (runLabels (SingleRun.step smallSingle) (fun _ _ => true)
      (.start smallSingle (createOutputFile (some 2) .none ⟨none, none⟩) 0 (some 2)
        (fullContent 2) ⟨none, none⟩) retriedRun).map
        (fun run => (run.pc, run.writer.task.file.content)) =
      some (.returned (.ok ()), [7, 8]) := by decide +kernel
  obtain ⟨run, hr, hview⟩ := Reaches.exists_of_run hrun
  obtain ⟨hpc, hcont⟩ := Prod.mk.inj hview
  have hbeg : SingleRun.Begins smallSingle (createOutputFile (some 2) .none ⟨none, none⟩) 0
      (some 2) := .fresh ⟨none, none⟩ rfl rfl
  have hassembled := (SingleRun.single_connection_is_assembled_in_order hbeg (fullContent 2)
    ⟨none, none⟩ hr).1 hpc
  exact ⟨run, hpc, hcont, hcont ▸ hassembled⟩

def firstByteFile : DiskFile where
  content := [7]
  cursor := 0
  written := fun b => decide (b < 1)
  durable := fun b => decide (b < 1)
  writeBudget := none
  syncBudget := none

def firstByteControl : ControlSnapshot :=
  ⟨"https://host/object", 3, 3, 1, [0], 1, none, none⟩

/-- The first body ends at once; that response has no entity tag, the next two have different ones.
-/
def resumedRun : List SingleAction :=
  [.advance, .check 0 0, .eof, .advance, .write, .advance] ++ again (restOf 1 3 (some [120])) ++
    [.chunk [8], .forward, .eof, .advance, .write, .write, .advance, .save none .other] ++
    again (restOf 2 3 (some [121])) ++ lastByte 9

/-- The response a transfer is resumed with is the baseline even if none of its body is used. -/
theorem contributing_responses_disagree : SingleRun.Begins smallSingle firstByteFile 1 (some 3) ∧
    ∃ run : SingleRun, SingleRun.Reachable smallSingle
        (.start smallSingle firstByteFile 1 (some 3) (restOf 1 3 none)
          ⟨some firstByteControl, none⟩) run ∧
      run.pc = .returned (.ok ()) ∧
      (run.contributions.filter (0 < ·.forwarded)).map
          (fun c => (c.start, c.response.metadata.etag)) =
        [(2, some [121]), (1, some [120])] := by
  constructor
  · exact .resumed firstByteControl ⟨1, .none, true⟩ (by decide) rfl rfl rfl (by decide) rfl
      (fun b => by simp [firstByteFile]) fun _ => rfl
  · have hrun : (runLabels (SingleRun.step smallSingle) (fun _ _ => true)
        (.start smallSingle firstByteFile 1 (some 3) (restOf 1 3 none)
          ⟨some firstByteControl, none⟩) resumedRun).map
        (fun run => (run.pc, (run.contributions.filter (0 < ·.forwarded)).map
          (fun c => (c.start, c.response.metadata.etag)))) =
        some (.returned (.ok ()), [(2, some [121]), (1, some [120])]) := by decide +kernel
    obtain ⟨run, hr, hview⟩ := Reaches.exists_of_run hrun
    obtain ⟨hpc, hetags⟩ := Prod.mk.inj hview
    exact ⟨run, hr, hpc, hetags⟩

end Bytehaul.Session
