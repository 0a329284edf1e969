import Bytehaul.Foundation.Runs
import Bytehaul.Session.Single.Prefix
import Bytehaul.Session.Single.Turns

/-!
# Checkpoints of a single connection

One position separates what the writer has been given from what it has not, and the control
file records one at or below it.
-/

namespace Bytehaul.Session

open Foundation Storage Storage.WriterTask Nat

def FlushPurpose.Tied (n : Nat) : FlushPurpose → Prop
  | .autosave attempt => attempt.downloaded = n
  | .complete finalOffset => finalOffset = n
  | .stop _ | .barrier _ => True

def Recreation.Tied (offset n : Nat) : Recreation → Prop
  | .resize _ => offset = 0 ∧ n = 0
  | .restart _ => True

def AfterClose.Tied (offset n : Nat) : AfterClose → Prop
  | .recreate recreation => recreation.Tied offset n
  | .give error => error.isStop = false
  | .finish _ | .complete => True

def AfterSave.Tied (run : SingleRun) (n : Nat) : AfterSave → Prop
  | .stream attempt => run.writer.Resting n ∧ attempt.downloaded = n
  | .finish _ => run.writer.Resting n
  | .decide _ => run.writer.Resting n ∧ run.offset = n
  | .report _ => run.writer.Closed n

namespace SingleRun

/-- The writer has been given the bytes below `n`, and every local variable agrees. -/
def Steady (run : SingleRun) (n : Nat) : SinglePc → Prop
  | .top _ | .requesting | .responded _ | .sleeping _ _ | .deciding _ =>
    run.writer.Resting n ∧ run.offset = n ∧ run.lastSaved ≤ n
  | .streaming attempt =>
    run.writer.Flowing n ∧ attempt.downloaded = n ∧ run.lastSaved ≤ n
  | .flushing purpose => run.writer.Flowing n ∧ purpose.Tied n ∧ run.lastSaved ≤ n
  | .syncing purpose => run.writer.Waiting n ∧ purpose.Tied n ∧ run.lastSaved ≤ n
  | .saving snapshot next =>
    next.Tied run n ∧ snapshot.downloadedBytes = n ∧ run.lastSaved < n
  | .closing next => run.writer.Closing n ∧ next.Tied run.offset n ∧ run.lastSaved ≤ n
  | .recreating recreation =>
    run.writer.Closed n ∧ recreation.Tied run.offset n ∧ run.lastSaved ≤ n
  | .deleting (some _) => run.writer.Resting n ∧ n = 0
  | .deleting none | .returned (.ok ()) => run.writer.Closed n
  | .returned (.error error) => error.isStop = true → run.useControl = true →
      run.writer.Closed n ∧ run.lastSaved = n

/-- Where the task can be when its writer has failed: it will end with that error. -/
def Doomed : SinglePc → Prop
  | .streaming _ | .flushing _ | .syncing _ | .closing _ => True
  | _ => False

/-- The control file holds the last position saved, and is missing if there is none. -/
def Remembers (run : SingleRun) : Prop :=
  match run.files.control with
  | none => run.lastSaved = 0
  | some snapshot => snapshot.downloadedBytes = run.lastSaved ∧ 0 < run.lastSaved

/-- `tracked` says whether the control file was in step with the task when it began. -/
structure Kept (cfg : SingleConfig) (tracked : Prop) (run : SingleRun) : Prop where
  useControl : run.useControl = (cfg.resume && run.totalSize.isSome)
  remembers : tracked → run.pc ≠ .returned (.ok ()) → run.Remembers
  writer : (run.writer.Broken ∧ Doomed run.pc) ∨ ∃ n, run.Steady n run.pc

variable {cfg : SingleConfig} {tracked : Prop} {run next : SingleRun} {n : Nat} {P : Nat → Prop}
  {purpose : FlushPurpose} {error : DownloadError} {kind : IoErrorKind}

/-- What the session variables say, apart from the writer. -/
structure Booked (cfg : SingleConfig) (tracked : Prop) (run : SingleRun) : Prop where
  useControl : run.useControl = (cfg.resume && run.totalSize.isSome)
  remembers : tracked → run.Remembers

section Booking

variable {pc : SinglePc} {after : AfterClose} {att : SingleAttempt} (h : Booked cfg tracked run)
include h

theorem Booked.broken (hbrok : run.writer.Broken) (hpc : Doomed run.pc) : Kept cfg tracked run :=
  ⟨h.useControl, fun htrkd _ => h.remembers htrkd, .inl ⟨hbrok, hpc⟩⟩

theorem Booked.steady (hstdy : run.Steady n run.pc) : Kept cfg tracked run :=
  ⟨h.useControl, fun htrkd _ => h.remembers htrkd, .inr ⟨n, hstdy⟩⟩

/-- The writer may have broken already; otherwise `P` holds of the position it has been given. -/
def Flows (run : SingleRun) (P : Nat → Prop) : Prop :=
  run.writer.Broken ∨ ∃ n, run.writer.Flowing n ∧ P n ∧ run.lastSaved ≤ n

omit h in
theorem Flows.mono {Q : Nat → Prop} (h : run.Flows P) (hPQ : ∀ n, P n → Q n) : run.Flows Q := by
  rcases h with hbrok | ⟨n, hflow, hP, hsaved⟩
  · exact .inl hbrok
  · exact .inr ⟨n, hflow, hPQ n hP, hsaved⟩

theorem close_kept (hflows : run.Flows fun n => after.Tied run.offset n) :
    Kept cfg tracked (run.close after) := by
  rcases hflows with hbrok | ⟨n, hflow, htied, hsaved⟩
  · exact Booked.broken ⟨h.useControl, h.remembers⟩ ⟨hbrok.failed, hbrok.mailbox⟩ trivial
  · exact Booked.steady ⟨h.useControl, h.remembers⟩ ⟨hflow.close, htied, hsaved⟩

private theorem finishSingleError_kept (hflows : run.Flows P)
    (error : DownloadError) : Kept cfg tracked (run.finishSingleError error) :=
  close_kept h (hflows.mono fun _ _ => trivial)

theorem streaming_kept (hflows : run.Flows fun n => att.downloaded = n) :
    Kept cfg tracked (run.goto (.streaming att)) := by
  rcases hflows with hbrok | ⟨n, hstdy⟩
  · exact Booked.broken ⟨h.useControl, h.remembers⟩ hbrok trivial
  · exact Booked.steady ⟨h.useControl, h.remembers⟩ hstdy

private theorem flushing_kept (hflows : run.Flows purpose.Tied) :
    Kept cfg tracked (run.goto (.flushing purpose)) := by
  rcases hflows with hbrok | ⟨n, hstdy⟩
  · exact Booked.broken ⟨h.useControl, h.remembers⟩ hbrok trivial
  · exact Booked.steady ⟨h.useControl, h.remembers⟩ hstdy

theorem returned_kept (herr : error.isStop = false) :
    Kept cfg tracked (run.goto (.returned (.error error))) := by
  refine Booked.steady (n := 0) ⟨h.useControl, h.remembers⟩ fun hstop => ?_
  rw [herr] at hstop
  cases hstop

structure AtRest (run : SingleRun) (n : Nat) : Prop where
  resting : run.writer.Resting n
  offset : run.offset = n
  saved : run.lastSaved ≤ n

omit h in
theorem AtRest.flows (h : run.AtRest n) (hP : P n) : run.Flows P :=
  .inr ⟨n, h.resting.toFlowing, hP, h.saved⟩

theorem stream_kept (hrest : run.AtRest n) {resp : HttpResponse} :
    Kept cfg tracked (run.stream resp) := by
  unfold stream
  rw [if_pos hrest.resting.sender]
  exact Booked.steady ⟨h.useControl, h.remembers⟩
    ⟨hrest.resting.toFlowing, hrest.offset, hrest.saved⟩

theorem resting_kept (hrest : run.AtRest n)
    (hpc : idle pc = true) : Kept cfg tracked (run.goto pc) := by
  refine Booked.steady (n := n) ⟨h.useControl, h.remembers⟩ ?_
  cases pc <;> first
    | exact ⟨hrest.resting, hrest.offset, hrest.saved⟩
    | cases hpc

theorem adopt_booked {resp : HttpResponse} : Booked cfg tracked (adopt cfg run resp) := by
  refine ⟨?_, h.remembers⟩
  unfold adopt
  cases singleResponseTotalSize resp with
  | none => exact h.useControl
  | some total => simp

theorem Booked.retrack {tracker : ControlSaveTracker}
    (htrkr : tracker.lastSavedDownloadedBytes = run.lastSaved) :
    Booked cfg tracked { run with tracker := tracker } := by
  refine ⟨h.useControl, fun htrkd => ?_⟩
  have hremb := h.remembers htrkd
  unfold Remembers lastSaved at *
  rwa [htrkr]

omit h in
theorem Flows.retrack (h : run.Flows P) {tracker : ControlSaveTracker}
    (htrkr : tracker.lastSavedDownloadedBytes = run.lastSaved) :
    Flows { run with tracker := tracker } P := by
  unfold Flows lastSaved at *
  rwa [htrkr]

private theorem flushFailed_kept (hbrok : run.writer.Broken) :
    Kept cfg tracked (run.flushFailed purpose) := by
  cases purpose with
  | autosave att => exact streaming_kept h (.inl hbrok)
  | stop error | barrier error | complete finalOffset => exact close_kept h (.inl hbrok)

theorem saveIfNew_kept (after : AfterSave)
    (skipped : SingleRun → SingleRun) (htied : after.Tied run n)
    (hskipped : Kept cfg tracked (skipped run)) :
    Kept cfg tracked (run.saveIfNew n after skipped) := by
  unfold saveIfNew
  split
  · exact hskipped
  · rename_i hnew
    have hlt : run.lastSaved < n := Nat.lt_of_not_le hnew
    refine Booked.steady (n := n) ⟨h.useControl, h.remembers⟩ ⟨?_, rfl, hlt⟩
    cases after <;> exact htied

theorem flushed_kept (hrstg : run.writer.Resting n)
    (hsaved : run.lastSaved ≤ n) (htied : purpose.Tied n) :
    Kept cfg tracked (run.flushed n purpose) := by
  have hflows : ∀ {P : Nat → Prop}, P n → run.Flows P :=
    fun hP => .inr ⟨n, hrstg.toFlowing, hP, hsaved⟩
  cases purpose with
  | autosave att =>
    exact saveIfNew_kept h (.stream att) (fun run => run.goto (.streaming att))
      ⟨hrstg, htied⟩ (streaming_kept h (hflows htied))
  | stop error =>
    exact saveIfNew_kept h (.finish error) (fun run => run.finishSingleError error) hrstg
      (finishSingleError_kept h (hflows (P := fun _ => True) trivial) error)
  | barrier error =>
    have hbook : Booked cfg tracked { run with offset := n } := ⟨h.useControl, h.remembers⟩
    have hdeciding : Kept cfg tracked (goto { run with offset := n } (.deciding error)) :=
      resting_kept hbook ⟨hrstg, rfl, hsaved⟩ rfl
    unfold flushed
    dsimp only
    split
    · exact saveIfNew_kept hbook (.decide error) _ ⟨hrstg, rfl⟩ hdeciding
    · exact hdeciding
  | complete finalOffset =>
    unfold flushed
    dsimp only
    split
    · exact close_kept h (hflows rfl)
    · exact close_kept h (hflows trivial)

end Booking

theorem saved_kept {after : AfterSave} {done : Bool} (h : Booked cfg tracked run)
    (htied : after.Tied run n) (hsaved : run.lastSaved ≤ n)
    (hdone : done = true → run.lastSaved = n) : Kept cfg tracked (run.saved done kind after) := by
  cases after with
  | stream att => exact streaming_kept h (.inr ⟨n, htied.1.toFlowing, htied.2, hsaved⟩)
  | finish error => exact close_kept h (.inr ⟨n, htied.toFlowing, trivial, hsaved⟩)
  | decide error => exact resting_kept h ⟨htied.1, htied.2, hsaved⟩ rfl
  | report error =>
    cases done with
    | false => exact returned_kept h rfl
    | true => exact Booked.steady (n := n) ⟨h.useControl, h.remembers⟩ fun _ _ => ⟨htied, hdone rfl⟩

private theorem save_kept {snap : ControlSnapshot} {after : AfterSave} {fault : Option SaveFault}
    (h : Booked cfg tracked run) (htied : after.Tied run n)
    (hsnap : snap.downloadedBytes = n) (hsaved : run.lastSaved < n) :
    Kept cfg tracked (run.save snap after fault kind) := by
  unfold save
  cases hsave : saveSync run.files snap fault with
  | mk done files =>
    cases done with
    | false =>
      refine saved_kept (n := n) ⟨h.useControl, fun htrkd => ?_⟩ ?_ (le_of_lt hsaved)
        fun hdone => by cases hdone
      · have hremb := h.remembers htrkd
        unfold Remembers at *
        rw [saveSync_failed hsave]
        exact hremb
      · cases after <;> exact htied
    | true =>
      refine saved_kept (n := n) ⟨h.useControl, fun _ => ?_⟩ ?_ (le_of_eq hsnap)
        fun _ => hsnap
      · unfold Remembers
        rw [saveSync_saved hsave]
        exact ⟨rfl, hsnap ▸ lt_of_le_of_lt (zero_le _) hsaved⟩
      · cases after <;> exact htied

theorem persistTerminal_kept (h : Booked cfg tracked run) (hclos : run.writer.Closed n)
    (hsaved : run.lastSaved ≤ n) : Kept cfg tracked (persistTerminal cfg run error) := by
  have hwr := hclos.toFed.writtenBytes hclos.settled
  have htrkr := shouldSave_lastSaved run.tracker .terminal n cfg.autosaveSyncEvery
  have hdue : (run.tracker.shouldSave .terminal n cfg.autosaveSyncEvery).1 = false →
      n ≤ run.lastSaved := by
    unfold ControlSaveTracker.shouldSave
    split
    · exact fun _ => ‹_›
    · exact fun hfalse => by cases hfalse
  unfold persistTerminal
  dsimp only
  rw [hwr]
  generalize run.tracker.shouldSave .terminal n cfg.autosaveSyncEvery = answer at htrkr hdue ⊢
  obtain ⟨due, tracker⟩ := answer
  have hbook : Booked cfg tracked { run with tracker := tracker } := h.retrack htrkr
  split
  · rename_i hnew
    exact Booked.steady (n := n) ⟨hbook.useControl, hbook.remembers⟩ ⟨hclos, rfl, hnew.2⟩
  · rename_i hold
    refine Booked.steady (n := n) ⟨hbook.useControl, hbook.remembers⟩ fun _ _ => ⟨hclos, ?_⟩
    change tracker.lastSavedDownloadedBytes = n
    have hle : tracker.lastSavedDownloadedBytes ≤ n := htrkr ▸ hsaved
    cases due with
    | false => exact le_antisymm hle (htrkr ▸ hdue rfl)
    | true => exact Nat.le_antisymm hle (Nat.le_of_not_lt fun hlt => hold ⟨rfl, hlt⟩)

theorem writerFailure_isStop {error : WriterError} : (writerFailure kind error).isStop = false := by
  cases error <;> rfl

theorem join_kept {after : AfterClose} (h : Booked cfg tracked run) (hwri : run.writer.Broken ∨
      ∃ n, run.writer.Closing n ∧ after.Tied run.offset n ∧ run.lastSaved ≤ n)
    (hstep : join cfg run after kind = some next) : Kept cfg tracked next := by
  unfold join at hstep
  split at hstep
  · cases hstep
  · cases hstep
    exact returned_kept h (writerFailure_isStop)
  · rename_i hdone
    rcases hwri with hbrok | ⟨n, hclg, htied, hsaved⟩
    · obtain ⟨error, herr⟩ := hbrok.failed
      rw [hdone] at herr
      cases herr
    have hclos : run.writer.Closed n := .of_closing hclg hdone
    cases after with
    | recreate recreation =>
      cases hstep
      exact Booked.steady (n := n) ⟨h.useControl, h.remembers⟩ ⟨hclos, htied, hsaved⟩
    | finish error =>
      dsimp only at hstep
      split at hstep <;> cases hstep
      · exact persistTerminal_kept h hclos hsaved
      · rename_i hctrl
        exact Booked.steady (n := n) ⟨h.useControl, h.remembers⟩ fun _ huse =>
          absurd huse hctrl
    | complete =>
      cases hstep
      split
      · exact Booked.steady (n := n) ⟨h.useControl, h.remembers⟩ hclos
      · exact ⟨h.useControl, fun _ hpc => absurd rfl hpc, .inr ⟨n, hclos⟩⟩
    | give error =>
      cases hstep
      exact returned_kept h htied

theorem resting_create (totalSize : Option Nat) (device : Device) :
    (SingleWriter.start cfg (createOutputFile totalSize cfg.fileAllocation device) 0
      totalSize).Resting 0 :=
  SingleWriter.resting_start (fun b => by simp [createOutputFile]) (zero_le _) fun _ => rfl

theorem create_kept {recreation : Recreation} {device : Option Device} (h : Booked cfg tracked run)
    (htied : recreation.Tied run.offset n) (hsaved : run.lastSaved ≤ n) :
    Kept cfg tracked (create cfg run recreation device kind) := by
  cases device with
  | none => exact returned_kept h rfl
  | some device =>
    cases recreation with
    | restart restart =>
      exact Booked.steady (n := 0) ⟨h.useControl, h.remembers⟩ ⟨resting_create none device, rfl⟩
    | resize resp =>
      obtain ⟨hoff, rfl⟩ := htied
      let created : SingleRun := { run with
        writer := .start cfg (createOutputFile run.totalSize cfg.fileAllocation device) 0
          run.totalSize
        base := 0
        contributions := [] }
      have hbook : Booked cfg tracked created := ⟨h.useControl, h.remembers⟩
      have hrest : created.AtRest 0 := ⟨resting_create run.totalSize device, hoff, hsaved⟩
      exact stream_kept hbook hrest

private theorem restarted_kept (hrstg : run.writer.Resting 0) (hctrl : run.files.control = none)
    {restart : Restart} : Kept cfg tracked (restarted cfg run restart) := by
  have hbook : ∀ {other : SingleRun}, other.files = run.files → other.lastSaved = 0 →
      other.useControl = false → other.totalSize = none → Booked cfg tracked other := by
    intro other hfiles hlast huse htot
    refine ⟨by simp [huse, htot], fun _ => ?_⟩
    unfold Remembers
    rw [hfiles, hctrl]
    exact hlast
  cases restart with
  | body => exact resting_kept (n := 0) (hbook rfl rfl rfl rfl) ⟨hrstg, rfl, le_refl 0⟩ rfl
  | mismatch resp => exact resting_kept (n := 0) (hbook rfl rfl rfl rfl) ⟨hrstg, rfl, le_refl 0⟩ rfl

private theorem delete_kept {restart : Option Restart} {fault : Bool} (h : Booked cfg tracked run)
    (hstdy : run.Steady n (.deleting restart)) :
    Kept cfg tracked (delete cfg run restart fault kind) := by
  unfold delete
  split
  · exact returned_kept h rfl
  · cases restart with
    | some restart =>
      obtain ⟨hrstg, rfl⟩ := hstdy
      let deleted : SingleRun := { run with files := { run.files with control := none } }
      have hrest : deleted.writer.Resting 0 := hrstg
      exact restarted_kept hrest rfl
    | none => exact ⟨h.useControl, fun _ hpc => absurd rfl hpc, .inr ⟨n, hstdy⟩⟩

variable (h : Kept cfg tracked run)
include h

theorem Kept.booked (hpc : run.pc ≠ .returned (.ok ())) : Booked cfg tracked run :=
  ⟨h.useControl, fun htrkd => h.remembers htrkd hpc⟩

theorem Kept.flows
    (hpc : ∀ n, run.Steady n run.pc → run.writer.Flowing n ∧ P n ∧ run.lastSaved ≤ n) :
    run.Flows P := by
  rcases h.writer with ⟨hbrok, -⟩ | ⟨n, hstdy⟩
  · exact .inl hbrok
  · exact .inr ⟨n, hpc n hstdy⟩

theorem Kept.atRest (hidle : idle run.pc = true) : Booked cfg tracked run ∧ ∃ n, run.AtRest n := by
  have hbook : Booked cfg tracked run := h.booked fun hpc => by simp [hpc, idle] at hidle
  refine ⟨hbook, ?_⟩
  rcases h.writer with ⟨-, hdoomed⟩ | ⟨n, hstdy⟩
  · revert hidle hdoomed
    cases run.pc <;> simp [idle, Doomed]
  · refine ⟨n, ?_⟩
    revert hidle hstdy
    cases run.pc <;> first
      | exact fun _ hstdy => ⟨hstdy.1, hstdy.2.1, hstdy.2.2⟩
      | exact fun hidle => by cases hidle

theorem Kept.steady (hpc : ¬ Doomed run.pc) : ∃ n, run.Steady n run.pc := by
  rcases h.writer with ⟨-, hdoomed⟩ | hstdy
  · exact absurd hdoomed hpc
  · exact hstdy

omit h in
theorem Turn.kept {pc : SinglePc} (hturn : Turn cfg run pc next) (hpc : run.pc = pc)
    (h : Kept cfg tracked run) : Kept cfg tracked next := by
  have hrest (hidle : idle pc = true) : Booked cfg tracked run ∧ ∃ n, run.AtRest n :=
    h.atRest (hpc ▸ hidle)
  have hbook (hretd : pc ≠ .returned (.ok ())) : Booked cfg tracked run := h.booked (hpc ▸ hretd)
  have hstdy (hdoomed : ¬ Doomed pc) : ∃ n, run.Steady n pc := hpc ▸ h.steady (hpc ▸ hdoomed)
  have hatt {att : SingleAttempt} (hstrm : pc = .streaming att) :
      Booked cfg tracked run ∧ run.Flows fun n => att.downloaded = n :=
    ⟨hbook (by simp [hstrm]), h.flows (by simp [hpc, hstrm, Steady])⟩
  cases hturn with
  | rest hidle hidle' =>
    obtain ⟨hbook, n, hrest⟩ := hrest hidle
    exact resting_kept ⟨hbook.useControl, hbook.remembers⟩
      ⟨hrest.resting, hrest.offset, hrest.saved⟩ hidle'
  | giveUp hidle =>
    obtain ⟨hbook, n, hrest⟩ := hrest hidle
    exact close_kept ⟨hbook.useControl, hbook.remembers⟩ (hrest.flows trivial)
  | restart =>
    obtain ⟨hbook, n, hrest⟩ := hrest rfl
    exact close_kept hbook (hrest.flows trivial)
  | unsized herr => exact returned_kept (hbook (by simp)) herr
  | resume =>
    obtain ⟨hbook, n, hrest⟩ := hrest rfl
    exact stream_kept hbook hrest
  | adopt =>
    obtain ⟨hbook, n, hrest⟩ := hrest rfl
    exact stream_kept (adopt_booked hbook) ⟨hrest.resting, hrest.offset, hrest.saved⟩
  | resize hoff =>
    obtain ⟨hbook, n, hrest⟩ := hrest rfl
    exact close_kept (adopt_booked hbook) (hrest.flows ⟨hoff, hrest.offset.symm.trans hoff⟩)
  | receive =>
    obtain ⟨hbook, hflows⟩ := hatt rfl
    exact streaming_kept ⟨hbook.useControl, hbook.remembers⟩ hflows
  | forward hpart hlive =>
    obtain ⟨hbook, hflows⟩ := hatt rfl
    refine streaming_kept ⟨hbook.useControl, hbook.remembers⟩ ?_
    rcases hflows with hbrok | ⟨n, hflow, rfl, hsaved⟩
    · exact absurd hlive hbrok.ended
    · exact .inr ⟨_, hflow.send _ _, rfl, le_add_right_of_le hsaved⟩
  | goOn hsaved =>
    obtain ⟨hbook, hflows⟩ := hatt rfl
    exact streaming_kept (hbook.retrack hsaved) (hflows.retrack hsaved)
  | leave hsaved =>
    obtain ⟨hbook, hflows⟩ := hatt rfl
    exact close_kept (hbook.retrack hsaved) ((hflows.retrack hsaved).mono fun _ _ => trivial)
  | @flush _ _ purpose hsaved hpurp =>
    obtain ⟨hbook, hflows⟩ := hatt rfl
    refine flushing_kept (hbook.retrack hsaved) ((hflows.retrack hsaved).mono ?_)
    rintro _ rfl
    cases purpose with
    | autosave => exact congrArg _ hpurp
    | complete => exact hpurp
    | stop | barrier => trivial
  | ask hlive =>
    have hbook := hbook (by simp)
    rcases h.writer with ⟨hbrok, -⟩ | ⟨n, hstdy⟩
    · exact absurd hlive hbrok.ended
    · rw [hpc] at hstdy
      exact Booked.steady ⟨hbook.useControl, hbook.remembers⟩
        ⟨hstdy.1.flush, hstdy.2.1, hstdy.2.2⟩
  | @lost _ purpose hlost hgone =>
    have hbook : Booked cfg tracked run := hbook (by rcases hlost with rfl | rfl <;> simp)
    rcases h.writer with ⟨hbrok, -⟩ | ⟨n, hstdy⟩
    · exact flushFailed_kept hbook hbrok
    · rw [hpc] at hstdy
      rcases hlost with rfl | rfl <;> exact absurd hstdy.1.running hgone
  | answered hmail =>
    have hbook := hbook (by simp)
    rcases h.writer with ⟨hbrok, -⟩ | ⟨n, hstdy⟩
    · rw [hbrok.mailbox] at hmail
      cases hmail
    · rw [hpc] at hstdy
      obtain ⟨rfl, hrstg⟩ := hstdy.1.receive hmail
      exact flushed_kept ⟨hbook.useControl, hbook.remembers⟩ hrstg hstdy.2.2 hstdy.2.1
  | save =>
    obtain ⟨n, htied, hsnap, hsaved⟩ := hstdy id
    exact save_kept (hbook (by simp)) htied hsnap hsaved
  | join hjoin =>
    refine join_kept (hbook (by simp)) (h.writer.imp And.left ?_) hjoin
    rw [hpc]
    exact id
  | create =>
    obtain ⟨n, -, htied, hsaved⟩ := hstdy id
    exact create_kept (hbook (by simp)) htied hsaved
  | delete =>
    obtain ⟨n, hstdy⟩ := hstdy id
    exact delete_kept (hbook (by simp)) hstdy

theorem Kept.rewrite {writer : SingleWriter} (hlive : run.writer.outcome = none)
    (hstdy : ∀ n, run.Steady n run.pc →
      (writer.Broken ∧ Doomed run.pc) ∨ Steady { run with writer := writer } n run.pc) :
    Kept cfg tracked { run with writer := writer } := by
  refine ⟨h.useControl, h.remembers, ?_⟩
  rcases h.writer with ⟨⟨⟨error, herr⟩, -⟩, -⟩ | ⟨n, hn⟩
  · cases hlive.symm.trans herr
  · exact (hstdy n hn).imp id fun hnext => ⟨n, hnext⟩

omit h in
/-- Where the task is not sending, the writer is at rest or has ended. -/
theorem Steady.unmoved {pc : SinglePc} {writer : SingleWriter} (hmoved : run.writer.Settled →
      ¬(run.writer.sender = true ∨ run.writer.outcome = some (.ok ())))
    (hstdy : run.Steady n pc) (hqt : ¬ Doomed pc) :
    Steady { run with writer := writer } n pc := by
  have hrstg : ¬ run.writer.Resting n := fun h => hmoved h.settled (.inl h.sender)
  have hclos : ¬ run.writer.Closed n := fun h => hmoved h.settled (.inr h.done)
  cases pc with
  | streaming | flushing | syncing | closing => exact absurd trivial hqt
  | saving snap after =>
    cases after with
    | stream | decide => exact absurd hstdy.1.1 hrstg
    | finish => exact absurd hstdy.1 hrstg
    | report => exact absurd hstdy.1 hclos
  | recreating => exact absurd hstdy.1 hclos
  | deleting restart =>
    cases restart with
    | none => exact absurd hstdy hclos
    | some => exact absurd hstdy.1 hrstg
  | returned result =>
    cases result with
    | ok => exact absurd hstdy hclos
    | error => exact fun hstop huse => absurd (hstdy hstop huse).1 hclos
  | _ => exact absurd hstdy.1 hrstg

theorem Kept.write {writer : SingleWriter}
    (hstep : run.writer.write = some writer) : Kept cfg tracked { run with writer := writer } := by
  obtain ⟨hlive, -⟩ := SingleWriter.write_cases hstep
  apply h.rewrite hlive
  intro n
  cases hpc : run.pc with
  | streaming att | flushing purpose =>
    rintro ⟨hflow, htied⟩
    exact (hflow.write hstep).imp (⟨·, trivial⟩) (⟨·, htied⟩)
  | syncing purpose =>
    rintro ⟨hwait, htied⟩
    exact (hwait.write hstep).imp (⟨·, trivial⟩) (⟨·, htied⟩)
  | closing after =>
    rintro ⟨hclg, htied⟩
    exact (hclg.write hstep).imp (⟨·, trivial⟩) (⟨·, htied⟩)
  | _ =>
    exact fun hstdy => .inr (hstdy.unmoved
      (fun hset => absurd hstep (SingleWriter.not_write_of_settled hset)) id)

theorem Kept.finish {writer : SingleWriter}
    (hstep : run.writer.finish = some writer) : Kept cfg tracked { run with writer := writer } := by
  obtain ⟨hlive, hsend, -⟩ := SingleWriter.finish_cases hstep
  have hmoved : ¬(run.writer.sender = true ∨ run.writer.outcome = some (.ok ())) := by
    simp [hsend, hlive]
  apply h.rewrite hlive
  intro n
  cases hpc : run.pc with
  | closing after =>
    rintro ⟨hclg, htied⟩
    exact (hclg.finish hstep).imp (⟨·, trivial⟩) (⟨·, htied⟩)
  | streaming | flushing | syncing => exact fun hstdy => absurd (.inl hstdy.1.sender) hmoved
  | _ => exact fun hstdy => .inr (hstdy.unmoved (fun _ => hmoved) id)

theorem Kept.step {act : SingleAction}
    (hstep : step cfg run act = some next) : Kept cfg tracked next := by
  unfold SingleRun.step at hstep
  split at hstep
  · obtain ⟨writer, hw, rfl⟩ := Option.map_eq_some_iff.mp hstep
    exact h.write hw
  · obtain ⟨writer, hfin, rfl⟩ := Option.map_eq_some_iff.mp hstep
    exact h.finish hfin
  · cases hstep
    exact ⟨h.useControl, h.remembers, h.writer⟩
  · cases hstep
    exact ⟨h.useControl, h.remembers, h.writer⟩
  · exact (taskStep_turn hstep).kept rfl h

omit h

/-- The output file is open and written up to the start offset, all of it durable. -/
structure Launch (file : DiskFile) (startOffset : Nat) : Prop where
  written : ∀ b, file.written b = true ↔ b < startOffset
  durable : ∀ b, file.durable b = file.written b
  length : startOffset ≤ file.content.length

theorem Launch.created (totalSize : Option Nat) (allocation : FileAllocation) (device : Device) :
    Launch (createOutputFile totalSize allocation device) 0 :=
  ⟨fun b => by simp [createOutputFile], fun _ => rfl, zero_le _⟩

/-- None for a fresh start, else the one that records the start offset. -/
def Handover (files : ControlFiles) (startOffset : Nat) : Prop :=
  match files.control with
  | none => startOffset = 0
  | some snapshot => snapshot.downloadedBytes = startOffset ∧ 0 < startOffset

theorem kept_start {file : DiskFile} {startOffset : Nat} (h : Launch file startOffset)
    (totalSize : Option Nat) (resp : HttpResponse) (files : ControlFiles) :
    Kept cfg (Handover files startOffset) (start cfg file startOffset totalSize resp files) where
  useControl := rfl
  remembers hhandover _ := hhandover
  writer := .inr ⟨startOffset, SingleWriter.resting_start h.written h.length h.durable, rfl,
    le_refl _⟩

abbrev Reachable (cfg : SingleConfig) (first run : SingleRun) : Prop :=
  Reaches (step cfg) (fun _ _ => True) first run

theorem Reachable.kept {first : SingleRun} (hr : Reachable cfg first run)
    (h : Kept cfg tracked first) : Kept cfg tracked run :=
  hr.invariant h fun _ _ _ hkept _ hstep => hkept.step hstep

/-- The durable prefix ends at `n`, and the control file, if there is one, says so. -/
def RecordedAt (run : SingleRun) (n : Nat) : Prop :=
  (∀ b, run.writer.task.file.durable b = true ↔ b < n) ∧
    match run.files.control with
    | none => n = 0
    | some snapshot => snapshot.downloadedBytes = n

theorem Kept.recorded (h : Kept cfg tracked run) (htrkd : tracked)
    (hpc : run.pc = .returned (.error error)) (hstop : error.isStop = true)
    (huse : run.useControl = true) : ∃ n, run.RecordedAt n := by
  obtain ⟨n, hstdy⟩ := h.steady (by simp [hpc, Doomed])
  rw [hpc] at hstdy
  obtain ⟨hclos, hsaved⟩ := hstdy hstop huse
  refine ⟨n, hclos.durable_iff hclos.settled, ?_⟩
  have hremb := h.remembers htrkd (by simp [hpc])
  unfold Remembers at hremb
  split at hremb
  · exact hsaved.symm.trans hremb
  · exact hremb.1.trans hsaved

end SingleRun

end Bytehaul.Session
