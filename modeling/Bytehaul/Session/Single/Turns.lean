import Bytehaul.Session.Single.Run

/-!
# The turns of a single connection

What a step of the task does at a point, by the cases that matter to its invariants.
-/

namespace Bytehaul.Session

open Foundation Storage Option

def FlushPurpose.OfAttempt (attempt : SingleAttempt) : FlushPurpose → Prop
  | .autosave other => other = attempt
  | .complete finalOffset => finalOffset = attempt.downloaded
  | .stop _ | .barrier _ => True

namespace SingleRun

def lastSaved (run : SingleRun) : Nat := run.tracker.lastSavedDownloadedBytes

/-- Between two attempts: no response is being streamed and the writer has nothing to do. -/
def idle : SinglePc → Bool
  | .top _ | .requesting | .responded _ | .sleeping _ _ | .deciding _ => true
  | _ => false

section Turn

variable (cfg : SingleConfig) (run : SingleRun)

inductive Turn : SinglePc → SingleRun → Prop
  | rest {pc pc' retryState} (hpc : idle pc = true) (hpc' : idle pc' = true) :
      Turn pc ({ run with retryState := retryState }.goto pc')
  | giveUp {pc retryState error} (hpc : idle pc = true) :
      Turn pc ({ run with retryState := retryState }.close (.finish error))
  | restart {wakeAt restart} :
      Turn (.sleeping wakeAt (some restart)) (run.close (.recreate (.restart restart)))
  | unsized {response error} (herror : error.isStop = false) :
      Turn (.responded response) (run.goto (.returned (.error error)))
  | resume {response total} (hoffset : 0 < run.offset)
      (hvalid : run.validationError total response = none) :
      Turn (.responded response) (run.stream response)
  | adopt {response} (hoffset : run.offset = 0)
      (hsize : cfg.fileAllocation = .prealloc →
        run.writer.fileTotalSize = (SingleRun.adopt cfg run response).totalSize) :
      Turn (.responded response) ((SingleRun.adopt cfg run response).stream response)
  | resize {response} (hoffset : run.offset = 0) :
      Turn (.responded response)
        ((SingleRun.adopt cfg run response).close (.recreate (.resize response)))
  | receive {attempt data} (hframe : attempt.frame = []) :
      Turn (.streaming attempt) ((run.note fun c => { c with body := c.body ++ data }).goto
        (.streaming { attempt with frame := data }))
  | forward {attempt part} (hpart : part = attempt.frame.take cfg.maxChunk)
      (hrunning : run.writer.outcome = none) :
      Turn (.streaming attempt) (({ run with
        writer := run.writer.post (.data attempt.downloaded part (some part.length) none) }.note
          fun c => { c with forwarded := c.forwarded + part.length }).goto
        (.streaming { attempt with
          downloaded := attempt.downloaded + part.length
          receivedInAttempt := attempt.receivedInAttempt + part.length
          frame := attempt.frame.drop cfg.maxChunk }))
  | goOn {attempt tracker} (hsaved : tracker.lastSavedDownloadedBytes = run.lastSaved) :
      Turn (.streaming attempt) ({ run with tracker := tracker }.goto (.streaming attempt))
  | leave {attempt tracker error} (hsaved : tracker.lastSavedDownloadedBytes = run.lastSaved) :
      Turn (.streaming attempt) ({ run with tracker := tracker }.close (.finish error))
  | flush {attempt tracker purpose} (hsaved : tracker.lastSavedDownloadedBytes = run.lastSaved)
      (hpurpose : purpose.OfAttempt attempt) :
      Turn (.streaming attempt) ({ run with tracker := tracker }.goto (.flushing purpose))
  | ask {purpose} (hrunning : run.writer.outcome = none) :
      Turn (.flushing purpose)
        ({ run with writer := run.writer.post (.flushAll true ()) }.goto (.syncing purpose))
  | lost {pc purpose} (hpc : pc = .flushing purpose ∨ pc = .syncing purpose)
      (hgone : run.writer.outcome ≠ none) : Turn pc (run.flushFailed purpose)
  | answered {purpose writtenBytes} (hmail : run.writer.mailbox = some writtenBytes) :
      Turn (.syncing purpose)
        ({ run with writer := { run.writer with mailbox := none } }.flushed writtenBytes purpose)
  | save {snapshot after fault kind} :
      Turn (.saving snapshot after) (run.save snapshot after fault kind)
  | join {after kind next} (hjoin : SingleRun.join cfg run after kind = some next) :
      Turn (.closing after) next
  | create {recreation device kind} :
      Turn (.recreating recreation) (SingleRun.create cfg run recreation device kind)
  | delete {restart fault kind} :
      Turn (.deleting restart) (SingleRun.delete cfg run restart fault kind)

end Turn

variable {cfg : SingleConfig} {run next : SingleRun} {att : SingleAttempt} {pc : SinglePc}

theorem shouldSave_lastSaved (tracker : ControlSaveTracker) (reason : ControlSaveReason)
    (current every : Nat) : (tracker.shouldSave reason current every).2.lastSavedDownloadedBytes =
      tracker.lastSavedDownloadedBytes := by
  unfold ControlSaveTracker.shouldSave
  split <;> cases reason <;> rfl

theorem retryOrFinish_turn (hpc : idle pc = true) {restart : Option Restart}
    {answer : RetryDecision × RetryState} : Turn cfg run pc (run.retryOrFinish restart answer) := by
  obtain ⟨decision, retryState⟩ := answer
  cases decision with
  | stop error => exact .giveUp hpc
  | retry error retryCount backoff elapsed => exact .rest hpc rfl

private theorem check_turn {resp : HttpResponse} {later jitter : Nat} :
    Turn cfg run (.responded resp) (check cfg run resp later jitter) := by
  unfold check
  split
  · rename_i hoff
    split
    · exact .unsized rfl
    · split
      · rename_i hval
        exact .resume hoff hval
      · exact retryOrFinish_turn rfl
  · rename_i hzero
    have hoff : run.offset = 0 := Nat.eq_zero_of_not_pos hzero
    dsimp only
    split
    · exact .resize hoff
    · rename_i hfits
      exact .adopt hoff (not_and_not_right.mp hfits)

theorem failAttempt_turn {error : DownloadError} :
    Turn cfg run (.streaming att) (run.failAttempt error) := by
  unfold failAttempt
  split
  · exact .leave rfl
  · exact .flush rfl trivial

theorem persist_turn {reason : ControlSaveReason} {purpose : FlushPurpose}
    {skipped : SingleRun → SingleRun} (hpurp : purpose.OfAttempt att)
    (hskipped : ∀ tracker : ControlSaveTracker, tracker.lastSavedDownloadedBytes = run.lastSaved →
      Turn cfg run (.streaming att) (skipped { run with tracker := tracker })) :
    Turn cfg run (.streaming att) (persist cfg run reason att.downloaded purpose skipped) := by
  have hsaved := shouldSave_lastSaved run.tracker reason att.downloaded cfg.autosaveSyncEvery
  unfold persist
  dsimp only
  split
  · exact .flush hsaved hpurp
  · exact hskipped _ hsaved

private theorem chunk_turn {data : List UInt8} (hstep : run.chunk att data = some next) :
    Turn cfg run (.streaming att) next := by
  unfold chunk at hstep
  split at hstep
  · cases hstep
  · rename_i hframe
    split at hstep <;> cases hstep
    · exact failAttempt_turn
    · exact .receive (not_not.mp hframe)

private theorem forward_turn (hstep : forward cfg run att = some next) :
    Turn cfg run (.streaming att) next := by
  unfold forward at hstep
  dsimp only at hstep
  split at hstep
  · cases hstep
  split at hstep
  · cases hstep
    exact failAttempt_turn
  · rename_i hlive
    split at hstep <;> cases hstep
    exact .forward rfl (not_isSome_iff_eq_none.mp hlive)

private theorem eof_turn (hstep : run.eof att = some next) :
    Turn cfg run (.streaming att) next := by
  unfold eof at hstep
  split at hstep
  · cases hstep
  split at hstep
  · split at hstep <;> cases hstep
    · exact failAttempt_turn
    · exact .flush rfl rfl
  · cases hstep
    exact .flush rfl rfl

private theorem autosave_turn (hstep : autosave cfg run att = some next) :
    Turn cfg run (.streaming att) next := by
  unfold autosave at hstep
  split at hstep <;> cases hstep
  exact persist_turn rfl fun tracker hsaved => .goOn hsaved

private theorem stopAttempt_turn {error : DownloadError} :
    Turn cfg run (.streaming att) (stopAttempt cfg run att error) := by
  unfold stopAttempt
  split
  · exact persist_turn trivial fun tracker hsaved => .leave hsaved
  · exact .leave rfl

private theorem advance_turn (hstep : advance cfg run pc = some next) : Turn cfg run pc next := by
  unfold advance at hstep
  split at hstep
  · cases hstep
    exact .rest rfl rfl
  · cases hstep
    exact .rest rfl rfl
  · split at hstep
    · cases hstep
    · split at hstep <;> cases hstep
      · exact .rest rfl rfl
      · exact .restart
  · unfold sendFlush at hstep
    split at hstep
    · rename_i hgone
      cases hstep
      exact .lost (.inl rfl) (isSome_iff_ne_none.mp hgone)
    · rename_i hlive
      split at hstep <;> cases hstep
      exact .ask (not_isSome_iff_eq_none.mp hlive)
  · unfold awaitFlush at hstep
    split at hstep
    · rename_i hmail
      cases hstep
      exact .answered hmail
    · split at hstep <;> cases hstep
      rename_i hgone
      exact .lost (.inr rfl) (isSome_iff_ne_none.mp hgone)
  · cases hstep

theorem taskStep_turn {act : SingleAction} (hstep : taskStep cfg run pc act = some next) :
    Turn cfg run pc next := by
  unfold taskStep at hstep
  split at hstep
  · exact advance_turn hstep
  · obtain ⟨error, -, hobserve⟩ := bind_eq_some_iff.mp hstep
    unfold observeStop at hobserve
    split at hobserve <;> cases hobserve
    · exact .giveUp rfl
    · exact .giveUp rfl
    · exact stopAttempt_turn
  · cases hstep
    exact .rest rfl rfl
  · cases hstep
    exact retryOrFinish_turn rfl
  · cases hstep
    exact check_turn
  · exact chunk_turn hstep
  · exact forward_turn hstep
  · exact eof_turn hstep
  · split at hstep <;> cases hstep
    exact failAttempt_turn
  · exact autosave_turn hstep
  · cases hstep
    exact retryOrFinish_turn rfl
  · cases hstep
    exact .save
  · exact .join hstep
  · cases hstep
    exact .create
  · cases hstep
    exact .delete
  · cases hstep

end SingleRun

end Bytehaul.Session
