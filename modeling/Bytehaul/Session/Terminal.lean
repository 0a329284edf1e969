import Bytehaul.Session.Multi.Monitor
import Bytehaul.Session.Single.Assembly

/-!
# Reporting a stop

By reporting a stop a transfer promises that it can be resumed. The monitor of a worker pool
saves that checkpoint when it observes the stop itself.
-/

namespace Bytehaul.Session

open Foundation Storage Scheduler Option

/-! ## What a step does to the checkpoint -/

namespace Pool

variable {n : Nat} {cfg : PoolConfig} {pool next : Pool n}

private theorem step_monitor {action : Action n} {run : MultiRun n} (hruns : run.runs action = true)
    (hstep : step cfg pool action = some next) :
    next.monitor.pc = pool.monitor.pc ∧ next.files.control = pool.files.control := by
  cases action with
  | worker w action =>
    simp only [step] at hstep
    split at hstep
    · cases hstep
    · have hbeside := workerStep_beside hstep
      exact ⟨by rw [hbeside.monitor], by rw [hbeside.files]⟩
  | write =>
    simp only [step, Pool.write] at hstep
    (repeat' split at hstep)
    all_goals cases hstep
    · rcases pool.writer.reply _ _ with _ | ⟨party, reply⟩
      · exact ⟨rfl, rfl⟩
      · cases party <;> exact ⟨rfl, rfl⟩
    · exact ⟨rfl, rfl⟩
  | persist reason live | freeze | requestSync | confirmSync | save fault => cases hruns
  | dropSender => cases hruns
  | _ =>
    simp only [step, notify, abort, Pool.finishWriter] at hstep
    (repeat' split at hstep)
    all_goals cases hstep
    all_goals exact ⟨rfl, rfl⟩

private theorem step_dropSender (hstep : step cfg pool .dropSender = some next) :
    next.monitor.pc = pool.monitor.pc ∧ next.files.control = pool.files.control := by
  cases monitor_turns rfl hstep
  exact ⟨rfl, rfl⟩

theorem step_persist {reason : ControlSaveReason} {live : Bool}
    (hstep : step cfg pool (.persist reason live) = some next) :
    next.monitor.pc.pending = [] ∧ next.files.control = pool.files.control ∧
      (reason = .terminal → next.monitor.pc = .freezing .terminal live) := by
  cases monitor_turns rfl hstep with
  | due => exact ⟨rfl, rfl, fun hterm => hterm ▸ rfl⟩
  | early _ hreason => exact ⟨rfl, rfl, fun hterm => absurd hterm hreason⟩

/-- Only a save that succeeds changes the control file. -/
inductive Checkpoints (cfg : PoolConfig) (pool next : Pool n) (kind : IoErrorKind) :
    Action n → Prop
  | freeze {reason : ControlSaveReason} {live : Bool}
      (before : pool.monitor.pc = .freezing reason live)
      (after : next.monitor.pc.pending = [snapshot cfg pool])
      (control : next.files.control = pool.files.control) : Checkpoints cfg pool next kind .freeze
  | skip {live : Bool} (before : pool.monitor.pc = .freezing .autosave live)
      (after : next.monitor.pc = .idle)
      (control : next.files.control = pool.files.control) : Checkpoints cfg pool next kind .freeze
  | carry {action : Action n} {frozen : ControlSnapshot}
      (before : pool.monitor.pc.pending = [frozen]) (after : next.monitor.pc.pending = [frozen])
      (control : next.files.control = pool.files.control) : Checkpoints cfg pool next kind action
  | fail {action : Action n} {frozen : ControlSnapshot} {error : DownloadError}
      (before : pool.monitor.pc.pending = [frozen]) (after : next.monitor.pc = .idle)
      (control : next.files.control = pool.files.control)
      (result : MultiRun.checkpointResult kind action = .error error)
      (storage : error.isStop = false) : Checkpoints cfg pool next kind action
  | save {frozen : ControlSnapshot} (before : pool.monitor.pc.pending = [frozen])
      (after : next.monitor.pc = .idle) (control : next.files.control = some frozen) :
      Checkpoints cfg pool next kind (.save none)

private theorem Checkpoints.not_freezing {kind : IoErrorKind} {action : Action n}
    {reason : ControlSaveReason} {live : Bool} (h : Checkpoints cfg pool next kind action) :
    next.monitor.pc ≠ .freezing reason live := by
  intro hpc
  cases h with
  | freeze before after | skip before after | carry before after | fail before after
  | save before after =>
    rw [hpc] at after
    cases after

theorem Checkpoints.ended {kind : IoErrorKind} {action : Action n}
    (h : Checkpoints cfg pool next kind action) (hidle : next.monitor.pc = .idle)
    (hterm : ∀ live, pool.monitor.pc ≠ .freezing .autosave live) :
    (MultiRun.checkpointResult kind action = .ok () ∧
      ∃ frozen ∈ pool.monitor.pc.pending, next.files.control = some frozen) ∨
    ∃ error, MultiRun.checkpointResult kind action = .error error ∧ error.isStop = false := by
  cases h with
  | freeze before after | carry before after =>
    rw [hidle] at after
    cases after
  | skip before after => exact absurd before (hterm _)
  | fail before after control result storage => exact .inr ⟨_, result, storage⟩
  | save before after control => exact .inl ⟨rfl, _, before ▸ List.mem_singleton_self _, control⟩

private theorem step_checkpoints {action : Action n} {kind : IoErrorKind}
    (hsaves : MultiRun.saves action = true) (hstep : step cfg pool action = some next) :
    Checkpoints cfg pool next kind action := by
  have hmonitor : Action.ofMonitor action = true := by cases action <;> first | rfl | cases hsaves
  cases monitor_turns hmonitor hstep with
  | due | early | dropSender => cases hsaves
  | @skip reason live hpc hreason =>
    cases reason with
    | autosave => exact .skip hpc rfl rfl
    | terminal => exact absurd rfl hreason
  | freeze hpc | freezeLast hpc => exact .freeze hpc rfl rfl
  | unsent hpc | unanswered hpc => exact .fail (by rw [hpc]; rfl) rfl rfl rfl rfl
  | request hpc | confirm hpc => exact .carry (by rw [hpc]; rfl) rfl rfl
  | save hpc => exact .save (by rw [hpc]; rfl) rfl rfl
  | unsaved hpc hctrl => exact .fail (by rw [hpc]; rfl) rfl hctrl rfl rfl

end Pool

/-! ## Stops observed by the monitor -/

namespace MultiRun

variable {kind : IoErrorKind}

variable {n : Nat} {cfg : MultiConfig} {first run next : MultiRun n} {action : Action n}
  {act : MultiAction n}
  {base : MultiRun n}

/-- Where a step of a checkpoint leads, with `pool` after it. -/
inductive Finishes (run : MultiRun n) (pool : Pool n) (result : Except DownloadError Unit) :
    MultiRun n → Prop
  | carry (hbusy : pool.monitor.pc ≠ .idle ∨ ∀ stop, run.stage ≠ .checkpointing stop) :
      Finishes run pool result { run with pool := pool }
  | autosaved (hstage : run.stage = .autosaving) :
      Finishes run pool result ({ run with pool := pool }.goto .select)
  | stopped {stop} (hstage : run.stage = .checkpointing stop) (hidle : pool.monitor.pc = .idle)
      (hresult : result = .ok ()) : Finishes run pool result ({ run with pool := pool }.fail stop)
  | unsaved {stop error} (hstage : run.stage = .checkpointing stop)
      (hidle : pool.monitor.pc = .idle) (hresult : result = .error error) :
      Finishes run pool result ({ run with pool := pool }.fail error)
  | recorded (hstage : run.stage = .recording) :
      Finishes run pool result { run with pool := pool }.report

inductive Turn (cfg : MultiConfig) (run : MultiRun n) : MultiAction n → MultiRun n → Prop
  | pool {action pool} (hruns : run.runs action = true)
      (hpool : Pool.step cfg.pool run.pool action = some pool) :
      Turn cfg run (.pool action) { run with pool := pool }
  | poll (hstage : run.stage = .select) : Turn cfg run .pollStop (run.goto .polling)
  | stop {pool error} (hstage : run.stage = .select)
      (hpool : Pool.step cfg.pool run.pool (.persist .terminal true) = some pool) :
      Turn cfg run .pollStop { run with pool := pool, stage := .checkpointing error }
  | abandon {error} (hstage : run.stage = .select) (hresume : cfg.resume = false) :
      Turn cfg run .pollStop (run.fail error)
  | autosave {pool stage} (hstage : run.stage = .polling)
      (hpool : Pool.step cfg.pool run.pool (.persist .autosave true) = some pool)
      (hnext : stage = .autosaving ∨ stage = .select) :
      Turn cfg run .pollSave { run with pool := pool, stage := stage }
  | join {w joined stage} (hstage : run.stage = .polling)
      (hnext : stage = .draining ∨ stage = .select) :
      Turn cfg run (.pollWorker w) { run with joined := joined, stage := stage }
  | failed {w joined error} (hstage : run.stage = .polling)
      (hexited : (run.pool.workers w).pc = .exited (some error)) :
      Turn cfg run (.pollWorker w) ({ run with joined := joined }.fail error)
  | endPass (hstage : run.stage = .polling) : Turn cfg run .endPass (run.goto .select)
  | checkpoint {action kind pool next}
      (hpool : Pool.step cfg.pool run.pool action = some pool)
      (hcheckpoints : Pool.Checkpoints cfg.pool run.pool pool kind action)
      (hfinishes : Finishes run pool (checkpointResult kind action) next) :
      Turn cfg run (.checkpoint action kind) next
  | drain {pool} (hstage : run.stage = .draining)
      (hpool : Pool.step cfg.pool run.pool .dropSender = some pool) :
      Turn cfg run .drain { run with pool := pool, stage := .joining }
  | lost {error kind} : Turn cfg run (.joinWriter error kind)
      { run with downloadError := some (writerFailure kind error) }.report
  | done {error kind} (hstage : run.stage = .joining) (hnone : run.downloadError = none) :
      Turn cfg run (.joinWriter error kind) (run.goto .deleting)
  | record {error kind pool} (hstage : run.stage = .joining)
      (hpool : Pool.step cfg.pool run.pool (.persist .terminal false) = some pool) :
      Turn cfg run (.joinWriter error kind) { run with pool := pool, stage := .recording }
  | report {error kind} (hstage : run.stage = .joining) :
      Turn cfg run (.joinWriter error kind) run.report
  | delete {fault kind files result} (hstage : run.stage = .deleting)
      (hresult : ∀ error, result = .error error → error.isStop = false) :
      Turn cfg run (.delete fault kind)
        ({ run with pool := { run.pool with files := files } }.goto (.returned result))

private theorem finishes_of_idle {pool : Pool n} (hidle : pool.monitor.pc = .idle)
    {result : Except DownloadError Unit} :
    Finishes run pool result ({ run with pool := pool }.finishCheckpoint result) := by
  unfold finishCheckpoint
  split
  · exact .autosaved ‹_›
  · split
    · exact .stopped ‹_› hidle rfl
    · exact .unsaved ‹_› hidle rfl
  · exact .recorded ‹_›
  · rename_i ho _
    exact .carry (.inr ho)

theorem turn_of_step (hstep : step cfg run act = some next) :
    Turn cfg run act next := by
  cases act with
  | pool act =>
    obtain ⟨hruns, hnext⟩ := ite_none_right_eq_some.mp hstep
    obtain ⟨pool, hpool, rfl⟩ := map_eq_some_iff.mp hnext
    exact .pool hruns hpool
  | pollStop =>
    simp only [step, MultiRun.pollStop] at hstep
    split at hstep
    · cases hstep
    rename_i hsel
    have hstg := not_not.mp hsel
    split at hstep
    · cases hstep
      exact .poll hstg
    split at hstep
    · obtain ⟨pool, hpool, rfl⟩ := map_eq_some_iff.mp hstep
      exact .stop hstg hpool
    · rename_i hrsm
      cases hstep
      exact .abandon hstg (by simpa using hrsm)
  | pollSave =>
    simp only [step, MultiRun.pollSave] at hstep
    split at hstep
    · cases hstep
    rename_i hpolling
    have hstg := not_not.mp (not_or.mp hpolling).1
    obtain ⟨mid, hmid, rfl⟩ := map_eq_some_iff.mp hstep
    obtain ⟨pool, hpool, rfl⟩ := map_eq_some_iff.mp hmid
    split
    · exact .autosave hstg hpool (.inr rfl)
    · exact .autosave hstg hpool (.inl rfl)
  | pollWorker w =>
    simp only [step, MultiRun.pollWorker] at hstep
    split at hstep
    · cases hstep
    rename_i hpolling
    have hstg := not_not.mp (not_or.mp hpolling).1
    split at hstep
    · rename_i result hext
      cases result with
      | none =>
        cases hstep
        refine .join hstg ?_
        split
        · exact .inl rfl
        · exact .inr rfl
      | some error =>
        cases hstep
        exact .failed hstg hext
    · cases hstep
  | endPass =>
    obtain ⟨hstg, hnext⟩ := ite_none_right_eq_some.mp hstep
    cases hnext
    exact .endPass hstg
  | checkpoint act kind =>
    obtain ⟨hsaves, hnext⟩ := ite_none_right_eq_some.mp hstep
    obtain ⟨pool, hpool, rfl⟩ := map_eq_some_iff.mp hnext
    refine .checkpoint hpool (Pool.step_checkpoints hsaves hpool) ?_
    dsimp only
    split
    · exact finishes_of_idle ‹_›
    · exact .carry (.inl ‹_›)
  | drain =>
    simp only [step, MultiRun.drain] at hstep
    split at hstep
    · cases hstep
    rename_i hdraining
    obtain ⟨pool, hpool, rfl⟩ := map_eq_some_iff.mp hstep
    exact .drain (not_not.mp (not_or.mp hdraining).1) hpool
  | joinWriter error kind =>
    simp only [step, MultiRun.joinWriter] at hstep
    split at hstep
    · cases hstep
    rename_i hjoining
    have hstg := not_not.mp hjoining
    split at hstep
    · cases hstep
    · cases hstep
      exact .lost
    split at hstep
    · rename_i hdone
      cases hstep
      exact .done hstg (isNone_iff_eq_none.mp hdone.1)
    split at hstep
    · obtain ⟨pool, hpool, rfl⟩ := map_eq_some_iff.mp hstep
      exact .record hstg hpool
    · cases hstep
      exact .report hstg
  | delete fault kind =>
    simp only [step, MultiRun.delete] at hstep
    split at hstep
    · cases hstep
    rename_i hdeleting
    have hstg := not_not.mp hdeleting
    split at hstep
    · cases hstep
      exact .delete hstg (by rintro _ ⟨⟩; rfl)
    · cases hstep
      exact .delete hstg (by rintro _ ⟨⟩)

/-- The monitor takes no stop from a worker: it observes every stop itself. -/
def Observes (run : MultiRun n) : MultiAction n → Prop
  | .pollWorker w => ∀ error, (run.pool.workers w).pc = .exited (some error) → error.isStop = false
  | _ => True

abbrev Observed (cfg : MultiConfig) (first run : MultiRun n) : Prop :=
  Reaches (step cfg) Observes first run

def Noticed (cfg : MultiConfig) (first run : MultiRun n) : Prop :=
  ∃ observed stop, Observed cfg first observed ∧ observed.stage = .checkpointing stop ∧
    Observed cfg observed run

theorem Noticed.observed (h : Noticed cfg first run) : Observed cfg first run := by
  obtain ⟨observed, stop, hobs, hstg, hlater⟩ := h
  exact hobs.trans hlater

/-- `snapshot` was taken of a state of the run in which the stop had been observed. -/
def Taken (cfg : MultiConfig) (first run : MultiRun n) (snapshot : ControlSnapshot) : Prop :=
  ∃ taken, Noticed cfg first taken ∧ Observed cfg taken run ∧
    snapshot = Pool.snapshot cfg.pool taken.pool

theorem Taken.noticed {snap : ControlSnapshot} (h : Taken cfg first run snap) :
    Noticed cfg first run := by
  obtain ⟨taken, ⟨observed, stop, hfst, hstg, hobs⟩, htaken, -⟩ := h
  exact ⟨observed, stop, hfst, hstg, hobs.trans htaken⟩

theorem Taken.step {snapshot : ControlSnapshot}
    (h : Taken cfg first run snapshot) (hok : run.Observes act)
    (hstep : MultiRun.step cfg run act = some next) : Taken cfg first next snapshot := by
  obtain ⟨taken, hnoticed, htaken, hsnap⟩ := h
  exact ⟨taken, hnoticed, htaken.step act hok hstep, hsnap⟩

def Pending (cfg : MultiConfig) (first run : MultiRun n) : Prop :=
  ∀ snapshot ∈ run.pool.monitor.pc.pending, Taken cfg first run snapshot

/-- The control file holds such a snapshot, and no other can replace it. -/
structure Backed (cfg : MultiConfig) (first run : MultiRun n) : Prop where
  control : ∃ snapshot, run.pool.files.control = some snapshot ∧ Taken cfg first run snapshot
  pending : Pending cfg first run

/-- While the monitor is in its loop, or deletes the control file, there is no error. -/
def clean : MonitorStage → Bool
  | .select | .polling | .autosaving | .checkpointing _ | .deleting => true
  | _ => false

structure Promised (cfg : MultiConfig) (first run : MultiRun n) : Prop where
  clean : clean run.stage = true → run.downloadError = none
  checkpoint : ∀ stop, run.stage = .checkpointing stop →
    (∀ live, run.pool.monitor.pc ≠ .freezing .autosave live) ∧ Pending cfg first run
  ended : ∀ error, run.downloadError = some error → error.isStop = true → Backed cfg first run
  result : ∀ error, run.stage = .returned (.error error) → error.isStop = true →
    Backed cfg first run

theorem Backed.keep (h : Backed cfg first run) (hok : run.Observes act)
    (hstep : step cfg run act = some next)
    (hpc : next.pool.monitor.pc.pending = run.pool.monitor.pc.pending ∨
      next.pool.monitor.pc.pending = [])
    (hctrl : next.pool.files.control = run.pool.files.control) : Backed cfg first next := by
  obtain ⟨snap, hsnap, htaken⟩ := h.control
  refine ⟨⟨snap, hctrl.trans hsnap, htaken.step hok hstep⟩, fun other ho => ?_⟩
  rcases hpc with hsame | hnone
  · rw [hsame] at ho
    exact (h.pending other ho).step hok hstep
  · rw [hnone] at ho
    cases ho

theorem pending_of_nil (h : run.pool.monitor.pc.pending = []) : Pending cfg first run := by
  intro snap hsnap
  rw [h] at hsnap
  cases hsnap

theorem pending_of_idle (h : run.pool.monitor.pc = .idle) : Pending cfg first run :=
  pending_of_nil (by rw [h]; rfl)

theorem Pending.checkpoint (hpend : Pending cfg first run) (hnoticed : Noticed cfg first run)
    (hstep : step cfg run (.checkpoint action kind) = some next)
    (hchks : Pool.Checkpoints cfg.pool run.pool next.pool kind action) :
    Pending cfg first next ∧ (next.pool.files.control = run.pool.files.control ∨
        ∃ snap, next.pool.files.control = some snap ∧ Taken cfg first next snap) := by
  have hok : run.Observes (.checkpoint action kind) := trivial
  cases hchks with
  | freeze before after control =>
    refine ⟨fun other ho => ?_, .inl control⟩
    rw [after] at ho
    obtain rfl := List.mem_singleton.mp ho
    exact Taken.step ⟨run, hnoticed, .refl, rfl⟩ hok hstep
  | skip before after control => exact ⟨pending_of_idle after, .inl control⟩
  | carry before after control =>
    refine ⟨fun other ho => ?_, .inl control⟩
    rw [after, ← before] at ho
    exact (hpend other ho).step hok hstep
  | fail before after control => exact ⟨pending_of_idle after, .inl control⟩
  | save before after control =>
    refine ⟨pending_of_idle after, .inr ⟨_, control, ?_⟩⟩
    exact (hpend _ (by rw [before]; exact List.mem_singleton_self _)).step hok hstep

theorem Backed.checkpoint (h : Backed cfg first run)
    (hstep : step cfg run (.checkpoint action kind) = some next)
    (hchks : Pool.Checkpoints cfg.pool run.pool next.pool kind action) :
    Backed cfg first next := by
  obtain ⟨snap, hsnap, htaken⟩ := h.control
  obtain ⟨hpend, hctrl⟩ := h.pending.checkpoint htaken.noticed hstep hchks
  have hok : run.Observes (.checkpoint action kind) := trivial
  refine ⟨?_, hpend⟩
  rcases hctrl with hsame | hsaved
  · exact ⟨snap, hsame.trans hsnap, htaken.step hok hstep⟩
  · exact hsaved

/-! ## Every step keeps the promise -/

theorem promised_of_none (herr : next.downloadError = none)
    (hcheckpoint : ∀ stop, next.stage = .checkpointing stop →
      (∀ live, next.pool.monitor.pc ≠ .freezing .autosave live) ∧ Pending cfg first next)
    (hres : ∀ error, next.stage = .returned (.error error) → error.isStop = false) :
    Promised cfg first next where
  clean _ := herr
  checkpoint := hcheckpoint
  ended error hsome := by
    rw [herr] at hsome
    cases hsome
  result error hstg hstop := by
    rw [hres error hstg] at hstop
    cases hstop

theorem promised_fail {error : DownloadError}
    (hback : error.isStop = true → Backed cfg first (base.fail error)) :
    Promised cfg first (base.fail error) where
  clean hclean := by cases hclean
  checkpoint stop hstg := by cases hstg
  ended other ho hstop := by
    cases ho
    exact hback hstop
  result other hstg := by cases hstg

theorem promised_leaving (hstg : next.stage = .joining ∨ next.stage = .recording)
    (hback : ∀ error, next.downloadError = some error → error.isStop = true →
      Backed cfg first next) : Promised cfg first next where
  clean hclean := by rcases hstg with hstg | hstg <;> rw [hstg] at hclean <;> cases hclean
  checkpoint stop hstop := by
    rcases hstg with hstg | hstg <;> rw [hstg] at hstop <;> cases hstop
  ended := hback
  result error hretd := by
    rcases hstg with hstg | hstg <;> rw [hstg] at hretd <;> cases hretd

theorem promised_report (hback : ∀ error, base.downloadError = some error → error.isStop = true →
      Backed cfg first base.report) : Promised cfg first base.report where
  clean hclean := by cases hclean
  checkpoint stop hstg := by cases hstg
  ended := hback
  result error hstg hstop := by
    cases herr : base.downloadError with
    | none =>
      simp only [report, goto, herr, getD_none, MonitorStage.returned.injEq,
        Except.error.injEq] at hstg
      rw [← hstg] at hstop
      cases hstop
    | some other =>
      simp only [report, goto, herr, getD_some, MonitorStage.returned.injEq,
        Except.error.injEq] at hstg
      exact hback other herr (hstg ▸ hstop)

theorem promised_calm (herr : next.downloadError = none)
    (hstg : ∀ stop, next.stage ≠ .checkpointing stop)
    (hres : ∀ result, next.stage ≠ .returned result) : Promised cfg first next :=
  promised_of_none herr (fun stop h => absurd h (hstg stop)) fun _ h => absurd h (hres _)

theorem Promised.finishes {pool : Pool n} (hr : Observed cfg first run)
    (h : Promised cfg first run) (hstep : step cfg run (.checkpoint action kind) = some next)
    (hchks : Pool.Checkpoints cfg.pool run.pool pool kind action)
    (hfins : Finishes run pool (checkpointResult kind action) next) :
    Promised cfg first next := by
  have hmoved : Pool.Checkpoints cfg.pool run.pool next.pool kind action := by
    cases hfins <;> exact hchks
  have hpend {stop : DownloadError} (hstg : run.stage = .checkpointing stop) :
      Pending cfg first next :=
    ((h.checkpoint stop hstg).2.checkpoint ⟨run, stop, hr, hstg, .refl⟩ hstep hmoved).1
  cases hfins with
  | carry hbusy =>
    refine ⟨h.clean, fun stop hstg => ⟨fun live => hchks.not_freezing, hpend hstg⟩,
      fun error herr hstop => ?_, fun error hretd hstop => ?_⟩
    · exact (h.ended error herr hstop).checkpoint hstep hmoved
    · exact (h.result error hretd hstop).checkpoint hstep hmoved
  | autosaved hstg => exact promised_calm (h.clean (by rw [hstg]; rfl)) nofun nofun
  | stopped hstg hidle hres =>
    obtain ⟨hterm, hold⟩ := h.checkpoint _ hstg
    refine promised_fail fun _ => ⟨?_, hpend hstg⟩
    obtain ⟨-, frozen, hfrozen, hctrl⟩ | ⟨error, hfail, -⟩ := hchks.ended hidle hterm
    · exact ⟨frozen, hctrl, (hold frozen hfrozen).step (by exact trivial) hstep⟩
    · rw [hres] at hfail
      cases hfail
  | unsaved hstg hidle hres =>
    refine promised_fail fun hstop => ?_
    obtain ⟨hok, -⟩ | ⟨error, hfail, hstorage⟩ := hchks.ended hidle (h.checkpoint _ hstg).1
    · rw [hres] at hok
      cases hok
    · cases hres.symm.trans hfail
      rw [hstorage] at hstop
      cases hstop
  | recorded hstg =>
    exact promised_report fun error hsome hstop =>
      (h.ended error hsome hstop).checkpoint hstep hmoved

theorem Promised.step (hrsm : cfg.resume = true)
    (hr : Observed cfg first run) (h : Promised cfg first run) (hok : run.Observes act)
    (hstep : MultiRun.step cfg run act = some next) : Promised cfg first next := by
  cases turn_of_step hstep with
  | pool hruns hpool =>
    obtain ⟨hpc, hctrl⟩ := Pool.step_monitor hruns hpool
    have hkeep (hback : Backed cfg first run) := hback.keep hok hstep (.inl (congrArg _ hpc)) hctrl
    refine ⟨h.clean, fun stop hstg => ?_, fun error herr hstop =>
      hkeep (h.ended error herr hstop), fun error herr hstop =>
      hkeep (h.result error herr hstop)⟩
    obtain ⟨hterm, hpend⟩ := h.checkpoint stop hstg
    refine ⟨fun live => hpc ▸ hterm live, fun snap hsnap => ?_⟩
    exact (hpend snap (hpc ▸ hsnap)).step hok hstep
  | poll hstg | endPass hstg => exact promised_calm (h.clean (by rw [hstg]; rfl)) nofun nofun
  | stop hstg hpool =>
    obtain ⟨hpend, -, hfreezing⟩ := Pool.step_persist hpool
    refine promised_of_none (h.clean (by rw [hstg]; rfl))
      (fun _ _ => ⟨fun live hpc => ?_, pending_of_nil hpend⟩) nofun
    cases (hfreezing rfl).symm.trans hpc
  | abandon hstg hnot => cases hrsm.symm.trans hnot
  | autosave hstg hpool hnext | join hstg hnext =>
    rcases hnext with rfl | rfl <;>
      exact promised_calm (h.clean (by rw [hstg]; rfl)) nofun nofun
  | failed hstg hext =>
    refine promised_fail fun hstop => ?_
    cases (hok _ hext).symm.trans hstop
  | checkpoint hpool hchks hfins => exact h.finishes hr hstep hchks hfins
  | drain hstg hpool =>
    obtain ⟨hpc, hctrl⟩ := Pool.step_dropSender hpool
    exact promised_leaving (.inl rfl) fun error herr hstop =>
      (h.ended error herr hstop).keep hok hstep (.inl (congrArg _ hpc)) hctrl
  | @lost error =>
    refine promised_report fun other ho hstop => ?_
    cases ho
    cases error <;> cases hstop
  | done hstg hnone => exact promised_calm hnone nofun nofun
  | record hstg hpool =>
    obtain ⟨hpend, hctrl, -⟩ := Pool.step_persist hpool
    exact promised_leaving (.inr rfl) fun error herr hstop =>
      (h.ended error herr hstop).keep hok hstep (.inr hpend) hctrl
  | report hstg =>
    exact promised_report fun error herr hstop =>
      (h.ended error herr hstop).keep hok hstep (.inl rfl) rfl
  | delete hstg hres =>
    refine promised_of_none (h.clean (by rw [hstg]; rfl)) nofun fun error herr => ?_
    exact hres error (MonitorStage.returned.inj herr)

private theorem promised_start (pool : Pool n) : Promised cfg first (start pool) :=
  promised_of_none rfl (fun _ hstg => by cases hstg) fun _ hstg => by cases hstg

private theorem Observed.promised {pool : Pool n} (hrsm : cfg.resume = true)
    (hr : Observed cfg (start pool) run) : Promised cfg (start pool) run := by
  induction hr with
  | refl => exact promised_start pool
  | step action hr hok hstep ih => exact ih.step hrsm hr hok hstep

/-! ## A checkpoint that could not be written -/

/-- The result is `failure`, or it will be, unless the writer fails as well. -/
inductive Failing (failure : DownloadError) (run : MultiRun n) : Prop
  | leaving (stage : run.stage = .draining ∨ run.stage = .joining ∨ run.stage = .recording)
      (error : run.downloadError = some failure)
  | failed (stage : run.stage = .returned (.error failure))
  | writer {kind : IoErrorKind} {error : WriterError}
      (stage : run.stage = .returned (.error (writerFailure kind error)))

variable {failure : DownloadError}

variable (h : run.Failing failure)
include h

theorem Failing.result {result : Except DownloadError Unit}
    (hstg : run.stage = .returned result) :
    result = .error failure ∨ ∃ kind error, result = .error (writerFailure kind error) := by
  cases h with
  | leaving stage error =>
    rw [hstg] at stage
    rcases stage with hstg | hstg | hstg <;> cases hstg
  | failed stage =>
    rw [hstg] at stage
    cases stage
    exact .inl rfl
  | writer stage =>
    rw [hstg] at stage
    cases stage
    exact .inr ⟨_, _, rfl⟩

omit h in
theorem failing_report (herr : base.downloadError = some failure) : base.report.Failing failure :=
  .failed (by simp [report, goto, herr])

theorem Failing.same (hstg : next.stage = run.stage)
    (herr : next.downloadError = run.downloadError) : next.Failing failure := by
  cases h with
  | leaving stage error => exact .leaving (hstg ▸ stage) (herr.trans error)
  | failed stage => exact .failed (hstg.trans stage)
  | writer stage => exact .writer (hstg.trans stage)

private theorem Failing.not_clean : clean run.stage = false := by
  cases h with
  | leaving stage error => rcases stage with stage | stage | stage <;> rw [stage] <;> rfl
  | failed stage | writer stage => rw [stage]; rfl

theorem Failing.error (hstg : ∀ result, run.stage ≠ .returned result) :
    run.downloadError = some failure := by
  cases h with
  | leaving stage error => exact error
  | failed stage | writer stage => exact absurd stage (hstg _)

theorem Failing.step (hstep : MultiRun.step cfg run act = some next) : next.Failing failure := by
  have hclean := h.not_clean
  cases turn_of_step hstep with
  | pool => exact h.same rfl rfl
  | checkpoint hpool hchks hfins =>
    cases hfins with
    | carry hbusy => exact h.same rfl rfl
    | recorded hstg => exact failing_report (h.error (by simp [hstg]))
    | autosaved hstg | stopped hstg | unsaved hstg => simp [hstg, clean] at hclean
  | drain hstg => exact .leaving (.inr (.inl rfl)) (h.error (by simp [hstg]))
  | lost => exact .writer rfl
  | done hstg hnone => simp [h.error (by simp [hstg])] at hnone
  | record hstg => exact .leaving (.inr (.inr rfl)) (h.error (by simp [hstg]))
  | report hstg => exact failing_report (h.error (by simp [hstg]))
  | poll hstg | stop hstg | abandon hstg | autosave hstg | join hstg | failed hstg
  | endPass hstg | delete hstg => simp [hstg, clean] at hclean

omit h

theorem failing_of_checkpoint {stop : DownloadError} (hstg : run.stage = .checkpointing stop)
    (hstep : step cfg run (.checkpoint action kind) = some next)
    (hidle : next.pool.monitor.pc = .idle)
    (hres : checkpointResult kind action = .error failure) : next.Failing failure := by
  cases turn_of_step hstep with
  | checkpoint hpool hchks hfins =>
    cases hfins with
    | carry hbusy => exact (hbusy.elim (· hidle) fun h => h stop hstg).elim
    | stopped _ _ hok => cases hres.symm.trans hok
    | unsaved _ _ herr =>
      cases hres.symm.trans herr
      exact .leaving (.inl rfl) rfl
    | autosaved h | recorded h => cases hstg.symm.trans h

/-! ## The pieces a snapshot records -/

private theorem step_pool (hstep : step cfg run act = some next) :
    (∃ label, Pool.step cfg.pool run.pool label = some next.pool) ∨
      ∃ files, next.pool = { run.pool with files := files } := by
  cases turn_of_step hstep with
  | pool hruns hpool => exact .inl ⟨_, hpool⟩
  | checkpoint hpool hchks hfins => cases hfins <;> exact .inl ⟨_, hpool⟩
  | stop hstg hpool | autosave hstg hpool | drain hstg hpool | record hstg hpool =>
    exact .inl ⟨_, hpool⟩
  | delete => exact .inr ⟨_, rfl⟩
  | poll | abandon | join | failed | endPass | lost | done | report =>
    exact .inr ⟨run.pool.files, rfl⟩

theorem Observed.sane {pieceMap : PieceMap} (hmap : pieceMap.Valid) {file : DiskFile}
    {watermark : Nat} {probe : Option (HttpResponse × Nat)} {files : ControlFiles}
    (hr : Observed cfg (start (Pool.start pieceMap file watermark probe files)) run) :
    run.pool.Sane cfg.pool fun _ _ => True := by
  induction hr with
  | refl => exact Pool.Sane.start hmap file watermark probe files
  | step action _ _ hstep ih =>
    obtain ⟨label, hlabel⟩ | ⟨files, hfiles⟩ := step_pool hstep
    · exact ih.step (Pool.honest_true _ _) hlabel
    · rw [hfiles]
      exact ⟨ih.kept, ih.sound⟩

private theorem snapshot_bit {cfg : PoolConfig} {pool : Pool n} (h : pool.Sane cfg fun _ _ => True)
    (i : Nat) : (Pool.snapshot cfg pool).pieceMap.bit i = pool.sched.pieceMap.bit i :=
  PieceMap.bit_fromBitset h.conserved.map cfg.total pool.sched.pieceMap.pieceSize i

end MultiRun

/-! ## Both transfers -/

/-- A stop that the monitor observes itself is reported with a checkpoint taken after it, or the
storage error is the result; a single connection records its durable prefix. -/
theorem observed_stop_is_resumable {n : Nat} {cfg : MultiConfig} (hresume : cfg.resume = true)
    {pieceMap : PieceMap} (hmap : pieceMap.Valid) (file : DiskFile) (watermark : Nat)
    (probe : Option (HttpResponse × Nat)) (files : ControlFiles) {single : SingleConfig}
    (hsingle : single.resume = true) {output : DiskFile} {startOffset : Nat}
    (hlaunch : SingleRun.Launch output startOffset) (totalSize : Option Nat)
    (response : HttpResponse) {controlFiles : ControlFiles}
    (hhandover : SingleRun.Handover controlFiles startOffset) :
    (∀ (run : MultiRun n) (stop : DownloadError),
      MultiRun.Observed cfg (.start (.start pieceMap file watermark probe files)) run →
      run.stage = .returned (.error stop) → stop.isStop = true →
      ∃ snapshot taken, run.pool.files.control = some snapshot ∧
        MultiRun.Noticed cfg (.start (.start pieceMap file watermark probe files)) taken ∧
        MultiRun.Observed cfg taken run ∧
        ∀ i, snapshot.pieceMap.bit i = taken.pool.sched.pieceMap.bit i) ∧
    (∀ (run next last : MultiRun n) (action : Action n) (kind : IoErrorKind)
        (stop failure : DownloadError) (result : Except DownloadError Unit),
      run.stage = .checkpointing stop → run.step cfg (.checkpoint action kind) = some next →
      next.pool.monitor.pc = .idle → MultiRun.checkpointResult kind action = .error failure →
      MultiRun.Observed cfg next last → last.stage = .returned result →
      result = .error failure ∨ ∃ kind error, result = .error (writerFailure kind error)) ∧
    (∀ (run : SingleRun) (stop : DownloadError), SingleRun.Reachable single
        (.start single output startOffset totalSize response controlFiles) run →
      run.pc = .returned (.error stop) → stop.isStop = true → run.totalSize.isSome = true →
      ∃ n, run.RecordedAt n) ∧
    ∀ (run next : SingleRun) (snapshot : ControlSnapshot) (stop : DownloadError)
        (fault : SaveFault) (kind : IoErrorKind),
      run.pc = .saving snapshot (.report stop) →
      run.step single (.save (some fault) kind) = some next →
      next.pc = .returned (.error (.io kind)) := by
  refine ⟨fun run stop hr hstg hstop => ?_, ?_, fun run stop hr hpc hstop htot => ?_,
    fun run next snapshot stop fault kind hpc hstep => ?_⟩
  · obtain ⟨snapshot, hctrl, taken, hnoticed, htaken, rfl⟩ :=
      ((hr.promised hresume).result stop hstg hstop).control
    have hsane := MultiRun.Observed.sane hmap hnoticed.observed
    exact ⟨_, taken, hctrl, hnoticed, htaken, MultiRun.snapshot_bit hsane⟩
  · intro run next last action kind stop failure result hstg hstep hidle hres hlast hretd
    have hfailg := MultiRun.failing_of_checkpoint hstg hstep hidle hres
    exact (hlast.invariant hfailg fun _ _ _ h _ hstep => h.step hstep).result hretd
  · have hkept := hr.kept (SingleRun.kept_start hlaunch totalSize response controlFiles)
    refine hkept.recorded hhandover hpc hstop ?_
    rw [hkept.useControl, hsingle, htot]
    rfl
  · simp only [SingleRun.step, SingleRun.taskStep, hpc, some.injEq] at hstep
    rw [← hstep]
    cases fault <;> rfl

/-! ## A stop between two polls -/

def pauseConfig : MultiConfig :=
  ⟨Pool.smallConfig 2 (Pool.partialContent 0 1 2).metadata, true⟩

def pauseStart : MultiRun 2 :=
  .start (.start (PieceMap.new 2 1) Pool.emptyFile 16 none ⟨none, none⟩)

def parkedRun : List (MultiAction 2) :=
  [.pool (.worker 0 .advance), .pool (.worker 0 (.inspect 0)), .pool (.worker 0 .advance),
    .pool (.worker 0 .advance), .pool (.worker 0 (.respond (Pool.partialContent 0 1 2))),
    .pool (.worker 0 (.chunk [7])), .pool (.worker 0 .forward), .pool (.worker 0 .eof),
    .pool (.worker 0 .advance), .pool .write, .pool .write, .pool .write,
    .pool (.worker 0 .advance), .pool (.worker 1 .advance), .pool (.worker 1 (.inspect 1)),
    .pool (.worker 1 .advance), .pool (.worker 1 .advance), .pool .write,
    .pool (.worker 0 .advance), .pool (.notify 0), .pool (.worker 0 .advance),
    .pool (.notify 0), .pool (.worker 0 .advance), .pool (.worker 0 (.inspect 1))]

/-- The pause is raised after the monitor has polled for it. -/
def lateStopRun : List (MultiAction 2) :=
  parkedRun ++ [.pollStop, .pool (.signal .pause), .pool (.worker 0 .stop), .pollWorker 0,
    .pool (.abort 1), .drain, .pool .finishWriter, .joinWriter .io .other,
    .checkpoint .freeze .other, .checkpoint (.save (some .create)) .other]

/-- There is no control file, and the completed piece is lost. -/
theorem late_stop_is_not_resumable : ∃ run : MultiRun 2,
      Reaches (MultiRun.step pauseConfig) (fun _ _ => True) pauseStart run ∧
      run.stage = .returned (.error .paused) ∧ run.pool.files.control = none ∧
      run.pool.sched.pieceMap.bit 0 = true := by
  have hrun : (runLabels (MultiRun.step pauseConfig) (fun _ _ => true) pauseStart
      lateStopRun).map (fun run => (run.stage, run.pool.files.control,
        run.pool.sched.pieceMap.bit 0)) =
      some (.returned (.error .paused), none, true) := by decide +kernel
  obtain ⟨run, hr, hview⟩ := Reaches.exists_of_run hrun
  simp only [Prod.mk.injEq] at hview
  exact ⟨run, hr, hview⟩

def pausedRun : List (MultiAction 2) :=
  parkedRun ++ [.pool (.signal .pause), .pollStop, .pool (.abort 0), .pool (.abort 1),
    .checkpoint .freeze .other, .checkpoint .requestSync .other, .pool .write,
    .checkpoint .confirmSync .other, .checkpoint (.save none) .other, .drain,
    .pool .finishWriter, .joinWriter .io .other, .checkpoint .freeze .other,
    .checkpoint (.save (some .create)) .other]

def pausedSingle : List SingleAction :=
  [.advance, .check 0 0, .chunk [7], .forward, .write, .signal .pause, .observeStop, .advance,
    .write, .advance, .save none .other, .finishWriter, .join .other]

theorem observed_pause_is_resumable :
    (∃ (run : MultiRun 2) (snapshot : ControlSnapshot) (taken : MultiRun 2),
      run.stage = .returned (.error .paused) ∧ run.pool.files.control = some snapshot ∧
      MultiRun.Observed pauseConfig taken run ∧
      ∀ i, snapshot.pieceMap.bit i = taken.pool.sched.pieceMap.bit i) ∧
    ∃ run : SingleRun, run.pc = .returned (.error .paused) ∧ ∃ n, run.RecordedAt n := by
  have hmulti : (runLabels (MultiRun.step pauseConfig)
      (fun _ action => match action with | .pollWorker _ => false | _ => true) pauseStart
      pausedRun).map MultiRun.stage = some (.returned (.error .paused)) := by decide +kernel
  obtain ⟨run, hrun, hstg⟩ := map_eq_some_iff.mp hmulti
  have hobs : MultiRun.Observed pauseConfig pauseStart run := by
    refine .of_runLabels hrun .refl fun run action hadm => ?_
    cases action <;> trivial
  have hsing : (runLabels (SingleRun.step smallSingle) (fun _ _ => true)
      (.start smallSingle Pool.emptyFile 0 (some 2) (fullContent 2) ⟨none, none⟩) pausedSingle).map
        (fun run => (run.pc, run.totalSize)) =
      some (.returned (.error .paused), some 2) := by decide +kernel
  obtain ⟨single, hr, hview⟩ := Reaches.exists_of_run hsing
  obtain ⟨hpc, htot⟩ := Prod.mk.inj hview
  have hlaunch : SingleRun.Launch Pool.emptyFile 0 :=
    ⟨fun b => by simp [Pool.emptyFile], fun _ => rfl, Nat.zero_le _⟩
  have hhandover : SingleRun.Handover ⟨none, none⟩ 0 := rfl
  have hrsm : pauseConfig.resume = true := rfl
  have hrsms : smallSingle.resume = true := rfl
  have hmap : (PieceMap.new 2 1).Valid := PieceMap.new_valid (by decide)
  obtain ⟨hpool, -, hprefix, -⟩ := observed_stop_is_resumable (n := 2) hrsm hmap
    Pool.emptyFile 16 none ⟨none, none⟩ hrsms hlaunch (some 2) (fullContent 2) hhandover
  obtain ⟨snapshot, taken, hctrl, -, htaken, hbits⟩ := hpool run .paused hobs hstg rfl
  refine ⟨⟨run, snapshot, taken, hstg, hctrl, htaken, hbits⟩, single, hpc, ?_⟩
  exact hprefix single .paused hr hpc rfl (by rw [htot]; rfl)

end Bytehaul.Session
