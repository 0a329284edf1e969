import Bytehaul.Session.Multi.Integrity

/-!
# Checkpoints

A checkpoint freezes the completed bits and has the writer sync before it saves them.
Acknowledged bytes are never written again, so the snapshot speaks of durable bytes.
-/

namespace Bytehaul.Session

open Foundation Foundation.DiskFile Storage Scheduler List PieceMap WriterTask
open Finset (range)

namespace Pool

variable {n : Nat} {cfg : PoolConfig} {G : Nat → UInt8 → Prop} {pool base next : Pool n} {w : Fin n}
  {job : Job} {pc after : Pc} {act : WorkerAction}

structure Beside (pool next : Pool n) : Prop where
  monitor : next.monitor = pool.monitor
  files : next.files = pool.files
  saved : next.history.saved = pool.history.saved
  writer : next.writer = pool.writer
  status : next.writerStatus = pool.writerStatus
  posted : next.channel = pool.channel ∨
    (pool.writerStatus = .running ∧ ∃ command, next.channel = pool.channel ++ [command] ∧
      command.ack? ≠ some .monitor)

theorem dropChallenger_beside (pool : Pool n) (w : Fin n) (job : Job) :
    Beside pool (pool.dropChallenger w job) := by
  unfold dropChallenger
  split <;> exact ⟨rfl, rfl, rfl, rfl, rfl, .inl rfl⟩

theorem Turn.beside (h : Turn cfg pool w pc act base after) : Beside pool base := by
  cases h with
  | interrupt | boundary | eof | hedgeOverrun => exact dropChallenger_beside pool w _
  | @giveUp job at' resv state lin hresv =>
    have h := dropChallenger_beside (pool.reserved job state lin) w job
    exact ⟨h.monitor, h.files, h.saved, h.writer, h.status, h.posted⟩
  | @dropHedge job act base hdef =>
    have h := dropChallenger_beside pool w job
    rcases hdef with rfl | ⟨_, rfl⟩
    · exact h
    · exact ⟨h.monitor, h.files, h.saved, h.writer, h.status, h.posted⟩
  | defer hdef => rcases hdef with rfl | ⟨_, rfl⟩ <;> exact ⟨rfl, rfl, rfl, rfl, rfl, .inl rfl⟩
  | recover hrels hrecv hbase =>
    obtain ⟨⟨sched, recovery⟩, -, rfl⟩ := Option.map_eq_some_iff.mp hrecv
    rcases hbase with rfl | rfl <;> exact ⟨rfl, rfl, rfl, rfl, rfl, .inl rfl⟩
  | settleFailed hdec =>
    unfold charged
    split <;> exact ⟨rfl, rfl, rfl, rfl, rfl, .inl rfl⟩
  | begin hstat | forward _ _ hstat | copy _ _ hstat | flush hstat | settleFlush hstat
  | settleDiscard hstat =>
    exact ⟨rfl, rfl, rfl, rfl, rfl, .inr ⟨hstat, _, rfl, by simp [WriterCommand.ack?]⟩⟩
  | _ => exact ⟨rfl, rfl, rfl, rfl, rfl, .inl rfl⟩

theorem workerStep_beside (hstep : workerStep cfg pool w pc act = some next) :
    Beside pool next := by
  obtain ⟨base, after, hturn, rfl⟩ := workerStep_turns hstep
  have h := hturn.beside
  exact ⟨h.monitor, h.files, h.saved, h.writer, h.status, h.posted⟩

end Pool

namespace Pipe

variable {n : Nat} {G : Nat → UInt8 → Prop} {total : Nat} {pipe next : Pipe n} {b : Nat}

private theorem Shift.acked_mono (hshift : Shift G pipe next) (hb : 0 < hits pipe.acked b) :
    0 < hits next.acked b := by
  cases hshift with
  | @complete w seg =>
    exact Nat.lt_of_lt_of_le hb (by
      change _ ≤ hits (seg.span :: pipe.acked) b
      rw [hits_cons]
      omega)
  | @retain w seg sent =>
    exact Nat.lt_of_lt_of_le hb (by
      change _ ≤ hits (⟨seg.start, seg.start + sent⟩ :: pipe.acked) b
      rw [hits_cons]
      omega)
  | write =>
    rw [(deliver_same _ _).2.1]
    exact hb
  | _ => exact hb

/-- No lease covers an acknowledged byte, so the writer has nothing to put there. -/
theorem Flows.durable_stays (hcons : pipe.sched.Conserved pipe.acked) {result : Attempt}
    (hmv : Moves (Leased G pipe.sched) pipe.writer result) (hb : 0 < hits pipe.acked b)
    (hdur : pipe.writer.file.image.durable b = true) : result.last.file.image.durable b = true := by
  refine hmv.stores.image.durable ?_ hdur
  rintro v ⟨owner, -, key, span, -, hheld, hmem⟩
  obtain ⟨hlt, -, -, hspan, -⟩ := hcons.leaseRange_spec hheld
  have hzero := (hcons.hits_leased hlt (hits_pos_of_mem hspan hmem)).2.2
  omega

theorem Shift.durable (hshift : Shift G pipe next) (h : pipe.Flows G total)
    (hcons : pipe.sched.Conserved pipe.acked) (hb : 0 < hits pipe.acked b)
    (hdur : pipe.writer.file.image.durable b = true) : next.writer.file.image.durable b = true := by
  cases hshift with
  | write hlive hchan hproc =>
    have hmv := (hchan ▸ h.leased hlive).moves
    rw [hproc] at hmv
    rw [(deliver_same _ _).1]
    exact Flows.durable_stays hcons hmv hb hdur
  | spoil hlive hchan hproc =>
    have hmv := (hchan ▸ h.leased hlive).moves
    rw [hproc] at hmv
    exact Flows.durable_stays hcons hmv hb hdur
  | finish result hlive hres =>
    have hmv := finish_moves (h.leased hlive).within
    rw [hres] at hmv
    exact Flows.durable_stays hcons hmv hb hdur
  | _ => exact hdur

end Pipe

/-- The snapshot speaks of acknowledged bytes and counts them right. -/
structure Recorded (acked : List Span) (snapshot : ControlSnapshot) : Prop where
  acked : ∀ i, snapshot.pieceMap.bit i = true → ∀ b ∈ snapshot.pieceMap.pieceRange i,
    0 < hits acked b
  downloaded : snapshot.downloadedBytes = ∑ i ∈ range snapshot.pieceCount,
    if snapshot.pieceMap.bit i then (snapshot.pieceMap.pieceRange i).len else 0

def Durable (file : DiskFile) (snapshot : ControlSnapshot) : Prop :=
  ∀ i, snapshot.pieceMap.bit i = true → ∀ b ∈ snapshot.pieceMap.pieceRange i,
    file.durable b = true

def MonitorPc.pending : MonitorPc → List ControlSnapshot
  | .frozen snapshot | .syncing snapshot | .saving snapshot => [snapshot]
  | _ => []

def MonitorPc.syncs : MonitorPc → Bool
  | .syncing _ => true
  | _ => false

def Monitor.confirmed (monitor : Monitor) : List ControlSnapshot :=
  match monitor.pc, monitor.mailbox with
  | .saving snapshot, _ => [snapshot]
  | .syncing snapshot, some _ => [snapshot]
  | _, _ => []

namespace Pool

variable {n : Nat} {cfg : PoolConfig} {G : Nat → UInt8 → Prop} {pool next : Pool n}
  {act : Action n}

def outstanding (channel : List (WriterCommand (Party n))) : Nat :=
  channel.countP fun command => command.ack? == some .monitor

private theorem Whole.snapshot_recorded (h : pool.Whole cfg G) :
    Recorded pool.history.acked (snapshot cfg pool) := by
  have hcons := h.sane.conserved
  have hbit : ∀ i, (snapshot cfg pool).pieceMap.bit i = pool.sched.pieceMap.bit i :=
    bit_fromBitset hcons.map cfg.total pool.sched.pieceMap.pieceSize
  have hrng : ∀ i, (snapshot cfg pool).pieceMap.pieceRange i =
      pool.sched.pieceMap.pieceRange i := by
    intro i
    change (⟨_, _ + pieceLen cfg.total _ _⟩ : Span) = _
    rw [← h.total]
    rfl
  constructor
  · intro i hi b hb
    rw [hbit] at hi
    rw [hrng] at hb
    have hacked := (History.bit_iff_acked hcons (hcons.map.lt_count_of_bit hi)).mp hi b hb
    omega
  · simp only [hbit, hrng]
    exact hcons.map.completedBytes_eq

structure Monitored (pool : Pool n) : Prop where
  recorded : ∀ snapshot ∈ pool.monitor.pc.pending ++ pool.history.saved,
    Recorded pool.history.acked snapshot
  durable : ∀ snapshot ∈ pool.monitor.confirmed ++ pool.history.saved,
    Durable pool.writer.file.image snapshot
  mail : outstanding pool.channel + pool.monitor.mailbox.isSome.toNat ≤ pool.monitor.pc.syncs.toNat
  barrier : ∀ command ∈ pool.channel, command.ack? = some .monitor →
    command = .flushAll true .monitor
  closed : pool.writerStatus ≠ .running → pool.channel = []
  finished : pool.writerStatus = .finished →
    ∀ b, pool.writer.file.image.written b = true → pool.writer.file.image.durable b = true
  offline : ∀ reason, pool.monitor.pc = .freezing reason false → pool.writerStatus = .finished

theorem Monitor.pending_of_confirmed {monitor : Monitor} {snap : ControlSnapshot}
    (h : snap ∈ monitor.confirmed) : snap ∈ monitor.pc.pending := by
  unfold Monitor.confirmed at h
  split at h
  · rename_i hpc
    rwa [hpc]
  · rename_i hpc _
    rwa [hpc]
  · cases h

variable (h : pool.Monitored)
include h

private theorem Monitored.confirmed_recorded {snapshot : ControlSnapshot}
    (hsnap : snapshot ∈ pool.monitor.confirmed ++ pool.history.saved) :
    Recorded pool.history.acked snapshot :=
  h.recorded _ (mem_append.mpr ((mem_append.mp hsnap).imp_left Monitor.pending_of_confirmed))

variable (hwhole : pool.Whole cfg G)
include hwhole

theorem Monitored.keep (hstep : step cfg pool act = some next)
    (hpend : ∀ snap ∈ next.monitor.pc.pending ++ next.history.saved,
      snap ∈ pool.monitor.pc.pending ++ pool.history.saved ∨
        Recorded next.history.acked snap)
    (hconfirmed : ∀ snap ∈ next.monitor.confirmed ++ next.history.saved,
      snap ∈ pool.monitor.confirmed ++ pool.history.saved ∨ Durable next.writer.file.image snap)
    (hmail : outstanding next.channel + next.monitor.mailbox.isSome.toNat ≤
      next.monitor.pc.syncs.toNat)
    (hbarrier : ∀ cmd ∈ next.channel, cmd.ack? = some .monitor →
      cmd = .flushAll true .monitor)
    (hclos : next.writerStatus ≠ .running → next.channel = [])
    (hfin : next.writerStatus = .finished →
      ∀ b, next.writer.file.image.written b = true → next.writer.file.image.durable b = true)
    (hoffline : ∀ reason, next.monitor.pc = .freezing reason false →
      next.writerStatus = .finished) : next.Monitored := by
  have hshift := step_shift hwhole.sane hstep
  refine ⟨fun snap hsnap => ?_, fun snap hsnap => ?_, hmail, hbarrier, hclos, hfin, hoffline⟩
  · rcases hpend snap hsnap with hold | hnew
    · have hrecd := h.recorded snap hold
      exact ⟨fun i hi b hb => hshift.acked_mono (hrecd.acked i hi b hb), hrecd.downloaded⟩
    · exact hnew
  · rcases hconfirmed snap hsnap with hold | hnew
    · have hrecd := h.confirmed_recorded hold
      exact fun i hi b hb => hshift.durable hwhole.flows hwhole.sane.conserved
        (hrecd.acked i hi b hb) (h.durable snap hold i hi b hb)
    · exact hnew

theorem Monitored.beside
    (hstep : step cfg pool act = some next) (hbeside : Beside pool next) : next.Monitored := by
  obtain ⟨hmonitor, -, hsaved, hwri, hstat, hposted⟩ := hbeside
  apply h.keep hwhole hstep
  · rw [hmonitor, hsaved]
    exact fun _ hsnap => .inl hsnap
  · rw [hmonitor, hsaved]
    exact fun _ hsnap => .inl hsnap
  · have hmail := h.mail
    rw [hmonitor]
    rcases hposted with hsame | ⟨-, cmd, hsame, hack⟩
    · rwa [hsame]
    · rw [hsame]
      simpa [outstanding, countP_append, hack] using hmail
  · intro cmd hcmd hack
    rcases hposted with hsame | ⟨-, posted, hsame, ho⟩
    · exact h.barrier cmd (hsame ▸ hcmd) hack
    · rw [hsame] at hcmd
      rcases mem_append.mp hcmd with hcmd | hcmd
      · exact h.barrier cmd hcmd hack
      · obtain rfl := mem_singleton.mp hcmd
        exact absurd hack ho
  · rw [hstat]
    intro hend
    rcases hposted with hsame | ⟨hlive, -⟩
    · rw [hsame]
      exact h.closed hend
    · exact absurd hlive hend
  · rw [hstat, hwri]
    exact h.finished
  · rw [hmonitor, hstat]
    exact h.offline

omit h in
omit hwhole in
private theorem outstanding_cons (cmd : WriterCommand (Party n))
    (channel : List (WriterCommand (Party n))) : outstanding (cmd :: channel) =
      outstanding channel + if cmd.ack? = some .monitor then 1 else 0 := by
  simp [outstanding, countP_cons]

omit h in
omit hwhole in
/-- The barrier: what is acknowledged when the writer has synced is durable. -/
theorem Whole.durable_of_sync (h : next.Whole cfg G) {snapshot : ControlSnapshot}
    (hrecd : Recorded next.history.acked snapshot)
    (hsync : ∀ b, next.writer.file.image.written b = true →
      next.writer.file.image.durable b = true) :
    Durable next.writer.file.image snapshot :=
  fun i hi b hb => hsync b (h.flows.written b (hrecd.acked i hi b hb)).1

omit h in
omit hwhole in
private theorem MonitorPc.exists_of_syncs {pc : MonitorPc} (h : pc.syncs = true) :
    ∃ snapshot, pc = .syncing snapshot := by
  cases pc with
  | syncing snapshot => exact ⟨snapshot, rfl⟩
  | _ => cases h

theorem Monitored.written {command : WriterCommand (Party n)}
    {channel : List (WriterCommand (Party n))} {writer : WriterTask}
    (hchan : pool.channel = command :: channel) (hlive : pool.writerStatus = .running)
    (hproc : pool.writer.process command = .ok writer)
    (hstep : step cfg pool .write = some ({ pool with
      channel := channel, writer := writer }.deliver (pool.writer.reply writer command))) :
    ({ pool with channel := channel, writer := writer }.deliver
      (pool.writer.reply writer command)).Monitored := by
  have hnext := hwhole.step (show Honest G pool .write from trivial) hstep
  have hmail := h.mail
  rw [hchan, outstanding_cons] at hmail
  have hack := Pipe.reply_ack pool.writer writer command
  have hbarrier : ∀ other ∈ channel, other.ack? = some .monitor → other = .flushAll true .monitor :=
    fun other ho => h.barrier other (hchan ▸ mem_cons_of_mem _ ho)
  have hclos : pool.writerStatus ≠ .running → channel = [] := absurd hlive
  have hfin : pool.writerStatus = .finished →
      ∀ b, writer.file.image.written b = true → writer.file.image.durable b = true := by
    intro hstat
    rw [hlive] at hstat
    cases hstat
  have hsame (hnot : command.ack? ≠ some .monitor) : outstanding channel +
      pool.monitor.mailbox.isSome.toNat ≤ pool.monitor.pc.syncs.toNat := by
    simpa [if_neg hnot] using hmail
  revert hstep hnext
  rcases hreply : pool.writer.reply writer command with _ | ⟨party, reply⟩
  · intro hstep hnext
    rw [hreply] at hack
    exact h.keep hwhole hstep (fun _ hsnap => .inl hsnap) (fun _ hsnap => .inl hsnap)
      (hsame (by simp [← hack])) hbarrier hclos hfin h.offline
  cases party with
  | worker w =>
    intro hstep hnext
    rw [hreply] at hack
    exact h.keep hwhole hstep (fun _ hsnap => .inl hsnap) (fun _ hsnap => .inl hsnap)
      (hsame (by simp [← hack])) hbarrier hclos hfin h.offline
  | monitor =>
    intro hstep hnext
    rw [hreply] at hack
    have hask : command.ack? = some .monitor := hack.symm
    have hcmd := h.barrier command (hchan ▸ mem_cons_self) hask
    rw [if_pos hask] at hmail
    have hsyncs : pool.monitor.pc.syncs = true := by
      by_contra hnot
      rw [Bool.not_eq_true] at hnot
      rw [hnot, Bool.toNat_false] at hmail
      omega
    obtain ⟨snapshot, hpc⟩ := MonitorPc.exists_of_syncs hsyncs
    rw [hsyncs, Bool.toNat_true] at hmail
    have hsync : ∀ b, writer.file.image.written b = true → writer.file.image.durable b = true := by
      subst hcmd
      exact fun b => process_sync_durable hproc
    refine h.keep hwhole hstep (fun _ hsnap => .inl hsnap) ?_ ?_ hbarrier hclos hfin h.offline
    · intro other ho
      rcases mem_append.mp ho with ho | ho
      · right
        refine hnext.durable_of_sync (h.recorded other (mem_append_left _ ?_)) hsync
        simp only [deliver, Monitor.confirmed, hpc, mem_singleton] at ho
        rw [hpc, ho]
        exact mem_singleton_self _
      · exact .inl (mem_append_right _ ho)
    · change outstanding channel + 1 ≤ pool.monitor.pc.syncs.toNat
      rw [hsyncs, Bool.toNat_true]
      omega

theorem Monitored.write (hstep : step cfg pool .write = some next) : next.Monitored := by
  have hw : pool.write = some next := hstep
  unfold Pool.write at hw
  split at hw
  · cases hw
  rename_i hlive
  split at hw
  · cases hw
  rename_i cmd channel hchan
  split at hw
  · rename_i writer hproc
    cases hw
    exact h.written hwhole hchan (not_not.mp hlive) hproc hstep
  · cases hw
    refine h.keep hwhole hstep (fun _ hsnap => .inl hsnap)
      (fun _ hsnap => .inl hsnap) ?_ (by simp) (by simp) (by simp) ?_
    · have hmail := h.mail
      simp only [outstanding, countP_nil]
      omega
    · intro reason hpc
      exact absurd (h.offline reason hpc) (by simp [not_not.mp hlive])

theorem Monitored.finishWriter
    (hstep : step cfg pool .finishWriter = some next) : next.Monitored := by
  have hfin : pool.finishWriter = some next := hstep
  unfold Pool.finishWriter at hfin
  split at hfin
  · cases hfin
  rename_i hready
  simp only [not_or, not_not] at hready
  obtain ⟨hlive, hchan, -⟩ := hready
  have hoffline : ∀ reason, pool.monitor.pc = .freezing reason false → False := by
    intro reason hpc
    have hend := h.offline reason hpc
    rw [hlive] at hend
    cases hend
  split at hfin
  · rename_i writer hproc
    cases hfin
    exact h.keep hwhole hstep (fun _ hsnap => .inl hsnap)
      (fun _ hsnap => .inl hsnap) h.mail h.barrier (fun _ => hchan)
      (fun _ b => finish_durable hproc) (fun reason hpc => (hoffline reason hpc).elim)
  · cases hfin
    exact h.keep hwhole hstep (fun _ hsnap => .inl hsnap)
      (fun _ hsnap => .inl hsnap) h.mail h.barrier (fun _ => hchan) (by simp)
      (fun reason hpc => (hoffline reason hpc).elim)

inductive MonitorTurn (cfg : PoolConfig) (pool : Pool n) : Action n → Pool n → Prop
  | due {reason live tracker} (hidle : pool.monitor.pc = .idle)
      (hended : live = false → pool.writerStatus = .finished) :
      MonitorTurn cfg pool (.persist reason live) { pool with monitor :=
        { pool.monitor with tracker := tracker, pc := .freezing reason live } }
  | early {reason live tracker} (hidle : pool.monitor.pc = .idle) (hreason : reason ≠ .terminal) :
      MonitorTurn cfg pool (.persist reason live) { pool with monitor :=
        { pool.monitor with tracker := tracker, pc := .idle } }
  | skip {reason live} (hpc : pool.monitor.pc = .freezing reason live)
      (hreason : reason ≠ .terminal) : MonitorTurn cfg pool .freeze (pool.setMonitor .idle)
  | freeze {reason} (hpc : pool.monitor.pc = .freezing reason true) :
      MonitorTurn cfg pool .freeze (pool.setMonitor (.frozen (snapshot cfg pool)))
  | freezeLast {reason} (hpc : pool.monitor.pc = .freezing reason false) :
      MonitorTurn cfg pool .freeze (pool.setMonitor (.saving (snapshot cfg pool)))
  | unsent {frozen} (hpc : pool.monitor.pc = .frozen frozen) :
      MonitorTurn cfg pool .requestSync (pool.setMonitor .idle)
  | request {frozen} (hpc : pool.monitor.pc = .frozen frozen)
      (hrunning : pool.writerStatus = .running) :
      MonitorTurn cfg pool .requestSync
        ((pool.post (.flushAll true .monitor)).setMonitor (.syncing frozen))
  | confirm {frozen reply} (hpc : pool.monitor.pc = .syncing frozen)
      (hmailbox : pool.monitor.mailbox = some reply) :
      MonitorTurn cfg pool .confirmSync { pool with monitor :=
        { pool.monitor with mailbox := none, pc := .saving frozen } }
  | unanswered {frozen} (hpc : pool.monitor.pc = .syncing frozen)
      (hmailbox : pool.monitor.mailbox = none) (hended : pool.writerStatus ≠ .running) :
      MonitorTurn cfg pool .confirmSync (pool.setMonitor .idle)
  | save {frozen tracker} (hpc : pool.monitor.pc = .saving frozen) :
      MonitorTurn cfg pool (.save none) ({ pool with
        files := ⟨some frozen, none⟩
        monitor := { pool.monitor with pc := .idle, tracker := tracker } }.noteSaved frozen)
  | unsaved {frozen fault files} (hpc : pool.monitor.pc = .saving frozen)
      (hcontrol : files.control = pool.files.control) :
      MonitorTurn cfg pool (.save (some fault)) ({ pool with files := files }.setMonitor .idle)
  | dropSender : MonitorTurn cfg pool .dropSender { pool with monitor :=
      { pool.monitor with holdsSender := false } }

def Action.ofMonitor : Action n → Bool
  | .persist _ _ | .freeze | .requestSync | .confirmSync | .save _ | .dropSender => true
  | _ => false

omit h in
omit hwhole in
theorem monitor_turns (haction : Action.ofMonitor act = true)
    (hstep : step cfg pool act = some next) : MonitorTurn cfg pool act next := by
  cases act with
  | persist reason live =>
    simp only [step, Pool.persist] at hstep
    split at hstep
    · cases hstep
    rename_i hready
    simp only [not_or, not_not, not_and] at hready
    obtain ⟨hidle, -, hend⟩ := hready
    have hdue {t : ControlSaveTracker} : MonitorTurn cfg pool (.persist reason live) _ :=
      @MonitorTurn.due n cfg pool reason live t hidle fun hlive => hend (by simp [hlive])
    split at hstep
    · cases hstep
      exact hdue
    rename_i hreason
    cases hstep
    split
    · exact hdue
    · exact .early hidle hreason
  | freeze =>
    simp only [step, Pool.freeze] at hstep
    split at hstep
    swap
    · cases hstep
    rename_i reason live hpc
    split at hstep
    · rename_i hskip
      cases hstep
      exact .skip hpc hskip.1
    · cases hstep
      cases live with
      | true => exact .freeze hpc
      | false => exact .freezeLast hpc
  | requestSync =>
    simp only [step, Pool.requestSync] at hstep
    split at hstep
    swap
    · cases hstep
    rename_i frozen hpc
    split at hstep
    · cases hstep
      exact .unsent hpc
    rename_i hrunning
    split at hstep
    · cases hstep
      exact .request hpc (not_not.mp hrunning)
    · cases hstep
  | confirmSync =>
    simp only [step, Pool.confirmSync] at hstep
    split at hstep
    swap
    · cases hstep
    rename_i frozen hpc
    split at hstep
    · rename_i hmbox
      obtain ⟨reply, hreply⟩ := Option.isSome_iff_exists.mp hmbox
      cases hstep
      exact .confirm hpc hreply
    rename_i hmbox
    split at hstep
    · rename_i hend
      cases hstep
      exact .unanswered hpc (by simpa using hmbox) hend
    · cases hstep
  | save fault =>
    simp only [step, Pool.save] at hstep
    split at hstep
    swap
    · cases hstep
    rename_i frozen hpc
    cases fault with
    | none =>
      cases hstep
      exact .save hpc
    | some fault => cases fault <;> cases hstep <;> exact .unsaved hpc rfl
  | dropSender =>
    obtain ⟨-, hnext⟩ := Option.ite_none_right_eq_some.mp hstep
    cases hnext
    exact .dropSender
  | _ => cases haction

theorem Monitored.rest {monitor : Monitor} {files : ControlFiles}
    (hstep : step cfg pool act = some { pool with monitor := monitor, files := files })
    (hpend : monitor.pc.pending = [])
    (hmail : outstanding pool.channel + monitor.mailbox.isSome.toNat ≤ monitor.pc.syncs.toNat)
    (hoffline : ∀ reason, monitor.pc = .freezing reason false → pool.writerStatus = .finished) :
    ({ pool with monitor := monitor, files := files } : Pool n).Monitored := by
  have hnone {snap : ControlSnapshot} : snap ∉ monitor.pc.pending := by simp [hpend]
  refine h.keep hwhole hstep (fun _ hsnap => .inl ?_) (fun _ hsnap => .inl ?_) hmail
    h.barrier h.closed h.finished hoffline
  · exact mem_append_right _ ((mem_append.mp hsnap).resolve_left hnone)
  · exact mem_append_right _ ((mem_append.mp hsnap).resolve_left
      fun hconfirmed => hnone (Monitor.pending_of_confirmed hconfirmed))

theorem Monitored.request {frozen : ControlSnapshot} (hpc : pool.monitor.pc = .frozen frozen)
    (hlive : pool.writerStatus = .running) (hstep : step cfg pool .requestSync =
      some ((pool.post (.flushAll true .monitor)).setMonitor (.syncing frozen))) :
    ((pool.post (.flushAll true .monitor)).setMonitor (.syncing frozen)).Monitored := by
  have hmail := h.mail
  rw [hpc] at hmail
  have hnone : pool.monitor.mailbox = none := by
    cases hmbox : pool.monitor.mailbox with
    | none => rfl
    | some reply =>
      rw [hmbox] at hmail
      simp [MonitorPc.syncs] at hmail
  refine h.keep hwhole hstep ?_ ?_ ?_ ?_ (absurd hlive) h.finished nofun
  · intro other ho
    left
    rw [hpc]
    exact ho
  · intro other ho
    left
    simp only [setMonitor, Monitor.confirmed, post_monitor, hnone] at ho
    exact mem_append_right _ ho
  · have hzero : outstanding pool.channel = 0 := by
      simp only [MonitorPc.syncs, Bool.toNat_false] at hmail
      omega
    change outstanding (pool.channel ++ [.flushAll true .monitor]) +
      pool.monitor.mailbox.isSome.toNat ≤ 1
    rw [hnone, outstanding, countP_append]
    change outstanding pool.channel + 1 + 0 ≤ 1
    omega
  · intro cmd hcmd hack
    rcases mem_append.mp hcmd with hcmd | hcmd
    · exact h.barrier cmd hcmd hack
    · exact mem_singleton.mp hcmd

theorem Monitored.turn (hstep : step cfg pool act = some next)
    (hturn : MonitorTurn cfg pool act next) : next.Monitored := by
  have hmail := h.mail
  have hrecd := hwhole.snapshot_recorded
  have hnew {P : ControlSnapshot → Prop} {kept : List ControlSnapshot}
      (hP : P (snapshot cfg pool)) : ∀ other ∈ [snapshot cfg pool] ++ pool.history.saved,
        other ∈ kept ++ pool.history.saved ∨ P other := by
    intro other ho
    rcases mem_append.mp ho with ho | ho
    · exact .inr (mem_singleton.mp ho ▸ hP)
    · exact .inl (mem_append_right _ ho)
  cases hturn with
  | due hidle hend =>
    rw [hidle] at hmail
    exact h.rest hwhole hstep rfl hmail fun _ hpc => hend (MonitorPc.freezing.inj hpc).2
  | early hpc | skip hpc | unsent hpc | unsaved hpc hctrl =>
    rw [hpc] at hmail
    exact h.rest hwhole hstep rfl hmail nofun
  | unanswered hpc hmbox hend =>
    refine h.rest hwhole hstep rfl ?_ nofun
    rw [h.closed hend, hmbox]
    exact Nat.le_refl 0
  | freeze hpc =>
    rw [hpc] at hmail
    exact h.keep hwhole hstep (hnew hrecd)
      (fun _ hsnap => .inl (mem_append_right _ hsnap)) hmail h.barrier h.closed
      h.finished nofun
  | freezeLast hpc =>
    rw [hpc] at hmail
    exact h.keep hwhole hstep (hnew hrecd)
      (hnew (hwhole.durable_of_sync hrecd (h.finished (h.offline _ hpc)))) hmail h.barrier
      h.closed h.finished nofun
  | request hpc hlive => exact h.request hwhole hpc hlive hstep
  | confirm hpc hmbox =>
    refine h.keep hwhole hstep (fun _ hsnap => .inl ?_) (fun _ hsnap => .inl ?_) ?_ h.barrier
      h.closed h.finished nofun
    · rw [hpc]
      exact hsnap
    · simp only [Monitor.confirmed, hpc, hmbox]
      exact hsnap
    · rw [hpc, hmbox] at hmail
      exact Nat.le_of_succ_le_succ hmail
  | save hpc =>
    rw [hpc] at hmail
    refine h.keep hwhole hstep (fun _ hsnap => .inl ?_) (fun _ hsnap => .inl ?_) hmail
      h.barrier h.closed h.finished nofun
    · rw [hpc]
      exact perm_append_comm.mem_iff.mp hsnap
    · simp only [Monitor.confirmed, hpc]
      exact perm_append_comm.mem_iff.mp hsnap
  | dropSender =>
    exact h.keep hwhole hstep (fun _ hsnap => .inl hsnap)
      (fun _ hsnap => .inl hsnap) h.mail h.barrier h.closed h.finished h.offline

theorem Monitored.step (hstep : Pool.step cfg pool act = some next) : next.Monitored := by
  cases act with
  | worker w act =>
    have hwork := hstep
    simp only [Pool.step] at hwork
    split at hwork
    · cases hwork
    · exact h.beside hwhole hstep (workerStep_beside hwork)
  | notify w =>
    have hnotify := hstep
    simp only [Pool.step, notify] at hnotify
    split at hnotify
    · cases hnotify
      exact h.beside hwhole hstep ⟨rfl, rfl, rfl, rfl, rfl, .inl rfl⟩
    · cases hnotify
  | abort w =>
    have habort := hstep
    simp only [Pool.step, abort] at habort
    split at habort
    · cases habort
    · cases habort
      exact h.beside hwhole hstep ⟨rfl, rfl, rfl, rfl, rfl, .inl rfl⟩
  | write => exact h.write hwhole hstep
  | finishWriter => exact h.finishWriter hwhole hstep
  | tick elapsed =>
    have htick := hstep
    cases htick
    exact h.beside hwhole hstep ⟨rfl, rfl, rfl, rfl, rfl, .inl rfl⟩
  | signal stop =>
    obtain ⟨-, rfl⟩ := step_signal hstep
    exact h.beside hwhole hstep ⟨rfl, rfl, rfl, rfl, rfl, .inl rfl⟩
  | _ => exact h.turn hwhole hstep (monitor_turns rfl hstep)

omit h

omit hwhole

private theorem monitored_start {pieceMap : PieceMap} (file : DiskFile) (watermark : Nat)
    (probe : Option (HttpResponse × Nat)) (files : ControlFiles) :
    (Pool.start pieceMap file watermark probe files : Pool n).Monitored where
  recorded := by rintro _ ⟨⟩
  durable := by rintro _ ⟨⟩
  mail := Nat.le_refl _
  barrier := by rintro _ ⟨⟩
  closed _ := rfl
  finished := by rintro ⟨⟩
  offline := by rintro _ ⟨⟩

private theorem Whole.monitored {start : Pool n} (hwhole : start.Whole cfg fun _ _ => True)
    (h : start.Monitored) (hr : Reachable cfg start pool) :
    pool.Whole cfg (fun _ _ => True) ∧ pool.Monitored := by
  apply hr.invariant
  · exact ⟨hwhole, h⟩
  rintro state act next ⟨hwhole, h⟩ - hstep
  exact ⟨hwhole.step (honest_true state act) hstep, h.step hwhole hstep⟩

theorem step_control (hstep : step cfg pool act = some next) :
    (next.files.control = pool.files.control ∧ next.history.saved = pool.history.saved) ∨
    ∃ snap, act = .save none ∧ pool.monitor.pc = .saving snap ∧
      next.files.control = some snap ∧
      next.history.saved = pool.history.saved ++ [snap] := by
  cases act with
  | worker w act =>
    simp only [step] at hstep
    split at hstep
    · cases hstep
    · have hbeside := workerStep_beside hstep
      exact .inl ⟨by rw [hbeside.files], hbeside.saved⟩
  | write =>
    left
    simp only [step, Pool.write] at hstep
    (repeat' split at hstep)
    all_goals cases hstep
    · rcases pool.writer.reply _ _ with _ | ⟨party, reply⟩
      · exact ⟨rfl, rfl⟩
      · cases party <;> exact ⟨rfl, rfl⟩
    · exact ⟨rfl, rfl⟩
  | notify w | abort w | finishWriter | tick elapsed | signal stop =>
    left
    simp only [step, notify, abort, Pool.finishWriter] at hstep
    (repeat' split at hstep)
    all_goals cases hstep
    all_goals exact ⟨rfl, rfl⟩
  | save fault =>
    cases monitor_turns rfl hstep with
    | save hpc => exact .inr ⟨_, rfl, hpc, rfl, rfl⟩
    | unsaved hpc hctrl => exact .inl ⟨hctrl, rfl⟩
  | _ =>
    left
    cases monitor_turns rfl hstep <;> exact ⟨rfl, rfl⟩

private theorem control_saved {start : Pool n} (hr : Reachable cfg start pool)
    {snapshot : ControlSnapshot} (hctrl : pool.files.control = some snapshot) :
    snapshot ∈ pool.history.saved ∨ start.files.control = some snapshot := by
  revert snapshot
  apply hr.invariant
  · exact fun {snapshot} hctrl => .inr hctrl
  intro state act next ih _ hstep snapshot hctrl
  rcases step_control hstep with ⟨hsame, hsaved⟩ | ⟨saved, -, -, hnew, hsaved⟩
  · rw [hsaved]
    exact ih (hsame ▸ hctrl)
  · rw [hnew] at hctrl
    cases hctrl
    rw [hsaved]
    exact .inl (mem_append_right _ (mem_singleton_self _))

/-- Every snapshot on disk speaks of durable bytes only and counts them right, and a step changes
the control file only by a save that succeeds. -/
theorem checkpoints_are_durable {pieceMap : PieceMap} {file : DiskFile}
    (hlaunch : Launch cfg (fun _ _ => True) pieceMap file) (watermark : Nat)
    (probe : Option (HttpResponse × Nat)) (files : ControlFiles)
    (hreach : Reachable cfg (Pool.start pieceMap file watermark probe files) pool) :
    (∀ snapshot ∈ pool.history.saved,
      (∀ i, snapshot.pieceMap.bit i = true → ∀ b ∈ snapshot.pieceMap.pieceRange i,
        pool.writer.file.durable b = true) ∧
      snapshot.downloadedBytes = ∑ i ∈ range snapshot.pieceCount,
        if snapshot.pieceMap.bit i then (snapshot.pieceMap.pieceRange i).len else 0) ∧
    (∀ snapshot, pool.files.control = some snapshot →
      snapshot ∈ pool.history.saved ∨ files.control = some snapshot) ∧
    ∀ action next, step cfg pool action = some next →
      (next.files.control = pool.files.control ∧ next.history.saved = pool.history.saved) ∨
      ∃ snapshot, action = .save none ∧ pool.monitor.pc = .saving snapshot ∧
        next.files.control = some snapshot ∧
        next.history.saved = pool.history.saved ++ [snapshot] := by
  obtain ⟨-, hmonitored⟩ := (whole_start hlaunch watermark probe files).monitored
    (monitored_start file watermark probe files) hreach
  refine ⟨fun snapshot hsaved => ⟨?_, ?_⟩, fun snapshot hctrl => control_saved hreach hctrl,
    fun action next hstep => step_control hstep⟩
  · intro i hi b hb
    exact (pool.writer.file.kept b
      (hmonitored.durable snapshot (mem_append_right _ hsaved) i hi b hb)).1
  · exact (hmonitored.recorded snapshot (mem_append_right _ hsaved)).downloaded

/-- One worker fetches the first of two bytes; a checkpoint is taken and saved. -/
def checkpointRun : List (Action 1) :=
  [.worker 0 .advance, .worker 0 (.inspect 0), .worker 0 .advance, .worker 0 .advance,
    .worker 0 (.respond (partialContent 0 1 2)), .worker 0 (.chunk [7]), .worker 0 .forward,
    .worker 0 .eof, .worker 0 .advance, .write, .write, .write, .worker 0 .advance,
    .persist .autosave true, .freeze, .requestSync, .write, .confirmSync, .save none]

theorem first_byte_is_checkpointed :
    ∃ pool : Pool 1, Reachable (smallConfig 2 (partialContent 0 1 2).metadata)
        (Pool.start (PieceMap.new 2 1) emptyFile 16 none ⟨none, none⟩) pool ∧
      pool.history.saved.map (fun snapshot => (snapshot.pieceMap.bit 0, snapshot.pieceMap.bit 1,
        snapshot.pieceMap.pieceRange 0)) = [(true, false, ⟨0, 1⟩)] ∧
      pool.writer.file.durable 0 = true := by
  have hlaunch : Launch (smallConfig 2 (partialContent 0 1 2).metadata) (fun _ _ => True)
      (new 2 1) emptyFile := by
    refine ⟨new_valid (by decide), rfl, by decide, ?_⟩
    intro i hi
    rw [bit_new] at hi
    cases hi
  have hrun : (runLabels (step (smallConfig 2 (partialContent 0 1 2).metadata))
      (fun _ _ => true) (Pool.start (new 2 1) emptyFile 16 none ⟨none, none⟩)
      checkpointRun).map (fun pool => pool.history.saved.map fun snapshot =>
        (snapshot.pieceMap.bit 0, snapshot.pieceMap.bit 1, snapshot.pieceMap.pieceRange 0)) =
          some [(true, false, ⟨0, 1⟩)] := by decide
  obtain ⟨pool, hr, hview⟩ := Reaches.exists_of_run hrun
  refine ⟨pool, hr, hview, ?_⟩
  have hdur := (checkpoints_are_durable hlaunch 16 none ⟨none, none⟩ hr).1
  obtain ⟨snapshot, hsaved, hsnap⟩ := mem_map.mp
    (hview ▸ mem_singleton_self (true, false, (⟨0, 1⟩ : Span)))
  obtain ⟨hbit, hrest⟩ := Prod.mk.inj hsnap
  obtain ⟨-, hrng⟩ := Prod.mk.inj hrest
  exact (hdur snapshot hsaved).1 0 hbit 0 (by rw [hrng]; decide)

end Pool

end Bytehaul.Session
