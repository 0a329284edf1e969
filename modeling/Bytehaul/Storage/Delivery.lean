import Bytehaul.Storage.Writer

/-!
# What the writer does to the file

`Moves` says that every operation writes bytes it was handed and nothing else; `Carries`
follows the bytes of one lease into the file.
-/

namespace Bytehaul.Storage

open Foundation Foundation.DiskFile Std List WriteBackCache TreeMap

namespace WriterTask

variable {offset : Nat} {data : List UInt8} {leaseKey : Option LeaseKey}

variable {α : Type}

def Attempt.last : Attempt → WriterTask
  | .ok task => task
  | .error (_, task) => task

@[simp] theorem Attempt.last_ok (task : WriterTask) : Attempt.last (.ok task) = task := rfl

/-- Which bytes may be buffered, and under which lease (`none`: the unkeyed buffer). -/
abbrev Allowance := Option LeaseKey → Nat → UInt8 → Prop

structure Within (P : Allowance) (task : WriterTask) : Prop where
  cached : ∀ key b v, task.cache.Buffers key b v → P (some key) b v
  single : ∀ offset data, task.single = some (offset, data) →
    ∀ b v, Lays offset data b v → P none b v
  cursor : ∀ offset, task.fileOffset = some offset → task.file.image.cursor = offset

def CommandWithin (P : Allowance) : WriterCommand α → Prop
  | .data offset data _ leaseKey => ∀ b v, Lays offset data b v → P leaseKey b v
  | _ => True

structure Moves (P : Allowance) (before : WriterTask) (result : Attempt) : Prop where
  stores : AsyncFile.Stores (fun b v => ∃ key, P key b v) before.file result.last.file
  within : ∀ task, result = .ok task → Within P task

variable {P : Allowance} {task next : WriterTask} {result : Attempt}
  {continue' : WriterTask → Attempt} {blocks : List FlushBlock} {condition : Bool}
  {command : WriterCommand α}

theorem bind_eq_ok (h : (result >>= continue') = .ok next) :
    ∃ mid, result = .ok mid ∧ continue' mid = .ok next := by
  cases result with
  | error failure => cases h
  | ok mid => exact ⟨mid, rfl, h⟩

/-- The seek is left out exactly when the file already stands at the offset. -/
private theorem positioned (hcursor : ∀ offset, task.fileOffset = some offset →
      task.file.image.cursor = offset) (Q : Nat → UInt8 → Prop) (offset : Nat) :
    AsyncFile.Stores Q task.file (if task.fileOffset = some offset then task.file
      else task.file.seek offset) ∧
    (if task.fileOffset = some offset then task.file else task.file.seek offset).image =
      task.file.image.seek offset := by
  split
  · next hoff =>
    refine ⟨.refl, ?_⟩
    rw [← hcursor offset hoff]
    rfl
  · exact ⟨AsyncFile.Stores.refl.seek offset, rfl⟩

theorem writeBlock_spec {Q : Nat → UInt8 → Prop}
    (hcursor : ∀ offset, task.fileOffset = some offset → task.file.image.cursor = offset)
    (hdata : ∀ b v, Lays offset data b v → Q b v) :
    (∀ next, task.writeBlock offset data = .ok next → ∃ file, AsyncFile.Stores Q task.file file ∧
      file.image = (task.file.image.seek offset).store data ∧
      next = { task with
        file := file
        fileOffset := some (offset + data.length)
        writtenBytes := max task.writtenBytes (offset + data.length) }) ∧
    ∀ failure, task.writeBlock offset data = .error failure →
      AsyncFile.Stores Q task.file failure.2.file := by
  unfold writeBlock
  dsimp only
  obtain ⟨hstores, himage⟩ := positioned hcursor Q offset
  generalize (if task.fileOffset = some offset then task.file else task.file.seek offset) = file
    at hstores himage ⊢
  obtain ⟨hok, herr⟩ := AsyncFile.Stores.writeAll fun b v hv =>
    hdata b v (himage ▸ hv : Lays (task.file.image.seek offset).cursor data b v)
  cases hw : file.writeAll data with
  | ok stored =>
      obtain ⟨hnext, hwr⟩ := hok stored hw
      constructor
      · rintro _ ⟨⟩
        exact ⟨stored, hstores.trans hwr, himage ▸ hnext, rfl⟩
      · rintro _ ⟨⟩
  | error stored =>
      constructor
      · rintro _ ⟨⟩
      · rintro _ ⟨⟩
        exact hstores.trans (herr stored hw)

structure SameBuffers (task next : WriterTask) : Prop where
  cache : next.cache = task.cache
  activeLeases : next.activeLeases = task.activeLeases
  single : next.single = task.single
  permits : next.permits = task.permits
  watermark : next.cacheHighWatermark = task.cacheHighWatermark

theorem SameBuffers.trans {last : WriterTask} (h : SameBuffers task next)
    (hlast : SameBuffers next last) : SameBuffers task last :=
  ⟨hlast.cache.trans h.cache, hlast.activeLeases.trans h.activeLeases,
    hlast.single.trans h.single, hlast.permits.trans h.permits,
    hlast.watermark.trans h.watermark⟩

theorem writeBlock_same (h : task.writeBlock offset data = .ok next) : SameBuffers task next := by
  unfold writeBlock at h
  dsimp only at h
  split at h <;> cases h
  exact ⟨rfl, rfl, rfl, rfl, rfl⟩

theorem writeBlocks_same (h : task.writeBlocks blocks = .ok next) : SameBuffers task next := by
  induction blocks generalizing task with
  | nil =>
    cases h
    exact ⟨rfl, rfl, rfl, rfl, rfl⟩
  | cons block blocks ih =>
    obtain ⟨mid, hmid, hrest⟩ := bind_eq_ok h
    exact (writeBlock_same hmid).trans (ih hrest)

theorem flushSingle_same (h : task.flushSingle = .ok next) :
    SameBuffers { task with single := none } next := by
  unfold flushSingle at h
  split at h
  · exact writeBlock_same h
  · rename_i hnone
    cases h
    exact ⟨rfl, rfl, hnone, rfl, rfl⟩

theorem syncFile_same (h : task.syncFile = .ok next) : SameBuffers task next := by
  unfold syncFile at h
  split at h <;> cases h
  exact ⟨rfl, rfl, rfl, rfl, rfl⟩

theorem flushAll_same (h : task.flushAll = .ok next) :
    SameBuffers { task with single := none, cache := WriteBackCache.new, permits := [] } next := by
  obtain ⟨mid, hsing, hrest⟩ := bind_eq_ok h
  obtain ⟨last, hw, hlast⟩ := bind_eq_ok hrest
  cases hlast
  have hfst := flushSingle_same hsing
  have hsame := writeBlocks_same hw
  exact ⟨hsame.cache, hsame.activeLeases.trans hfst.activeLeases,
    hsame.single.trans hfst.single, rfl, hsame.watermark.trans hfst.watermark⟩

theorem flushLease_same {key : LeaseKey} (hok : task.flushLease key = .ok next) :
    SameBuffers { task with
      cache := (task.cache.drainLease key).2
      permits := task.permits.filter fun permit => permit.1 ≠ some key } next := by
  obtain ⟨mid, hmid, hlast⟩ := bind_eq_ok hok
  cases hlast
  have hsame := writeBlocks_same hmid
  refine ⟨hsame.cache, hsame.activeLeases, hsame.single, ?_, hsame.watermark⟩
  rw [retainPermits, hsame.permits]

theorem Within.new (file : DiskFile) (watermark : Nat) :
    Within P (WriterTask.new file watermark) where
  cached key b v h := absurd h not_buffers_new
  single offset data h := by simp [WriterTask.new] at h
  cursor offset h := by simp [WriterTask.new] at h

theorem Within.mono {Q : Allowance} (h : Within P task)
    (hPQ : ∀ key b v, P key b v → Q key b v) : Within Q task where
  cached key b v hv := hPQ _ b v (h.cached key b v hv)
  single offset data hsing b v hv := hPQ _ b v (h.single offset data hsing b v hv)
  cursor := h.cursor

theorem Moves.ok (h : Within P next) (hfile : next.file = task.file) : Moves P task (.ok next) where
  stores := by
    rw [Attempt.last_ok, hfile]
    exact .refl
  within _ heq := by
    cases heq
    exact h

theorem Moves.bind (h : Moves P task result)
    (hnext : ∀ mid, result = .ok mid → Moves P mid (continue' mid)) :
    Moves P task (result >>= continue') := by
  cases result with
  | error failure => exact ⟨h.stores, fun _ heq => by cases heq⟩
  | ok mid =>
    refine ⟨h.stores.trans (hnext mid rfl).stores, ?_⟩
    exact (hnext mid rfl).within

theorem Moves.of_file {other : WriterTask} (h : Moves P other result)
    (hfile : other.file = task.file) : Moves P task result :=
  ⟨hfile ▸ h.stores, h.within⟩

theorem Within.retainPermits (h : Within P task) {keep : Option LeaseKey → Bool} :
    Within P (task.retainPermits keep) :=
  ⟨h.cached, h.single, h.cursor⟩

section Moved

variable (h : Within P task)
include h

theorem writeBlock_moves (hdata : ∀ b v, Lays offset data b v → ∃ key, P key b v) :
    Moves P task (task.writeBlock offset data) := by
  obtain ⟨hok, herr⟩ := writeBlock_spec h.cursor hdata
  cases hw : task.writeBlock offset data with
  | ok next =>
      obtain ⟨file, hstores, himage, rfl⟩ := hok next hw
      refine ⟨hstores, ?_⟩
      rintro _ ⟨⟩
      refine ⟨h.cached, h.single, ?_⟩
      rintro _ ⟨⟩
      exact congrArg DiskFile.cursor himage
  | error failure =>
      refine ⟨herr failure hw, ?_⟩
      rintro _ ⟨⟩

theorem writeBlocks_moves
    (hblocks : ∀ block ∈ blocks, ∀ b v, Lays block.offset block.data b v → ∃ key, P key b v) :
    Moves P task (task.writeBlocks blocks) := by
  induction blocks generalizing task with
  | nil => exact .ok h rfl
  | cons block blocks ih =>
    have hfst := writeBlock_moves h (hblocks block mem_cons_self)
    apply hfst.bind
    intro mid hmid
    exact ih (hfst.within mid hmid) fun other ho =>
      hblocks other (mem_cons_of_mem _ ho)

theorem flushSingle_moves : Moves P task task.flushSingle := by
  unfold flushSingle
  split
  · rename_i offset data hsing
    have hemp : Within P { task with single := none } := ⟨h.cached, by rintro _ _ ⟨⟩, h.cursor⟩
    exact (writeBlock_moves hemp fun b v hv => ⟨none, h.single offset data hsing b v hv⟩).of_file
      rfl
  · exact .ok h rfl

theorem flushSingle_moves_retaining {keep : Option LeaseKey → Bool} :
    Moves P task (task.flushSingle >>= fun done => pure (done.retainPermits keep)) :=
  (flushSingle_moves h).bind fun mid hmid =>
    .ok (((flushSingle_moves h).within mid hmid).retainPermits) rfl

theorem Within.drainLease (key : LeaseKey) :
    Within P { task with cache := (task.cache.drainLease key).2 } :=
  ⟨fun other b v hb => h.cached other b v (buffers_drainLease.mp hb).2, h.single, h.cursor⟩

theorem flushLease_moves (key : LeaseKey) : Moves P task (task.flushLease key) := by
  have hw : Moves P task ({ task with
      cache := (task.cache.drainLease key).2 }.writeBlocks (task.cache.drainLease key).1) := by
    refine (writeBlocks_moves (h.drainLease key) ?_).of_file rfl
    intro block hblock b v hv
    exact ⟨some key, h.cached key b v (mem_drainLease.mp ⟨block, hblock, hv⟩)⟩
  exact hw.bind fun mid hmid => .ok ((hw.within mid hmid).retainPermits) rfl

theorem Within.drainAll : Within P { task with cache := task.cache.drainAll.2 } :=
  ⟨fun _ _ _ hb => absurd hb not_buffers_new, h.single, h.cursor⟩

theorem writeCache_moves : Moves P task ({ task with cache := task.cache.drainAll.2 }.writeBlocks
      task.cache.drainAll.1) := by
  refine (writeBlocks_moves h.drainAll ?_).of_file rfl
  intro block hblock b v hv
  obtain ⟨key, hkey⟩ := mem_drainAll.mp ⟨block, hblock, hv⟩
  exact ⟨some key, h.cached key b v hkey⟩

theorem flushAll_moves : Moves P task task.flushAll := by
  apply (flushSingle_moves h).bind
  intro mid hmid
  have hwith := (flushSingle_moves h).within mid hmid
  apply (writeCache_moves hwith).bind
  intro last hlast
  have hlastWithin := (writeCache_moves hwith).within last hlast
  exact .ok ⟨hlastWithin.cached, hlastWithin.single, hlastWithin.cursor⟩ rfl

theorem flushAllWhen_moves (condition : Bool) : Moves P task (task.flushAllWhen condition) := by
  unfold flushAllWhen
  split
  · exact flushAll_moves h
  · exact .ok h rfl

private theorem appendSingle_moves (hdata : ∀ b v, Lays offset data b v → P none b v)
    (hnext : ∀ start buffered, task.single = some (start, buffered) →
      start + buffered.length = offset) :
    Moves P task (task.appendSingle offset data) := by
  unfold appendSingle
  dsimp only
  have happended : Within P { task with
      single := some ((task.single.getD (offset, [])).1,
        (task.single.getD (offset, [])).2 ++ data) } := by
    refine ⟨h.cached, ?_, h.cursor⟩
    rintro _ _ ⟨⟩ b v hv
    rw [lays_append] at hv
    cases hsing : task.single with
    | none => simpa [hsing] using hdata b v (by simpa [hsing] using hv)
    | some buffer =>
      simp only [hsing, Option.getD_some] at hv
      rcases hv with hv | hv
      · exact h.single _ _ hsing b v hv
      · rw [hnext _ _ hsing] at hv
        exact hdata b v hv
  split
  · exact (flushSingle_moves_retaining happended).of_file rfl
  · exact .ok happended rfl

private theorem bufferSingle_moves (hdata : ∀ b v, Lays offset data b v → P none b v)
    (hnext : ∀ start buffered, data ≠ [] → task.single = some (start, buffered) →
      start + buffered.length = offset) :
    Moves P task (task.bufferSingle offset data) := by
  unfold bufferSingle
  split
  · exact .ok h rfl
  · rename_i hnil
    split
    · apply (flushSingle_moves h).bind
      intro mid hmid
      have hwith := (flushSingle_moves h).within mid hmid
      have hw := writeBlock_moves hwith fun b v hv => ⟨none, hdata b v hv⟩
      exact hw.bind fun last hlast => .ok ((hw.within last hlast).retainPermits) rfl
    · exact appendSingle_moves h hdata fun start buffered => hnext start buffered hnil

private theorem bufferActive_moves {key : LeaseKey} {expected : Option Nat}
    (hdata : ∀ b v, Lays offset data b v → P (some key) b v) :
    Moves P task (task.bufferActive key expected offset data) := by
  unfold bufferActive
  split
  · exact .ok h rfl
  · split
    · exact ⟨.refl, fun _ heq => by cases heq⟩
    · cases hins : task.cache.insert key offset data with
      | error error => exact ⟨.refl, fun _ heq => by cases heq⟩
      | ok cache =>
        refine .ok ⟨?_, h.single, h.cursor⟩ rfl
        intro other b v hb
        rcases (buffers_insert hins).mp hb with hb | ⟨rfl, hlays⟩
        · exact h.cached other b v hb
        · exact hdata b v hlays

theorem yieldSingle_moves : Moves P task (task.yieldSingle offset data leaseKey) := by
  unfold yieldSingle
  split
  · exact flushSingle_moves_retaining h
  · exact .ok h rfl

omit h in
theorem yieldSingle_continues (h : task.yieldSingle offset data leaseKey = .ok next)
    (hdata : data ≠ []) : ∀ start buffered, next.single = some (start, buffered) →
      start + buffered.length = offset := by
  intro start buffered hsing
  unfold yieldSingle at h
  split at h
  · obtain ⟨mid, hfl, hmid⟩ := bind_eq_ok h
    cases hmid
    simp [retainPermits, (flushSingle_same hfl).single] at hsing
  · rename_i hcontinues
    cases h
    by_contra hne
    apply hcontinues
    simp [hdata, hsing, hne]

omit h in
theorem flushAllWhen_single (h : task.flushAllWhen condition = .ok next) :
    next.single = none ∨ next.single = task.single := by
  unfold flushAllWhen at h
  split at h
  · exact .inl (flushAll_same h).single
  · cases h
    exact .inr rfl

omit h in
theorem yieldSingle_shape (h : task.yieldSingle offset data leaseKey = .ok next) :
    next.cache = task.cache ∧ next.activeLeases = task.activeLeases := by
  unfold yieldSingle at h
  split at h
  · obtain ⟨mid, hfl, hmid⟩ := bind_eq_ok h
    cases hmid
    exact ⟨(flushSingle_same hfl).cache, (flushSingle_same hfl).activeLeases⟩
  · cases h
    exact ⟨rfl, rfl⟩

omit h in
theorem flushAllWhen_active (h : task.flushAllWhen condition = .ok next) :
    next.activeLeases = task.activeLeases := by
  unfold flushAllWhen at h
  split at h
  · exact (flushAll_same h).activeLeases
  · cases h
    rfl

/-- Data under this key is buffered: it is unkeyed, or its lease is active. -/
def Accepts (task : WriterTask) (leaseKey : Option LeaseKey) : Prop :=
  ∀ key, leaseKey = some key → key ∈ task.activeLeases

theorem bufferData_moves
    (hdata : task.Accepts leaseKey → ∀ b v, Lays offset data b v → P leaseKey b v)
    (hnext : ∀ start buffered, data ≠ [] → task.single = some (start, buffered) →
      start + buffered.length = offset) :
    Moves P task (task.bufferData offset data leaseKey) := by
  unfold bufferData
  cases leaseKey with
  | none => exact bufferSingle_moves h (hdata (by rintro _ ⟨⟩)) hnext
  | some key =>
    dsimp only
    split
    · rename_i expected hact
      apply bufferActive_moves h
      apply hdata
      rintro _ ⟨⟩
      rw [mem_iff_isSome_getElem?, hact]
      rfl
    · exact .ok (h.retainPermits) rfl

omit h in
theorem bufferHeld_moves {first second : WriterTask} (permit : Option Nat)
    (hfst : task.yieldSingle offset data leaseKey = .ok first)
    (hsnd : first.flushAllWhen condition = .ok second) (h : Within P second)
    (hdata : task.Accepts leaseKey → ∀ b v, Lays offset data b v → P leaseKey b v) :
    Moves P (second.holdPermit leaseKey permit)
      ((second.holdPermit leaseKey permit).bufferData offset data leaseKey) := by
  have hheld : Within P (second.holdPermit leaseKey permit) := ⟨h.cached, h.single, h.cursor⟩
  have hact : second.activeLeases = task.activeLeases :=
    (flushAllWhen_active hsnd).trans (yieldSingle_shape hfst).2
  apply bufferData_moves hheld
  · intro haccs
    apply hdata
    intro key hkey
    rw [← hact]
    exact haccs key hkey
  intro start buffered hnil hsing
  rcases flushAllWhen_single hsnd with hnone | hsame
  · simp [holdPermit, hnone] at hsing
  · exact yieldSingle_continues hfst hnil start buffered (hsame ▸ hsing)

private theorem processData_moves {permit : Option Nat}
    (hdata : task.Accepts leaseKey → ∀ b v, Lays offset data b v → P leaseKey b v) :
    Moves P task (task.processData offset data permit leaseKey) := by
  have hyield : Moves P task (task.yieldSingle offset data leaseKey) := yieldSingle_moves h
  apply hyield.bind
  intro first hfst
  have hfl := flushAllWhen_moves (hyield.within first hfst)
    (leaseKey.isNone && first.cache.totalBytes != 0)
  apply hfl.bind
  intro second hsnd
  have hbuffer := bufferHeld_moves permit hfst hsnd (hfl.within second hsnd) hdata
  have hbuf : Moves P second
      ((second.holdPermit leaseKey permit).bufferData offset data leaseKey) := hbuffer.of_file rfl
  apply hbuf.bind
  intro third hthird
  exact flushAllWhen_moves (hbuffer.within third hthird) _

theorem syncFile_moves : Moves P task task.syncFile := by
  unfold syncFile
  cases hsync : task.file.sync with
  | ok file =>
      constructor
      · exact AsyncFile.Stores.refl.sync hsync
      · intro done heq
        cases heq
        refine ⟨h.cached, h.single, fun offset hoff => ?_⟩
        rw [← h.cursor offset hoff, (AsyncFile.sync_ok hsync).1]
        rfl
  | error file =>
      constructor
      · rw [AsyncFile.sync_error hsync]
        exact AsyncFile.Stores.refl.perform
      · intro done heq
        cases heq

/-- Data that the writer does not accept need not be allowed. -/
def CommandAccepted (P : Allowance) (task : WriterTask) : WriterCommand α → Prop
  | .data offset data _ leaseKey =>
    task.Accepts leaseKey → ∀ b v, Lays offset data b v → P leaseKey b v
  | _ => True

omit h in
theorem CommandAccepted.mono {Q : Allowance} (h : CommandAccepted P task command)
    (hPQ : ∀ leaseKey b v, P leaseKey b v → Q leaseKey b v) : CommandAccepted Q task command := by
  cases command with
  | data offset data permit leaseKey => exact fun haccs b v hv => hPQ leaseKey b v (h haccs b v hv)
  | _ => trivial

omit h in
theorem CommandWithin.accepted (h : CommandWithin P command) : CommandAccepted P task command := by
  cases command with
  | data offset data permit leaseKey => exact fun _ => h
  | _ => trivial

theorem process_moves_accepted (hcmd : CommandAccepted P task command) :
    Moves P task (task.process command) := by
  cases command with
  | beginLease key => exact .ok ⟨h.cached, h.single, h.cursor⟩ rfl
  | data offset data permit leaseKey => exact processData_moves h hcmd
  | flushLease key ack =>
    apply (flushLease_moves h key).bind
    intro mid hmid
    have hwith := (flushLease_moves h key).within mid hmid
    exact .ok ⟨hwith.cached, hwith.single, hwith.cursor⟩ rfl
  | discardLease key ack =>
    have hdrn := h.drainLease key
    rw [← discardLease_snd] at hdrn
    exact .ok ⟨hdrn.cached, hdrn.single, hdrn.cursor⟩ rfl
  | flushAll syncData ack =>
    apply (flushAll_moves h).bind
    intro mid hmid
    have hwith := (flushAll_moves h).within mid hmid
    cases syncData with
    | true => exact syncFile_moves hwith
    | false => exact .ok hwith rfl

theorem process_moves (hcmd : CommandWithin P command) : Moves P task (task.process command) :=
  process_moves_accepted h (hcmd.accepted)

theorem finish_moves : Moves P task task.finish :=
  (flushAll_moves h).bind fun mid hmid => syncFile_moves ((flushAll_moves h).within mid hmid)

end Moved

section Delivered

variable {G : Nat → UInt8 → Prop} {key : LeaseKey} {b : Nat} {v : UInt8}

theorem Moves.good (h : Moves P task result) (hP : ∀ key b v, P key b v → G b v)
    (hgood : task.file.image.Good G b) : result.last.file.image.Good G b :=
  h.stores.image.good (fun b v ⟨key, hv⟩ => hP key b v hv) hgood

theorem Moves.good_ok (h : Moves (fun _ => G) task (.ok next)) (hgood : task.file.image.Good G b) :
    next.file.image.Good G b :=
  h.good (fun _ _ _ hv => hv) hgood

variable (h : Within (fun _ => G) task)
include h

private theorem writeBlock_delivers (hdata : ∀ b v, Lays offset data b v → G b v)
    (hok : task.writeBlock offset data = .ok next) (hv : Lays offset data b v) :
    next.file.image.Good G b := by
  obtain ⟨file, -, himage, rfl⟩ := (writeBlock_spec h.cursor hdata).1 next hok
  rw [himage]
  exact store_good_inside hdata hv.1 hv.lt

theorem writeBlocks_delivers
    (hblocks : ∀ block ∈ blocks, ∀ b v, Lays block.offset block.data b v → G b v)
    (hok : task.writeBlocks blocks = .ok next)
    (hv : ∃ block ∈ blocks, Lays block.offset block.data b v) : next.file.image.Good G b := by
  induction blocks generalizing task with
  | nil => simp at hv
  | cons block blocks ih =>
    obtain ⟨mid, hw, hrest⟩ := bind_eq_ok hok
    have hmv : Moves (fun _ => G) task (task.writeBlock block.offset block.data) :=
      writeBlock_moves h fun b v hv => ⟨none, hblocks block mem_cons_self b v hv⟩
    have hmid := hmv.within mid hw
    have htail : ∀ other ∈ blocks, ∀ b v, Lays other.offset other.data b v → G b v :=
      fun other ho => hblocks other (mem_cons_of_mem _ ho)
    obtain ⟨other, hmem, hv⟩ := hv
    rcases mem_cons.mp hmem with heq | hmem
    · subst heq
      have hgood := writeBlock_delivers h (hblocks other mem_cons_self) hw hv
      have hrestMoves : Moves (fun _ => G) mid (mid.writeBlocks blocks) :=
        writeBlocks_moves hmid fun other ho b v hv => ⟨none, htail other ho b v hv⟩
      exact (hrest ▸ hrestMoves).good_ok hgood
    · exact ih hmid htail hrest ⟨other, hmem, hv⟩

theorem flushLease_spec (hok : task.flushLease key = .ok next) :
    next.cache = (task.cache.drainLease key).2 ∧ next.activeLeases = task.activeLeases ∧
      ∀ b v, task.cache.Buffers key b v → next.file.image.Good G b := by
  obtain ⟨mid, hw, hmid⟩ := bind_eq_ok hok
  cases hmid
  have hsame := writeBlocks_same hw
  refine ⟨hsame.cache, hsame.activeLeases, fun b v hv => ?_⟩
  apply writeBlocks_delivers (h.drainLease key) _ hw (mem_drainLease.mpr hv)
  intro block hblock b v hv
  exact h.cached key b v (mem_drainLease.mp ⟨block, hblock, hv⟩)

theorem flushAll_spec (hok : task.flushAll = .ok next) :
    next.cache = WriteBackCache.new ∧ next.activeLeases = task.activeLeases ∧
      ∀ key b v, task.cache.Buffers key b v → next.file.image.Good G b := by
  have hsame := flushAll_same hok
  refine ⟨hsame.cache, hsame.activeLeases, fun key b v hv => ?_⟩
  obtain ⟨mid, hsing, hrest⟩ := bind_eq_ok hok
  obtain ⟨last, hw, hlast⟩ := bind_eq_ok hrest
  cases hlast
  have hcache := (flushSingle_same hsing).cache
  have hmid := (flushSingle_moves h).within mid hsing
  apply writeBlocks_delivers hmid.drainAll _ hw
  · exact mem_drainAll.mpr ⟨key, hcache ▸ hv⟩
  · intro block hblock b v hv
    obtain ⟨key, hkey⟩ := mem_drainAll.mp ⟨block, hblock, hv⟩
    exact hmid.cached key b v hkey

/-- A command that ends the writer's knowledge of `key`. -/
def Retires (key : LeaseKey) : WriterCommand α → Prop
  | .flushLease other _ => other = key
  | .discardLease other _ => other = key
  | _ => False

/-- The writer knows `key`, and all of `[lo, hi)` is in the file or cached for it. -/
structure Carries (G : Nat → UInt8 → Prop) (task : WriterTask) (key : LeaseKey)
    (lo hi : Nat) : Prop where
  active : key ∈ task.activeLeases
  delivered : ∀ b, lo ≤ b → b < hi → task.file.image.Good G b ∨ ∃ v, task.cache.Buffers key b v

theorem flushAllWhen_spec (hok : task.flushAllWhen condition = .ok next) :
    next.activeLeases = task.activeLeases ∧ ∀ key b v, task.cache.Buffers key b v →
        next.file.image.Good G b ∨ next.cache.Buffers key b v := by
  unfold flushAllWhen at hok
  split at hok
  · obtain ⟨-, hact, hgood⟩ := flushAll_spec h hok
    exact ⟨hact, fun key b v hv => .inl (hgood key b v hv)⟩
  · cases hok
    exact ⟨rfl, fun _ _ _ hv => .inr hv⟩

omit h in
theorem bufferSingle_shape (h : task.bufferSingle offset data = .ok next) :
    next.cache = task.cache ∧ next.activeLeases = task.activeLeases := by
  unfold bufferSingle at h
  split at h
  · cases h
    exact ⟨rfl, rfl⟩
  · split at h
    · obtain ⟨mid, hfl, h⟩ := bind_eq_ok h
      obtain ⟨last, hw, h⟩ := bind_eq_ok h
      cases h
      have hsame := (flushSingle_same hfl).trans (writeBlock_same hw)
      exact ⟨hsame.cache, hsame.activeLeases⟩
    · unfold appendSingle at h
      dsimp only at h
      split at h
      · obtain ⟨mid, hfl, h⟩ := bind_eq_ok h
        cases h
        exact ⟨(flushSingle_same hfl).cache, (flushSingle_same hfl).activeLeases⟩
      · cases h
        exact ⟨rfl, rfl⟩

omit h in
private theorem bufferActive_spec {expected : Option Nat}
    (h : task.bufferActive key expected offset data = .ok next) :
    (∀ other, other ∈ task.activeLeases → other ∈ next.activeLeases) ∧
      ∀ other b v, next.cache.Buffers other b v ↔
        task.cache.Buffers other b v ∨ (other = key ∧ Lays offset data b v) := by
  unfold bufferActive at h
  split at h
  · rename_i hnil
    cases h
    exact ⟨fun _ hmem => hmem, by simp [hnil]⟩
  · split at h
    · cases h
    · cases hins : task.cache.insert key offset data with
      | error error =>
        rw [hins] at h
        cases h
      | ok cache =>
        rw [hins] at h
        cases h
        refine ⟨fun other hmem => ?_, fun other b v => buffers_insert hins⟩
        exact mem_insert.mpr (.inr hmem)

omit h in
theorem Carries.keep {lo hi : Nat} (h : Carries G task key lo hi)
    (hact : next.activeLeases = task.activeLeases)
    (hgood : ∀ b, task.file.image.Good G b → next.file.image.Good G b)
    (hbufs : ∀ b v, task.cache.Buffers key b v →
      next.file.image.Good G b ∨ next.cache.Buffers key b v) : Carries G next key lo hi := by
  refine ⟨hact ▸ h.active, fun b hlo hhi => ?_⟩
  rcases h.delivered b hlo hhi with hb | ⟨v, hv⟩
  · exact .inl (hgood b hb)
  · exact (hbufs b v hv).imp id fun hv => ⟨v, hv⟩

omit h in
theorem bufferData_carries {lo hi reach : Nat} (hcarr : Carries G task key lo hi)
    (hgood : ∀ b, task.file.image.Good G b → next.file.image.Good G b)
    (hr : reach = hi ∨ (leaseKey = some key ∧ offset = hi ∧ reach = hi + data.length))
    (hok : task.bufferData offset data leaseKey = .ok next) : Carries G next key lo reach := by
  unfold bufferData at hok
  cases leaseKey with
  | none =>
    obtain rfl : reach = hi := by simpa using hr
    obtain ⟨hcache, hact⟩ := bufferSingle_shape hok
    exact hcarr.keep hact hgood fun b v hv => .inr (hcache ▸ hv)
  | some other =>
    dsimp only at hok
    split at hok
    · obtain ⟨hact, hbufs⟩ := bufferActive_spec hok
      refine ⟨hact key hcarr.active, fun b hlo hhi => ?_⟩
      by_cases hold : b < hi
      · apply (hcarr.delivered b hlo hold).imp (hgood b)
        rintro ⟨v, hv⟩
        exact ⟨v, (hbufs key b v).mpr (.inl hv)⟩
      · rcases hr with rfl | ⟨hkey, rfl, rfl⟩
        · exact absurd hhi hold
        · obtain ⟨v, hv⟩ := exists_lays (Nat.not_lt.mp hold) hhi
          exact .inr ⟨v, (hbufs key b v).mpr (.inr ⟨(Option.some.inj hkey).symm, hv⟩)⟩
    · rename_i hnone
      rcases hr with rfl | ⟨hkey, -, -⟩
      · cases hok
        exact ⟨hcarr.active, hcarr.delivered⟩
      · have hact := hcarr.active
        rw [mem_iff_isSome_getElem?, ← Option.some.inj hkey, hnone] at hact
        cases hact

theorem processData_carries {lo hi reach : Nat} {permit : Option Nat}
    (hdata : task.Accepts leaseKey → ∀ b v, Lays offset data b v → G b v)
    (hcarr : Carries G task key lo hi)
    (hr : reach = hi ∨ (leaseKey = some key ∧ offset = hi ∧ reach = hi + data.length))
    (hok : task.processData offset data permit leaseKey = .ok next) :
    Carries G next key lo reach := by
  obtain ⟨first, hfst, hok⟩ := bind_eq_ok hok
  obtain ⟨second, hsnd, hok⟩ := bind_eq_ok hok
  obtain ⟨third, hthird, hfourth⟩ := bind_eq_ok hok
  have hyield : Moves (fun _ => G) task (task.yieldSingle offset data leaseKey) :=
    yieldSingle_moves h
  have hwithin₁ := hyield.within first hfst
  have hfl := flushAllWhen_moves hwithin₁ (leaseKey.isNone && first.cache.totalBytes != 0)
  have hwithin₂ := hfl.within second hsnd
  have hbuf := bufferHeld_moves permit hfst hsnd hwithin₂ hdata
  have hlast := flushAllWhen_moves (hbuf.within third hthird)
    (decide (third.cacheHighWatermark ≤ third.cache.totalBytes + third.singleBytes))
  obtain ⟨hcache₁, hactive₁⟩ := yieldSingle_shape hfst
  have hcarries₁ : Carries G first key lo hi := by
    apply hcarr.keep hactive₁
    · exact fun b => (hfst ▸ hyield).good_ok
    · exact fun b v hv => .inr (hcache₁ ▸ hv)
  obtain ⟨hactive₂, hbuffers₂⟩ := flushAllWhen_spec hwithin₁ hsnd
  have hcarries₂ : Carries G second key lo hi := by
    apply hcarries₁.keep hactive₂
    · exact fun b => (hsnd ▸ hfl).good_ok
    · exact hbuffers₂ key
  have hcarries₃ : Carries G third key lo reach := by
    have hheldCarries : Carries G (second.holdPermit leaseKey permit) key lo hi :=
      ⟨hcarries₂.active, hcarries₂.delivered⟩
    exact bufferData_carries hheldCarries (fun b => (hthird ▸ hbuf).good_ok) hr hthird
  obtain ⟨hactive₄, hbuffers₄⟩ := flushAllWhen_spec (hbuf.within third hthird) hfourth
  apply hcarries₃.keep hactive₄
  · exact fun b => (hfourth ▸ hlast).good_ok
  · exact hbuffers₄ key

variable {command : WriterCommand α} {lo hi : Nat}

theorem process_carries_accepted (hcmd : CommandAccepted (fun _ => G) task command)
    (hcarr : Carries G task key lo hi) (hret : ¬ Retires key command)
    (hok : task.process command = .ok next) : Carries G next key lo hi := by
  have hmv := process_moves_accepted h hcmd
  rw [hok] at hmv
  cases command with
  | beginLease other =>
    cases hok
    exact ⟨mem_insert.mpr (.inr hcarr.active), hcarr.delivered⟩
  | data offset data permit leaseKey => exact processData_carries h hcmd hcarr (.inl rfl) hok
  | flushLease other ack =>
    obtain ⟨mid, hfl, hmid⟩ := bind_eq_ok hok
    obtain ⟨hcache, hact, hgood⟩ := flushLease_spec h hfl
    cases hmid
    have hne : key ≠ other := fun heq => hret heq.symm
    refine ⟨?_, fun b hlo hhi => ?_⟩
    · rw [mem_erase, hact]
      exact ⟨by simpa using hne.symm, hcarr.active⟩
    · apply (hcarr.delivered b hlo hhi).imp hmv.good_ok
      rintro ⟨v, hv⟩
      refine ⟨v, ?_⟩
      change mid.cache.Buffers key b v
      rw [hcache, buffers_drainLease]
      exact ⟨hne, hv⟩
  | discardLease other ack =>
    cases hok
    have hne : key ≠ other := fun heq => hret heq.symm
    refine ⟨?_, fun b hlo hhi => ?_⟩
    · change key ∈ task.activeLeases.erase other
      rw [mem_erase]
      exact ⟨by simpa using hne.symm, hcarr.active⟩
    · apply (hcarr.delivered b hlo hhi).imp hmv.good_ok
      rintro ⟨v, hv⟩
      refine ⟨v, ?_⟩
      change (task.cache.discardLease other).2.Buffers key b v
      rw [discardLease_snd, buffers_drainLease]
      exact ⟨hne, hv⟩
  | flushAll syncData ack =>
    obtain ⟨mid, hfl, hmid⟩ := bind_eq_ok hok
    obtain ⟨-, hact, hgood⟩ := flushAll_spec h hfl
    have hwith := (flushAll_moves h).within mid hfl
    have hcarriesMid : Carries G mid key lo hi := by
      apply hcarr.keep hact
      · exact fun b => (hfl ▸ flushAll_moves h).good_ok
      · exact fun b v hv => .inl (hgood key b v hv)
    cases syncData with
    | false =>
      cases hmid
      exact hcarriesMid
    | true =>
      have hsync := syncFile_moves hwith
      replace hmid : mid.syncFile = .ok next := hmid
      have hsame := syncFile_same hmid
      rw [hmid] at hsync
      exact hcarriesMid.keep hsame.activeLeases (fun b => hsync.good_ok) fun b v hv =>
        .inr (hsame.cache ▸ hv)

theorem process_carries (hcmd : CommandWithin (fun _ => G) command)
    (hcarr : Carries G task key lo hi) (hret : ¬ Retires key command)
    (hok : task.process command = .ok next) : Carries G next key lo hi :=
  process_carries_accepted h (hcmd.accepted) hcarr hret hok

omit h in
theorem process_beginLease_carries (hok : task.process (.beginLease key : WriterCommand α) =
    .ok next) : Carries G next key lo lo := by
  cases hok
  exact ⟨mem_insert_self, fun b hlo hhi => by omega⟩

theorem process_flushLease_delivers {ack : α}
    (hcarr : Carries G task key lo hi) (hok : task.process (.flushLease key ack) = .ok next)
    (hlo : lo ≤ b) (hhi : b < hi) : next.file.image.Good G b := by
  obtain ⟨mid, hfl, hmid⟩ := bind_eq_ok hok
  obtain ⟨-, -, hgood⟩ := flushLease_spec h hfl
  cases hmid
  rcases hcarr.delivered b hlo hhi with hb | ⟨v, hv⟩
  · exact (hfl ▸ flushLease_moves h key).good_ok hb
  · exact hgood b v hv

theorem not_buffers_of_retires (hret : Retires key command)
    (hok : task.process command = .ok next) : ¬ next.cache.Buffers key b v := by
  cases command with
  | beginLease other | data offset data permit leaseKey | flushAll syncData ack => exact hret.elim
  | flushLease other ack =>
    obtain ⟨mid, hfl, hmid⟩ := bind_eq_ok hok
    obtain ⟨hcache, -, -⟩ := flushLease_spec h hfl
    cases hmid
    change ¬ mid.cache.Buffers key b v
    rw [hcache, buffers_drainLease]
    rintro ⟨hne, -⟩
    exact hne hret.symm
  | discardLease other ack =>
    cases hok
    change ¬ (task.cache.discardLease other).2.Buffers key b v
    rw [discardLease_snd, buffers_drainLease]
    rintro ⟨hne, -⟩
    exact hne hret.symm

omit h

theorem syncFile_durable (hok : task.syncFile = .ok next)
    (hb : next.file.image.written b = true) : next.file.image.durable b = true := by
  unfold syncFile at hok
  split at hok
  · next file hsync =>
    cases hok
    simp only [(AsyncFile.sync_ok hsync).1, synced, Bool.or_eq_true] at hb ⊢
    exact .inr hb
  · cases hok

theorem process_sync_durable {ack : α}
    (hok : task.process (.flushAll true ack : WriterCommand α) = .ok next)
    (hb : next.file.image.written b = true) : next.file.image.durable b = true := by
  obtain ⟨mid, -, hsync⟩ := bind_eq_ok hok
  exact syncFile_durable hsync hb

theorem finish_durable (hok : task.finish = .ok next)
    (hb : next.file.image.written b = true) : next.file.image.durable b = true := by
  obtain ⟨mid, -, hsync⟩ := bind_eq_ok hok
  exact syncFile_durable hsync hb

theorem finish_delivered (hok : task.finish = .ok next) : next.file.Delivered := by
  obtain ⟨mid, -, hsync⟩ := bind_eq_ok hok
  unfold syncFile at hsync
  split at hsync
  · next file hfile =>
    cases hsync
    exact (AsyncFile.sync_ok hfile).2
  · cases hsync

end Delivered

theorem runCommands_append (first second : List (WriterCommand α)) :
    task.runCommands (first ++ second) =
      task.runCommands first >>= fun mid => mid.runCommands second := by
  induction first generalizing task with
  | nil => rfl
  | cons command cmds ih =>
    simp only [cons_append, runCommands]
    cases hproc : task.process command with
    | error failure => rfl
    | ok mid => exact ih

theorem runCommands_within {cmds : List (WriterCommand α)} (h : Within P task)
    (hcmds : ∀ command ∈ cmds, CommandWithin P command)
    (hok : task.runCommands cmds = .ok next) : Within P next := by
  induction cmds generalizing task with
  | nil =>
    cases hok
    exact h
  | cons command cmds ih =>
    obtain ⟨mid, hproc, hrest⟩ := bind_eq_ok hok
    apply ih ((process_moves h (hcmds command mem_cons_self)).within mid hproc)
    · exact fun other ho => hcmds other (mem_cons_of_mem _ ho)
    · exact hrest

end WriterTask

end Bytehaul.Storage
