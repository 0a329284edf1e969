import Bytehaul.Storage.Delivery

/-!
# Isolation of leases

The transcript of a command sequence lists the active leases and what each has sent since it
was begun.
-/

namespace Bytehaul.Storage

open Foundation Foundation.DiskFile Std List Option Function

variable {α : Type}

/-- The non-empty chunks of a lease in a row, from the offset of the first. -/
structure Sent where
  start : Nat
  data : List UInt8
  deriving DecidableEq, Repr

namespace Sent

def stop (sent : Sent) : Nat := sent.start + sent.data.length

def extend (sent : Sent) (offset : Nat) (data : List UInt8) : Sent :=
  if sent.data = [] then ⟨offset, data⟩ else ⟨sent.start, sent.data ++ data⟩

def expected (sent : Sent) : Option Nat := if sent.data = [] then none else some sent.stop

def Puts (sent : Sent) (b : Nat) (v : UInt8) : Prop := Lays sent.start sent.data b v

private theorem expected_extend {sent : Sent} {offset : Nat} {data : List UInt8} (hdata : data ≠ [])
    (hoff : sent.data = [] ∨ offset = sent.stop) :
    (sent.extend offset data).expected = some (offset + data.length) := by
  unfold extend
  split
  · simp [expected, stop, hdata]
  · rename_i hsent
    obtain rfl := hoff.resolve_left hsent
    simp [expected, stop, hsent, Nat.add_assoc]

theorem puts_extend {sent : Sent} {offset : Nat} {data : List UInt8} {b : Nat} {v : UInt8}
    (hoff : sent.data = [] ∨ offset = sent.stop) :
    (sent.extend offset data).Puts b v ↔ sent.Puts b v ∨ Lays offset data b v := by
  unfold extend
  split
  · rename_i hsent
    simp [Puts, hsent]
  · rename_i hsent
    obtain rfl := hoff.resolve_left hsent
    exact lays_append

end Sent

abbrev Transcript := LeaseKey → Option Sent

namespace Transcript

def empty : Transcript := fun _ => none

def step (transcript : Transcript) : WriterCommand α → Transcript
  | .beginLease key => update transcript key (some ⟨0, []⟩)
  | .data offset data _ (some key) =>
    match transcript key with
    | some sent =>
      if data = [] then transcript
      else update transcript key (some (sent.extend offset data))
    | none => transcript
  | .data _ _ _ none => transcript
  | .flushLease key _ => update transcript key none
  | .discardLease key _ => update transcript key none
  | .flushAll _ _ => transcript

def after (commands : List (WriterCommand α)) : Transcript := commands.foldl step empty

/-- Data under this key is to be written: it is unkeyed, or its lease is active. -/
def Admits (transcript : Transcript) (leaseKey : Option LeaseKey) : Prop :=
  ∀ key, leaseKey = some key → (transcript key).isSome = true

/-- Data to be written stays clear of what every other active lease has sent. -/
def Clear (transcript : Transcript) : WriterCommand α → Prop
  | .data offset data _ leaseKey => transcript.Admits leaseKey →
      ∀ other sent, leaseKey ≠ some other → transcript other = some sent →
        ∀ b v w, Lays offset data b v → ¬ sent.Puts b w
  | _ => True

def Clears : Transcript → List (WriterCommand α) → Prop
  | _, [] => True
  | transcript, command :: commands =>
    transcript.Clear command ∧ Clears (transcript.step command) commands

def begun (commands : List (WriterCommand α)) : List LeaseKey :=
  commands.filterMap fun
    | .beginLease key => some key
    | _ => none

variable {transcript : Transcript} {key : LeaseKey} {commands : List (WriterCommand α)}

theorem after_snoc {command : WriterCommand α} :
    after (commands ++ [command]) = (after commands).step command := by
  simp [after]

theorem step_isSome {command : WriterCommand α} (h : (transcript.step command key).isSome = true) :
    (transcript key).isSome = true ∨ command = .beginLease key := by
  cases command with
  | beginLease other =>
    by_cases hkey : key = other
    · exact .inr (hkey ▸ rfl)
    · simp only [step, update_of_ne hkey] at h
      exact .inl h
  | data offset data permit leaseKey =>
    left
    cases leaseKey with
    | none => exact h
    | some other =>
      cases hsent : transcript other with
      | none => simpa [step, hsent] using h
      | some sent =>
        by_cases hkey : key = other
        · subst hkey
          simp [hsent]
        · by_cases hdata : data = []
          · simpa [step, hsent, hdata] using h
          · simpa [step, hsent, hdata, update_of_ne hkey] using h
  | flushLease other ack | discardLease other ack =>
    by_cases hkey : key = other
    · subst hkey
      simp [step] at h
    · simpa [step, update_of_ne hkey] using h
  | flushAll syncData ack => exact .inl h

theorem begun_of_active (h : (after commands key).isSome = true) : key ∈ begun commands := by
  induction commands using reverseRecOn with
  | nil => cases h
  | append_singleton commands command ih =>
    rw [after_snoc] at h
    rw [begun, filterMap_append, mem_append]
    rcases step_isSome h with hold | rfl
    · exact .inl (ih hold)
    · exact .inr (by simp)

private theorem inactive_stays {before rest : List (WriterCommand α)}
    (hnone : after before key = none) (hbegun : key ∈ begun before)
    (hnodup : (begun (before ++ rest)).Nodup) : after (before ++ rest) key = none := by
  induction rest using reverseRecOn with
  | nil => simpa using hnone
  | append_singleton rest command ih =>
    rw [← append_assoc] at hnodup ⊢
    have hprefix : (begun (before ++ rest)).Nodup := by
      rw [begun, filterMap_append] at hnodup
      exact hnodup.of_append_left
    rw [after_snoc, ← not_isSome_iff_eq_none]
    intro hsome
    rcases step_isSome hsome with hold | rfl
    · rw [ih hprefix] at hold
      cases hold
    · rw [begun, filterMap_append, nodup_append] at hnodup
      refine hnodup.2.2 key ?_ key (by simp) rfl
      rw [filterMap_append]
      exact mem_append_left _ hbegun

end Transcript

namespace WriterTask

variable {sent : Sent} {offset : Nat} {data : List UInt8} {command : WriterCommand α}
  {before rest : List (WriterCommand α)}

open Transcript

/-- Which bytes may be buffered: those a lease has sent, and unkeyed ones elsewhere. -/
def Allowed (transcript : Transcript) : Allowance
  | some key, b, v => ∃ sent, transcript key = some sent ∧ sent.Puts b v
  | none, b, _ => ∀ key sent, transcript key = some sent → ∀ v, ¬ sent.Puts b v

def Owned (transcript : Transcript) (b : Nat) (v : UInt8) : Prop :=
  ∃ leaseKey, Allowed transcript leaseKey b v

/-- The writer agrees with the transcript. -/
structure Tracks (transcript : Transcript) (task : WriterTask) : Prop where
  within : Within (Allowed transcript) task
  active : ∀ key, task.activeLeases[key]? = (transcript key).map Sent.expected
  apart : ∀ key other sent sent', key ≠ other → transcript key = some sent →
    transcript other = some sent' → ∀ b v w, sent.Puts b v → ¬ sent'.Puts b w
  carried : ∀ key sent, transcript key = some sent →
    Carries (Owned transcript) task key sent.start sent.stop

variable {transcript : Transcript} {task next : WriterTask} {key : LeaseKey} {permit : Option Nat}
  {first second : List (WriterCommand α)}

theorem Carries.retarget {G H : Nat → UInt8 → Prop} {lo hi : Nat} (h : Carries G task key lo hi)
    (hGH : ∀ b, lo ≤ b → b < hi → ∀ v, G b v → H b v) : Carries H task key lo hi := by
  refine ⟨h.active, fun b hlo hhi => ?_⟩
  rcases h.delivered b hlo hhi with ⟨hwr, v, hv, hG⟩ | hbuf
  · exact .inl ⟨hwr, v, hv, hGH b hlo hhi v hG⟩
  · exact .inr hbuf

variable (h : Tracks transcript task) {file : DiskFile} {watermark : Nat}
include h

theorem Tracks.within_owned : Within (fun _ => Owned transcript) task :=
  h.within.mono fun leaseKey _ _ hallow => ⟨leaseKey, hallow⟩

theorem Tracks.carries (hsent : transcript key = some sent)
    (hcmd : CommandAccepted (Allowed transcript) task command)
    (hret : ¬ Retires key command) (hok : task.process command = .ok next) :
    Carries (Owned transcript) next key sent.start sent.stop :=
  process_carries_accepted h.within_owned (hcmd.mono fun leaseKey _ _ hv => ⟨leaseKey, hv⟩)
    (h.carried key sent hsent) hret hok

private theorem Tracks.mem_active : key ∈ task.activeLeases ↔ (transcript key).isSome = true := by
  rw [TreeMap.mem_iff_isSome_getElem?, h.active, isSome_map]

theorem Tracks.accepts_iff {leaseKey : Option LeaseKey} :
    task.Accepts leaseKey ↔ transcript.Admits leaseKey := by
  unfold Accepts Admits
  simp only [h.mem_active]

theorem Tracks.puts_of_owned (hsent : transcript key = some sent)
    {b : Nat} {v : UInt8} (hlo : sent.start ≤ b) (hhi : b < sent.stop)
    (howned : Owned transcript b v) : sent.Puts b v := by
  obtain ⟨w, hw⟩ := exists_lays hlo hhi
  obtain ⟨leaseKey, hallow⟩ := howned
  cases leaseKey with
  | none => exact absurd hw (hallow key sent hsent w)
  | some other =>
    obtain ⟨sent', hsent', hputs⟩ := hallow
    by_cases hkey : key = other
    · subst hkey
      obtain rfl := some.inj (hsent.symm.trans hsent')
      exact hputs
    · exact absurd hputs (h.apart key other sent sent' hkey hsent hsent' b w v hw)

omit h in
theorem Tracks.new :
    Tracks Transcript.empty (WriterTask.new file watermark) where
  within := .new file watermark
  active key := by simp [WriterTask.new, Transcript.empty]
  apart := by rintro _ _ _ _ _ ⟨⟩
  carried := by rintro _ _ ⟨⟩

/-! ## One command -/

theorem Tracks.apart_update {value : Option Sent}
    (hvalue : ∀ sent, value = some sent → ∀ other old, other ≠ key → transcript other = some old →
      ∀ b v w, sent.Puts b v → ¬ old.Puts b w) (one two : LeaseKey) (old old' : Sent)
    (hne : one ≠ two) (hold : update transcript key value one = some old)
    (hold' : update transcript key value two = some old') (b : Nat) (v w : UInt8)
    (hv : old.Puts b v) : ¬ old'.Puts b w := by
  by_cases hone : one = key
  · subst hone
    rw [update_self] at hold
    rw [update_of_ne hne.symm] at hold'
    exact hvalue old hold two old' hne.symm hold' b v w hv
  rw [update_of_ne hone] at hold
  by_cases htwo : two = key
  · subst htwo
    rw [update_self] at hold'
    exact fun hw => hvalue old' hold' one old hone hold b w v hw hv
  · rw [update_of_ne htwo] at hold'
    exact h.apart one two old old' hne hold hold' b v w hv

theorem Tracks.retire (hret : Retires key command) (hok : task.process command = .ok next)
    (hact : next.activeLeases = task.activeLeases.erase key) :
    Tracks (update transcript key none) next := by
  have hcmd : CommandAccepted (Allowed transcript) task command := by
    cases command with
    | data offset data permit leaseKey => exact hret.elim
    | _ => trivial
  have hwith := (process_moves_accepted h.within hcmd).within next hok
  have hmiss : ∀ b v, ¬ next.cache.Buffers key b v := fun b v =>
    not_buffers_of_retires h.within_owned hret hok
  constructor
  · refine ⟨fun other b v hb => ?_, fun offset data hsing b v hv => ?_, hwith.cursor⟩
    · have ho : other ≠ key := by
        rintro rfl
        exact hmiss b v hb
      obtain ⟨sent, hsent, hputs⟩ := hwith.cached other b v hb
      exact ⟨sent, by rwa [update_of_ne ho], hputs⟩
    · intro other sent hsent
      by_cases ho : other = key
      · subst ho
        simp at hsent
      · rw [update_of_ne ho] at hsent
        exact hwith.single offset data hsing b v hv other sent hsent
  · intro other
    rw [hact, getElem?_erase_eq]
    by_cases ho : other = key
    · simp [ho]
    · simp [ho, h.active]
  · exact h.apart_update (by rintro _ ⟨⟩)
  · intro other sent hsent
    by_cases ho : other = key
    · simp [ho] at hsent
    · have hsame := hsent
      rw [update_of_ne ho] at hsame
      have hnot : ¬ Retires other command := by
        cases command with
        | flushLease third ack | discardLease third ack =>
          rintro rfl
          exact ho hret
        | _ => exact id
      refine (h.carries hsame hcmd hnot hok).retarget fun b hlo hhi v howned => ?_
      exact ⟨some other, sent, hsent, h.puts_of_owned hsame hlo hhi howned⟩

theorem Tracks.keep (hcmd : CommandAccepted (Allowed transcript) task command)
    (hret : ∀ key, ¬ Retires key command) (hok : task.process command = .ok next)
    (hact : next.activeLeases = task.activeLeases) : Tracks transcript next where
  within := (process_moves_accepted h.within hcmd).within next hok
  active key := hact ▸ h.active key
  apart := h.apart
  carried key _ hsent := h.carries hsent hcmd (hret key) hok

theorem Tracks.begin (hnone : transcript key = none) :
    Tracks (update transcript key (some ⟨0, []⟩))
      { task with activeLeases := task.activeLeases.insert key none } := by
  have hputs : ∀ other sent b v, update transcript key (some ⟨0, []⟩) other = some sent →
      sent.Puts b v → transcript other = some sent := by
    intro other sent b v hsent hv
    by_cases ho : other = key
    · subst ho
      simp only [update_self, some.injEq] at hsent
      subst hsent
      exact absurd hv not_lays_nil
    · rwa [update_of_ne ho] at hsent
  have hallow : ∀ leaseKey b v, Allowed transcript leaseKey b v →
      Allowed (update transcript key (some ⟨0, []⟩)) leaseKey b v := by
    intro leaseKey b v hv
    cases leaseKey with
    | none =>
      intro other sent hsent w hw
      exact hv other sent (hputs other sent b w hsent hw) w hw
    | some other =>
      obtain ⟨sent, hsent, hlays⟩ := hv
      have ho : other ≠ key := by
        rintro rfl
        rw [hnone] at hsent
        cases hsent
      exact ⟨sent, by rwa [update_of_ne ho], hlays⟩
  have hwith := h.within.mono hallow
  constructor
  · exact ⟨hwith.cached, hwith.single, hwith.cursor⟩
  · intro other
    rw [getElem?_insert_eq]
    by_cases ho : other = key
    · simp [ho, Sent.expected]
    · simp [ho, h.active]
  · intro first second sent sent' hne hsent hsent' b v w hv hw
    exact h.apart first second sent sent' hne (hputs first sent b v hsent hv)
      (hputs second sent' b w hsent' hw) b v w hv hw
  · intro other sent hsent
    by_cases ho : other = key
    · subst ho
      simp only [update_self, some.injEq] at hsent
      subst hsent
      refine ⟨TreeMap.mem_insert_self, fun b hlo hhi => ?_⟩
      exact absurd hhi (Nat.not_lt_zero b)
    · rw [update_of_ne ho] at hsent
      have hcarr := h.carried other sent hsent
      have hretarget : Carries (Owned (update transcript key (some ⟨0, []⟩))) task other
          sent.start sent.stop :=
        hcarr.retarget fun b _ _ v ⟨leaseKey, hv⟩ => ⟨leaseKey, hallow leaseKey b v hv⟩
      exact ⟨TreeMap.mem_insert.mpr (.inr hretarget.active), hretarget.delivered⟩

omit h in
theorem yieldSingle_keyed (h : task.yieldSingle offset data (some key) = .ok next)
    (hdata : data ≠ []) : next.single = none := by
  unfold yieldSingle at h
  split at h
  · obtain ⟨mid, hfl, hmid⟩ := bind_eq_ok h
    cases hmid
    have hnone := (flushSingle_same hfl).single
    exact hnone
  · rename_i hnot
    cases h
    cases hsing : task.single with
    | none => rfl
    | some buffer => simp [hdata, hsing] at hnot

omit h in
private theorem bufferActive_ok {expected : Option Nat}
    (h : task.bufferActive key expected offset data = .ok next) (hdata : data ≠ []) :
    (∀ stop, expected = some stop → offset = stop) ∧
      next.activeLeases = task.activeLeases.insert key (some (offset + data.length)) := by
  unfold bufferActive at h
  rw [if_neg hdata] at h
  split at h
  · cases h
  rename_i hexp
  split at h
  · cases h
  · cases h
    refine ⟨?_, rfl⟩
    rintro stop rfl
    by_contra hne
    exact hexp (by simpa using Ne.symm hne)

theorem Tracks.stages (hsent : transcript key = some sent)
    (hdata : data ≠ []) (hok : task.processData offset data permit (some key) = .ok next) :
    ∃ first third, task.yieldSingle offset data (some key) = .ok first ∧
      (first.holdPermit (some key) permit).bufferData offset data (some key) = .ok third ∧
      third.flushAllWhen (third.cacheHighWatermark ≤ third.cache.totalBytes + third.singleBytes) =
        .ok next ∧
      (sent.data = [] ∨ offset = sent.stop) ∧
      third.activeLeases = task.activeLeases.insert key (some (offset + data.length)) := by
  obtain ⟨first, hfst, hok⟩ := bind_eq_ok hok
  obtain ⟨second, hsnd, hok⟩ := bind_eq_ok hok
  obtain ⟨third, hthird, hlast⟩ := bind_eq_ok hok
  cases hsnd
  have hact : (first.holdPermit (some key) permit).activeLeases[key]? = some sent.expected := by
    change first.activeLeases[key]? = _
    rw [(yieldSingle_shape hfst).2, h.active, hsent]
    rfl
  have hbuf := hthird
  simp only [bufferData, hact] at hbuf
  obtain ⟨hoff, hls⟩ := bufferActive_ok hbuf hdata
  refine ⟨first, third, hfst, hthird, hlast, ?_, ?_⟩
  · by_cases hemp : sent.data = []
    · exact .inl hemp
    · exact .inr (hoff sent.stop (if_neg hemp))
  · rw [hls]
    exact congrArg (TreeMap.insert · key _) (yieldSingle_shape hfst).2

theorem Tracks.send (hsent : transcript key = some sent)
    (hdata : data ≠ []) (hclear : ∀ other sent', key ≠ other → transcript other = some sent' →
      ∀ b v w, Lays offset data b v → ¬ sent'.Puts b w)
    (hok : task.processData offset data permit (some key) = .ok next) :
    Tracks (update transcript key (some (sent.extend offset data))) next := by
  obtain ⟨first, third, hfst, hthird, hlast, hoff, hls⟩ := h.stages hsent hdata hok
  obtain ⟨hcache, hact⟩ := yieldSingle_shape hfst
  have hyield : Moves (Allowed transcript) task (task.yieldSingle offset data (some key)) :=
    yieldSingle_moves h.within
  have hyieldOwned : Moves (fun _ => Owned transcript) task
      (task.yieldSingle offset data (some key)) := yieldSingle_moves h.within_owned
  generalize htranscript : update transcript key (some (sent.extend offset data)) = transcript'
  have hself : transcript' key = some (sent.extend offset data) := by simp [← htranscript]
  have ho : ∀ other, other ≠ key → transcript' other = transcript other := by
    intro other hne
    rw [← htranscript, update_of_ne hne]
  have hallow : ∀ other b v, Allowed transcript (some other) b v →
      Allowed transcript' (some other) b v := by
    rintro other b v ⟨old, hold, hputs⟩
    by_cases hkey : other = key
    · subst hkey
      obtain rfl := some.inj (hsent.symm.trans hold)
      exact ⟨_, hself, (Sent.puts_extend hoff).mpr (.inl hputs)⟩
    · exact ⟨old, (ho other hkey).trans hold, hputs⟩
  have hwithin₁ := hyield.within first hfst
  have hheld : Within (Allowed transcript') (first.holdPermit (some key) permit) := by
    refine ⟨fun other b v hb => hallow other b v (hwithin₁.cached other b v hb), ?_,
      hwithin₁.cursor⟩
    intro start buffered hsing
    have hnone := yieldSingle_keyed hfst hdata
    exact absurd (hnone.symm.trans hsing) (by simp)
  have hnew : ∀ b v, Lays offset data b v → Allowed transcript' (some key) b v :=
    fun b v hv => ⟨_, hself, (Sent.puts_extend hoff).mpr (.inr hv)⟩
  have howned : ∀ {task : WriterTask}, Within (Allowed transcript') task →
      Within (fun _ => Owned transcript') task :=
    fun hwith => hwith.mono fun leaseKey _ _ hv => ⟨leaseKey, hv⟩
  have hbuf : Moves (Allowed transcript') (first.holdPermit (some key) permit) (.ok third) := by
    rw [← hthird]
    apply bufferData_moves hheld (fun _ => hnew)
    intro start buffered _ hsing
    exact absurd ((yieldSingle_keyed hfst hdata).symm.trans hsing) (by simp)
  have hbufferOwned : ∀ b, first.file.image.Good (Owned transcript') b →
      third.file.image.Good (Owned transcript') b := fun b =>
    hbuf.good fun leaseKey _ _ hv => ⟨leaseKey, hv⟩
  have hwithin₃ := hbuf.within third rfl
  have hcarry : ∀ other lo hi reach, Carries (Owned transcript') first other lo hi →
      (reach = hi ∨ (some key = some other ∧ offset = hi ∧ reach = hi + data.length)) →
      Carries (Owned transcript') next other lo reach := by
    intro other lo hi reach hcarr hr
    have hheldCarries : Carries (Owned transcript') (first.holdPermit (some key) permit) other
        lo hi := ⟨hcarr.active, hcarr.delivered⟩
    have hthirdCarries := bufferData_carries hheldCarries hbufferOwned hr hthird
    obtain ⟨hsame, hdels⟩ := flushAllWhen_spec (howned hwithin₃) hlast
    have hfl := flushAllWhen_moves (howned hwithin₃)
      (decide (third.cacheHighWatermark ≤ third.cache.totalBytes + third.singleBytes))
    exact hthirdCarries.keep hsame (fun b => (hlast ▸ hfl).good_ok) (hdels other)
  constructor
  · exact (flushAllWhen_moves hwithin₃ _).within next hlast
  · intro other
    rw [flushAllWhen_active hlast, hls, getElem?_insert_eq]
    by_cases hkey : other = key
    · rw [if_pos hkey, hkey, hself, map_some, Sent.expected_extend hdata hoff]
    · rw [if_neg hkey, h.active, ho other hkey]
  · rw [← htranscript]
    apply h.apart_update
    rintro _ ⟨⟩ other old hne hold b v w hv
    rcases (Sent.puts_extend hoff).mp hv with hv | hv
    · exact h.apart key other sent old hne.symm hsent hold b v w hv
    · exact hclear other old hne.symm hold b v w hv
  · have hcarried₁ : ∀ other old, transcript other = some old →
        Carries (Owned transcript') first other old.start old.stop := by
      intro other old hold
      have hcarr : Carries (Owned transcript) first other old.start old.stop := by
        apply (h.carried other old hold).keep hact
        · exact fun b => (hfst ▸ hyieldOwned).good_ok
        · exact fun b v hv => .inr (hcache ▸ hv)
      refine hcarr.retarget fun b hlo hhi v hv => ⟨some other, hallow other b v ?_⟩
      exact ⟨old, hold, h.puts_of_owned hold hlo hhi hv⟩
    intro other old hold
    by_cases hkey : other = key
    · subst hkey
      obtain rfl := some.inj (hself.symm.trans hold)
      have hcarr := hcarried₁ other sent hsent
      unfold Sent.extend
      split
      · apply hcarry other offset offset _ ⟨hcarr.active, fun b hlo hhi => by omega⟩
        exact .inr ⟨rfl, rfl, rfl⟩
      · rename_i hsome
        obtain rfl := hoff.resolve_left hsome
        apply hcarry other sent.start sent.stop _ hcarr
        simp [Sent.stop, Nat.add_assoc]
    · exact hcarry other old.start old.stop _
        (hcarried₁ other old ((ho other hkey).symm.trans hold)) (.inl rfl)

omit h in
theorem processData_active {leaseKey : Option LeaseKey}
    (hok : task.processData offset data permit leaseKey = .ok next)
    (hqt : data = [] ∨ ∀ key, leaseKey = some key → task.activeLeases[key]? = none) :
    next.activeLeases = task.activeLeases := by
  obtain ⟨first, hfst, hok⟩ := bind_eq_ok hok
  obtain ⟨second, hsnd, hok⟩ := bind_eq_ok hok
  obtain ⟨third, hthird, hlast⟩ := bind_eq_ok hok
  have hsame : second.activeLeases = task.activeLeases :=
    (flushAllWhen_active hsnd).trans (yieldSingle_shape hfst).2
  rw [flushAllWhen_active hlast, ← hsame]
  unfold bufferData at hthird
  cases leaseKey with
  | none => exact (bufferSingle_shape hthird).2
  | some key =>
    dsimp only at hthird
    split at hthird
    · rename_i expected hact
      rcases hqt with hnil | hnone
      · unfold bufferActive at hthird
        rw [if_pos hnil] at hthird
        cases hthird
        rfl
      · have hactive' : second.activeLeases[key]? = some expected := hact
        rw [hsame, hnone key rfl] at hactive'
        cases hactive'
    · cases hthird
      rfl

omit h in
private theorem syncFile_active (hok : task.syncFile = .ok next) :
    next.activeLeases = task.activeLeases := by
  unfold syncFile at hok
  split at hok <;> cases hok
  rfl

theorem Tracks.step (hclear : transcript.Clear command)
    (hbegin : ∀ key, command = .beginLease key → transcript key = none)
    (hok : task.process command = .ok next) : Tracks (transcript.step command) next := by
  cases command with
  | beginLease key =>
    cases hok
    exact h.begin (hbegin key rfl)
  | data offset data permit leaseKey =>
    have hqt : (data = [] ∨ ∀ key, leaseKey = some key → transcript key = none) →
        Tracks transcript next := by
      intro hqt
      have hcmd : CommandAccepted (Allowed transcript) task
          (.data offset data permit leaseKey : WriterCommand α) := by
        intro haccs b v hv
        rcases hqt with rfl | hnone
        · exact absurd hv not_lays_nil
        · cases leaseKey with
          | some key =>
            have hadm := h.accepts_iff.mp haccs key rfl
            rw [hnone key rfl] at hadm
            cases hadm
          | none =>
            exact fun other sent hsent w => hclear (by rintro _ ⟨⟩) other sent (by simp) hsent
              b v w hv
      apply h.keep hcmd (fun _ => id) hok
      apply processData_active hok
      exact hqt.imp_right fun hnone key hkey => by rw [h.active, hnone key hkey]; rfl
    cases leaseKey with
    | none => exact hqt (.inr (by rintro _ ⟨⟩))
    | some key =>
      cases hsent : transcript key with
      | none =>
        simp only [Transcript.step, hsent]
        exact hqt (.inr fun other ho => some.inj ho ▸ hsent)
      | some sent =>
        by_cases hdata : data = []
        · simp only [Transcript.step, hsent, if_pos hdata]
          exact hqt (.inl hdata)
        · simp only [Transcript.step, hsent, if_neg hdata]
          refine h.send hsent hdata ?_ hok
          intro other old hne hold
          exact hclear (by rintro _ ⟨⟩; simp [hsent]) other old (by simpa using hne) hold
  | flushLease key ack =>
    refine h.retire (show Retires key (.flushLease key ack) from rfl) hok ?_
    obtain ⟨mid, hfl, hmid⟩ := bind_eq_ok hok
    have hsame := (flushLease_spec h.within_owned hfl).2.1
    cases hmid
    rw [hsame]
  | discardLease key ack =>
    refine h.retire (show Retires key (.discardLease key ack) from rfl) hok ?_
    cases hok
    rfl
  | flushAll syncData ack =>
    refine h.keep (show CommandAccepted _ _ (.flushAll syncData ack) from trivial) (fun _ => id)
      hok ?_
    obtain ⟨mid, hfl, hmid⟩ := bind_eq_ok hok
    rw [← (flushAll_same hfl).activeLeases]
    cases syncData with
    | true => exact syncFile_active hmid
    | false =>
      cases hmid
      rfl

omit h

/-! ## Whole sequences -/

/-- Each key is begun at most once, and data to be written stays clear of other leases. -/
structure Isolated (commands : List (WriterCommand α)) : Prop where
  begun : (Transcript.begun commands).Nodup
  clears : Transcript.empty.Clears commands

theorem clears_append : ∀ {transcript : Transcript}, transcript.Clears (first ++ second) ↔
      transcript.Clears first ∧ (first.foldl Transcript.step transcript).Clears second := by
  induction first with
  | nil => simp [Clears]
  | cons command first ih =>
    intro transcript
    simp only [cons_append, Clears, foldl_cons, ih, and_assoc]

theorem Isolated.of_append (h : Isolated (first ++ second)) : Isolated first := by
  constructor
  · have hnodup := h.begun
    rw [Transcript.begun, filterMap_append] at hnodup
    exact hnodup.of_append_left
  · exact (clears_append.mp h.clears).1

theorem Isolated.clear (h : Isolated (before ++ command :: rest)) :
    (Transcript.after before).Clear command :=
  (clears_append.mp h.clears).2.1

private theorem Isolated.begins (h : Isolated (before ++ command :: rest))
    (hbegin : command = .beginLease key) : Transcript.after before key = none := by
  rw [← not_isSome_iff_eq_none]
  intro hact
  have hnodup := h.begun
  subst hbegin
  rw [Transcript.begun, filterMap_append, nodup_append] at hnodup
  exact hnodup.2.2 key (begun_of_active hact) key (by simp) rfl

theorem Isolated.step (h : Isolated (before ++ command :: rest))
    (htracks : Tracks (Transcript.after before) task) (hok : task.process command = .ok next) :
    Tracks (Transcript.after (before ++ [command])) next := by
  rw [after_snoc]
  exact htracks.step h.clear (fun key hbegin => h.begins hbegin) hok

private theorem Isolated.tracks {commands : List (WriterCommand α)} :
    Isolated commands → ∀ {task}, (WriterTask.new file watermark).runCommands commands = .ok task →
      Tracks (Transcript.after commands) task := by
  induction commands using reverseRecOn with
  | nil =>
    intro _ task hrun
    cases hrun
    exact .new
  | append_singleton commands command ih =>
    intro h task hrun
    rw [runCommands_append] at hrun
    obtain ⟨mid, hmid, hlast⟩ := bind_eq_ok hrun
    obtain ⟨last, hproc, hdone⟩ := bind_eq_ok hlast
    cases hdone
    exact h.step (ih h.of_append hmid) hproc

/-- Some chunk of the sequence, unkeyed or of a lease active at the time, puts `v` at `b`. -/
def Accepted (commands : List (WriterCommand α)) (leaseKey : Option LeaseKey) (b : Nat)
    (v : UInt8) : Prop :=
  ∃ before offset data permit rest,
    commands = before ++ .data offset data permit leaseKey :: rest ∧
      (Transcript.after before).Admits leaseKey ∧ Lays offset data b v

theorem Isolated.moves {P : Allowance} :
    ∀ (before : List (WriterCommand α)) {task : WriterTask}, Isolated (before ++ rest) →
      Tracks (Transcript.after before) task → Within P task →
      (∀ middle offset data permit leaseKey after,
        rest = middle ++ .data offset data permit leaseKey :: after →
        (Transcript.after (before ++ middle)).Admits leaseKey →
        ∀ b v, Lays offset data b v → P leaseKey b v) →
      Moves P task (task.runCommands rest) := by
  induction rest with
  | nil => exact fun _ _ _ _ hwith _ => .ok hwith rfl
  | cons command rest ih =>
    intro before task h htracks hwith hallow
    have hcmd : CommandAccepted P task command := by
      cases command with
      | data offset data permit leaseKey =>
        intro haccs
        apply hallow [] offset data permit leaseKey rest rfl
        rw [append_nil]
        exact htracks.accepts_iff.mp haccs
      | _ => trivial
    have hmv := process_moves_accepted hwith hcmd
    apply hmv.bind
    intro mid hmid
    have hrest : Isolated ((before ++ [command]) ++ rest) := by simpa using h
    apply ih (before ++ [command]) hrest (h.step htracks hmid) (hmv.within mid hmid)
    intro middle offset data permit leaseKey after heq
    simpa using hallow (command :: middle) offset data permit leaseKey after (by rw [heq]; rfl)

variable (h : Tracks transcript task)
include h

private theorem Tracks.not_buffers (hnone : transcript key = none) {b : Nat}
    {v : UInt8} : ¬ task.cache.Buffers key b v := by
  intro hb
  obtain ⟨sent, hsent, -⟩ := h.within.cached key b v hb
  rw [hnone] at hsent
  cases hsent

omit h in
private theorem Isolated.within_accepted (h : Isolated (before ++ rest))
    (hrun : (WriterTask.new file watermark).runCommands before = .ok task) :
    Within (Accepted (before ++ rest)) task := by
  have hmv : Moves (Accepted (before ++ rest)) (WriterTask.new file watermark)
      ((WriterTask.new file watermark).runCommands before) := by
    apply Isolated.moves []
    · exact h.of_append
    · exact .new
    · exact .new file watermark
    · intro middle offset data permit leaseKey after heq hadm b v hv
      exact ⟨middle, offset, data, permit, after ++ rest, by simp [heq], hadm, hv⟩
  exact hmv.within task hrun

/-! ## What isolation comes to -/

theorem Tracks.flushed {ack : α} (hsent : transcript key = some sent)
    (hok : task.process (.flushLease key ack) = .ok next)
    (hacc : next.file.perform.refused = false) :
    (next.file.perform.content.drop sent.start).take sent.data.length = sent.data := by
  rw [← (AsyncFile.perform_intact hacc).content]
  apply ext_getElem?
  intro i
  by_cases hi : i < sent.data.length
  · have hhi : sent.start + i < sent.stop := Nat.add_lt_add_left hi _
    obtain ⟨-, v, hv, howned⟩ := process_flushLease_delivers h.within_owned
      (h.carried key sent hsent) hok (Nat.le_add_right _ _) hhi
    have hputs := h.puts_of_owned hsent (Nat.le_add_right _ _) hhi howned
    have hbyte := hputs.2
    rw [Nat.add_sub_cancel_left] at hbyte
    rw [getElem?_take_of_lt hi, getElem?_drop, hv, hbyte]
  · rw [getElem?_eq_none (by simp; omega), getElem?_eq_none (by omega)]

private theorem Tracks.refuses (hsent : transcript key = some sent)
    (hsome : sent.data ≠ []) (hdata : data ≠ []) (hoff : offset ≠ sent.stop) :
    ∃ failure, task.processData offset data permit (some key) = .error failure := by
  cases hok : task.processData offset data permit (some key) with
  | error failure => exact ⟨failure, rfl⟩
  | ok next =>
    obtain ⟨-, -, -, -, -, hstop, -⟩ := h.stages hsent hdata hok
    exact absurd (hstop.resolve_left hsome) hoff

/-- A command that is not for `key` keeps the bytes that `key` has sent, or writes them. -/
theorem Tracks.frame (hclear : transcript.Clear command) (hsent : transcript key = some sent)
    (ho : ∀ offset data permit, command ≠ .data offset data permit (some key)) {b : Nat}
    {u v : UInt8} (hv : sent.Puts b v) (hu : task.file.perform.content[b]? = some u) :
    (task.process command).last.file.perform.content[b]? = some u ∨
      (task.process command).last.file.perform.content[b]? = some v := by
  let P : Allowance := fun leaseKey b' w => Allowed transcript leaseKey b' w ∨ (b' = b → False)
  have hcmd : CommandAccepted P task command := by
    cases command with
    | data offset data permit leaseKey =>
      intro haccs b' w hw
      right
      rintro rfl
      have hne : leaseKey ≠ some key := by
        rintro rfl
        exact ho offset data permit rfl
      exact hclear (h.accepts_iff.mp haccs) key sent hne hsent b' w v hw hv
    | _ => trivial
  have hmv := process_moves_accepted (h.within.mono fun _ _ _ => Or.inl) hcmd
  apply hmv.stores.get _ hu
  rintro w ⟨leaseKey, hallow | hnot⟩
  · have hputs := h.puts_of_owned hsent hv.1 hv.lt ⟨leaseKey, hallow⟩
    exact some.inj (hputs.2.symm.trans hv.2)
  · exact (hnot rfl).elim

omit h

/-- An acknowledged flush leaves exactly what the lease has sent in the file once the queued block
is performed, if nothing else was sent there; only accepted bytes are handed over, of a discarded
lease none; and a chunk that does not continue its lease makes the writer fail. -/
theorem writer_isolates_leases (file : DiskFile) (watermark : Nat)
    {before rest : List (WriterCommand α)} {command : WriterCommand α}
    (hisolated : Isolated (before ++ command :: rest))
    (hrun : (WriterTask.new file watermark).runCommands before = .ok task) :
    (∀ key ack sent next, command = .flushLease key ack →
      Transcript.after before key = some sent → task.process command = .ok next →
      next.file.perform.refused = false →
      (next.file.perform.content.drop sent.start).take sent.data.length = sent.data) ∧
    AsyncFile.Stores (fun b v => ∃ leaseKey, Accepted (before ++ command :: rest) leaseKey b v)
      (.ofDisk file)
      ((WriterTask.new file watermark).runCommands (before ++ command :: rest)).last.file ∧
    (∀ key ack next, command = .discardLease key ack → key ∈ Transcript.begun before →
      task.process command = .ok next →
      AsyncFile.Stores (fun b v => ∃ leaseKey, leaseKey ≠ some key ∧
        Accepted (before ++ command :: rest) leaseKey b v) next.file
          (next.runCommands rest).last.file) ∧
    (∀ key offset data permit sent, command = .data offset data permit (some key) →
      Transcript.after before key = some sent → sent.data ≠ [] → data ≠ [] →
      offset ≠ sent.start + sent.data.length →
      ∃ failure, task.process command = .error failure) ∧
    ∀ key sent, Transcript.after before key = some sent →
      (∀ offset data permit, command ≠ .data offset data permit (some key)) →
      ∀ b u v, Lays sent.start sent.data b v → task.file.perform.content[b]? = some u →
        (task.process command).last.file.perform.content[b]? = some u ∨
          (task.process command).last.file.perform.content[b]? = some v := by
  have htracks := Isolated.tracks hisolated.of_append hrun
  refine ⟨?_, ?_, ?_, ?_, ?_⟩
  · rintro key ack sent next rfl hsent hok hacc
    exact htracks.flushed hsent hok hacc
  · have hmv : Moves (Accepted (before ++ command :: rest)) (WriterTask.new file watermark)
        ((WriterTask.new file watermark).runCommands (before ++ command :: rest)) := by
      apply Isolated.moves [] hisolated
      · exact .new
      · exact .new file watermark
      · intro middle offset data permit leaseKey after heq hadm b v hv
        exact ⟨middle, offset, data, permit, after, heq, hadm, hv⟩
    exact hmv.stores
  · rintro key ack next rfl hbegun hok
    have hrun' : (WriterTask.new file watermark).runCommands
        (before ++ [.discardLease key ack]) = .ok next := by
      rw [runCommands_append, hrun]
      change task.runCommands [.discardLease key ack] = _
      unfold runCommands
      rw [hok]
      rfl
    have hisolated' : Isolated ((before ++ [.discardLease key ack]) ++ rest) := by
      simpa using hisolated
    have hnone : Transcript.after (before ++ [.discardLease key ack]) key = none := by
      simp [after_snoc, Transcript.step]
    have hnext := hisolated.step htracks hok
    have hwith := hisolated'.within_accepted hrun'
    have hbegun' : key ∈ Transcript.begun (before ++ [.discardLease key ack]) := by
      rw [Transcript.begun, List.filterMap_append]
      exact List.mem_append_left _ hbegun
    have hmv : Moves (fun leaseKey b v => leaseKey ≠ some key ∧
        Accepted (before ++ .discardLease key ack :: rest) leaseKey b v) next
          (next.runCommands rest) := by
      apply Isolated.moves (before ++ [.discardLease key ack]) hisolated' hnext
      · refine ⟨fun other b v hb => ⟨?_, by simpa using hwith.cached other b v hb⟩,
          fun offset data hsing b v hv =>
            ⟨by simp, by simpa using hwith.single offset data hsing b v hv⟩, hwith.cursor⟩
        rintro ⟨⟩
        exact hnext.not_buffers hnone hb
      · intro middle offset data permit leaseKey after heq hadm b v hv
        constructor
        · rintro rfl
          have hnodup : (Transcript.begun
              ((before ++ [.discardLease key ack]) ++ middle)).Nodup := by
            have hprefix : Isolated (((before ++ [.discardLease key ack]) ++ middle) ++
                (.data offset data permit (some key) :: after)) := by
              simpa [heq] using hisolated'
            exact hprefix.of_append.begun
          have hact := hadm key rfl
          rw [inactive_stays hnone hbegun' hnodup] at hact
          cases hact
        · exact ⟨before ++ .discardLease key ack :: middle, offset, data, permit, after,
            by simp [heq], by simpa using hadm, hv⟩
    exact hmv.stores
  · rintro key offset data permit sent rfl hsent hsome hdata hoff
    exact htracks.refuses hsent hsome hdata hoff
  · intro key sent hsent ho b u v hv hu
    exact htracks.frame hisolated.clear hsent ho hv hu

def zeros (length : Nat) : DiskFile :=
  ⟨List.replicate length 0, 0, fun _ => false, fun _ => false, none, none⟩

def twoChunks : List (WriterCommand Unit) :=
  [.beginLease ⟨0, 1⟩, .data 0 [7] none (some ⟨0, 1⟩), .data 1 [8] none (some ⟨0, 1⟩)]

theorem two_chunks_are_flushed :
    ∃ task next : WriterTask, (WriterTask.new (zeros 3) 8).runCommands twoChunks = .ok task ∧
      task.process (.flushLease ⟨0, 1⟩ ()) = .ok next ∧
      next.file.perform.refused = false ∧
      (next.file.perform.content.drop 0).take 2 = [7, 8] := by
  have halone : ∀ (sent : Sent) (other : LeaseKey) (old : Sent), some ⟨0, 1⟩ ≠ some other →
      update Transcript.empty ⟨0, 1⟩ (some sent) other = some old → False := by
    intro sent other old hne hold
    rw [update_of_ne (by simpa using hne.symm)] at hold
    cases hold
  have hiso : Isolated (twoChunks ++ .flushLease ⟨0, 1⟩ () :: []) := by
    refine ⟨by decide, trivial, ?_, ?_, trivial, trivial⟩
    · exact fun _ other sent hne hsent => (halone _ other sent hne hsent).elim
    · intro _ other sent hne hsent
      exact (halone ⟨0, [7]⟩ other sent hne
        (by simpa [Transcript.step, Sent.extend] using hsent)).elim
  have hview : ((WriterTask.new (zeros 3) 8).runCommands
      (twoChunks ++ [.flushLease ⟨0, 1⟩ ()])).toOption.map (fun task =>
        task.file.perform.refused) = some false := by decide
  rw [runCommands_append] at hview
  cases hrun : (WriterTask.new (zeros 3) 8).runCommands twoChunks with
  | error failure =>
    rw [hrun] at hview
    cases hview
  | ok task =>
    rw [hrun] at hview
    cases hok : task.process (.flushLease ⟨0, 1⟩ () : WriterCommand Unit) with
    | error failure =>
      change (task.process (.flushLease ⟨0, 1⟩ () : WriterCommand Unit) >>= fun task =>
        task.runCommands []).toOption.map _ = some false at hview
      rw [hok] at hview
      cases hview
    | ok next =>
      change (task.process (.flushLease ⟨0, 1⟩ () : WriterCommand Unit) >>= fun task =>
        task.runCommands []).toOption.map _ = some false at hview
      rw [hok] at hview
      have hacc : next.file.perform.refused = false := Option.some.inj hview
      exact ⟨task, next, rfl, hok, hacc, (writer_isolates_leases (zeros 3) 8 hiso hrun).1
        ⟨0, 1⟩ () ⟨0, [7, 8]⟩ next rfl (by decide) hok hacc⟩

/-- Unkeyed data may overwrite a flushed lease, a chunk of one lease may write another one's data,
and the device may refuse a block after its flush was acknowledged. -/
theorem leases_meet_in_the_file : ((WriterTask.new (zeros 1) 1).runCommands
      [.beginLease ⟨0, 1⟩, .data 0 [1] none (some ⟨0, 1⟩), .data 0 [2] none none,
        (.flushLease ⟨0, 1⟩ () : WriterCommand Unit)]).toOption.map
          (fun task => task.file.perform.content) = some [2] ∧
    ((WriterTask.new (zeros 2) 2).runCommands [.beginLease ⟨0, 1⟩, .beginLease ⟨0, 2⟩,
        (.data 1 [9] none (some ⟨0, 2⟩) : WriterCommand Unit)]).toOption.map
          (fun task => (task.file.perform.content, (task.process
            (.data 0 [7] none (some ⟨0, 1⟩) : WriterCommand Unit)).last.file.perform.content)) =
      some ([0, 0], [7, 9]) ∧
    ((WriterTask.new { zeros 1 with writeBudget := some 0 } 2).runCommands
      [.beginLease ⟨0, 1⟩, .data 0 [1] none (some ⟨0, 1⟩),
        (.flushLease ⟨0, 1⟩ () : WriterCommand Unit)]).toOption.map
          (fun task => (task.file.content, task.file.perform.content)) = some ([0], [0]) := by
  decide

end WriterTask

end Bytehaul.Storage
