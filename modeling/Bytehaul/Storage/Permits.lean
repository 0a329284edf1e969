import Bytehaul.Storage.Delivery

/-!
# Permits of the writer task

A chunk comes with as many permits as it has bytes; the writer gives them back when the
bytes leave its buffers.
-/

namespace Bytehaul.Storage

open Foundation Std List WriteBackCache

namespace WriteBackCache

def bytesOf (cache : WriteBackCache) (key : LeaseKey) : Nat :=
  cache.pieces[key]?.elim 0 fun entry => entry.data.length

def stored (cache : WriteBackCache) : Nat :=
  (cache.pieces.toList.map fun item => item.2.data.length).sum

def Counted (cache : WriteBackCache) : Prop := cache.totalBytes = cache.stored

variable {cache next : WriteBackCache} {key other : LeaseKey} {offset : Nat} {data : List UInt8}

theorem counted_new : Counted new := by
  have hemp : (∅ : TreeMap LeaseKey PieceCacheEntry).toList = [] := rfl
  simp [Counted, new, stored, hemp]

@[simp] theorem bytesOf_new : new.bytesOf key = 0 := by
  simp [bytesOf, new]

theorem stored_erase (cache : WriteBackCache) (key : LeaseKey) (total : Nat) :
    cache.bytesOf key + stored ⟨cache.pieces.erase key, total⟩ = cache.stored := by
  cases he : cache.pieces[key]? with
  | none =>
    have hperm := (toList_erase_perm_of_none he).map fun item => item.2.data.length
    rw [bytesOf, he, stored, hperm.sum_nat]
    exact Nat.zero_add _
  | some entry =>
    have hperm := (toList_perm_cons_erase he).map fun item => item.2.data.length
    rw [bytesOf, he, stored, stored, hperm.sum_nat]
    rfl

private theorem stored_insert (cache : WriteBackCache) (key : LeaseKey) (entry : PieceCacheEntry)
    (total rest : Nat) : stored ⟨cache.pieces.insert key entry, total⟩ =
      entry.data.length + stored ⟨cache.pieces.erase key, rest⟩ := by
  have hperm := (toList_insert_perm_cons_erase cache.pieces key entry).map
    fun item => item.2.data.length
  rw [stored, hperm.sum_nat]
  rfl

theorem Counted.insert (h : cache.Counted) (hok : cache.insert key offset data = .ok next) :
    next.Counted ∧ next.totalBytes = cache.totalBytes + data.length ∧
      ∀ other,
        next.bytesOf other = cache.bytesOf other + if other = key then data.length else 0 := by
  unfold WriteBackCache.insert at hok
  split at hok
  case isTrue hnil =>
    cases hok
    subst hnil
    exact ⟨h, rfl, fun other => by simp⟩
  case isFalse hdata =>
    dsimp only at hok
    split at hok
    · cases hok
    · cases hok
      have hlen : (cache.entryOrInsert key offset).data.length = cache.bytesOf key := by
        unfold entryOrInsert bytesOf
        cases cache.pieces[key]? <;> rfl
      refine ⟨?_, rfl, fun other => ?_⟩
      · have hstored := stored_erase cache key 0
        have hins := stored_insert cache key ⟨(cache.entryOrInsert key offset).offset,
          (cache.entryOrInsert key offset).data ++ data⟩ (cache.totalBytes + data.length) 0
        rw [length_append] at hins
        rw [Counted] at h
        rw [Counted]
        simp only
        omega
      · simp only [bytesOf, getElem?_insert_eq]
        by_cases hkey : other = key
        · subst hkey
          rw [if_pos rfl, if_pos rfl]
          change ((cache.entryOrInsert other offset).data ++ data).length = _
          rw [length_append, hlen]
          rfl
        · rw [if_neg hkey, if_neg hkey]
          rfl

theorem Counted.drainLease (h : cache.Counted) (key : LeaseKey) : (cache.drainLease key).2.Counted ∧
      (cache.drainLease key).2.totalBytes + cache.bytesOf key = cache.totalBytes ∧
      ∀ other, (cache.drainLease key).2.bytesOf other =
        if other = key then 0 else cache.bytesOf other := by
  have hstored := stored_erase cache key
  unfold Counted at h ⊢
  unfold WriteBackCache.drainLease
  cases he : cache.pieces[key]? with
  | none =>
    refine ⟨h, ?_, fun other => ?_⟩
    · simp [bytesOf, he]
    · by_cases hkey : other = key
      · subst hkey
        simp [bytesOf, he]
      · simp [hkey]
  | some entry =>
    have hbyt : cache.bytesOf key = entry.data.length := by rw [bytesOf, he]; rfl
    have herase := hstored (cache.totalBytes - entry.data.length)
    refine ⟨?_, ?_, fun other => ?_⟩
    · simp only
      omega
    · simp only
      omega
    · simp only [bytesOf, getElem?_erase_eq]
      by_cases hkey : other = key
      · simp [hkey]
      · simp [hkey]

end WriteBackCache

namespace WriterTask

abbrev Permits := List (Option LeaseKey × Nat)

def held (permits : Permits) : Nat := (permits.map Prod.snd).sum

def heldFor (permits : Permits) (key : Option LeaseKey) : Nat :=
  held (permits.filter fun permit => permit.1 = key)

section Held

variable {permits : Permits} {key : Option LeaseKey}

theorem held_append (first second : Permits) :
    held (first ++ second) = held first + held second := by
  simp [held]

theorem heldFor_append (first second : Permits) :
    heldFor (first ++ second) key = heldFor first key + heldFor second key := by
  rw [heldFor, filter_append, held_append]
  rfl

private theorem held_split (permits : Permits) (keep : Option LeaseKey → Bool) :
    held (permits.filter fun permit => keep permit.1) +
      held (permits.filter fun permit => !keep permit.1) = held permits := by
  induction permits with
  | nil => rfl
  | cons permit permits ih =>
    have hcons : held (permit :: permits) = permit.2 + held permits := rfl
    rw [filter_cons, filter_cons, hcons, ← ih]
    cases keep permit.1 <;> simp [held] <;> omega

theorem held_filter_ne (permits : Permits) (key : Option LeaseKey) :
    held (permits.filter fun permit => permit.1 ≠ key) + heldFor permits key = held permits := by
  have hspl := held_split permits fun other => decide (other ≠ key)
  simpa [heldFor] using hspl

theorem heldFor_filter (permits : Permits) (keep : Option LeaseKey → Bool) :
    heldFor (permits.filter fun permit => keep permit.1) key =
      if keep key then heldFor permits key else 0 := by
  rw [heldFor, filter_filter]
  cases hkeep : keep key with
  | true =>
    congr 1
    refine filter_congr fun permit _ => ?_
    by_cases hkey : permit.1 = key
    · simp [hkey, hkeep]
    · simp [hkey]
  | false =>
    rw [filter_eq_nil_iff.mpr]
    · rfl
    · intro permit _
      by_cases hkey : permit.1 = key
      · simp [hkey, hkeep]
      · simp [hkey]

end Held

/-- The permits held are the bytes buffered, lease by lease and in all. -/
structure Accounted (task : WriterTask) : Prop where
  lease : ∀ key, heldFor task.permits (some key) = task.cache.bytesOf key
  single : heldFor task.permits none = task.singleBytes
  total : held task.permits = task.cache.totalBytes + task.singleBytes
  counted : task.cache.Counted
  inactive : ∀ key, key ∉ task.activeLeases → task.cache.bytesOf key = 0

variable {task next last : WriterTask}

theorem Accounted.same (h : task.Accounted) (hsame : SameBuffers task next) : next.Accounted := by
  have hbyt : next.singleBytes = task.singleBytes := by rw [singleBytes, hsame.single]; rfl
  constructor
  · rw [hsame.permits, hsame.cache]
    exact h.lease
  · rw [hsame.permits, hbyt]
    exact h.single
  · rw [hsame.permits, hsame.cache, hbyt]
    exact h.total
  · rw [hsame.cache]
    exact h.counted
  · rw [hsame.cache, hsame.activeLeases]
    exact h.inactive

theorem accounted_new (file : DiskFile) (watermark : Nat) : (new file watermark).Accounted where
  lease _ := bytesOf_new.symm
  single := rfl
  total := rfl
  counted := counted_new
  inactive _ _ := bytesOf_new

/-- A step of the writer that keeps the books and takes in at most `extra` permits. -/
structure Keeps (task : WriterTask) (extra : Nat) (next : WriterTask) : Prop where
  accounted : next.Accounted
  held : held next.permits ≤ held task.permits + extra
  watermark : next.cacheHighWatermark = task.cacheHighWatermark

theorem Accounted.keeps (h : task.Accounted) : Keeps task 0 task :=
  ⟨h, Nat.le_refl _, rfl⟩

theorem Keeps.trans {first second : Nat} (h : Keeps task first next)
    (hlast : Keeps next second last) : Keeps task (first + second) last where
  accounted := hlast.accounted
  held := by
    have := h.held
    have := hlast.held
    omega
  watermark := hlast.watermark.trans h.watermark

theorem Accounted.dropSingle (h : task.Accounted) (hcache : next.cache = task.cache)
    (hact : next.activeLeases = task.activeLeases) (hsing : next.single = none)
    (hperms : next.permits = task.permits.filter fun permit => permit.1 ≠ none)
    (hwatermark : next.cacheHighWatermark = task.cacheHighWatermark) : Keeps task 0 next := by
  have hbyt : next.singleBytes = 0 := by rw [singleBytes, hsing]; rfl
  have hfor : ∀ key,
      heldFor next.permits key = if key ≠ none then heldFor task.permits key else 0 := fun key => by
      rw [hperms, heldFor_filter _ fun other => decide (other ≠ none)]
      simp
  have hspl := held_filter_ne task.permits none
  rw [← hperms] at hspl
  have htot := h.total
  have hnone := h.single
  refine ⟨⟨fun key => ?_, ?_, ?_, hcache ▸ h.counted, ?_⟩, by omega, hwatermark⟩
  · rw [hfor, if_pos (by simp), hcache]
    exact h.lease key
  · rw [hfor, if_neg (by simp), hbyt]
  · rw [hcache]
    omega
  · rw [hcache, hact]
    exact h.inactive

theorem filter_isSome (permits : Permits) : (permits.filter fun permit => permit.1.isSome) =
      permits.filter fun permit => permit.1 ≠ none :=
  filter_congr fun permit _ => by cases permit.1 <;> rfl

theorem Accounted.releaseSingle (h : task.Accounted) (hok : task.flushSingle = .ok next) :
    Keeps task 0 (next.retainPermits Option.isSome) := by
  have hsame := flushSingle_same hok
  refine h.dropSingle hsame.cache hsame.activeLeases hsame.single ?_ hsame.watermark
  rw [retainPermits, filter_isSome, hsame.permits]

theorem Accounted.dropLease (h : task.Accounted) {key : LeaseKey}
    (hcache : next.cache = (task.cache.drainLease key).2)
    (hact : ∀ other, other ≠ key → other ∉ next.activeLeases → other ∉ task.activeLeases)
    (hsing : next.single = task.single)
    (hperms : next.permits = task.permits.filter fun permit => permit.1 ≠ some key)
    (hwatermark : next.cacheHighWatermark = task.cacheHighWatermark) : Keeps task 0 next := by
  obtain ⟨hcnt, hremoved, hbyt⟩ := h.counted.drainLease key
  have hsame : next.singleBytes = task.singleBytes := by rw [singleBytes, hsing]; rfl
  have hfor : ∀ other, heldFor next.permits other =
      if other ≠ some key then heldFor task.permits other else 0 := fun other => by
    rw [hperms, heldFor_filter _ fun other => decide (other ≠ some key)]
    simp
  have hspl := held_filter_ne task.permits (some key)
  rw [← hperms, h.lease key] at hspl
  have htot := h.total
  refine ⟨⟨fun other => ?_, ?_, ?_, hcache ▸ hcnt, fun other ho => ?_⟩, by omega, hwatermark⟩
  · rw [hfor, hcache, hbyt]
    by_cases hkey : other = key
    · rw [if_neg (by simp [hkey]), if_pos hkey]
    · rw [if_pos (by simp [hkey]), if_neg hkey]
      exact h.lease other
  · rw [hfor, if_pos (by simp), hsame]
    exact h.single
  · rw [hcache]
    omega
  · rw [hcache, hbyt]
    by_cases hkey : other = key
    · rw [if_pos hkey]
    · rw [if_neg hkey]
      exact h.inactive other (hact other hkey ho)

theorem flushAll_keeps (hok : task.flushAll = .ok next) : Keeps task 0 next := by
  have hsame := flushAll_same hok
  refine ⟨Accounted.same ?_ hsame, ?_, hsame.watermark⟩
  · exact ⟨fun _ => bytesOf_new.symm, rfl, rfl, counted_new, fun _ _ => bytesOf_new⟩
  · rw [hsame.permits]
    exact Nat.zero_le _

theorem Accounted.flushAllWhen (h : task.Accounted) {condition : Bool}
    (hok : task.flushAllWhen condition = .ok next) : Keeps task 0 next := by
  unfold WriterTask.flushAllWhen at hok
  split at hok
  · exact flushAll_keeps hok
  · cases hok
    exact h.keeps

theorem Accounted.yieldSingle (h : task.Accounted) {offset : Nat} {data : List UInt8}
    {leaseKey : Option LeaseKey} (hok : task.yieldSingle offset data leaseKey = .ok next) :
    Keeps task 0 next := by
  unfold WriterTask.yieldSingle at hok
  split at hok
  · obtain ⟨mid, hmid, hlast⟩ := bind_eq_ok hok
    cases hlast
    exact h.releaseSingle hmid
  · cases hok
    exact h.keeps

section Data

variable {key : LeaseKey} {offset : Nat} {data : List UInt8}

theorem holdPermit_permits (task : WriterTask) (leaseKey : Option LeaseKey) (bytes : Nat) :
    (task.holdPermit leaseKey (some bytes)).permits = task.permits ++ [(leaseKey, bytes)] := rfl

theorem heldFor_singleton (leaseKey other : Option LeaseKey) (bytes : Nat) :
    heldFor [(leaseKey, bytes)] other = if leaseKey = other then bytes else 0 := by
  by_cases h : leaseKey = other <;> simp [heldFor, held, h]

theorem held_singleton (leaseKey : Option LeaseKey) (bytes : Nat) :
    held [(leaseKey, bytes)] = bytes := rfl

variable (h : task.Accounted)
include h

theorem Accounted.holdNothing (leaseKey : Option LeaseKey) :
    Keeps task 0 (task.holdPermit leaseKey (some 0)) := by
  have hheld := held_append task.permits [(leaseKey, 0)]
  have hfor : ∀ other, heldFor (task.holdPermit leaseKey (some 0)).permits other =
      heldFor task.permits other := fun other => by
    rw [holdPermit_permits, heldFor_append, heldFor_singleton]
    simp
  exact ⟨⟨fun other => (hfor _).trans (h.lease other), (hfor _).trans h.single,
    hheld.trans h.total, h.counted, h.inactive⟩, hheld.le, rfl⟩

theorem Accounted.bufferActive {expected : Option Nat} (hact : key ∈ task.activeLeases)
    (hok : (task.holdPermit (some key) (some data.length)).bufferActive key expected offset data =
      .ok next) : Keeps task data.length next := by
  have hheld := held_append task.permits [(some key, data.length)]
  rw [held_singleton] at hheld
  unfold WriterTask.bufferActive at hok
  split at hok
  case isTrue hnil =>
    cases hok
    subst hnil
    exact h.holdNothing (some key)
  case isFalse hdata =>
    split at hok
    · cases hok
    · split at hok
      · cases hok
      · rename_i cache hins
        cases hok
        obtain ⟨hcnt, htot, hbyt⟩ := h.counted.insert hins
        refine ⟨⟨fun other => ?_, ?_, ?_, hcnt, fun other ho => ?_⟩, hheld.le, rfl⟩
        · change heldFor (task.permits ++ [(some key, data.length)]) (some other) =
            cache.bytesOf other
          rw [heldFor_append, heldFor_singleton, hbyt, h.lease]
          simp [eq_comm]
        · change heldFor (task.permits ++ [(some key, data.length)]) none = task.singleBytes
          rw [heldFor_append, heldFor_singleton, h.single]
          simp
        · change held (task.permits ++ [(some key, data.length)]) =
            cache.totalBytes + task.singleBytes
          rw [hheld, h.total]
          omega
        · have hne : other ≠ key := by
            rintro rfl
            exact ho (by simp [TreeMap.mem_insert])
          rw [hbyt, if_neg hne]
          refine h.inactive other fun hmem => ho ?_
          exact TreeMap.mem_insert.mpr (.inr hmem)

theorem Accounted.refuse (hinactive : key ∉ task.activeLeases) : Keeps task data.length
      ((task.holdPermit (some key) (some data.length)).retainPermits (· ≠ some key)) := by
  have hperms : ((task.holdPermit (some key) (some data.length)).retainPermits
      (· ≠ some key)).permits = task.permits.filter fun permit => permit.1 ≠ some key := by
    rw [retainPermits, holdPermit_permits]
    simp
  have hfor : ∀ other, heldFor ((task.holdPermit (some key) (some data.length)).retainPermits
      (· ≠ some key)).permits other = heldFor task.permits other := fun other => by
    rw [hperms, heldFor_filter _ fun other => decide (other ≠ some key)]
    by_cases hkey : other = some key
    · rw [hkey, h.lease, h.inactive key hinactive]
      simp
    · simp [hkey]
  have hspl := held_filter_ne task.permits (some key)
  rw [h.lease, h.inactive key hinactive, ← hperms] at hspl
  refine ⟨⟨fun other => (hfor _).trans (h.lease other), (hfor _).trans h.single,
    hspl.trans h.total, h.counted, h.inactive⟩, by omega, rfl⟩

theorem Accounted.joinSingle (offset : Nat) :
    Keeps task data.length { task.holdPermit none (some data.length) with
      single := some ((task.single.getD (offset, [])).1,
        (task.single.getD (offset, [])).2 ++ data) } := by
  have hheld := held_append task.permits [(none, data.length)]
  rw [held_singleton] at hheld
  have hlen : ((task.single.getD (offset, [])).2 ++ data).length =
      task.singleBytes + data.length := by
    rw [length_append, singleBytes]
    cases task.single <;> rfl
  refine ⟨⟨fun other => ?_, ?_, ?_, h.counted, h.inactive⟩, hheld.le, rfl⟩
  · change heldFor (task.permits ++ [(none, data.length)]) (some other) = task.cache.bytesOf other
    rw [heldFor_append, heldFor_singleton, if_neg (by simp), h.lease, Nat.add_zero]
  · change heldFor (task.permits ++ [(none, data.length)]) none = (_ ++ data).length
    rw [heldFor_append, heldFor_singleton, if_pos rfl, h.single, hlen]
  · change held (task.permits ++ [(none, data.length)]) = task.cache.totalBytes + (_ ++ data).length
    rw [hheld, hlen, h.total, Nat.add_assoc]

theorem Accounted.bufferSingle
    (hok : (task.holdPermit none (some data.length)).bufferSingle offset data = .ok next) :
    Keeps task data.length next := by
  unfold WriterTask.bufferSingle at hok
  split at hok
  case isTrue hnil =>
    cases hok
    subst hnil
    exact h.holdNothing none
  case isFalse =>
    split at hok
    · obtain ⟨first, hfst, hrest⟩ := bind_eq_ok hok
      obtain ⟨second, hsnd, hlast⟩ := bind_eq_ok hrest
      cases hlast
      have hsame := (flushSingle_same hfst).trans (writeBlock_same hsnd)
      have hkeeps : Keeps task 0 (second.retainPermits Option.isSome) := by
        refine h.dropSingle hsame.cache hsame.activeLeases hsame.single ?_ hsame.watermark
        rw [retainPermits, filter_isSome, hsame.permits]
        change (task.permits ++ [(none, data.length)]).filter _ = _
        simp
      exact ⟨hkeeps.accounted, hkeeps.held.trans (Nat.le_add_right _ _), hkeeps.watermark⟩
    · have hjoined : Keeps task data.length _ := h.joinSingle offset
      unfold appendSingle at hok
      dsimp only at hok
      split at hok
      · obtain ⟨mid, hmid, hlast⟩ := bind_eq_ok hok
        cases hlast
        exact hjoined.trans (hjoined.accounted.releaseSingle hmid)
      · cases hok
        exact hjoined

theorem Accounted.bufferData {leaseKey : Option LeaseKey}
    (hok : (task.holdPermit leaseKey (some data.length)).bufferData offset data leaseKey =
      .ok next) : Keeps task data.length next := by
  unfold WriterTask.bufferData at hok
  cases leaseKey with
  | none => exact h.bufferSingle hok
  | some key =>
    dsimp only at hok
    cases he : (task.holdPermit (some key) (some data.length)).activeLeases[key]? with
    | some expected =>
      rw [he] at hok
      refine h.bufferActive ?_ hok
      exact TreeMap.mem_iff_isSome_getElem?.mpr (by
        change task.activeLeases[key]? = _ at he
        rw [he]
        rfl)
    | none =>
      rw [he] at hok
      cases hok
      refine h.refuse fun hmem => ?_
      change task.activeLeases[key]? = _ at he
      rw [TreeMap.mem_iff_isSome_getElem?, he] at hmem
      exact Bool.noConfusion hmem

theorem Accounted.processData {leaseKey : Option LeaseKey}
    (hok : task.processData offset data (some data.length) leaseKey = .ok next) :
    Keeps task data.length next ∧ (0 < task.cacheHighWatermark →
      next.cache.totalBytes + next.singleBytes < task.cacheHighWatermark) := by
  obtain ⟨first, hfst, hrest⟩ := bind_eq_ok hok
  obtain ⟨second, hsnd, hrest⟩ := bind_eq_ok hrest
  obtain ⟨third, hthird, hlast⟩ := bind_eq_ok hrest
  have hyield := h.yieldSingle hfst
  have hfl := hyield.trans (hyield.accounted.flushAllWhen hsnd)
  have hbuf : Keeps task data.length third := by
    simpa using hfl.trans (hfl.accounted.bufferData hthird)
  refine ⟨hbuf.trans (hbuf.accounted.flushAllWhen hlast), fun hpos => ?_⟩
  unfold WriterTask.flushAllWhen at hlast
  split at hlast
  · have hsame := flushAll_same hlast
    rw [hsame.cache, singleBytes, hsame.single]
    exact hpos
  · rename_i hlow
    cases hlast
    rw [← hbuf.watermark]
    simpa using hlow

end Data

end WriterTask

namespace WriterCommand

variable {α : Type}

/-- Data comes with a permit for each of its bytes. -/
def Backed : WriterCommand α → Prop
  | .data _ bytes permit _ => permit = some bytes.length
  | _ => True

def permitBytes : WriterCommand α → Nat
  | .data _ _ permit _ => permit.getD 0
  | _ => 0

def isData : WriterCommand α → Bool
  | .data _ _ _ _ => true
  | _ => false

end WriterCommand

namespace WriterTask

variable {α : Type} {task next : WriterTask} {cmd : WriterCommand α}

theorem Accounted.process (h : task.Accounted) (hback : cmd.Backed)
    (hok : task.process cmd = .ok next) :
    Keeps task cmd.permitBytes next ∧ (cmd.isData = true → 0 < task.cacheHighWatermark →
      next.cache.totalBytes + next.singleBytes < task.cacheHighWatermark) := by
  cases cmd with
  | beginLease key =>
    cases hok
    refine ⟨⟨⟨h.lease, h.single, h.total, h.counted, fun other ho => ?_⟩, Nat.le_refl _, rfl⟩,
      fun hdata => Bool.noConfusion hdata⟩
    exact h.inactive other fun hmem => ho (TreeMap.mem_insert.mpr (.inr hmem))
  | data offset data permit leaseKey =>
    cases hback
    obtain ⟨hkeeps, hlow⟩ := h.processData hok
    exact ⟨hkeeps, fun _ => hlow⟩
  | flushLease key ack =>
    obtain ⟨mid, hmid, hlast⟩ := bind_eq_ok hok
    cases hlast
    have hsame := flushLease_same hmid
    have hact : mid.activeLeases = task.activeLeases := hsame.activeLeases
    refine ⟨h.dropLease hsame.cache (fun other hne ho hmem => ?_) hsame.single hsame.permits
      hsame.watermark, fun hdata => Bool.noConfusion hdata⟩
    exact ho (mem_erase_of_ne hne (hact ▸ hmem))
  | discardLease key ack =>
    cases hok
    refine ⟨h.dropLease discardLease_snd (fun other hne ho hmem => ?_) rfl rfl
      rfl, fun hdata => Bool.noConfusion hdata⟩
    exact ho (mem_erase_of_ne hne hmem)
  | flushAll syncData ack =>
    obtain ⟨mid, hmid, hlast⟩ := bind_eq_ok hok
    have hkeeps := flushAll_keeps hmid
    refine ⟨?_, fun hdata => Bool.noConfusion hdata⟩
    split at hlast
    · have hsame := syncFile_same hlast
      exact ⟨hkeeps.accounted.same hsame, hsame.permits ▸ hkeeps.held,
        hsame.watermark.trans hkeeps.watermark⟩
    · cases hlast
      exact hkeeps

end WriterTask

end Bytehaul.Storage
