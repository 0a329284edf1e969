import Bytehaul.Foundation.Counting
import Bytehaul.Foundation.Custody
import Bytehaul.Scheduler.Assign

/-!
# Conservation of bytes

In every piece each byte is missing, leased or acknowledged, exactly once. `acked` is the
history of acknowledged spans, which the scheduler does not keep.
-/

namespace Bytehaul.Scheduler

open Foundation List Option PieceRuntimeState Storage Std
open Finset (range)

namespace PieceRuntimeState

def activeSpans (piece : PieceRuntimeState) : List Span :=
  piece.activeLeases.toList.map Prod.snd

/-- A runtime entry on its own: normal form, live leases, and something left to do. -/
structure Valid (piece : PieceRuntimeState) (nextLeaseId : Nat) : Prop where
  normal : Normal piece.missingRanges.ranges
  lease : ∀ (leaseId : Nat) (span : Span), piece.activeLeases[leaseId]? = some span →
    span.start < span.stop ∧ leaseId < nextLeaseId
  busy : piece.missingRanges.ranges ≠ [] ∨ piece.activeSpans ≠ []

variable {piece : PieceRuntimeState}

theorem activeSpans_perm_erase {leaseId : Nat} {span : Span}
    (h : piece.activeLeases[leaseId]? = some span) : piece.activeSpans.Perm
      (span :: (piece.activeLeases.erase leaseId).toList.map Prod.snd) :=
  (toList_perm_cons_erase h).map Prod.snd

theorem mem_activeSpans {leaseId : Nat} {span : Span}
    (h : piece.activeLeases[leaseId]? = some span) : span ∈ piece.activeSpans :=
  mem_map.mpr ⟨(leaseId, span), (mem_toList_iff _ _ _).mpr h, rfl⟩

theorem exists_lease_of_mem {span : Span} (h : span ∈ piece.activeSpans) :
    ∃ leaseId : Nat, piece.activeLeases[leaseId]? = some span := by
  obtain ⟨⟨leaseId, _⟩, hmem, rfl⟩ := mem_map.mp h
  exact ⟨leaseId, (mem_toList_iff _ _ _).mp hmem⟩

end PieceRuntimeState

namespace SchedulerState

variable {sched : SchedulerState} {acked : List Span} {i b : Nat} {piece : PieceRuntimeState}
  {span : Span}

def missingSpans (sched : SchedulerState) (pieceId : Nat) : List Span :=
  match sched.pieces[pieceId]? with
  | some piece => piece.missingRanges.ranges
  | none =>
    if sched.pieceMap.bit pieceId then [] else [sched.pieceMap.pieceRange pieceId]

def activeSpans (sched : SchedulerState) (pieceId : Nat) : List Span :=
  match sched.pieces[pieceId]? with
  | some piece => piece.activeSpans
  | none => []

/-- Missing, leased or acknowledged: each byte of the piece exactly once. -/
def Balanced (sched : SchedulerState) (acked : List Span) (pieceId : Nat) : Prop :=
  ∀ b, hits (sched.missingSpans pieceId) b + hits (sched.activeSpans pieceId) b +
      (if b ∈ sched.pieceMap.pieceRange pieceId then hits acked b else 0) =
    if b ∈ sched.pieceMap.pieceRange pieceId then 1 else 0

structure Conserved (sched : SchedulerState) (acked : List Span) : Prop where
  map : sched.pieceMap.Valid
  runtime : ∀ (i : Nat) (piece : PieceRuntimeState), sched.pieces[i]? = some piece →
    i < sched.pieceMap.pieceCount ∧ sched.pieceMap.bit i = false ∧
      piece.Valid sched.nextLeaseId
  balanced : ∀ i < sched.pieceMap.pieceCount, sched.Balanced acked i
  length_available : sched.availablePieces.length = sched.pieceMap.pieceCount
  available_iff : ∀ i < sched.pieceMap.pieceCount,
    sched.available i = true ↔ sched.missingSpans i ≠ []
  availableRangeCount_eq : sched.availableRangeCount =
    ∑ i ∈ range sched.pieceMap.pieceCount, (sched.missingSpans i).length
  activeLeaseCount_eq : sched.activeLeaseCount =
    ∑ i ∈ range sched.pieceMap.pieceCount, (sched.activeSpans i).length
  candidate_le : sched.nextCandidate ≤ sched.pieceMap.pieceCount

theorem missingSpans_of_runtime (h : sched.pieces[i]? = some piece) :
    sched.missingSpans i = piece.missingRanges.ranges := by
  simp [missingSpans, h]

theorem activeSpans_of_runtime (h : sched.pieces[i]? = some piece) :
    sched.activeSpans i = piece.activeSpans := by
  simp [activeSpans, h]

theorem Conserved.runtimePiece (h : sched.Conserved acked) (hi : i < sched.pieceMap.pieceCount)
    (hbit : sched.pieceMap.bit i = false) :
    (sched.runtimePiece i).missingRanges.ranges = sched.missingSpans i ∧
      (sched.runtimePiece i).activeSpans = sched.activeSpans i ∧
      (sched.runtimePiece i).Valid sched.nextLeaseId := by
  cases hp : sched.pieces[i]? with
  | some piece =>
    simp only [SchedulerState.runtimePiece, missingSpans, activeSpans, hp, getD_some, true_and]
    exact (h.runtime i piece hp).2.2
  | none =>
    have hpos := h.map.pieceRange_nonempty hi
    have hrngs : (sched.runtimePiece i).missingRanges.ranges = [sched.pieceMap.pieceRange i] := by
      simp only [SchedulerState.runtimePiece, hp, getD_none,
        PieceRuntimeState.new, RangeSet.newFull, ByteRange.new, if_pos hpos,
        toList_some]
    have hact : (sched.runtimePiece i).activeSpans = [] := by
      simp only [SchedulerState.runtimePiece, hp, PieceRuntimeState.new,
        PieceRuntimeState.activeSpans, getD_none]
      rfl
    refine ⟨by simp [missingSpans, hp, hbit, hrngs], by
      simp [activeSpans, hp, hact], ?_, ?_, ?_⟩
    · rw [hrngs]
      exact Normal.singleton hpos
    · intro leaseId span hl
      simp [SchedulerState.runtimePiece, hp, PieceRuntimeState.new] at hl
    · simp [hrngs]

theorem missingSpans_insert {next : SchedulerState} (hmap : next.pieceMap = sched.pieceMap)
    (hps : next.pieces = sched.pieces.insert i piece) (j : Nat) : next.missingSpans j =
      if j = i then piece.missingRanges.ranges else sched.missingSpans j := by
  by_cases hj : j = i <;> simp [missingSpans, hps, getElem?_insert_eq, hj, hmap]

/-- A new entry that is valid and balances its piece keeps the invariant. -/
theorem Conserved.replace {next : SchedulerState} {acked' : List Span} (h : sched.Conserved acked)
    (hi : i < sched.pieceMap.pieceCount) (hbit : sched.pieceMap.bit i = false)
    (hmap : next.pieceMap = sched.pieceMap) (hps : next.pieces = sched.pieces.insert i piece)
    (hval : piece.Valid next.nextLeaseId) (hid : sched.nextLeaseId ≤ next.nextLeaseId)
    (hbal : ∀ b, hits piece.missingRanges.ranges b + hits piece.activeSpans b +
        (if b ∈ sched.pieceMap.pieceRange i then hits acked' b else 0) =
      if b ∈ sched.pieceMap.pieceRange i then 1 else 0)
    (hacked : ∀ b, b ∉ sched.pieceMap.pieceRange i → hits acked' b = hits acked b)
    (havl : next.availablePieces = sched.availablePieces.set i (piece.missingRangeCount != 0))
    (hrngs : next.availableRangeCount + (sched.missingSpans i).length =
      sched.availableRangeCount + piece.missingRangeCount)
    (hls : next.activeLeaseCount + (sched.activeSpans i).length =
      sched.activeLeaseCount + piece.activeSpans.length)
    (hcand : next.nextCandidate ≤ sched.pieceMap.pieceCount) :
    next.Conserved acked' := by
  have hmiss := missingSpans_insert hmap hps
  have hact : ∀ j, next.activeSpans j =
      if j = i then piece.activeSpans else sched.activeSpans j := by
    intro j
    by_cases hj : j = i <;> simp [activeSpans, hps, getElem?_insert_eq, hj]
  exact {
    map := hmap ▸ h.map
    runtime := by
      intro j other ho
      rw [hps, getElem?_insert_eq] at ho
      rw [hmap]
      split at ho
      · rename_i hj
        obtain rfl := some.inj ho
        exact ⟨hj ▸ hi, hj ▸ hbit, hval⟩
      · obtain ⟨hlt, hinc, ho⟩ := h.runtime j other ho
        refine ⟨hlt, hinc, ho.normal, ?_, ho.busy⟩
        intro leaseId span hl
        obtain ⟨hpos, hlt⟩ := ho.lease leaseId span hl
        exact ⟨hpos, Nat.lt_of_lt_of_le hlt hid⟩
    balanced := by
      rw [hmap]
      intro j hj b
      rw [hmiss, hact, hmap]
      by_cases hji : j = i
      · rw [if_pos hji, if_pos hji, hji]
        exact hbal b
      · rw [if_neg hji, if_neg hji, ← h.balanced j hj b]
        split
        · rename_i hb
          rw [hacked b]
          intro hb'
          rw [h.map.mem_pieceRange_iff hj] at hb
          rw [h.map.mem_pieceRange_iff hi] at hb'
          exact hji (hb.2.symm.trans hb'.2)
        · rfl
    length_available := by
      rw [havl, length_set, hmap, h.length_available]
    available_iff := by
      rw [hmap]
      intro j hj
      rw [hmiss, available, havl]
      by_cases hji : j = i
      · rw [if_pos hji, hji, getD_eq_getElem?_getD, getElem?_set_self
          (by rw [h.length_available]; exact hi)]
        simp [missingRangeCount, RangeSet.len]
      · rw [if_neg hji, getD_eq_getElem?_getD, getElem?_set_ne (Ne.symm hji),
          ← getD_eq_getElem?_getD]
        exact h.available_iff j hj
    availableRangeCount_eq := by
      have hsum := sum_range_exchange (f := fun j => (sched.missingSpans j).length)
        (g := fun j => (next.missingSpans j).length) hi
        (fun j hj => by rw [hmiss, if_neg hj])
      rw [hmap]
      simp only [← h.availableRangeCount_eq, hmiss i, if_true] at hsum
      change _ + _ = _ + piece.missingRanges.ranges.length at hrngs
      omega
    activeLeaseCount_eq := by
      have hsum := sum_range_exchange (f := fun j => (sched.activeSpans j).length)
        (g := fun j => (next.activeSpans j).length) hi
        (fun j hj => by rw [hact, if_neg hj])
      rw [hmap]
      simp only [← h.activeLeaseCount_eq, hact i, if_true] at hsum
      omega
    candidate_le := hmap ▸ hcand }

def leaseRange (sched : SchedulerState) (key : LeaseKey) : Option Span :=
  (sched.pieces[key.pieceId]?).bind fun piece => piece.activeLeases[key.leaseId]?

/-- The abstract view: which bytes are missing and who holds what. -/
def custody (sched : SchedulerState) : Custody LeaseKey where
  missing := fun b => ∃ i < sched.pieceMap.pieceCount, 0 < hits (sched.missingSpans i) b
  held := sched.leaseRange

theorem mem_custody_missing : b ∈ sched.custody.missing ↔
      ∃ i < sched.pieceMap.pieceCount, 0 < hits (sched.missingSpans i) b := Iff.rfl

theorem leaseRange_eq_some {key : LeaseKey} :
    sched.leaseRange key = some span ↔ ∃ piece, sched.pieces[key.pieceId]? = some piece ∧
      piece.activeLeases[key.leaseId]? = some span := by
  simp [leaseRange, bind_eq_some_iff]

variable (h : sched.Conserved acked)
include h

variable (hi : i < sched.pieceMap.pieceCount)
include hi

theorem Conserved.mem_piece_of_missing (hb : 0 < hits (sched.missingSpans i) b) :
    b ∈ sched.pieceMap.pieceRange i := by
  by_contra hout
  have hbal := h.balanced i hi b
  rw [if_neg hout, if_neg hout] at hbal
  omega

theorem Conserved.mem_piece_of_active (hb : 0 < hits (sched.activeSpans i) b) :
    b ∈ sched.pieceMap.pieceRange i := by
  by_contra hout
  have hbal := h.balanced i hi b
  rw [if_neg hout, if_neg hout] at hbal
  omega

theorem Conserved.piece_unique {j : Nat} (hj : j < sched.pieceMap.pieceCount)
    (hbi : b ∈ sched.pieceMap.pieceRange i) (hbj : b ∈ sched.pieceMap.pieceRange j) : i = j := by
  rw [h.map.mem_pieceRange_iff hi] at hbi
  rw [h.map.mem_pieceRange_iff hj] at hbj
  exact hbi.2.symm.trans hbj.2

theorem Conserved.missing_iff (hb : b ∈ sched.pieceMap.pieceRange i) :
    b ∈ sched.custody.missing ↔ 0 < hits (sched.missingSpans i) b := by
  constructor
  · rintro ⟨j, hj, hmiss⟩
    have hji := h.piece_unique hj hi (h.mem_piece_of_missing hj hmiss) hb
    rwa [hji] at hmiss
  · exact fun hmiss => ⟨i, hi, hmiss⟩

theorem Conserved.hits_missing_iff (b : Nat) : 0 < hits (sched.missingSpans i) b ↔
      b ∈ sched.pieceMap.pieceRange i ∧ b ∈ sched.custody.missing := by
  constructor
  · intro hb
    have hmem := h.mem_piece_of_missing hi hb
    exact ⟨hmem, (h.missing_iff hi hmem).mpr hb⟩
  · rintro ⟨hmem, hb⟩
    exact (h.missing_iff hi hmem).mp hb

omit hi in
theorem Conserved.leaseRange_spec {key : LeaseKey} (hkey : sched.leaseRange key = some span) :
    key.pieceId < sched.pieceMap.pieceCount ∧ key.leaseId < sched.nextLeaseId ∧
      span.start < span.stop ∧ span ∈ sched.activeSpans key.pieceId ∧
      ∀ b ∈ span, b ∈ sched.pieceMap.pieceRange key.pieceId := by
  obtain ⟨piece, hp, hl⟩ := leaseRange_eq_some.mp hkey
  obtain ⟨hlt, _, hval⟩ := h.runtime _ _ hp
  obtain ⟨hpos, hid⟩ := hval.lease _ _ hl
  have hmem : span ∈ sched.activeSpans key.pieceId := by
    rw [activeSpans_of_runtime hp]
    exact mem_activeSpans hl
  exact ⟨hlt, hid, hpos, hmem, fun b hb => h.mem_piece_of_active hlt (hits_pos_of_mem hmem hb)⟩

theorem Conserved.hits_leased (hb : 0 < hits (sched.activeSpans i) b) :
    hits (sched.activeSpans i) b = 1 ∧ hits (sched.missingSpans i) b = 0 ∧ hits acked b = 0 := by
  have hmem := h.mem_piece_of_active hi hb
  have hbal := h.balanced i hi b
  rw [if_pos hmem, if_pos hmem] at hbal
  omega

omit hi

theorem Conserved.custody_sound : sched.custody.Sound where
  nonempty key span hkey := (h.leaseRange_spec hkey).2.2.1
  apart key key' span span' hne hkey hkey' b hb hb' := by
    obtain ⟨hlt, _, _, _, hp⟩ := h.leaseRange_spec hkey
    obtain ⟨hlt', _, _, _, hpiece'⟩ := h.leaseRange_spec hkey'
    have hsame : key.pieceId = key'.pieceId := h.piece_unique hlt hlt' (hp b hb) (hpiece' b hb')
    obtain ⟨piece, hf, hl⟩ := leaseRange_eq_some.mp hkey
    obtain ⟨piece', hfound', hlease'⟩ := leaseRange_eq_some.mp hkey'
    rw [← hsame, hf] at hfound'
    obtain rfl := some.inj hfound'
    have hids : key.leaseId ≠ key'.leaseId := by
      intro hids
      cases key
      simp_all
    have hperm := activeSpans_perm_erase hl
    have hrest : span' ∈ (piece.activeLeases.erase key.leaseId).toList.map Prod.snd := by
      refine mem_map.mpr ⟨(key'.leaseId, span'), ?_, rfl⟩
      rw [mem_toList_iff, TreeMap.getElem?_erase]
      simpa [hids] using hlease'
    have hone := (h.hits_leased hlt (hits_pos_of_mem (by
      rw [activeSpans_of_runtime hf]
      exact mem_activeSpans hl) hb)).1
    rw [activeSpans_of_runtime hf, hits_perm hperm, hits_cons, if_pos hb] at hone
    have hpos := hits_pos_of_mem hrest hb'
    omega
  free key span b hkey hb := by
    obtain ⟨hlt, _, _, hmem, hp⟩ := h.leaseRange_spec hkey
    rw [h.missing_iff hlt (hp b hb)]
    have := (h.hits_leased hlt (hits_pos_of_mem hmem hb)).2.1
    omega

end SchedulerState

end Bytehaul.Scheduler
