import Bytehaul.Foundation.Disk
import Bytehaul.Foundation.OrderedMap
import Bytehaul.Storage.Segment

/-!
# The write-back cache

`storage/cache.rs`: sequential body buffers, isolated by lease identity.
-/

namespace Bytehaul.Storage

open Foundation Foundation.DiskFile Std

structure PieceCacheEntry where
  offset : Nat
  data : List UInt8
  deriving DecidableEq, Repr

structure NonContiguousWrite where
  expected : Nat
  actual : Nat
  deriving DecidableEq, Repr

structure FlushBlock where
  offset : Nat
  data : List UInt8
  deriving DecidableEq, Repr

structure WriteBackCache where
  pieces : TreeMap LeaseKey PieceCacheEntry
  totalBytes : Nat

namespace WriteBackCache

def new : WriteBackCache where
  pieces := ∅
  totalBytes := 0

def entryOrInsert (cache : WriteBackCache) (leaseKey : LeaseKey) (offset : Nat) :
    PieceCacheEntry :=
  cache.pieces[leaseKey]?.getD ⟨offset, []⟩

def insert (cache : WriteBackCache) (leaseKey : LeaseKey) (offset : Nat)
    (data : List UInt8) : Except NonContiguousWrite WriteBackCache :=
  if data = [] then .ok cache
  else
    let entry := cache.entryOrInsert leaseKey offset
    let expected := entry.offset + entry.data.length
    if offset ≠ expected then .error ⟨expected, offset⟩
    else .ok {
      pieces := cache.pieces.insert leaseKey ⟨entry.offset, entry.data ++ data⟩
      totalBytes := cache.totalBytes + data.length }

def drainLease (cache : WriteBackCache) (leaseKey : LeaseKey) :
    List FlushBlock × WriteBackCache :=
  match cache.pieces[leaseKey]? with
  | some entry => ([⟨entry.offset, entry.data⟩], {
      pieces := cache.pieces.erase leaseKey
      totalBytes := cache.totalBytes - entry.data.length })
  | none => ([], cache)

def discardLease (cache : WriteBackCache) (leaseKey : LeaseKey) : Nat × WriteBackCache :=
  match cache.pieces[leaseKey]? with
  | some entry => (entry.data.length, {
      pieces := cache.pieces.erase leaseKey
      totalBytes := cache.totalBytes - entry.data.length })
  | none => (0, cache)

def drainAll (cache : WriteBackCache) : List FlushBlock × WriteBackCache :=
  ((cache.pieces.toList.map fun (_, entry) =>
      (⟨entry.offset, entry.data⟩ : FlushBlock)).insertionSort
    (fun first second => first.offset ≤ second.offset), new)

/-- The cache holds byte `v` for position `b` under `key`. -/
def Buffers (cache : WriteBackCache) (key : LeaseKey) (b : Nat) (v : UInt8) : Prop :=
  ∃ entry, cache.pieces[key]? = some entry ∧ Lays entry.offset entry.data b v

variable {cache next : WriteBackCache} {key other : LeaseKey} {offset b : Nat}
  {data : List UInt8} {v : UInt8}

theorem not_buffers_new : ¬ new.Buffers key b v := by
  rintro ⟨entry, he, -⟩
  simp [new] at he

theorem buffers_insert (h : cache.insert key offset data = .ok next) : next.Buffers other b v ↔
      cache.Buffers other b v ∨ (other = key ∧ Lays offset data b v) := by
  unfold insert at h
  split at h
  · rename_i hnil
    cases h
    simp [hnil]
  · dsimp only at h
    split at h
    · cases h
    · rename_i hexp
      cases h
      simp only [ne_eq, not_not] at hexp
      simp only [Buffers, getElem?_insert_eq]
      by_cases hkey : other = key
      · subst hkey
        simp only [if_pos, Option.some.injEq, exists_eq_left', lays_append, true_and]
        rw [← hexp]
        unfold entryOrInsert
        cases cache.pieces[other]? with
        | none | some entry => simp
      · simp [hkey]

theorem buffers_drainLease :
    (cache.drainLease key).2.Buffers other b v ↔ other ≠ key ∧ cache.Buffers other b v := by
  unfold drainLease
  split
  · simp only [Buffers, getElem?_erase_eq]
    by_cases hkey : other = key <;> simp [hkey]
  · rename_i hnone
    by_cases hkey : other = key
    · subst hkey
      simp [Buffers, hnone]
    · simp [hkey]

theorem mem_drainLease : (∃ block ∈ (cache.drainLease key).1, Lays block.offset block.data b v) ↔
      cache.Buffers key b v := by
  unfold drainLease Buffers
  split
  · rename_i hsome
    simp [hsome]
  · rename_i hnone
    simp [hnone]

theorem discardLease_snd : (cache.discardLease key).2 = (cache.drainLease key).2 := by
  unfold discardLease drainLease
  split <;> rfl

theorem mem_drainAll : (∃ block ∈ cache.drainAll.1, Lays block.offset block.data b v) ↔
      ∃ key, cache.Buffers key b v := by
  simp only [drainAll, List.mem_insertionSort, List.mem_map]
  constructor
  · rintro ⟨block, ⟨⟨key, entry⟩, hmem, rfl⟩, hlays⟩
    exact ⟨key, entry, (mem_toList_iff _ _ _).mp hmem, hlays⟩
  · rintro ⟨key, entry, he, hlays⟩
    exact ⟨_, ⟨(key, entry), (mem_toList_iff _ _ _).mpr he, rfl⟩, hlays⟩

end WriteBackCache

end Bytehaul.Storage
