import Mathlib

/-!
# Random-access files

The bytes of a file and a cursor, with the positions that were written and those that are
durable. A device accepts a limited number of further bytes and syncs.
-/

namespace Bytehaul.Foundation

open List

/-- `data` laid over `content` from `pos` on; a hole before `pos` reads as zeros. -/
def overlay (content : List UInt8) (pos : Nat) (data : List UInt8) : List UInt8 :=
  if data = [] then content
  else content.take pos ++ List.replicate (pos - content.length) 0 ++ data ++
    content.drop (pos + data.length)

@[simp] theorem overlay_nil (content : List UInt8) (pos : Nat) :
    overlay content pos [] = content := rfl

variable {data : List UInt8}

theorem length_overlay {content : List UInt8} {pos : Nat} (hdata : data ≠ []) :
    (overlay content pos data).length = max content.length (pos + data.length) := by
  simp only [overlay, if_neg hdata, length_append, length_take, length_replicate, length_drop]
  omega

theorem getElem?_overlay_inside {content : List UInt8} {pos b : Nat} (hlo : pos ≤ b)
    (hhi : b < pos + data.length) : (overlay content pos data)[b]? = data[b - pos]? := by
  have hdata : data ≠ [] := by
    rintro rfl
    simp at hhi
    omega
  have hfront : (content.take pos ++ replicate (pos - content.length) (0 : UInt8)).length
      = pos := by
    simp
    omega
  rw [overlay, if_neg hdata, append_assoc,
    getElem?_append_right (by rw [hfront]; exact hlo), hfront,
    getElem?_append_left (by omega)]

theorem getElem?_overlay_outside {content : List UInt8} {pos b : Nat} (hlen : b < content.length)
    (hout : b < pos ∨ pos + data.length ≤ b) : (overlay content pos data)[b]? = content[b]? := by
  by_cases hdata : data = []
  · simp [hdata]
  · have hfront : (content.take pos ++
        replicate (pos - content.length) (0 : UInt8)).length = pos := by
      simp
      omega
    rw [overlay, if_neg hdata, append_assoc]
    rcases hout with hlo | hhi
    · rw [getElem?_append_left (by rw [hfront]; exact hlo),
        getElem?_append_left (by simp; omega), getElem?_take_of_lt hlo]
    · rw [getElem?_append_right (by rw [hfront]; omega), hfront,
        getElem?_append_right (by omega), getElem?_drop]
      congr 1
      omega

theorem overlay_append {content more : List UInt8} {pos : Nat} (hdata : data ≠ [])
    (hmore : more ≠ []) : overlay (overlay content pos data) (pos + data.length) more =
      overlay content pos (data ++ more) := by
  have hboth : data ++ more ≠ [] := by simp [hdata]
  have hfront : (content.take pos ++ replicate (pos - content.length) (0 : UInt8) ++
      data).length = pos + data.length := by
    simp only [length_append, length_take, length_replicate]
    omega
  have hlong : pos + data.length - (overlay content pos data).length = 0 := by
    rw [length_overlay hdata]
    omega
  rw [overlay.eq_def _ _ more, if_neg hmore, hlong, overlay, if_neg hdata, overlay, if_neg hboth,
    take_left' hfront, drop_append, drop_eq_nil_of_le (by omega), hfront,
    drop_drop]
  simp [Nat.add_assoc]

structure DiskFile where
  content : List UInt8
  cursor : Nat
  written : Nat → Bool
  durable : Nat → Bool
  /-- Bytes the device still accepts; without a bound it never fails. -/
  writeBudget : Option Nat
  syncBudget : Option Nat

namespace DiskFile

def ofContent (content : List UInt8) : DiskFile where
  content := content
  cursor := 0
  written := fun b => decide (b < content.length)
  durable := fun b => decide (b < content.length)
  writeBudget := none
  syncBudget := none

def seek (file : DiskFile) (pos : Nat) : DiskFile := { file with cursor := pos }

def ahead (file : DiskFile) (length b : Nat) : Bool :=
  decide (file.cursor ≤ b) && decide (b < file.cursor + length)

def store (file : DiskFile) (data : List UInt8) : DiskFile :=
  { file with
    content := overlay file.content file.cursor data
    cursor := file.cursor + data.length
    written := fun b => file.written b || file.ahead data.length b
    durable := fun b => file.durable b && !file.ahead data.length b
    writeBudget := file.writeBudget.map (· - data.length) }

def accepted (file : DiskFile) (data : List UInt8) : Nat :=
  match file.writeBudget with
  | none => data.length
  | some bytes => min bytes data.length

def synced (file : DiskFile) : DiskFile :=
  { file with durable := fun b => file.durable b || file.written b }

def sync (file : DiskFile) : Option DiskFile :=
  match file.syncBudget with
  | some 0 => none
  | budget => some { file.synced with syncBudget := budget.map (· - 1) }

structure Alike (file other : DiskFile) : Prop where
  content : file.content = other.content
  cursor : file.cursor = other.cursor
  written : file.written = other.written
  durable : file.durable = other.durable

def Lays (pos : Nat) (data : List UInt8) (b : Nat) (v : UInt8) : Prop :=
  pos ≤ b ∧ data[b - pos]? = some v

def Good (G : Nat → UInt8 → Prop) (file : DiskFile) (b : Nat) : Prop :=
  file.written b = true ∧ ∃ v, file.content[b]? = some v ∧ G b v

variable {G : Nat → UInt8 → Prop} {file next : DiskFile} {data : List UInt8} {b pos : Nat}
  {v : UInt8}

@[simp] theorem not_lays_nil : ¬ Lays pos [] b v := by
  simp [Lays]

theorem Lays.lt (h : Lays pos data b v) : b < pos + data.length := by
  obtain ⟨hle, hget⟩ := h
  have hlt := (List.getElem?_eq_some_iff.mp hget).1
  omega

theorem Lays.of_take {n : Nat} (h : Lays pos (data.take n) b v) : Lays pos data b v := by
  obtain ⟨hle, hget⟩ := h
  rw [getElem?_take] at hget
  split at hget
  · exact ⟨hle, hget⟩
  · cases hget

theorem lays_append {more : List UInt8} :
    Lays pos (data ++ more) b v ↔ Lays pos data b v ∨ Lays (pos + data.length) more b v := by
  unfold Lays
  rw [getElem?_append]
  split
  · constructor
    · exact Or.inl
    · rintro (h | ⟨hle, -⟩)
      · exact h
      · omega
  · rw [show b - pos - data.length = b - (pos + data.length) by omega]
    constructor
    · rintro ⟨hle, h⟩
      exact Or.inr ⟨by omega, h⟩
    · rintro (⟨-, h⟩ | ⟨hle, h⟩)
      · rw [getElem?_eq_none (by omega)] at h
        cases h
      · exact ⟨by omega, h⟩

theorem exists_lays (hlo : pos ≤ b) (hhi : b < pos + data.length) : ∃ v, Lays pos data b v :=
  ⟨data.get ⟨b - pos, by omega⟩, hlo, getElem?_eq_getElem _⟩

@[simp] theorem ahead_iff {length : Nat} :
    file.ahead length b = true ↔ file.cursor ≤ b ∧ b < file.cursor + length := by
  simp [ahead]

theorem store_good_inside (hfits : ∀ b v, Lays file.cursor data b v → G b v) (hlo : file.cursor ≤ b)
    (hhi : b < file.cursor + data.length) : (file.store data).Good G b := by
  obtain ⟨v, hv⟩ := exists_lays hlo hhi
  refine ⟨by simp [store, hlo, hhi], v, ?_, hfits b v hv⟩
  simpa [store, getElem?_overlay_inside hlo hhi] using hv.2

theorem getElem?_store_outside (hv : file.content[b]? = some v)
    (hout : b < file.cursor ∨ file.cursor + data.length ≤ b) :
    (file.store data).content[b]? = some v := by
  have hlen : b < file.content.length := by
    by_contra hge
    rw [getElem?_eq_none (by omega)] at hv
    cases hv
  simp [store, getElem?_overlay_outside hlen hout, hv]

theorem Good.store (hgood : file.Good G b)
    (hfits : ∀ b v, Lays file.cursor data b v → G b v) : (file.store data).Good G b := by
  by_cases hin : file.cursor ≤ b ∧ b < file.cursor + data.length
  · exact store_good_inside hfits hin.1 hin.2
  · obtain ⟨hwr, v, hv, hG⟩ := hgood
    exact ⟨by simp [DiskFile.store, hwr], v, getElem?_store_outside hv (by omega), hG⟩

theorem durable_store (hdur : file.durable b = true)
    (hout : b < file.cursor ∨ file.cursor + data.length ≤ b) :
    (file.store data).durable b = true := by
  simp only [store, Bool.and_eq_true, hdur, true_and, Bool.not_eq_true']
  rw [← Bool.not_eq_true, ahead_iff]
  omega

private theorem length_store_le {bound : Nat} (hlen : file.content.length ≤ bound)
    (hdata : file.cursor + data.length ≤ bound) : (file.store data).content.length ≤ bound := by
  by_cases hnil : data = []
  · simpa [store, hnil] using hlen
  · simp only [store, length_overlay hnil]
    omega

theorem sync_eq_some (h : file.sync = some next) : file.synced.Alike next := by
  unfold sync at h
  split at h
  · cases h
  · cases h
    exact ⟨rfl, rfl, rfl, rfl⟩

theorem Alike.store (h : file.Alike next) : (file.store data).Alike (next.store data) := by
  constructor <;> simp only [DiskFile.store, ahead, h.content, h.cursor, h.written, h.durable]

theorem Alike.trans {last : DiskFile} (h : file.Alike next) (hlast : next.Alike last) :
    file.Alike last :=
  ⟨h.content.trans hlast.content, h.cursor.trans hlast.cursor, h.written.trans hlast.written,
    h.durable.trans hlast.durable⟩

theorem Alike.synced (h : file.Alike next) : file.synced.Alike next.synced := by
  constructor <;> simp only [DiskFile.synced, h.content, h.cursor, h.written, h.durable]

theorem store_nil : file.store [] = file := by
  unfold store ahead
  simp only [overlay_nil, length_nil, Nat.add_zero, Nat.sub_zero, Option.map_id']
  congr 1
  · funext b
    have hnot : ¬ (file.cursor ≤ b ∧ b < file.cursor) := by omega
    simp [← Bool.decide_and, hnot]
  · funext b
    have hnot : ¬ (file.cursor ≤ b ∧ b < file.cursor) := by omega
    simp [← Bool.decide_and, hnot]

theorem store_append (file : DiskFile) (data more : List UInt8) :
    (file.store data).store more = file.store (data ++ more) := by
  by_cases hdata : data = []
  · rw [hdata, store_nil, nil_append]
  · by_cases hmore : more = []
    · rw [hmore, store_nil, append_nil]
    · unfold store
      simp only [mk.injEq, length_append, Nat.add_assoc, Option.map_map, and_true]
      refine ⟨overlay_append hdata hmore, trivial, ?_, ?_, ?_⟩
      · funext b
        rw [Bool.eq_iff_iff]
        simp only [Bool.or_eq_true, ahead_iff, or_assoc]
        exact or_congr_right (by omega)
      · funext b
        rw [Bool.eq_iff_iff]
        simp only [Bool.and_eq_true, Bool.not_eq_true', ← Bool.not_eq_true, ahead_iff, and_assoc]
        exact and_congr_right fun _ => by omega
      · congr 1
        funext bytes
        exact Nat.sub_sub _ _ _

/-- `file` becomes `next` by writing bytes that `P` allows and by syncing. -/
inductive Stores (P : Nat → UInt8 → Prop) (file : DiskFile) : DiskFile → Prop
  | refl : Stores P file file
  | write {mid : DiskFile} (pos : Nat) (data : List UInt8) :
      Stores P file mid → (∀ b v, Lays pos data b v → P b v) →
      Stores P file ((mid.seek pos).store data)
  | sync {mid : DiskFile} : Stores P file mid → Stores P file mid.synced

namespace Stores

variable {P : Nat → UInt8 → Prop}

variable (h : Stores P file next)
include h

theorem good (hPG : ∀ b v, P b v → G b v) (hgood : file.Good G b) : next.Good G b := by
  induction h with
  | refl => exact hgood
  | write pos data _ hdata ih => exact Good.store (ih) fun b v hv => hPG b v (hdata b v hv)
  | sync _ ih => exact ih

theorem durable (hb : ∀ v, ¬ P b v) (hdur : file.durable b = true) : next.durable b = true := by
  induction h with
  | refl => exact hdur
  | write pos data _ hdata ih =>
    apply durable_store
    · exact ih
    · by_contra hin
      simp only [seek, not_or, Nat.not_lt, Nat.not_le] at hin
      obtain ⟨v, hv⟩ := exists_lays hin.1 hin.2
      exact hb v (hdata b v hv)
  | sync _ ih => simp [synced, ih]

theorem length_le {bound : Nat} (hP : ∀ b v, P b v → b < bound)
    (hlen : file.content.length ≤ bound) : next.content.length ≤ bound := by
  induction h with
  | refl => exact hlen
  | @write mid pos data _ hdata ih =>
    by_cases hnil : data = []
    · simpa [store, seek, hnil] using ih
    · have hpos : 0 < data.length := length_pos_iff.mpr hnil
      have hlast : ∃ v, Lays pos data (pos + data.length - 1) v := exists_lays (by omega) (by omega)
      obtain ⟨v, hv⟩ := hlast
      have hbd := hP _ v (hdata _ v hv)
      apply length_store_le
      · exact ih
      · simp only [seek]
        omega
  | sync _ ih => exact ih

end Stores

end DiskFile

end Bytehaul.Foundation
