import Bytehaul.Foundation.Disk

/-!
# Files as their writes leave them

What a sequence of writes has made of a file; writes that follow each other can be made at
once.
-/

namespace Bytehaul.Foundation

open List

structure Canvas where
  content : List UInt8
  written : Nat → Bool
  reach : Nat

namespace Canvas

def lay (canvas : Canvas) (pos : Nat) (data : List UInt8) : Canvas :=
  if data = [] then canvas
  else {
    content := overlay canvas.content pos data
    written := fun b => canvas.written b || (decide (pos ≤ b) && decide (b < pos + data.length))
    reach := max canvas.reach (pos + data.length) }

variable {canvas : Canvas} {pos n b : Nat} {data more : List UInt8}

@[simp] theorem lay_nil : canvas.lay pos [] = canvas := rfl

theorem content_lay : (canvas.lay pos data).content = overlay canvas.content pos data := by
  unfold lay
  split
  · rename_i hnil
    rw [hnil, overlay_nil]
  · rfl

private theorem written_lay : (canvas.lay pos data).written b = true ↔
    canvas.written b = true ∨ (pos ≤ b ∧ b < pos + data.length) := by
  unfold lay
  split
  · rename_i hnil
    simp only [hnil, length_nil]
    exact ⟨Or.inl, fun h => h.resolve_right (by omega)⟩
  · simp

theorem lay_lay (canvas : Canvas) (pos : Nat) (data more : List UInt8) :
    (canvas.lay pos data).lay (pos + data.length) more = canvas.lay pos (data ++ more) := by
  by_cases hdata : data = []
  · simp [hdata]
  · by_cases hmore : more = []
    · simp [hmore]
    · unfold lay
      rw [if_neg hmore, if_neg hdata, if_neg (by simp [hdata])]
      simp only [mk.injEq]
      refine ⟨overlay_append hdata hmore, ?_, ?_⟩
      · funext b
        rw [Bool.eq_iff_iff]
        simp only [Bool.or_eq_true, Bool.and_eq_true, decide_eq_true_eq, length_append, or_assoc]
        exact or_congr_right (by omega)
      · rw [length_append]
        omega

structure Filled (canvas : Canvas) (n : Nat) : Prop where
  written : ∀ b, canvas.written b = true ↔ b < n
  reach : canvas.reach = n
  length : n ≤ canvas.content.length

theorem Filled.lay (h : canvas.Filled n) : (canvas.lay n data).Filled (n + data.length) := by
  by_cases hnil : data = []
  · simpa [hnil] using h
  · constructor
    · intro b
      rw [written_lay, h.written]
      omega
    · have hr := h.reach
      simp only [Canvas.lay, if_neg hnil]
      omega
    · rw [content_lay, length_overlay hnil]
      omega

theorem Filled.length_lay (h : canvas.Filled n) : (canvas.lay n data).content.length =
    max canvas.content.length (n + data.length) := by
  have hlen := h.length
  by_cases hnil : data = []
  · simp only [hnil, lay_nil, length_nil]
    omega
  · rw [content_lay, length_overlay hnil]

theorem Filled.getElem?_lay_of_lt (h : canvas.Filled n) (hb : b < n) :
    (canvas.lay n data).content[b]? = canvas.content[b]? := by
  have hlen := h.length
  rw [content_lay, getElem?_overlay_outside (by omega) (.inl hb)]

theorem getElem?_lay_inside (hlo : pos ≤ b) (hhi : b < pos + data.length) :
    (canvas.lay pos data).content[b]? = data[b - pos]? := by
  rw [content_lay, getElem?_overlay_inside hlo hhi]

end Canvas

end Bytehaul.Foundation
