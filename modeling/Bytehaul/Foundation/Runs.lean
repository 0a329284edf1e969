import Mathlib

/-!
# Runs of a labelled machine

A partial step function, one label per step; `Reaches` is restricted to the steps that
satisfy `ok`.
-/

namespace Bytehaul.Foundation

variable {σ α : Type}

theorem of_guard {p : Prop} [Decidable p] {state next : σ} {Q : σ → Prop}
    (h : (if p then some state else none) = some next) (hstate : p → Q state) : Q next := by
  obtain ⟨hp, hnext⟩ := Option.ite_none_right_eq_some.mp h
  cases hnext
  exact hstate hp

/-- Run a list of labels as long as `ok` admits them and they are enabled. -/
def runLabels (step : σ → α → Option σ) (ok : σ → α → Bool) : σ → List α → Option σ
  | state, [] => some state
  | state, label :: labels =>
    if ok state label then (step state label).bind fun next => runLabels step ok next labels
    else none

inductive Reaches (step : σ → α → Option σ) (ok : σ → α → Prop) (start : σ) : σ → Prop
  | refl : Reaches step ok start start
  | step {state next : σ} (label : α) : Reaches step ok start state → ok state label →
      step state label = some next → Reaches step ok start next

namespace Reaches

variable {step : σ → α → Option σ} {ok : σ → α → Prop} {start mid state : σ}

theorem invariant {Inv : σ → Prop} (h : Reaches step ok start state) (hstart : Inv start)
    (hstep : ∀ state label next, Inv state → ok state label → step state label = some next →
      Inv next) : Inv state := by
  induction h with
  | refl => exact hstart
  | step label _ hok hnext ih => exact hstep _ label _ ih hok hnext

theorem invariant_along (h : Reaches step ok start state) (Inv : σ → Prop) (hstart : Inv start)
    (hstep : ∀ state label next, Reaches step ok start state → Inv state → ok state label →
      step state label = some next → Inv next) : Inv state := by
  induction h with
  | refl => exact hstart
  | step label hr hok hnext ih => exact hstep _ label _ hr ih hok hnext

theorem trans (h : Reaches step ok start mid) (hrest : Reaches step ok mid state) :
    Reaches step ok start state := by
  induction hrest with
  | refl => exact h
  | step label _ hok hnext ih => exact ih.step label hok hnext

theorem mono {ok' : σ → α → Prop} (h : Reaches step ok start state)
    (himp : ∀ state label, ok state label → ok' state label) : Reaches step ok' start state := by
  induction h with
  | refl => exact .refl
  | step label _ hok hnext ih => exact ih.step label (himp _ _ hok) hnext

theorem of_runLabels {admits : σ → α → Bool} {labels : List α}
    (h : runLabels step admits mid labels = some state) (hmid : Reaches step ok start mid)
    (hok : ∀ state label, admits state label = true → ok state label) :
    Reaches step ok start state := by
  induction labels generalizing mid with
  | nil =>
    cases h
    exact hmid
  | cons label labels ih =>
    unfold runLabels at h
    split at h
    · rename_i hadm
      obtain ⟨next, hnext, hrest⟩ := Option.bind_eq_some_iff.mp h
      exact ih hrest (hmid.step label (hok mid label hadm) hnext)
    · cases h

theorem exists_of_run {β : Type} {labels : List α} {view : σ → β} {value : β}
    (h : (runLabels step (fun _ _ => true) start labels).map view = some value) :
    ∃ state, Reaches step (fun _ _ => True) start state ∧ view state = value := by
  obtain ⟨state, hrun, hview⟩ := Option.map_eq_some_iff.mp h
  exact ⟨state, .of_runLabels hrun .refl fun _ _ _ => trivial, hview⟩

end Reaches

end Bytehaul.Foundation
