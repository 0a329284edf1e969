import Mathlib

/-!
# Half-open spans of natural numbers

`hits spans b` counts how many of the spans `[start, stop)` contain `b`, so that an update
is checked one position at a time.
-/

namespace Bytehaul.Foundation

open List Nat

structure Span where
  start : Nat
  stop : Nat
  deriving DecidableEq, Repr

namespace Span

instance : Membership Nat Span :=
  ⟨fun span b => span.start ≤ b ∧ b < span.stop⟩

@[simp, grind =] theorem mem_iff (span : Span) (b : Nat) :
    b ∈ span ↔ span.start ≤ b ∧ b < span.stop := Iff.rfl

instance (span : Span) (b : Nat) : Decidable (b ∈ span) :=
  inferInstanceAs (Decidable (span.start ≤ b ∧ b < span.stop))

def len (span : Span) : Nat := span.stop - span.start

def Apart (first second : Span) : Prop :=
  ∀ b, b ∈ first → b ∉ second

end Span

def hits (spans : List Span) (b : Nat) : Nat :=
  spans.countP fun span => decide (b ∈ span)

@[simp] theorem hits_nil (b : Nat) : hits [] b = 0 := rfl

@[simp] theorem hits_cons (span : Span) (spans : List Span) (b : Nat) :
    hits (span :: spans) b = hits spans b + if b ∈ span then 1 else 0 := by
  simp only [hits, countP_cons, decide_eq_true_eq]

@[simp] theorem hits_append (first second : List Span) (b : Nat) :
    hits (first ++ second) b = hits first b + hits second b :=
  countP_append

theorem hits_perm {first second : List Span} (h : first.Perm second) (b : Nat) :
    hits first b = hits second b :=
  h.countP_eq _

variable {spans : List Span} {span : Span}

theorem hits_pos_iff {b : Nat} : 0 < hits spans b ↔ ∃ span ∈ spans, b ∈ span := by
  simp only [hits, countP_pos_iff, decide_eq_true_eq]

theorem hits_eq_zero_iff {b : Nat} : hits spans b = 0 ↔ ∀ span ∈ spans, b ∉ span := by
  simp only [hits, countP_eq_zero, decide_eq_true_eq]

theorem hits_pos_of_mem {b : Nat} (hspan : span ∈ spans) (hb : b ∈ span) : 0 < hits spans b :=
  hits_pos_iff.mpr ⟨span, hspan, hb⟩

theorem pairwise_apart_of_hits_le_one (h : ∀ b, hits spans b ≤ 1) : spans.Pairwise Span.Apart := by
  induction spans with
  | nil => exact List.Pairwise.nil
  | cons span spans ih =>
    refine List.Pairwise.cons ?_ (ih fun b => ?_)
    · intro other ho b hb hb'
      have hle := h b
      have hpos := hits_pos_of_mem ho hb'
      rw [hits_cons, if_pos hb] at hle
      omega
    · have hle := h b
      rw [hits_cons] at hle
      omega

theorem hits_le_one_of_pairwise_apart (h : spans.Pairwise Span.Apart) (b : Nat) :
    hits spans b ≤ 1 := by
  induction spans with
  | nil => simp
  | cons span spans ih =>
    rw [pairwise_cons] at h
    by_cases hb : b ∈ span
    · have hzero : hits spans b = 0 := hits_eq_zero_iff.mpr fun other ho => h.1 other ho b hb
      simp [hzero, hb]
    · simpa [hb] using ih h.2

/-- Non-empty spans in increasing order with a gap between neighbours. -/
structure Normal (spans : List Span) : Prop where
  nonempty : ∀ span ∈ spans, span.start < span.stop
  gaps : spans.Pairwise fun first second => first.stop < second.start

theorem Normal.nil : Normal [] := ⟨by simp, List.Pairwise.nil⟩

theorem Normal.singleton (h : span.start < span.stop) :
    Normal [span] := ⟨by simpa using h, List.pairwise_singleton _ _⟩

theorem normal_cons : Normal (span :: spans) ↔
      span.start < span.stop ∧ (∀ other ∈ spans, span.stop < other.start) ∧ Normal spans := by
  constructor
  · rintro ⟨hnemp, hgaps⟩
    rw [pairwise_cons] at hgaps
    exact ⟨hnemp span (by simp), hgaps.1,
      fun other ho => hnemp other (by simp [ho]), hgaps.2⟩
  · rintro ⟨hspan, hbef, hspans⟩
    refine ⟨?_, pairwise_cons.mpr ⟨hbef, hspans.gaps⟩⟩
    intro other ho
    rcases mem_cons.mp ho with rfl | ho
    · exact hspan
    · exact hspans.nonempty other ho

theorem Normal.tail (h : Normal (span :: spans)) : Normal spans := (normal_cons.mp h).2.2

theorem Normal.hits_le_one (h : Normal spans) (b : Nat) : hits spans b ≤ 1 := by
  refine hits_le_one_of_pairwise_apart ?_ b
  refine h.gaps.imp_of_mem ?_
  intro first second hfst _ hgap position hmem hmem'
  simp only [Span.mem_iff] at hmem hmem'
  omega

theorem Normal.hits_tail_eq_zero (h : Normal (span :: spans)) {b : Nat} (hb : b ≤ span.stop) :
    hits spans b = 0 := by
  refine hits_eq_zero_iff.mpr fun other ho hmem => ?_
  have hgap := (normal_cons.mp h).2.1 other ho
  simp only [Span.mem_iff] at hmem
  omega

/-- A non-empty span of positions that a normal list denotes lies inside one span of it. -/
theorem Normal.exists_enclosing (h : Normal spans) (hspan : span.start < span.stop)
    (hcover : ∀ b, b ∈ span → 0 < hits spans b) :
    ∃ host ∈ spans, host.start ≤ span.start ∧ span.stop ≤ host.stop := by
  induction spans with
  | nil => simpa using hcover span.start ⟨le_refl _, hspan⟩
  | cons head spans ih =>
    by_cases hhead : span.start < head.stop
    · have hstart := hcover span.start ⟨le_refl _, hspan⟩
      rw [hits_cons, h.hits_tail_eq_zero (le_of_lt hhead)] at hstart
      have hmem : span.start ∈ head := by
        by_contra hnot
        simp [hnot] at hstart
      refine ⟨head, by simp, hmem.1, ?_⟩
      by_contra hstop
      have hgap := hcover head.stop ⟨(le_of_lt hhead), by omega⟩
      rw [hits_cons, h.hits_tail_eq_zero (le_refl _)] at hgap
      simp at hgap
    · obtain ⟨host, hhost, henclose⟩ := ih h.tail fun b hb => by
        have hpos := hcover b hb
        rw [hits_cons, if_neg] at hpos
        · exact hpos
        · simp only [Span.mem_iff] at hb ⊢
          omega
      exact ⟨host, by simp [hhost], henclose⟩

theorem Normal.start_le {other : Span} {others : List Span} (h : Normal (span :: spans))
    (ho : Normal (other :: others))
    (hsame : ∀ b, hits (span :: spans) b = hits (other :: others) b) :
    span.start ≤ other.start := by
  by_contra hlt
  have hpos := (normal_cons.mp h).1
  have hcover := hsame other.start
  have hmem : other.start ∈ other := ⟨le_refl _, (normal_cons.mp ho).1⟩
  have hnot : other.start ∉ span := fun hmem' => hlt hmem'.1
  rw [hits_cons, h.hits_tail_eq_zero (by omega), hits_cons, if_neg hnot, if_pos hmem] at hcover
  omega

theorem Normal.stop_le {other : Span} {others : List Span} (h : Normal (span :: spans))
    (hstart : span.start = other.start)
    (hsame : ∀ b, hits (span :: spans) b = hits (other :: others) b) : other.stop ≤ span.stop := by
  by_contra hlt
  have hpos := (normal_cons.mp h).1
  have hcover := hsame span.stop
  have hmem : span.stop ∈ other := ⟨by omega, by omega⟩
  have hnot : span.stop ∉ span := fun hmem' => lt_irrefl _ hmem'.2
  rw [hits_cons, h.hits_tail_eq_zero (le_refl _), hits_cons, if_neg hnot, if_pos hmem] at hcover
  omega

theorem Normal.ext {first second : List Span} (h : Normal first) (h' : Normal second)
    (hsame : ∀ b, 0 < hits first b ↔ 0 < hits second b) : first = second := by
  have heq : ∀ b, hits first b = hits second b := by
    intro b
    have hle := h.hits_le_one b
    have hle' := h'.hits_le_one b
    have hb := hsame b
    omega
  clear hsame
  induction first generalizing second with
  | nil =>
    cases second with
    | nil => rfl
    | cons span spans =>
      have hcover := heq span.start
      rw [hits_cons, if_pos ⟨le_refl _, (normal_cons.mp h').1⟩] at hcover
      simp at hcover
  | cons span spans ih =>
    cases second with
    | nil =>
      have hcover := heq span.start
      rw [hits_cons, if_pos ⟨le_refl _, (normal_cons.mp h).1⟩] at hcover
      simp at hcover
    | cons other others =>
      have hstart := le_antisymm (h.start_le h' heq) (h'.start_le h fun b => (heq b).symm)
      have hstop := le_antisymm (h'.stop_le hstart.symm fun b => (heq b).symm)
        (h.stop_le hstart heq)
      have hspan : span = other := by exact congrArg₂ Span.mk hstart hstop
      subst hspan
      rw [ih h.tail h'.tail fun b => by simpa using heq b]

end Bytehaul.Foundation
