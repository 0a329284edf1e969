import Bytehaul.Scheduler.Assign

/-!
# Pending recovery work

`session/multi/worker.rs`: suffixes of interrupted requests that wait for a worker, in whole
pieces or as a part of one.
-/

namespace Bytehaul.Session

open Foundation Storage Scheduler Option

structure PendingPiece where
  piece : Nat
  start : Nat
  stop : Nat
  deriving DecidableEq, Repr

namespace PendingPiece

def len (piece : PendingPiece) : Nat := piece.stop - piece.start

def span (piece : PendingPiece) : Span := ⟨piece.start, piece.stop⟩

def entry (piece : PendingPiece) : Nat × ByteRange := (piece.piece, piece.span)

def ofSegment (segment : Segment) : PendingPiece :=
  ⟨segment.pieceId, segment.start, segment.stop⟩

def Continues (first second : PendingPiece) : Prop :=
  first.piece + 1 = second.piece ∧ first.stop = second.start

instance (first second : PendingPiece) : Decidable (Continues first second) :=
  inferInstanceAs (Decidable (_ ∧ _))

end PendingPiece

structure PendingRange where
  pieces : List PendingPiece
  requestCap : Nat
  splitMinSize : Option Nat
  deriving DecidableEq, Repr

namespace PendingRange

open PendingPiece

def single (piece : PendingPiece) (requestCap : Nat) (splitMinSize : Option Nat) :
    PendingRange :=
  ⟨[piece], requestCap, splitMinSize⟩

def appendable (range : PendingRange) (piece : PendingPiece) : Bool :=
  range.pieces.getLast?.any fun last => decide (Continues last piece)

/-- The loop of `from_segments`: `ranges` are the finished ones, `last` is still open. -/
def fromSegmentsLoop (requestCap : Nat) (splitMinSize : Option Nat) :
    List PendingRange → PendingRange → List Segment → List PendingRange
  | ranges, last, [] => ranges ++ [last]
  | ranges, last, segment :: segments =>
    let piece := PendingPiece.ofSegment segment
    if last.appendable piece then
      fromSegmentsLoop requestCap splitMinSize ranges
        { last with pieces := last.pieces ++ [piece] } segments
    else
      fromSegmentsLoop requestCap splitMinSize (ranges ++ [last])
        (single piece requestCap splitMinSize) segments

def fromSegments (segments : List Segment) (requestCap : Nat)
    (splitMinSize : Option Nat) : List PendingRange :=
  match segments with
  | [] => []
  | segment :: segments =>
    fromSegmentsLoop requestCap splitMinSize []
      (single (.ofSegment segment) requestCap splitMinSize) segments

def totalLen (range : PendingRange) : Nat :=
  range.pieces.foldl (fun total piece => total + piece.len) 0

/-- The selection loop of `take_prefix`: what was taken and what is left. -/
def takeLoop (requestCap target : Nat) :
    List PendingPiece → Nat → List PendingPiece → List PendingPiece × List PendingPiece
  | selected, _, [] => (selected, [])
  | selected, selectedLen, next :: rest =>
    if maxRequestLeases ≤ selected.length then (selected, next :: rest)
    else if selected ≠ [] ∧ requestCap ≠ 0 ∧ requestCap < selectedLen + next.len then
      (selected, next :: rest)
    else if target ≤ selectedLen + next.len then (selected ++ [next], rest)
    else takeLoop requestCap target (selected ++ [next]) (selectedLen + next.len) rest

def splitSize (range : PendingRange) (minSplitSize availableRequestSlots : Nat)
    (piece : PendingPiece) : Nat :=
  let requested := max (divCeil piece.len (max availableRequestSlots 1)) (max minSplitSize 1)
  if range.requestCap = 0 then requested else min requested range.requestCap

/-- Does the byte cap of the request, rather than the slot count, decide the split? -/
def capLimited (range : PendingRange) (minSplitSize availableRequestSlots : Nat)
    (piece : PendingPiece) : Bool :=
  range.requestCap != 0 && decide (range.requestCap <
    max (divCeil piece.len (max availableRequestSlots 1)) (max minSplitSize 1))

def takeSplit (range : PendingRange) (minSplitSize availableRequestSlots : Nat) :
    List PendingPiece × PendingRange :=
  match range.pieces with
  | [] => ([], range)
  | piece :: rest =>
    let split := range.splitSize minSplitSize availableRequestSlots piece
    if piece.len ≤ split ∨ (piece.len - split < minSplitSize ∧
        range.capLimited minSplitSize availableRequestSlots piece = false) then
      ([piece], { range with pieces := rest })
    else
      ([⟨piece.piece, piece.start, piece.start + split⟩],
        { range with pieces := ⟨piece.piece, piece.start + split, piece.stop⟩ :: rest })

def takePrefix (range : PendingRange) (availableRequestSlots : Nat) :
    List PendingPiece × PendingRange :=
  match range.splitMinSize with
  | some minSplitSize => range.takeSplit minSplitSize availableRequestSlots
  | none =>
    if range.requestCap = 0 then
      (range.pieces.take 1, { range with pieces := range.pieces.drop 1 })
    else
      let taken := takeLoop range.requestCap
        (divCeil range.totalLen (max availableRequestSlots 1)) [] 0 range.pieces
      (taken.1, { range with pieces := taken.2 })

def prepend (range : PendingRange) (pieces : List PendingPiece) : PendingRange :=
  { range with pieces := pieces ++ range.pieces }

structure Chained (pieces : List PendingPiece) : Prop where
  chain : pieces.IsChain Continues
  pos : ∀ piece ∈ pieces, piece.start < piece.stop

theorem Chained.singleton {piece : PendingPiece} (h : piece.start < piece.stop) : Chained [piece] :=
  ⟨.singleton piece, by simpa using h⟩

/-- `pieces` cut in two, possibly inside a piece. -/
structure Cut (pieces selected rest : List PendingPiece) : Prop where
  pos : ∀ part ∈ selected ++ rest, part.start < part.stop
  hits_eq : ∀ b, hits (selected.map span) b + hits (rest.map span) b = hits (pieces.map span) b
  inside : ∀ part ∈ selected ++ rest, ∃ piece ∈ pieces, part.piece = piece.piece ∧
    piece.start ≤ part.start ∧ part.stop ≤ piece.stop
  chain : pieces.IsChain Continues → selected.IsChain Continues ∧ rest.IsChain Continues

theorem Cut.of_append {pieces first second : List PendingPiece}
    (hpos : ∀ piece ∈ pieces, piece.start < piece.stop) (happ : first ++ second = pieces) :
    Cut pieces first second := by
  subst happ
  exact {
    pos := hpos
    hits_eq := by simp
    inside := fun part hpart => ⟨part, hpart, rfl, Nat.le_refl _, Nat.le_refl _⟩
    chain := fun h => ⟨h.left_of_append, h.right_of_append⟩ }

theorem Cut.split {piece : PendingPiece} {rest : List PendingPiece} {middle : Nat}
    (hpos : ∀ other ∈ rest, other.start < other.stop) (hlo : piece.start < middle)
    (hhi : middle < piece.stop) : Cut (piece :: rest) [⟨piece.piece, piece.start, middle⟩]
      (⟨piece.piece, middle, piece.stop⟩ :: rest) where
  pos part hpart := by
    simp only [List.singleton_append, List.mem_cons] at hpart
    rcases hpart with rfl | rfl | hpart
    · exact hlo
    · exact hhi
    · exact hpos part hpart
  hits_eq b := by
    simp only [List.map_cons, List.map_nil, hits_cons, hits_nil, span]
    have hmem : (if b ∈ (⟨piece.start, middle⟩ : Span) then 1 else 0) +
        (if b ∈ (⟨middle, piece.stop⟩ : Span) then 1 else 0) =
        if b ∈ (⟨piece.start, piece.stop⟩ : Span) then 1 else 0 := by
      simp only [Span.mem_iff]
      split_ifs <;> omega
    omega
  inside part hpart := by
    simp only [List.singleton_append, List.mem_cons] at hpart
    rcases hpart with rfl | rfl | hpart
    · exact ⟨piece, List.mem_cons_self, rfl, Nat.le_refl _, Nat.le_of_lt hhi⟩
    · exact ⟨piece, List.mem_cons_self, rfl, Nat.le_of_lt hlo, Nat.le_refl _⟩
    · exact ⟨part, List.mem_cons_of_mem _ hpart, rfl, Nat.le_refl _, Nat.le_refl _⟩
  chain h := by
    refine ⟨.singleton _, ?_⟩
    cases rest with
    | nil => exact .singleton _
    | cons next rest =>
      rw [List.isChain_cons_cons] at h ⊢
      exact h

theorem takeLoop_append (requestCap target : Nat) (selected : List PendingPiece) (selectedLen : Nat)
    (pieces : List PendingPiece) : (takeLoop requestCap target selected selectedLen pieces).1 ++
      (takeLoop requestCap target selected selectedLen pieces).2 = selected ++ pieces := by
  induction pieces generalizing selected selectedLen with
  | nil => simp [takeLoop]
  | cons next rest ih =>
    unfold takeLoop
    split
    · rfl
    · split
      · rfl
      · split
        · simp
        · rw [ih]
          simp

private theorem takeLoop_length (requestCap target : Nat) (selected : List PendingPiece)
    (selectedLen : Nat) (pieces : List PendingPiece) (h : selected.length ≤ maxRequestLeases) :
    (takeLoop requestCap target selected selectedLen pieces).1.length ≤ maxRequestLeases := by
  induction pieces generalizing selected selectedLen with
  | nil => simpa [takeLoop] using h
  | cons next rest ih =>
    unfold takeLoop
    split
    · exact h
    · split
      · exact h
      · split
        · simp
          omega
        · apply ih
          simp
          omega

private theorem takeLoop_ne_nil (requestCap target : Nat) (selected : List PendingPiece)
    (selectedLen : Nat) (pieces : List PendingPiece) (h : selected ≠ [] ∨ pieces ≠ []) :
    (takeLoop requestCap target selected selectedLen pieces).1 ≠ [] := by
  induction pieces generalizing selected selectedLen with
  | nil => simpa [takeLoop] using h
  | cons next rest ih =>
    unfold takeLoop
    split
    · rename_i hfull
      have hpos : 0 < selected.length := Nat.lt_of_lt_of_le (by decide) hfull
      exact List.length_pos_iff.mp hpos
    · split
      · rename_i hstop
        exact hstop.1
      · split
        · simp
        · exact ih _ _ (.inl (by simp))

theorem takePrefix_cut {range : PendingRange} (h : ∀ piece ∈ range.pieces, piece.start < piece.stop)
    (hne : range.pieces ≠ []) (slots : Nat) :
    Cut range.pieces (range.takePrefix slots).1 (range.takePrefix slots).2.pieces ∧
      (range.takePrefix slots).1 ≠ [] ∧
      (range.takePrefix slots).1.length ≤ maxRequestLeases := by
  obtain ⟨piece, rest, hps⟩ := List.exists_cons_of_ne_nil hne
  rw [hps] at h
  have hwh : Cut (piece :: rest) [piece] rest := .of_append h rfl
  have hone : 1 ≤ maxRequestLeases := by decide
  unfold takePrefix
  split
  · rename_i minSplit hspl
    simp only [takeSplit, hps]
    split
    · exact ⟨hwh, by simp, hone⟩
    · rename_i hcut
      have hsplitPos : 0 < range.splitSize minSplit slots piece := by
        unfold splitSize
        dsimp only
        split <;> omega
      simp only [not_or, PendingPiece.len] at hcut
      have hrest := fun other ho => h other (List.mem_cons_of_mem _ ho)
      exact ⟨Cut.split hrest (by omega) (by omega), by simp, hone⟩
  · split
    · simp only [hps, List.take_succ_cons, List.take_zero, List.drop_succ_cons, List.drop_zero]
      exact ⟨hwh, by simp, hone⟩
    · have happ := takeLoop_append range.requestCap
        (divCeil range.totalLen (max slots 1)) [] 0 range.pieces
      refine ⟨?_, takeLoop_ne_nil _ _ _ _ _ (.inr hne), takeLoop_length _ _ _ _ _ (by decide)⟩
      exact .of_append (hps ▸ h) happ

def allPieces (ranges : List PendingRange) : List PendingPiece := ranges.flatMap pieces

def Waiting (range : PendingRange) : Prop := Chained range.pieces ∧ range.pieces ≠ []

private theorem fromSegmentsLoop_pieces (requestCap : Nat) (splitMinSize : Option Nat)
    (ranges : List PendingRange) (last : PendingRange) (segs : List Segment) :
    allPieces (fromSegmentsLoop requestCap splitMinSize ranges last segs) =
      allPieces ranges ++ last.pieces ++ segs.map ofSegment := by
  induction segs generalizing ranges last with
  | nil => simp [fromSegmentsLoop, allPieces]
  | cons seg segs ih =>
    unfold fromSegmentsLoop
    dsimp only
    split
    · rw [ih]
      simp
    · rw [ih]
      simp [allPieces, single]

theorem fromSegments_pieces (segs : List Segment) (requestCap : Nat)
    (splitMinSize : Option Nat) :
    allPieces (fromSegments segs requestCap splitMinSize) = segs.map ofSegment := by
  cases segs with
  | nil => rfl
  | cons seg segs =>
    unfold fromSegments
    rw [fromSegmentsLoop_pieces]
    simp [allPieces, single]

theorem Waiting.append {range : PendingRange} {piece : PendingPiece} (h : range.Waiting)
    (happ : range.appendable piece = true) (hpos : piece.start < piece.stop) :
    Waiting { range with pieces := range.pieces ++ [piece] } := by
  refine ⟨⟨?_, ?_⟩, by simp⟩
  · rw [List.isChain_append]
    refine ⟨h.1.chain, .singleton piece, ?_⟩
    intro last hlast next hnext
    simp only [List.head?_cons, mem_def, some.injEq] at hnext
    subst hnext
    simp only [appendable, any_eq_true, decide_eq_true_eq] at happ
    obtain ⟨found, hf, hcontinues⟩ := happ
    rw [mem_def, hf, some.injEq] at hlast
    exact hlast ▸ hcontinues
  · intro other ho
    rcases List.mem_append.mp ho with ho | ho
    · exact h.1.pos other ho
    · rw [List.mem_singleton.mp ho]
      exact hpos

theorem fromSegmentsLoop_waiting {requestCap : Nat} {splitMinSize : Option Nat}
    {ranges : List PendingRange} {last : PendingRange} {segs : List Segment}
    (hrngs : ∀ range ∈ ranges, range.Waiting) (hlast : last.Waiting)
    (hpos : ∀ seg ∈ segs, seg.start < seg.stop) :
    ∀ range ∈ fromSegmentsLoop requestCap splitMinSize ranges last segs, range.Waiting := by
  induction segs generalizing ranges last with
  | nil =>
    intro range hrng
    rcases List.mem_append.mp hrng with hrng | hrng
    · exact hrngs range hrng
    · rw [List.mem_singleton.mp hrng]
      exact hlast
  | cons seg segs ih =>
    have hhead := hpos seg List.mem_cons_self
    have htail : ∀ other ∈ segs, other.start < other.stop :=
      fun other ho => hpos other (List.mem_cons_of_mem _ ho)
    unfold fromSegmentsLoop
    dsimp only
    split
    · rename_i happ
      exact ih hrngs (hlast.append happ hhead) htail
    · apply ih _ _ htail
      · intro range hrng
        rcases List.mem_append.mp hrng with hrng | hrng
        · exact hrngs range hrng
        · rw [List.mem_singleton.mp hrng]
          exact hlast
      · exact ⟨.singleton hhead, by simp [single]⟩

theorem fromSegments_waiting {segs : List Segment} {requestCap : Nat}
    {splitMinSize : Option Nat} (hpos : ∀ seg ∈ segs, seg.start < seg.stop) :
    ∀ range ∈ fromSegments segs requestCap splitMinSize, range.Waiting := by
  cases segs with
  | nil => simp [fromSegments]
  | cons seg segs =>
    apply fromSegmentsLoop_waiting
    · simp
    · exact ⟨.singleton (hpos seg List.mem_cons_self), by simp [single]⟩
    · exact fun other ho => hpos other (List.mem_cons_of_mem _ ho)

end PendingRange

end Bytehaul.Session
