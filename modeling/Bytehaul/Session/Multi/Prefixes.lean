import Bytehaul.Session.Multi.Recovery

/-!
# Prefixes of pending work

`PendingRange::take_prefix` takes a part of a split piece, a single piece, or a batch of a
target size.
-/

namespace Bytehaul.Session

open Foundation Storage Scheduler Option PieceMap

namespace PendingRange

open PendingPiece

/-- The bytes of a list of pieces in order, each with its piece. -/
def bytes (pieces : List PendingPiece) : List (Nat × Nat) :=
  pieces.flatMap fun piece => (List.range' piece.start piece.len).map (piece.piece, ·)

@[simp] theorem bytes_nil : bytes [] = [] := rfl

@[simp] theorem bytes_append (first second : List PendingPiece) :
    bytes (first ++ second) = bytes first ++ bytes second :=
  List.flatMap_append

theorem bytes_cons (piece : PendingPiece) (pieces : List PendingPiece) : bytes (piece :: pieces) =
      (List.range' piece.start piece.len).map (piece.piece, ·) ++ bytes pieces :=
  List.flatMap_cons

def lenSum (pieces : List PendingPiece) : Nat := (pieces.map len).sum

theorem length_bytes (pieces : List PendingPiece) : (bytes pieces).length = lenSum pieces := by
  simp [bytes, lenSum, List.length_flatMap]

theorem bytes_split (piece : PendingPiece) (rest : List PendingPiece) {middle : Nat}
    (hlo : piece.start ≤ middle) (hhi : middle ≤ piece.stop) :
    bytes (⟨piece.piece, piece.start, middle⟩ :: ⟨piece.piece, middle, piece.stop⟩ :: rest) =
      bytes (piece :: rest) := by
  have hlen : piece.len = (middle - piece.start) + (piece.stop - middle) := by
    unfold len
    omega
  have hmiddle : piece.start + 1 * (middle - piece.start) = middle := by omega
  rw [bytes_cons, bytes_cons, bytes_cons, ← List.append_assoc, ← List.map_append, hlen,
    ← List.range'_append, hmiddle]
  rfl

variable {requestCap : Nat} {range : PendingRange} {map : PieceMap} {segs : List Segment}
  {sched : SchedulerState}

theorem takeLoop_cap {target : Nat} (hcap : requestCap ≠ 0) (selected pieces : List PendingPiece)
    (h : selected.length ≤ 1 ∨ lenSum selected ≤ requestCap) :
    (takeLoop requestCap target selected (lenSum selected) pieces).1.length ≤ 1 ∨
      lenSum (takeLoop requestCap target selected (lenSum selected) pieces).1 ≤ requestCap := by
  induction pieces generalizing selected with
  | nil => exact h
  | cons next rest ih =>
    have hsum : lenSum (selected ++ [next]) = lenSum selected + next.len := by simp [lenSum]
    have hnext (hfits : ¬(selected ≠ [] ∧ requestCap ≠ 0 ∧
        requestCap < lenSum selected + next.len)) :
        (selected ++ [next]).length ≤ 1 ∨ lenSum (selected ++ [next]) ≤ requestCap := by
      by_cases hfst : selected = []
      · exact .inl (by simp [hfst])
      · right
        rw [hsum]
        by_contra hover
        exact hfits ⟨hfst, hcap, by omega⟩
    unfold takeLoop
    split
    · exact h
    · split
      · exact h
      · rename_i hfits
        split
        · exact hnext hfits
        · rw [← hsum]
          exact ih _ (hnext hfits)

/-- The first piece of a split range: taken whole, or cut. -/
inductive SplitOutcome (range : PendingRange) (minSplitSize slots : Nat)
    (piece : PendingPiece) (rest selected left : List PendingPiece) : Prop
  | whole (hselected : selected = [piece]) (hleft : left = rest)
  | cut (middle : Nat) (hlo : piece.start < middle) (hhi : middle < piece.stop)
      (hselected : selected = [⟨piece.piece, piece.start, middle⟩])
      (hleft : left = ⟨piece.piece, middle, piece.stop⟩ :: rest)
      (hsizes : (minSplitSize ≤ middle - piece.start ∧ minSplitSize ≤ piece.stop - middle) ∨
        (range.requestCap ≠ 0 ∧ middle - piece.start = range.requestCap ∧
          range.requestCap < max (divCeil piece.len (max slots 1)) (max minSplitSize 1)))

theorem takeSplit_outcome {piece : PendingPiece} {rest : List PendingPiece}
    (hps : range.pieces = piece :: rest) (minSplitSize slots : Nat) :
    SplitOutcome range minSplitSize slots piece rest
      (range.takeSplit minSplitSize slots).1 (range.takeSplit minSplitSize slots).2.pieces := by
  unfold takeSplit
  rw [hps]
  dsimp only
  split
  · exact .whole rfl rfl
  · rename_i hcut
    rw [not_or, not_and, Bool.not_eq_false] at hcut
    obtain ⟨hshort, hlimited⟩ := hcut
    have hlen : piece.len = piece.stop - piece.start := rfl
    have hsplitPos : 0 < range.splitSize minSplitSize slots piece := by
      unfold splitSize
      dsimp only
      split <;> omega
    refine .cut (piece.start + range.splitSize minSplitSize slots piece) (by omega) (by omega)
      rfl rfl ?_
    cases hcap : range.capLimited minSplitSize slots piece with
    | true =>
      right
      rw [capLimited, Bool.and_eq_true, bne_iff_ne, decide_eq_true_eq] at hcap
      refine ⟨hcap.1, ?_, hcap.2⟩
      rw [splitSize, if_neg hcap.1, Nat.min_eq_right hcap.2.le]
      omega
    | false =>
      left
      have hrest : ¬ piece.len - range.splitSize minSplitSize slots piece < minSplitSize := by
        intro hsmall
        rw [hcap] at hlimited
        exact Bool.false_ne_true (hlimited hsmall)
      have hsel : minSplitSize ≤ range.splitSize minSplitSize slots piece := by
        rw [capLimited, Bool.and_eq_false_iff, bne_eq_false_iff_eq, decide_eq_false_iff_not,
          Nat.not_lt] at hcap
        unfold splitSize
        dsimp only
        split <;> omega
      omega

theorem takePrefix_split {minSplit : Nat} (h : range.splitMinSize = some minSplit)
    (slots : Nat) : range.takePrefix slots = range.takeSplit minSplit slots := by
  simp only [takePrefix, h]

theorem takePrefix_whole (h : range.splitMinSize = none) (slots : Nat) :
    (range.takePrefix slots).1 ++ (range.takePrefix slots).2.pieces = range.pieces := by
  unfold takePrefix
  rw [h]
  dsimp only
  split
  · exact List.take_append_drop 1 range.pieces
  · exact takeLoop_append _ _ [] 0 range.pieces

theorem takePrefix_cap (h : range.splitMinSize = none) (hcap : range.requestCap ≠ 0) (slots : Nat) :
    (range.takePrefix slots).1.length ≤ 1 ∨
      lenSum (range.takePrefix slots).1 ≤ range.requestCap := by
  unfold takePrefix
  rw [h]
  dsimp only
  rw [if_neg hcap]
  exact takeLoop_cap hcap [] range.pieces (.inl (by simp))

theorem takePrefix_bytes (range : PendingRange) (slots : Nat) :
    bytes (range.takePrefix slots).1 ++ bytes (range.takePrefix slots).2.pieces =
      bytes range.pieces := by
  cases hspl : range.splitMinSize with
  | none => rw [← bytes_append, takePrefix_whole hspl]
  | some minSplit =>
    rw [takePrefix_split hspl]
    cases hps : range.pieces with
    | nil => simp [takeSplit, hps]
    | cons piece rest =>
      rw [← bytes_append]
      rcases takeSplit_outcome hps minSplit slots with
        ⟨hsel, hleft⟩ | ⟨middle, hlo, hhi, hsel, hleft, -⟩
      · rw [hsel, hleft]
        rfl
      · rw [hsel, hleft]
        exact bytes_split piece rest hlo.le hhi.le

private theorem takePrefix_requestCap (range : PendingRange) (slots : Nat) :
    (range.takePrefix slots).2.requestCap = range.requestCap ∧
      (range.takePrefix slots).2.splitMinSize = range.splitMinSize := by
  unfold takePrefix takeSplit
  split
  · split
    · exact ⟨rfl, rfl⟩
    · dsimp only
      split <;> exact ⟨rfl, rfl⟩
  · split <;> exact ⟨rfl, rfl⟩

def Solid (range : PendingRange) : Prop := ∀ piece ∈ range.pieces, piece.start < piece.stop

theorem Solid.takePrefix (h : range.Solid) (hne : range.pieces ≠ []) (slots : Nat) :
    (range.takePrefix slots).1 ≠ [] ∧
      (∀ piece ∈ (range.takePrefix slots).1, piece.start < piece.stop) ∧
      (range.takePrefix slots).2.Solid := by
  obtain ⟨hcut, hsel, -⟩ := takePrefix_cut h hne slots
  exact ⟨hsel, fun piece hp => hcut.pos piece (List.mem_append_left _ hp),
    fun piece hp => hcut.pos piece (List.mem_append_right _ hp)⟩

def drain : List Nat → PendingRange → List PendingPiece × PendingRange
  | [], range => ([], range)
  | slots :: later, range =>
    let (selected, left) := range.takePrefix slots
    let (more, left) := drain later left
    (selected ++ more, left)

private theorem drain_bytes (slots : List Nat) (range : PendingRange) :
    bytes (drain slots range).1 ++ bytes (drain slots range).2.pieces = bytes range.pieces := by
  induction slots generalizing range with
  | nil => rfl
  | cons first later ih =>
    change bytes ((range.takePrefix first).1 ++ (drain later (range.takePrefix first).2).1) ++
      bytes (drain later (range.takePrefix first).2).2.pieces = bytes range.pieces
    rw [bytes_append, List.append_assoc, ih, takePrefix_bytes]

private theorem lenSum_pos {pieces : List PendingPiece} (hne : pieces ≠ [])
    (hpos : ∀ piece ∈ pieces, piece.start < piece.stop) : 0 < lenSum pieces := by
  obtain ⟨piece, rest, rfl⟩ := List.exists_cons_of_ne_nil hne
  have hlt := hpos piece List.mem_cons_self
  simp only [lenSum, List.map_cons, List.sum_cons, len]
  omega

theorem drain_empties (range : PendingRange) (h : range.Solid) (slots : Nat → Nat) :
    ∃ count ≤ lenSum range.pieces, (drain ((List.range count).map slots) range).2.pieces = [] := by
  induction hsize : lenSum range.pieces using Nat.strong_induction_on generalizing range slots with
  | _ size ih =>
    by_cases hne : range.pieces = []
    · exact ⟨0, Nat.zero_le _, hne⟩
    obtain ⟨hsel, hpos, hleft⟩ := h.takePrefix hne (slots 0)
    have htaken : 0 < lenSum (range.takePrefix (slots 0)).1 := lenSum_pos hsel hpos
    have htot : lenSum (range.takePrefix (slots 0)).1 +
        lenSum (range.takePrefix (slots 0)).2.pieces = size := by
      have hbyt := congrArg List.length (takePrefix_bytes range (slots 0))
      rw [List.length_append, length_bytes, length_bytes, length_bytes] at hbyt
      omega
    obtain ⟨count, hc, hemp⟩ := ih _ (by omega) _ hleft (fun i => slots (i + 1)) rfl
    refine ⟨count + 1, by omega, ?_⟩
    rw [List.range_succ_eq_map, List.map_cons, List.map_map]
    exact hemp

def IsWhole (map : PieceMap) (piece : PendingPiece) : Prop :=
  piece.piece < map.pieceCount ∧ map.pieceRange piece.piece = piece.span

/-- What a release enqueues: consecutive whole pieces, or one part of a piece. -/
inductive Enqueued (map : PieceMap) (range : PendingRange) : Prop
  | whole (hsplit : range.splitMinSize = none) (hne : range.pieces ≠ [])
      (hchain : range.pieces.IsChain Continues)
      (hwhole : ∀ piece ∈ range.pieces, IsWhole map piece)
  | part (piece : PendingPiece) (minSplitSize : Nat)
      (hsplit : range.splitMinSize = some minSplitSize) (hpieces : range.pieces = [piece])
      (hpos : piece.start < piece.stop) (hlt : piece.piece < map.pieceCount)
      (hinside : ∀ b ∈ piece.span, b ∈ map.pieceRange piece.piece)

/-- Enqueued, shortened by a request, or restored after a request that was not assigned. -/
inductive Queued (map : PieceMap) : PendingRange → Prop
  | enqueued {range : PendingRange} (h : Enqueued map range) : Queued map range
  | shortened {range : PendingRange} (h : Queued map range) (slots : Nat)
      (hleft : (range.takePrefix slots).2.pieces ≠ []) :
      Queued map (range.takePrefix slots).2
  | restored {range : PendingRange} (h : Queued map range) (slots : Nat) :
      Queued map ((range.takePrefix slots).2.prepend (range.takePrefix slots).1)

theorem Enqueued.solid (hmap : map.Valid) (h : Enqueued map range) :
    range.Solid ∧ range.pieces ≠ [] := by
  cases h with
  | whole hspl hne hchain hwh =>
    refine ⟨fun piece hp => ?_, hne⟩
    obtain ⟨hlt, hrng⟩ := hwh piece hp
    have hpos := hmap.pieceRange_nonempty hlt
    rw [hrng] at hpos
    exact hpos
  | part piece minSplit hspl hps hpos =>
    rw [Solid, hps]
    exact ⟨by simpa using hpos, by simp⟩

theorem Queued.solid (hmap : map.Valid) (h : Queued map range) :
    range.Solid ∧ range.pieces ≠ [] := by
  induction h with
  | enqueued h => exact h.solid hmap
  | shortened h slots hleft ih => exact ⟨(ih.1.takePrefix ih.2 slots).2.2, hleft⟩
  | restored h slots ih =>
    obtain ⟨hne, hpos, hleft⟩ := ih.1.takePrefix ih.2 slots
    refine ⟨fun piece hp => ?_, by simp [prepend, hne]⟩
    rcases List.mem_append.mp hp with hp | hp
    · exact hpos piece hp
    · exact hleft piece hp

/-- However a queued range is shortened, its bytes are kept in order and it is drained. -/
theorem queued_prefixes_keep_bytes {map : PieceMap} (hmap : map.Valid) {range : PendingRange}
    (h : Queued map range) (slots : Nat) {selected : List PendingPiece} {left : PendingRange}
    (htake : range.takePrefix slots = (selected, left)) : selected ≠ [] ∧
    bytes selected ++ bytes left.pieces = bytes range.pieces ∧
    (range.splitMinSize = none → selected ++ left.pieces = range.pieces ∧ selected.length ≤ 64 ∧
      (range.requestCap ≠ 0 → range.requestCap < lenSum selected → selected.length = 1)) ∧
    (∀ minSplitSize, range.splitMinSize = some minSplitSize →
      ∃ piece rest part, range.pieces = piece :: rest ∧ selected = [part] ∧
        (part ≠ piece → ∃ other, left.pieces = other :: rest ∧
          bytes [part] ++ bytes [other] = bytes [piece] ∧
          ((minSplitSize ≤ part.len ∧ minSplitSize ≤ other.len) ∨
            (range.requestCap ≠ 0 ∧ part.len = range.requestCap ∧
              part.len < max (divCeil piece.len (max slots 1)) (max minSplitSize 1))))) ∧
    bytes (left.prepend selected).pieces = bytes range.pieces ∧
    (left.prepend selected).requestCap = range.requestCap ∧
    (left.prepend selected).splitMinSize = range.splitMinSize ∧
    ∀ slotsAt : Nat → Nat, ∃ count ≤ lenSum range.pieces,
      (drain ((List.range count).map slotsAt) range).2.pieces = [] ∧
      bytes (drain ((List.range count).map slotsAt) range).1 = bytes range.pieces := by
  obtain ⟨hsolid, hne⟩ := h.solid hmap
  have hsel : (range.takePrefix slots).1 = selected := congrArg Prod.fst htake
  have hleft : (range.takePrefix slots).2 = left := congrArg Prod.snd htake
  have hbyt := takePrefix_bytes range slots
  have hpolicy := takePrefix_requestCap range slots
  obtain ⟨-, hsome, hlength⟩ := takePrefix_cut hsolid hne slots
  rw [hsel] at hsome hlength
  rw [hsel, hleft] at hbyt
  rw [hleft] at hpolicy
  refine ⟨hsome, hbyt, ?_, ?_, ?_, hpolicy.1, hpolicy.2, ?_⟩
  · intro hspl
    have hwh := takePrefix_whole hspl slots
    rw [hsel, hleft] at hwh
    refine ⟨hwh, hlength, fun hcap hover => ?_⟩
    have hone := takePrefix_cap hspl hcap slots
    rw [hsel] at hone
    have hpos := List.length_pos_iff.mpr hsome
    omega
  · intro minSplitSize hspl
    obtain ⟨piece, rest, hps⟩ := List.exists_cons_of_ne_nil hne
    have houtc := takeSplit_outcome hps minSplitSize slots
    rw [← takePrefix_split hspl, hsel, hleft] at houtc
    rcases houtc with ⟨hpart, -⟩ | ⟨middle, hlo, hhi, hpart, ho, hsizes⟩
    · exact ⟨piece, rest, piece, hps, hpart, fun hne => absurd rfl hne⟩
    · refine ⟨piece, rest, _, hps, hpart, fun _ => ⟨_, ho, ?_, ?_⟩⟩
      · rw [← bytes_append]
        exact bytes_split piece [] hlo.le hhi.le
      · rcases hsizes with hsizes | ⟨hcap, hlen, hforced⟩
        · exact .inl hsizes
        · exact .inr ⟨hcap, hlen, by rw [← hlen] at hforced; exact hforced⟩
  · rw [prepend, bytes_append, hbyt]
  · intro slotsAt
    obtain ⟨count, hc, hemp⟩ := drain_empties range hsolid slotsAt
    refine ⟨count, hc, hemp, ?_⟩
    have hdrn := drain_bytes ((List.range count).map slotsAt) range
    rw [hemp, bytes_nil, List.append_nil] at hdrn
    exact hdrn

theorem three_bytes_for_two_slots : Queued (PieceMap.new 10 4) ⟨[⟨0, 1, 4⟩], 0, some 1⟩ ∧
    takePrefix ⟨[⟨0, 1, 4⟩], 0, some 1⟩ 2 = ([⟨0, 1, 3⟩], ⟨[⟨0, 3, 4⟩], 0, some 1⟩) ∧
    bytes [⟨0, 1, 3⟩, ⟨0, 3, 4⟩] = bytes [⟨0, 1, 4⟩] ∧
    ∃ count ≤ 3, (drain ((List.range count).map fun _ => 2)
      ⟨[⟨0, 1, 4⟩], 0, some 1⟩).2.pieces = [] := by
  have hqd : Queued (new 10 4) ⟨[⟨0, 1, 4⟩], 0, some 1⟩ := by
    refine .enqueued (.part ⟨0, 1, 4⟩ 1 rfl rfl (by decide) (by decide) fun b hb => ?_)
    simp only [span, Span.mem_iff] at hb
    simp only [Span.mem_iff, pieceRange, pieceLen, new]
    omega
  have htake : takePrefix ⟨[⟨0, 1, 4⟩], 0, some 1⟩ 2 =
      ([⟨0, 1, 3⟩], ⟨[⟨0, 3, 4⟩], 0, some 1⟩) := by decide
  obtain ⟨-, -, -, -, hrstd, -, -, hdrn⟩ :=
    queued_prefixes_keep_bytes (new_valid (by decide)) hqd 2 htake
  obtain ⟨count, hc, hemp, -⟩ := hdrn fun _ => 2
  exact ⟨hqd, htake, hrstd, count, hc, hemp⟩

end PendingRange

end Bytehaul.Session
