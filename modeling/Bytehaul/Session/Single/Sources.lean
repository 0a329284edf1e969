import Bytehaul.Session.Single.Steady

/-!
# Where the bytes come from

The bodies streamed into one output file: each begins where the one before it ended.
-/

namespace Bytehaul.Session

open Foundation Storage List Nat

def reserved (allocation : FileAllocation) (totalSize : Option Nat) : Nat :=
  match allocation, totalSize with
  | .prealloc, some size => size
  | _, _ => 0

theorem reserved_none (allocation : FileAllocation) : reserved allocation none = 0 := by
  cases allocation <;> rfl

theorem length_createOutputFile (totalSize : Option Nat) (allocation : FileAllocation)
    (device : Device) : (createOutputFile totalSize allocation device).content.length =
      reserved allocation totalSize := by
  cases allocation with
  | none => rfl
  | prealloc =>
    cases totalSize with
    | none => rfl
    | some size => exact length_replicate

namespace Contribution

def stop (c : Contribution) : Nat := c.start + c.forwarded

structure Laid (c : Contribution) (canvas : Canvas) : Prop where
  forwarded : c.forwarded ≤ c.body.length
  content : ∀ i < c.forwarded, canvas.content[c.start + i]? = c.body[i]?

end Contribution

/-- The bodies follow each other without a gap from `base` to `n`, the latest first. -/
def Chained (base : Nat) : List Contribution → Nat → Prop
  | [], n => n = base
  | c :: earlier, n => Chained base earlier c.start ∧ n = c.stop

theorem Chained.base_le {base n : Nat} {contrs : List Contribution}
    (h : Chained base contrs n) : base ≤ n := by
  induction contrs generalizing n with
  | nil => exact le_of_eq h.symm
  | cons c earlier ih =>
    obtain ⟨hearl, rfl⟩ := h
    exact le_add_right_of_le (ih hearl)

theorem Chained.stop_le {base n : Nat} {contrs : List Contribution} {c : Contribution}
    (h : Chained base contrs n) (hc : c ∈ contrs) : c.stop ≤ n := by
  induction contrs generalizing n with
  | nil => cases hc
  | cons latest earlier ih =>
    obtain ⟨hearl, rfl⟩ := h
    rcases mem_cons.mp hc with rfl | hc
    · exact le_refl _
    · exact le_add_right_of_le (ih hearl hc)

private theorem Chained.exists_mem {base n b : Nat} {contrs : List Contribution}
    (h : Chained base contrs n) (hbase : base ≤ b) (hb : b < n) :
    ∃ c ∈ contrs, c.start ≤ b ∧ b < c.stop := by
  induction contrs generalizing n with
  | nil =>
    have hn : n = base := h
    omega
  | cons c earlier ih =>
    obtain ⟨hearl, rfl⟩ := h
    by_cases hstart : c.start ≤ b
    · exact ⟨c, mem_cons_self, hstart, hb⟩
    · obtain ⟨found, hmem, hf⟩ := ih hearl (by omega)
      exact ⟨found, mem_cons_of_mem _ hmem, hf⟩

/-- What a resumed transfer starts from: the response to its probe and the file on disk. -/
structure Origin where
  metadata : ResponseMeta
  content : List UInt8

/-- An output file with the bodies it was assembled from, and what they have to agree with. -/
structure Sources where
  canvas : Canvas
  reserved : Nat
  baseline : ResponseMeta
  totalSize : Option Nat
  base : Nat
  contributions : List Contribution

namespace Sources

/-- A body from the start defines the baseline; a later one continues the file and matches it. -/
structure Agrees (baseline : ResponseMeta) (totalSize : Option Nat) (c : Contribution) : Prop where
  first : c.start = 0 → c.response.metadata = baseline
  later : 0 < c.start → c.response.status = 206 ∧
    c.response.metadata.contentRangeStart = some c.start ∧
    SingleRun.metadataMatchesBaseline c.response.metadata baseline totalSize = true
  total : ∀ total, SingleRun.singleResponseTotalSize c.response = some total →
    totalSize = some total

structure Traced (origin : Origin) (sources : Sources) (n : Nat) : Prop where
  filled : sources.canvas.Filled n
  chain : Chained sources.base sources.contributions n
  laid : ∀ c ∈ sources.contributions, c.Laid sources.canvas
  agrees : ∀ c ∈ sources.contributions, 0 < c.forwarded →
    Agrees sources.baseline sources.totalSize c
  length : sources.canvas.content.length ≤ max n sources.reserved
  resumed : 0 < sources.base → sources.baseline = origin.metadata ∧
    ∀ b < sources.base, sources.canvas.content[b]? = origin.content[b]?

/-- The latest body is the one being streamed; `frame` of it has arrived and is not sent. -/
def Streams (sources : Sources) (frame : List UInt8) : Prop :=
  ∃ c earlier, sources.contributions = c :: earlier ∧ c.body.drop c.forwarded = frame ∧
    Agrees sources.baseline sources.totalSize c

variable {origin : Origin} {sources : Sources} {n : Nat} {frame : List UInt8}

def begin (sources : Sources) (response : HttpResponse) (start : Nat) : Sources :=
  { sources with contributions := ⟨response, start, [], 0⟩ :: sources.contributions }

def receive (sources : Sources) (data : List UInt8) : Sources :=
  { sources with contributions :=
      sources.contributions.modifyHead fun c => { c with body := c.body ++ data } }

def send (sources : Sources) (pos : Nat) (part : List UInt8) : Sources :=
  { sources with
    canvas := sources.canvas.lay pos part
    contributions := sources.contributions.modifyHead
      fun c => { c with forwarded := c.forwarded + part.length } }

theorem Traced.begin {resp : HttpResponse} (h : sources.Traced origin n) :
    (sources.begin resp n).Traced origin n where
  filled := h.filled
  chain := ⟨h.chain, rfl⟩
  laid c hc := by
    rcases mem_cons.mp hc with rfl | hc
    · exact ⟨le_refl 0, fun i hi => absurd hi (not_lt_zero i)⟩
    · exact h.laid c hc
  agrees c hc hfwd := by
    rcases mem_cons.mp hc with rfl | hc
    · exact absurd hfwd (lt_irrefl 0)
    · exact h.agrees c hc hfwd
  length := h.length
  resumed := h.resumed

theorem streams_begin {resp : HttpResponse}
    (hagr : Agrees sources.baseline sources.totalSize ⟨resp, n, [], 0⟩) :
    (sources.begin resp n).Streams [] :=
  ⟨_, _, rfl, rfl, hagr⟩

theorem Traced.receive (h : sources.Traced origin n) (hstrs : sources.Streams [])
    (data : List UInt8) :
    (sources.receive data).Traced origin n ∧ (sources.receive data).Streams data := by
  obtain ⟨c, earlier, hcontr, hframe, hagr⟩ := hstrs
  have hc : c ∈ sources.contributions := by rw [hcontr]; exact mem_cons_self
  have hearl : ∀ other ∈ earlier, other ∈ sources.contributions := by
    intro other ho
    rw [hcontr]
    exact mem_cons_of_mem _ ho
  have hlaid := h.laid c hc
  have hsent : c.forwarded = c.body.length :=
    le_antisymm hlaid.forwarded (drop_eq_nil_iff.mp hframe)
  have hgrown : (sources.receive data).contributions =
      { c with body := c.body ++ data } :: earlier := by
    simp only [Sources.receive, hcontr, modifyHead_cons]
  have hsame : Agrees sources.baseline sources.totalSize { c with body := c.body ++ data } :=
    ⟨hagr.first, hagr.later, hagr.total⟩
  refine ⟨⟨h.filled, ?_, ?_, ?_, h.length, h.resumed⟩, _, earlier, hgrown, ?_, hsame⟩
  · have hchain := h.chain
    rw [hcontr] at hchain
    rw [hgrown]
    exact hchain
  · intro other ho
    rw [hgrown] at ho
    rcases mem_cons.mp ho with rfl | ho
    · refine ⟨?_, fun i hi => ?_⟩
      · rw [length_append]
        exact le_add_right_of_le hlaid.forwarded
      · exact (hlaid.content i hi).trans (getElem?_append_left (hsent ▸ hi)).symm
    · exact h.laid other (hearl other ho)
  · intro other ho hfwd
    rw [hgrown] at ho
    rcases mem_cons.mp ho with rfl | ho
    · exact hsame
    · exact h.agrees other (hearl other ho) hfwd
  · rw [hsent, drop_left]

theorem Traced.send {part rest : List UInt8} (h : sources.Traced origin n)
    (hstrs : sources.Streams (part ++ rest)) :
    (sources.send n part).Traced origin (n + part.length) ∧ (sources.send n part).Streams rest := by
  obtain ⟨c, earlier, hcontr, hframe, hagr⟩ := hstrs
  have hc : c ∈ sources.contributions := by rw [hcontr]; exact mem_cons_self
  have hearl : ∀ other ∈ earlier, other ∈ sources.contributions := by
    intro other ho
    rw [hcontr]
    exact mem_cons_of_mem _ ho
  have hlaid := h.laid c hc
  have hgrown : (sources.send n part).contributions =
      { c with forwarded := c.forwarded + part.length } :: earlier := by
    simp only [Sources.send, hcontr, modifyHead_cons]
  have hsame : Agrees sources.baseline sources.totalSize
      { c with forwarded := c.forwarded + part.length } :=
    ⟨hagr.first, hagr.later, hagr.total⟩
  have hchain := h.chain
  rw [hcontr] at hchain
  obtain ⟨hrest, hn⟩ := hchain
  simp only [Contribution.stop] at hn
  have hbody : c.forwarded + part.length ≤ c.body.length := by
    have hlen := congrArg List.length hframe
    simp only [length_drop, length_append] at hlen
    have := hlaid.forwarded
    omega
  have hkept : ∀ b < n, (sources.send n part).canvas.content[b]? = sources.canvas.content[b]? :=
    fun b hb => h.filled.getElem?_lay_of_lt hb
  refine ⟨⟨h.filled.lay, ?_, ?_, ?_, ?_, fun hbase => ?_⟩, _, earlier, hgrown, ?_, hsame⟩
  · rw [hgrown]
    exact ⟨hrest, by simp only [Contribution.stop]; omega⟩
  · intro other ho
    rw [hgrown] at ho
    rcases mem_cons.mp ho with rfl | ho
    · refine ⟨hbody, fun i hi => ?_⟩
      dsimp only at hi ⊢
      by_cases hold : i < c.forwarded
      · rw [hkept _ (by omega)]
        exact hlaid.content i hold
      · have hin : (sources.send n part).canvas.content[c.start + i]? =
            part[c.start + i - n]? :=
          Canvas.getElem?_lay_inside (by omega) (by omega)
        have hpart : (c.body.drop c.forwarded)[i - c.forwarded]? = part[i - c.forwarded]? := by
          rw [hframe, getElem?_append_left (by omega)]
        rw [hin, show c.start + i - n = i - c.forwarded by omega, ← hpart, getElem?_drop,
          show c.forwarded + (i - c.forwarded) = i by omega]
    · have hother' := hearl other ho
      refine ⟨(h.laid other hother').forwarded, fun i hi => ?_⟩
      have hstop := h.chain.stop_le hother'
      simp only [Contribution.stop] at hstop
      rw [hkept _ (by omega)]
      exact (h.laid other hother').content i hi
  · intro other ho hfwd
    rw [hgrown] at ho
    rcases mem_cons.mp ho with rfl | ho
    · exact hsame
    · exact h.agrees other (hearl other ho) hfwd
  · have hlen : (sources.send n part).canvas.content.length =
        max sources.canvas.content.length (n + part.length) := h.filled.length_lay
    have hbd := h.length
    have hresd : (sources.send n part).reserved = sources.reserved := rfl
    omega
  · refine ⟨(h.resumed hbase).1, fun b hb => ?_⟩
    exact (hkept b (lt_of_lt_of_le hb h.chain.base_le)).trans ((h.resumed hbase).2 b hb)
  · dsimp only
    rw [← drop_drop, hframe, drop_left]

theorem Traced.adopt (h : sources.Traced origin 0) (baseline : ResponseMeta)
    (totalSize : Option Nat) :
    Traced origin { sources with baseline := baseline, totalSize := totalSize } 0 where
  filled := h.filled
  chain := h.chain
  laid := h.laid
  agrees c hc hfwd := by
    have hstop := h.chain.stop_le hc
    simp only [Contribution.stop] at hstop
    omega
  length := h.length
  resumed hbase := by
    have hle := h.chain.base_le
    have hbase' : 0 < sources.base := hbase
    omega

theorem traced_new {canvas : Canvas} {baseline : ResponseMeta} {totalSize : Option Nat}
    {space : Nat} (hfilled : canvas.Filled n) (hlen : canvas.content.length ≤ max n space)
    (horig : 0 < n → baseline = origin.metadata ∧
      ∀ b < n, canvas.content[b]? = origin.content[b]?) :
    Traced origin ⟨canvas, space, baseline, totalSize, n, []⟩ n where
  filled := hfilled
  chain := rfl
  laid _ hc := by cases hc
  agrees _ hc := by cases hc
  length := hlen
  resumed := horig

theorem Traced.byte {b : Nat} (h : sources.Traced origin n) (hbase : sources.base ≤ b)
    (hb : b < n) : ∃ c ∈ sources.contributions, 0 < c.forwarded ∧ c.start ≤ b ∧ b < c.stop ∧
      sources.canvas.content[b]? = c.body[b - c.start]? := by
  obtain ⟨c, hc, hstart, hstop⟩ := h.chain.exists_mem hbase hb
  have hin : b - c.start < c.forwarded := by
    simp only [Contribution.stop] at hstop
    omega
  refine ⟨c, hc, by omega, hstart, hstop, ?_⟩
  rw [← (h.laid c hc).content _ hin, show c.start + (b - c.start) = b by omega]

end Sources

end Bytehaul.Session
