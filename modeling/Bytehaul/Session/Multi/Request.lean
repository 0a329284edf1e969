import Bytehaul.Foundation.Checked
import Bytehaul.Session.Multi.Worker

/-!
# The body of one request

`session/multi/worker/request.rs` and `forward_observed`: a body over several leases is read
by one call of `primary` for each, and what a frame holds beyond the lease stays buffered.
-/

namespace Bytehaul.Session

open Foundation Storage List Option Checked Nat

inductive Frame
  | data (bytes : List UInt8)
  | failed (error : DownloadError)
  deriving DecidableEq, Repr

structure BodyContext where
  segment : Segment
  requestEnd : Nat
  maxChunk : Nat

def BodyContext.len (ctx : BodyContext) : Nat := ctx.segment.stop - ctx.segment.start

structure Sent where
  offset : Nat
  data : List UInt8
  leaseKey : LeaseKey
  deriving DecidableEq, Repr

/-- `looks` counts how often the task looked for a stop request or the end of the writer. -/
structure Reader where
  frames : List Frame
  stream : RequestStream
  forwarded : Nat
  sent : List Sent
  looks : Nat

abbrev Interrupts := Nat → Option DownloadError

def Reader.look (reader : Reader) : Reader := { reader with looks := reader.looks + 1 }

def Reader.send (ctx : BodyContext) (reader : Reader) (offset : Nat) (data : List UInt8) :
    Reader where
  frames := reader.frames
  stream := { reader.stream with consumed := reader.stream.consumed + data.length }
  forwarded := reader.forwarded + data.length
  sent := reader.sent ++ [⟨offset, data, ctx.segment.leaseKey⟩]
  looks := reader.looks + 1

/-- The loop of `forward_observed`; with `max_chunk` positive, each turn sends a byte. -/
def forwardObserved (ctx : BodyContext) (interrupts : Interrupts) :
    Nat → List UInt8 → Nat → Reader → Except DownloadError Unit × Reader
  | 0, _, _, reader => (.ok (), reader)
  | turns + 1, data, offset, reader =>
    if data = [] then (.ok (), reader)
    else
      match interrupts reader.looks with
      | some error => (.error error, reader.look)
      | none =>
        let len := min data.length ctx.maxChunk
        forwardObserved ctx interrupts turns (data.drop len) (offset + len)
          (reader.send ctx offset (data.take len))

inductive Turn
  | done (reader : Reader)
  | failed (error : DownloadError) (reader : Reader)
  | again (reader : Reader)

def afterForward (interrupts : Interrupts) : Except DownloadError Unit × Reader → Turn
  | (.error error, reader) => .failed error reader
  | (.ok (), reader) =>
    match interrupts reader.looks with
    | some error => .failed error reader.look
    | none => .again reader.look

def turn (ctx : BodyContext) (interrupts : Interrupts) (reader : Reader) : Turn :=
  let stream := reader.stream
  if reader.forwarded = ctx.len ∧ ctx.segment.stop < ctx.requestEnd then .done reader
  else if stream.buffered = [] then
    match reader.frames with
    | [] =>
      if stream.wire ≠ stream.expected then
        .failed (.transport .body "range body ended early") reader
      else .done reader
    | .failed error :: frames => .failed error { reader with frames := frames }
    | .data bytes :: frames =>
      let wire := saturatingAdd stream.wire bytes.length
      if wire > stream.expected then
        .failed (.resumeMismatch "server overran requested range")
          { reader with frames := frames, stream := { stream with wire := wire } }
      else .again { reader with
        frames := frames
        stream := { stream with wire := wire, buffered := bytes } }
  else
    let remaining := ctx.len - reader.forwarded
    let len := min (min stream.buffered.length ctx.maxChunk) remaining
    if len = 0 then .failed (.resumeMismatch "server overran final piece") reader
    else
      afterForward interrupts (forwardObserved ctx interrupts len (stream.buffered.take len)
        (ctx.segment.start + reader.forwarded)
        { reader with stream := { stream with buffered := stream.buffered.drop len } })

private theorem forwardObserved_stream (ctx : BodyContext) (interrupts : Interrupts) (turns : Nat) :
    ∀ (data : List UInt8) (offset : Nat) (reader : Reader),
      (forwardObserved ctx interrupts turns data offset reader).2.frames = reader.frames ∧
      (forwardObserved ctx interrupts turns data offset reader).2.stream.buffered =
        reader.stream.buffered := by
  induction turns with
  | zero => exact fun _ _ _ => ⟨rfl, rfl⟩
  | succ turns ih =>
    intro data offset reader
    unfold forwardObserved
    split
    · exact ⟨rfl, rfl⟩
    · split
      · exact ⟨rfl, rfl⟩
      · exact ih _ _ _

theorem afterForward_stream {interrupts : Interrupts} {out : Except DownloadError Unit × Reader}
    {next : Reader} (h : afterForward interrupts out = .again next) :
    next.frames = out.2.frames ∧ next.stream.buffered = out.2.stream.buffered := by
  unfold afterForward at h
  split at h
  · cases h
  · split at h
    · cases h
    · obtain rfl := Turn.again.inj h
      exact ⟨rfl, rfl⟩

private theorem turn_decreases {ctx : BodyContext} {interrupts : Interrupts} {reader next : Reader}
    (h : turn ctx interrupts reader = .again next) :
    Prod.Lex (· < ·) (· < ·) (next.frames.length, next.stream.buffered.length)
      (reader.frames.length, reader.stream.buffered.length) := by
  unfold turn at h
  dsimp only at h
  split at h
  · cases h
  · split at h
    · split at h
      · split at h <;> cases h
      · cases h
      · rename_i bytes frames hfrs
        split at h
        · cases h
        · obtain rfl := Turn.again.inj h
          exact Prod.Lex.left _ _ (by simp [hfrs])
    · rename_i hbuffered
      split at h
      · cases h
      · obtain ⟨hkept, hbuf⟩ := forwardObserved_stream ctx interrupts _ _ _ _
        obtain ⟨hfrs, hbyt⟩ := afterForward_stream h
        rw [hfrs, hbyt, hkept, hbuf]
        exact Prod.Lex.right _ (by rw [length_drop]; omega)

def primary (ctx : BodyContext) (interrupts : Interrupts) (reader : Reader) :
    Except DownloadError Unit × Reader :=
  match _ : turn ctx interrupts reader with
  | .done reader => (.ok (), reader)
  | .failed error reader => (.error error, reader)
  | .again next => primary ctx interrupts next
termination_by (reader.frames.length, reader.stream.buffered.length)
decreasing_by exact turn_decreases ‹_›

theorem primary_eq (ctx : BodyContext) (interrupts : Interrupts) (reader : Reader) :
    primary ctx interrupts reader = match turn ctx interrupts reader with
      | .done reader => (.ok (), reader)
      | .failed error reader => (.error error, reader)
      | .again next => primary ctx interrupts next := by
  rw [primary]
  split <;> simp_all only

def bytesOf (frames : List Frame) : List UInt8 :=
  frames.flatMap fun
    | .data bytes => bytes
    | .failed _ => []

def placed (sent : List Sent) : List (UInt8 × Nat) :=
  sent.flatMap fun command => command.data.zipIdx command.offset

/-- The reader stands in `body` where the stream's counters say. -/
structure Reader.At (ctx : BodyContext) (body : List UInt8) (reader : Reader) : Prop where
  position : reader.stream.start + reader.stream.consumed = ctx.segment.start + reader.forwarded
  within : reader.forwarded ≤ ctx.len
  rest : body.drop reader.stream.consumed = reader.stream.buffered ++ bytesOf reader.frames
  consumed_le : reader.stream.consumed ≤ body.length
  wire : reader.stream.wire =
    min (reader.stream.consumed + reader.stream.buffered.length) (u64Limit - 1)
  wire_le : reader.stream.wire ≤ reader.stream.expected
  stop : reader.stream.start + reader.stream.expected = ctx.requestEnd

/-- Between two readers the next `count` bytes of the body were forwarded, all in the lease. -/
structure Reader.Forwards (ctx : BodyContext) (body : List UInt8) (count : Nat)
    (reader next : Reader) : Prop where
  consumed : next.stream.consumed = reader.stream.consumed + count
  forwarded : next.forwarded = reader.forwarded + count
  within : next.forwarded ≤ ctx.len
  available : reader.stream.consumed + count ≤ body.length
  placed : placed next.sent = placed reader.sent ++
    ((body.drop reader.stream.consumed).take count).zipIdx (ctx.segment.start + reader.forwarded)
  key : (∀ command ∈ reader.sent, command.leaseKey = ctx.segment.leaseKey) →
    ∀ command ∈ next.sent, command.leaseKey = ctx.segment.leaseKey
  start : next.stream.start = reader.stream.start
  expected : next.stream.expected = reader.stream.expected

section Turn

variable {ctx : BodyContext} {body : List UInt8} {interrupts : Interrupts}
  {reader next last : Reader}

theorem Reader.Forwards.none (h : reader.At ctx body) (hused : next.stream.consumed =
    reader.stream.consumed) (hfwd : next.forwarded = reader.forwarded)
    (hsent : next.sent = reader.sent) (hstart : next.stream.start = reader.stream.start)
    (hexp : next.stream.expected = reader.stream.expected) :
    reader.Forwards ctx body 0 next where
  consumed := hused
  forwarded := hfwd
  within := hfwd ▸ h.within
  available := h.consumed_le
  placed := by simp [hsent]
  key := by simp [hsent]
  start := hstart
  expected := hexp

theorem Reader.Forwards.trans {count more : Nat} (h : reader.Forwards ctx body count next)
    (hlast : next.Forwards ctx body more last) : reader.Forwards ctx body (count + more) last where
  consumed := by rw [hlast.consumed, h.consumed, add_assoc]
  forwarded := by rw [hlast.forwarded, h.forwarded, add_assoc]
  within := hlast.within
  available := by
    have havl := hlast.available
    rw [h.consumed] at havl
    omega
  placed := by
    have havl := h.available
    rw [hlast.placed, h.placed, h.consumed, h.forwarded, take_add, zipIdx_append,
      append_assoc, length_take, length_drop, drop_drop,
      min_eq_left (by omega), add_assoc]
  key hkey := hlast.key (h.key hkey)
  start := hlast.start.trans h.start
  expected := hlast.expected.trans h.expected

theorem Reader.Forwards.look {count : Nat} (h : reader.Forwards ctx body count next) :
    reader.Forwards ctx body count next.look :=
  ⟨h.consumed, h.forwarded, h.within, h.available, h.placed, h.key, h.start, h.expected⟩

theorem Reader.At.look (h : reader.At ctx body) : reader.look.At ctx body :=
  ⟨h.position, h.within, h.rest, h.consumed_le, h.wire, h.wire_le, h.stop⟩

theorem forwardObserved_single (ctx : BodyContext) (interrupts : Interrupts) {data : List UInt8}
    (hdata : data ≠ []) (hlen : data.length ≤ ctx.maxChunk) (offset turns : Nat) (reader : Reader) :
    forwardObserved ctx interrupts (turns + 1) data offset reader =
      match interrupts reader.looks with
      | some error => (.error error, reader.look)
      | none => (.ok (), reader.send ctx offset data) := by
  unfold forwardObserved
  rw [if_neg hdata]
  cases interrupts reader.looks with
  | some error => rfl
  | none =>
    dsimp only
    rw [min_eq_left hlen, drop_length, take_length]
    cases turns with
    | zero => rfl
    | succ turns =>
      unfold forwardObserved
      rw [if_pos rfl]

theorem Reader.At.send (h : reader.At ctx body) (len : Nat)
    (hbuffered : len ≤ reader.stream.buffered.length) (hrem : reader.forwarded + len ≤ ctx.len)
    {sent : Reader} (hsent : sent = Reader.send ctx
      { reader with stream := { reader.stream with buffered := reader.stream.buffered.drop len } }
      (ctx.segment.start + reader.forwarded) (reader.stream.buffered.take len)) :
    sent.At ctx body ∧ reader.Forwards ctx body len sent := by
  have hlen : (reader.stream.buffered.take len).length = len := by
    rw [length_take]
    omega
  have hdrop := congrArg length h.rest
  rw [length_drop, length_append] at hdrop
  have hle := h.consumed_le
  have hposn := h.position
  subst hsent
  refine ⟨⟨?_, ?_, ?_, ?_, ?_, h.wire_le, h.stop⟩, ⟨?_, ?_, ?_, ?_, ?_, ?_, rfl, rfl⟩⟩
  · simp only [Reader.send, hlen]
    omega
  · simp only [Reader.send, hlen]
    omega
  · simp only [Reader.send, hlen]
    rw [← drop_drop, h.rest, drop_append_of_le_length hbuffered]
  · simp only [Reader.send, hlen]
    omega
  · simp only [Reader.send, hlen, h.wire, length_drop]
    omega
  · simp only [Reader.send, hlen]
  · simp only [Reader.send, hlen]
  · simp only [Reader.send, hlen]
    omega
  · omega
  · simp only [Reader.send, placed, flatMap_append, flatMap_cons, flatMap_nil, append_nil]
    rw [h.rest, take_append_of_le_length hbuffered]
  · intro hkey cmd hcmd
    rcases mem_append.mp hcmd with hcmd | hcmd
    · exact hkey cmd hcmd
    · rw [mem_singleton.mp hcmd]

/-- The lease lies within the request, and the sizes are those of the machine. -/
structure BodyContext.Sound (ctx : BodyContext) : Prop where
  start_le : ctx.segment.start ≤ ctx.segment.stop
  stop_le : ctx.segment.stop ≤ ctx.requestEnd
  limit : ctx.requestEnd < u64Limit
  maxChunk_pos : 1 ≤ ctx.maxChunk

def Undisturbed (interrupts : Interrupts) (frames : List Frame) : Prop :=
  (∀ look, interrupts look = none) ∧ ∀ error, Frame.failed error ∉ frames

def Reader.Finished (ctx : BodyContext) (body : List UInt8) (reader : Reader) : Prop :=
  reader.forwarded = ctx.len ∧ (ctx.segment.stop < ctx.requestEnd ∨
    ctx.segment.stop = ctx.requestEnd ∧ body.length = reader.stream.expected)

/-- The body is shorter or longer than the request, and the lease is not done. -/
def Reader.Noticed (ctx : BodyContext) (body : List UInt8) (error : DownloadError)
    (reader : Reader) : Prop :=
  (ctx.segment.stop < ctx.requestEnd → reader.forwarded < ctx.len) ∧
    (body.length < reader.stream.expected ∧
        error = .transport .body "range body ended early" ∨
      reader.stream.expected < body.length ∧ ∃ message, error = .resumeMismatch message)

variable (hctx : ctx.Sound) (h : reader.At ctx body)

include hctx h

theorem Reader.At.consumed_le_expected : reader.stream.consumed ≤ reader.stream.expected := by
  have hposn := h.position
  have hstop := h.stop
  have hwith := h.within
  have hle := hctx.stop_le
  have hstart := hctx.start_le
  unfold BodyContext.len at hwith
  omega

variable (hbuffered : reader.stream.buffered = [])
include hbuffered

theorem Reader.At.wire_eq : reader.stream.wire = reader.stream.consumed := by
  have hle := h.consumed_le_expected hctx
  have hstop := h.stop
  have hlimit := hctx.limit
  rw [h.wire, hbuffered, length_nil]
  omega

omit hctx in
theorem Reader.At.ended (hfrs : reader.frames = []) : body.length = reader.stream.consumed := by
  have hrest := congrArg length h.rest
  have hle := h.consumed_le
  simp only [hbuffered, hfrs, bytesOf, flatMap_nil, append_nil, length_drop, length_nil] at hrest
  omega

theorem Reader.At.finished (hfrs : reader.frames = [])
    (hwire : reader.stream.wire = reader.stream.expected) : reader.Finished ctx body := by
  have hend := h.ended hbuffered hfrs
  have heq := h.wire_eq hctx hbuffered
  have hposn := h.position
  have hstop := h.stop
  have hwith := h.within
  have hle := hctx.stop_le
  unfold Reader.Finished
  unfold BodyContext.len at *
  omega

private theorem Reader.At.ended_early
    (hfrs : reader.frames = []) (hwire : reader.stream.wire ≠ reader.stream.expected) :
    body.length < reader.stream.expected := by
  have hend := h.ended hbuffered hfrs
  have heq := h.wire_eq hctx hbuffered
  have hle := h.consumed_le_expected hctx
  omega

theorem Reader.At.overran {bytes : List UInt8}
    {frames : List Frame} (hfrs : reader.frames = .data bytes :: frames)
    (hwire : reader.stream.expected < saturatingAdd reader.stream.wire bytes.length) :
    reader.stream.expected < body.length := by
  have hrest := congrArg length h.rest
  have heq := h.wire_eq hctx hbuffered
  have hle := h.consumed_le
  simp only [hbuffered, hfrs, bytesOf, flatMap_cons, nil_append, length_drop,
    length_append] at hrest
  unfold saturatingAdd at hwire
  omega

private theorem Reader.At.read {bytes : List UInt8}
    {frames : List Frame} (hfrs : reader.frames = .data bytes :: frames)
    (hwire : saturatingAdd reader.stream.wire bytes.length ≤ reader.stream.expected) :
    Reader.At ctx body { reader with
      frames := frames
      stream := { reader.stream with
        wire := saturatingAdd reader.stream.wire bytes.length
        buffered := bytes } } where
  position := h.position
  within := h.within
  rest := by
    rw [h.rest, hbuffered, hfrs]
    rfl
  consumed_le := h.consumed_le
  wire := by
    rw [h.wire_eq hctx hbuffered]
    rfl
  wire_le := hwire
  stop := h.stop

omit hbuffered

private theorem Reader.At.overran_final (hbuffered : reader.stream.buffered ≠ [])
    (hfull : ctx.len ≤ reader.forwarded) (hfinal : ¬ ctx.segment.stop < ctx.requestEnd) :
    reader.stream.expected < body.length := by
  have hrest := congrArg length h.rest
  have hpos := length_pos_iff.mpr hbuffered
  have hposn := h.position
  have hstop := h.stop
  have hstart := hctx.start_le
  rw [length_drop, length_append] at hrest
  unfold BodyContext.len at *
  omega

def TurnSpec (ctx : BodyContext) (body : List UInt8) (interrupts : Interrupts)
    (reader : Reader) : Turn → Prop
  | .done last => last = reader ∧ reader.Finished ctx body
  | .failed error last => (∃ count, reader.Forwards ctx body count last) ∧
      (Undisturbed interrupts reader.frames → last.Noticed ctx body error)
  | .again next => next.At ctx body ∧ (∃ count, reader.Forwards ctx body count next) ∧
      ∀ frame ∈ next.frames, frame ∈ reader.frames

omit hctx in
theorem turnSpec_forward {len : Nat} (hlen : len = min (min reader.stream.buffered.length
      ctx.maxChunk) (ctx.len - reader.forwarded)) (hpos : len ≠ 0) :
    TurnSpec ctx body interrupts reader (afterForward interrupts (forwardObserved ctx interrupts len
        (reader.stream.buffered.take len) (ctx.segment.start + reader.forwarded) { reader with
          stream := { reader.stream with buffered := reader.stream.buffered.drop len } })) := by
  have hwith := h.within
  have htake : (reader.stream.buffered.take len).length = len := by
    rw [List.length_take]
    omega
  have hdata : reader.stream.buffered.take len ≠ [] := by
    apply List.ne_nil_of_length_pos
    omega
  obtain ⟨hat, hfwds⟩ := h.send len (by omega) (by omega) rfl
  obtain ⟨turns, hturns⟩ : ∃ turns, len = turns + 1 := ⟨len - 1, by omega⟩
  have hsing := forwardObserved_single ctx interrupts hdata
    (show _ ≤ ctx.maxChunk by omega) (ctx.segment.start + reader.forwarded) turns { reader with
      stream := { reader.stream with buffered := reader.stream.buffered.drop len } }
  rw [← hturns] at hsing
  rw [hsing]
  cases hlook : interrupts reader.looks with
  | some error =>
    refine ⟨⟨0, .none h rfl rfl rfl rfl rfl⟩, fun hund => ?_⟩
    rw [hund.1] at hlook
    cases hlook
  | none =>
    unfold afterForward
    dsimp only
    split
    · rename_i error haft
      refine ⟨⟨len, hfwds.look⟩, fun hund => ?_⟩
      rw [hund.1] at haft
      cases haft
    · exact ⟨hat.look, ⟨len, hfwds.look⟩, fun frame hframe => hframe⟩

theorem turn_spec (interrupts : Interrupts) :
    TurnSpec ctx body interrupts reader (turn ctx interrupts reader) := by
  unfold turn
  dsimp only
  split
  · rename_i hboundary
    exact ⟨rfl, hboundary.1, .inl hboundary.2⟩
  · have hopen : ctx.segment.stop < ctx.requestEnd → reader.forwarded < ctx.len := by
      have hwith := h.within
      omega
    split
    · rename_i hbuffered
      split
      · rename_i hfrs
        split
        · rename_i hwire
          exact ⟨⟨0, .none h rfl rfl rfl rfl rfl⟩, fun _ =>
            ⟨hopen, .inl ⟨h.ended_early hctx hbuffered hfrs hwire, rfl⟩⟩⟩
        · rename_i hwire
          exact ⟨rfl, h.finished hctx hbuffered hfrs (not_not.mp hwire)⟩
      · rename_i error frames hfrs
        refine ⟨⟨0, .none h rfl rfl rfl rfl rfl⟩, fun hund => ?_⟩
        exact absurd (hfrs ▸ mem_cons_self) (hund.2 error)
      · rename_i bytes frames hfrs
        split
        · rename_i hwire
          have hlong := h.overran hctx hbuffered hfrs hwire
          exact ⟨⟨0, .none h rfl rfl rfl rfl rfl⟩, fun _ => ⟨hopen, .inr ⟨hlong, _, rfl⟩⟩⟩
        · rename_i hwire
          refine ⟨h.read hctx hbuffered hfrs (Nat.le_of_not_lt hwire),
            ⟨0, .none h rfl rfl rfl rfl rfl⟩, fun frame hframe => ?_⟩
          exact hfrs ▸ mem_cons_of_mem _ hframe
    · rename_i hbuffered
      split
      · have hpos := length_pos_iff.mpr hbuffered
        have hchunk := hctx.maxChunk_pos
        refine ⟨⟨0, .none h rfl rfl rfl rfl rfl⟩, fun _ => ⟨hopen, .inr ⟨?_, _, rfl⟩⟩⟩
        exact h.overran_final hctx hbuffered (by omega) (by omega)
      · rename_i hlen
        exact turnSpec_forward h rfl hlen

omit hctx h in
theorem primary_spec (hctx : ctx.Sound) {out : Except DownloadError Unit × Reader}
    (h : reader.At ctx body) (hout : primary ctx interrupts reader = out) :
    (∃ count, reader.Forwards ctx body count out.2) ∧
    (out.1 = .ok () → out.2.At ctx body ∧ out.2.Finished ctx body ∧
      ∀ frame ∈ out.2.frames, frame ∈ reader.frames) ∧
    ∀ error, out.1 = .error error →
      Undisturbed interrupts reader.frames → out.2.Noticed ctx body error := by
  induction reader using primary.induct ctx interrupts with
  | case1 reader last hturn =>
    have hspec := turn_spec hctx h interrupts
    rw [primary_eq, hturn] at hout
    rw [hturn] at hspec
    obtain ⟨rfl, hfin⟩ := hspec
    subst hout
    exact ⟨⟨0, .none h rfl rfl rfl rfl rfl⟩, fun _ => ⟨h, hfin, fun _ hframe => hframe⟩, by simp⟩
  | case2 reader error last hturn =>
    have hspec := turn_spec hctx h interrupts
    rw [primary_eq, hturn] at hout
    rw [hturn] at hspec
    subst hout
    refine ⟨hspec.1, by simp, fun error herr hund => ?_⟩
    exact Except.error.inj herr ▸ hspec.2 hund
  | case3 reader next hturn ih =>
    have hspec := turn_spec hctx h interrupts
    rw [primary_eq, hturn] at hout
    rw [hturn] at hspec
    obtain ⟨hat, ⟨count, hfwds⟩, hfrs⟩ := hspec
    obtain ⟨⟨more, hmore⟩, hok, herr⟩ := ih hat hout
    refine ⟨⟨count + more, hfwds.trans hmore⟩, fun hres => ?_, ?_⟩
    · obtain ⟨hat', hfin, hframes'⟩ := hok hres
      exact ⟨hat', hfin, fun frame hframe => hfrs frame (hframes' frame hframe)⟩
    · intro error hres hund
      exact herr error hres ⟨hund.1, fun error hmem =>
        hund.2 error (hfrs _ hmem)⟩

end Turn

structure Call where
  segment : Segment
  result : Except DownloadError Unit
  sent : List Sent

/-- The calls for the leases of a request, in order, up to the first that fails. -/
def consume (requestEnd maxChunk : Nat) (interrupts : Interrupts) :
    List Segment → Reader → List Call
  | [], _ => []
  | segment :: rest, reader =>
    match primary ⟨segment, requestEnd, maxChunk⟩ interrupts
        { reader with forwarded := 0, sent := [] } with
    | (.ok (), next) =>
      ⟨segment, .ok (), next.sent⟩ :: consume requestEnd maxChunk interrupts rest next
    | (.error error, last) => [⟨segment, .error error, last.sent⟩]

def Reader.opened (response : HttpResponse) (start requestEnd : Nat) (frames : List Frame) :
    Reader where
  frames := frames
  stream := {
    response := response
    start := start
    expected := requestEnd - start
    wire := 0
    consumed := 0
    buffered := [] }
  forwarded := 0
  sent := []
  looks := 0

def Consecutive : Nat → Nat → List Segment → Prop
  | start, stop, [] => start = stop
  | start, stop, segment :: rest =>
    segment.start = start ∧ segment.start < segment.stop ∧ Consecutive segment.stop stop rest

theorem Consecutive.le {start stop : Nat} {leases : List Segment}
    (h : Consecutive start stop leases) : start ≤ stop := by
  induction leases generalizing start with
  | nil => exact le_of_eq h
  | cons seg rest ih =>
    obtain ⟨rfl, hlt, hrest⟩ := h
    exact hlt.le.trans (ih hrest)

/-- Between two calls the stream stands at the start of a lease. -/
structure Reader.Between (requestEnd : Nat) (body : List UInt8) (start : Nat)
    (reader : Reader) : Prop where
  position : reader.stream.start + reader.stream.consumed = start
  rest : body.drop reader.stream.consumed = reader.stream.buffered ++ bytesOf reader.frames
  consumed_le : reader.stream.consumed ≤ body.length
  wire : reader.stream.wire =
    min (reader.stream.consumed + reader.stream.buffered.length) (u64Limit - 1)
  wire_le : reader.stream.wire ≤ reader.stream.expected
  stop : reader.stream.start + reader.stream.expected = requestEnd

theorem Reader.opened_between (resp : HttpResponse) {start requestEnd : Nat}
    (hle : start ≤ requestEnd) (frames : List Frame) :
    (Reader.opened resp start requestEnd frames).Between requestEnd (bytesOf frames) start where
  position := rfl
  rest := rfl
  consumed_le := zero_le _
  wire := by
    simp only [Reader.opened, length_nil]
    omega
  wire_le := zero_le _
  stop := Nat.add_sub_cancel' hle

section Calls

variable {ctx : BodyContext} {body : List UInt8} {reader : Reader}

theorem Reader.Between.at (h : reader.Between ctx.requestEnd body ctx.segment.start) :
    Reader.At ctx body { reader with forwarded := 0, sent := [] } :=
  ⟨h.position, zero_le _, h.rest, h.consumed_le, h.wire, h.wire_le, h.stop⟩

theorem Reader.At.between (h : reader.At ctx body) (hle : ctx.segment.start ≤ ctx.segment.stop)
    (hfin : reader.Finished ctx body) :
    reader.Between ctx.requestEnd body ctx.segment.stop := by
  refine ⟨?_, h.rest, h.consumed_le, h.wire, h.wire_le, h.stop⟩
  rw [h.position, hfin.1]
  exact Nat.add_sub_cancel' hle

/-- The bytes of the body that belong to the segment, `origin` being the body's start. -/
def Call.share (origin : Nat) (body : List UInt8) (call : Call) (count : Nat) :
    List (UInt8 × Nat) :=
  ((body.drop (call.segment.start - origin)).take count).zipIdx call.segment.start

/-- The call put a prefix of its lease's bytes into the file, all of them if it succeeded. -/
structure Call.Faithful (origin : Nat) (body : List UInt8) (call : Call) : Prop where
  key : ∀ command ∈ call.sent, command.leaseKey = call.segment.leaseKey
  ordered : ∃ count ≤ call.segment.stop - call.segment.start,
    call.segment.start - origin + count ≤ body.length ∧
      placed call.sent = call.share origin body count
  complete : call.result = .ok () →
    call.segment.stop - origin ≤ body.length ∧
      placed call.sent = call.share origin body (call.segment.stop - call.segment.start)

variable {interrupts : Interrupts} {out : Except DownloadError Unit × Reader}

theorem primary_faithful (hctx : ctx.Sound)
    (h : reader.Between ctx.requestEnd body ctx.segment.start)
    (hout : primary ctx interrupts { reader with forwarded := 0, sent := [] } = out) :
    Call.Faithful reader.stream.start body ⟨ctx.segment, out.1, out.2.sent⟩ ∧
      (placed out.2.sent).length = out.2.forwarded ∧
      out.2.stream.start = reader.stream.start ∧
      out.2.stream.expected = reader.stream.expected := by
  obtain ⟨⟨count, hfwds⟩, hok, -⟩ := primary_spec hctx h.at hout
  have hfwd : out.2.forwarded = count := by
    rw [hfwds.forwarded]
    exact zero_add count
  have hwith : count ≤ ctx.segment.stop - ctx.segment.start := hfwd ▸ hfwds.within
  have hused : ctx.segment.start - reader.stream.start = reader.stream.consumed := by
    have hposn := h.position
    omega
  have havl : reader.stream.consumed + count ≤ body.length := hfwds.available
  have hpl : placed out.2.sent =
      ((body.drop reader.stream.consumed).take count).zipIdx ctx.segment.start :=
    hfwds.placed.trans (by simp [placed])
  refine ⟨⟨?_, ⟨count, hwith, ?_, ?_⟩, fun hres => ?_⟩, ?_, hfwds.start, hfwds.expected⟩
  · exact hfwds.key (by simp)
  · rw [hused]
    exact havl
  · rw [Call.share, hused]
    exact hpl
  · obtain ⟨-, ⟨hlen, -⟩, -⟩ := hok hres
    have hc : count = ctx.segment.stop - ctx.segment.start := hfwd.symm.trans hlen
    refine ⟨?_, ?_⟩
    · dsimp only
      omega
    · rw [Call.share, hused, ← hc]
      exact hpl
  · rw [hpl, length_zipIdx, length_take, length_drop]
    omega

theorem consume_faithful {requestEnd maxChunk : Nat} (hlimit : requestEnd < u64Limit)
    (hchunk : 1 ≤ maxChunk) (leases : List Segment) :
    ∀ (start : Nat) (reader : Reader), Consecutive start requestEnd leases →
      reader.Between requestEnd body start →
      ∀ call ∈ consume requestEnd maxChunk interrupts leases reader,
        call.Faithful reader.stream.start body := by
  induction leases with
  | nil => simp [consume]
  | cons seg rest ih =>
    rintro _ reader ⟨rfl, hlt, hrest⟩ hbetw call hcall
    have hctx : BodyContext.Sound ⟨seg, requestEnd, maxChunk⟩ := ⟨hlt.le, hrest.le, hlimit, hchunk⟩
    unfold consume at hcall
    split at hcall
    · rename_i next hout
      obtain ⟨hfaithful, -, hstart, -⟩ := primary_faithful hctx hbetw hout
      rcases mem_cons.mp hcall with rfl | hcall
      · exact hfaithful
      · obtain ⟨-, hok, -⟩ := primary_spec hctx hbetw.at hout
        obtain ⟨hat, hfin, -⟩ := hok rfl
        exact hstart ▸ ih seg.stop next hrest (hat.between hlt.le hfin) call hcall
    · rename_i error last hout
      rw [mem_singleton.mp hcall]
      exact (primary_faithful hctx hbetw hout).1

/-- A lease succeeds exactly when it was forwarded, the last one exactly when the body has the
length of the request; otherwise the call that notices fails. -/
structure Decided (requestEnd : Nat) (body : List UInt8) (expected : Nat)
    (leases : List Segment) (calls : List Call) : Prop where
  inner : ∀ call ∈ calls, call.segment.stop < requestEnd → (call.result = .ok () ↔
    (placed call.sent).length = call.segment.stop - call.segment.start)
  final : ∀ call ∈ calls, call.segment.stop = requestEnd →
    (call.result = .ok () ↔ body.length = expected)
  exact : body.length = expected →
    calls.map Call.segment = leases ∧ ∀ call ∈ calls, call.result = .ok ()
  noticed : body.length ≠ expected → ∃ call error, calls.getLast? = some call ∧
    call.result = .error error ∧
    (body.length < expected ∧ error = .transport .body "range body ended early" ∨
      expected < body.length ∧ ∃ message, error = .resumeMismatch message)

theorem Decided.cons {requestEnd expected : Nat} {seg : Segment} {leases : List Segment}
    {calls : List Call} {sent : List Sent} (hstop : seg.stop < requestEnd)
    (hall : (placed sent).length = seg.stop - seg.start)
    (h : Decided requestEnd body expected leases calls) :
    Decided requestEnd body expected (seg :: leases) (⟨seg, .ok (), sent⟩ :: calls) where
  inner := forall_mem_cons.mpr ⟨fun _ => iff_of_true rfl hall, h.inner⟩
  final := forall_mem_cons.mpr ⟨fun heq => absurd heq hstop.ne, h.final⟩
  exact heq := by
    obtain ⟨hsegs, hok⟩ := h.exact heq
    exact ⟨congrArg (seg :: ·) hsegs, forall_mem_cons.mpr ⟨rfl, hok⟩⟩
  noticed hne := by
    obtain ⟨call, error, hlast, hres⟩ := h.noticed hne
    exact ⟨call, error, by simp [getLast?_cons, hlast], hres⟩

theorem consume_decided {requestEnd maxChunk : Nat} (hlimit : requestEnd < u64Limit)
    (hchunk : 1 ≤ maxChunk) (leases : List Segment) :
    ∀ (start : Nat) (reader : Reader), leases ≠ [] → Consecutive start requestEnd leases →
      reader.Between requestEnd body start → Undisturbed interrupts reader.frames →
      Decided requestEnd body reader.stream.expected leases
        (consume requestEnd maxChunk interrupts leases reader) := by
  induction leases with
  | nil => exact fun _ _ hne => absurd rfl hne
  | cons seg rest ih =>
    rintro _ reader - ⟨rfl, hlt, hrest⟩ hbetw hund
    have hctx : BodyContext.Sound ⟨seg, requestEnd, maxChunk⟩ := ⟨hlt.le, hrest.le, hlimit, hchunk⟩
    unfold consume
    split
    · rename_i next hout
      obtain ⟨-, hlen, -, hexp⟩ := primary_faithful hctx hbetw hout
      obtain ⟨-, hok, -⟩ := primary_spec hctx hbetw.at hout
      obtain ⟨hat, hfin, hfrs⟩ := hok rfl
      have hall := hlen.trans hfin.1
      rw [← hexp]
      cases rest with
      | nil =>
        have hlast : seg.stop = requestEnd := hrest
        obtain ⟨-, hopen | ⟨-, hbody⟩⟩ := hfin
        · exact absurd hlast hopen.ne
        · exact ⟨by simp [consume, hlast], by simp [consume, hbody],
            fun _ => ⟨rfl, by simp [consume]⟩, fun hne => absurd hbody hne⟩
      | cons following rest =>
        have hstop : seg.stop < requestEnd := by
          obtain ⟨hstart, hlt', hrest'⟩ := hrest
          have hle := hrest'.le
          omega
        exact .cons hstop hall (ih seg.stop next (by simp) hrest
          (hat.between hlt.le hfin) ⟨hund.1, fun error hmem =>
            hund.2 error (hfrs _ hmem)⟩)
    · rename_i error last hout
      obtain ⟨-, hlen, -, hexp⟩ := primary_faithful hctx hbetw hout
      obtain ⟨-, -, herr⟩ := primary_spec hctx hbetw.at hout
      obtain ⟨hopen, hcause⟩ := herr error rfl hund
      dsimp only at hlen hexp hopen hcause
      rw [hexp] at hcause
      have hne : body.length ≠ reader.stream.expected := by omega
      refine ⟨?_, by simp [hne], fun heq => absurd heq hne, fun _ => ⟨_, error, rfl, rfl, hcause⟩⟩
      intro call hcall hstop
      obtain rfl := mem_singleton.mp hcall
      have hshort := hopen hstop
      simp only [BodyContext.len] at hshort
      simp only [reduceCtorEq, false_iff]
      omega

end Calls

/-- A call of `primary` forwards a prefix of the body's bytes for its own lease, in order and at
their offsets, and all of them if it succeeds, however the body is cut into frames. -/
theorem body_is_cut_at_the_leases {start requestEnd maxChunk : Nat} {leases : List Segment}
    (hne : leases ≠ []) (hleases : Consecutive start requestEnd leases)
    (hlimit : requestEnd < u64Limit) (hchunk : 1 ≤ maxChunk) (response : HttpResponse) :
    (∀ frames interrupts, ∀ call ∈ consume requestEnd maxChunk interrupts leases
        (Reader.opened response start requestEnd frames),
      call.Faithful start (bytesOf frames)) ∧
    ∀ chunks : List (List UInt8), Decided requestEnd chunks.flatten (requestEnd - start) leases
      (consume requestEnd maxChunk (fun _ => none) leases
        (Reader.opened response start requestEnd (chunks.map Frame.data))) := by
  constructor
  · intro frames interrupts
    exact consume_faithful hlimit hchunk leases start _ hleases
      (Reader.opened_between response hleases.le frames)
  · intro chunks
    have hbody : bytesOf (chunks.map Frame.data) = chunks.flatten := by simp [bytesOf, flatMap_map]
    have hbetw := Reader.opened_between response hleases.le (chunks.map Frame.data)
    rw [hbody] at hbetw
    exact consume_decided hlimit hchunk leases start _ hne hleases hbetw
      ⟨fun _ => rfl, by simp [Reader.opened]⟩

theorem seven_bytes_for_two_leases :
    (consume 7 3 (fun _ => none) [⟨0, 1, 0, 4, 0, 1⟩, ⟨1, 2, 4, 7, 0, 1⟩]
        (Reader.opened ⟨206, none, ⟨none, none, none, none, none, none, none⟩, none, false⟩ 0 7
          ([[1, 2], [], [3, 4, 5, 6], [7]].map Frame.data))).map
        (fun call => (call.segment, placed call.sent)) =
      [(⟨0, 1, 0, 4, 0, 1⟩, [(1, 0), (2, 1), (3, 2), (4, 3)]),
        (⟨1, 2, 4, 7, 0, 1⟩, [(5, 4), (6, 5), (7, 6)])] := by
  have hls : Consecutive 0 7 [⟨0, 1, 0, 4, 0, 1⟩, ⟨1, 2, 4, 7, 0, 1⟩] :=
    ⟨rfl, by decide, rfl, by decide, rfl⟩
  obtain ⟨hcut, hdec⟩ := body_is_cut_at_the_leases (by simp) hls (by decide)
    (show 1 ≤ 3 by decide) ⟨206, none, ⟨none, none, none, none, none, none, none⟩, none, false⟩
  obtain ⟨hsegs, hok⟩ := (hdec [[1, 2], [], [3, 4, 5, 6], [7]]).exact rfl
  rw [map_congr_left fun call hcall => congrArg (Prod.mk call.segment)
    ((hcut _ _ call hcall).complete (hok call hcall)).2]
  have hshares := congrArg (map fun seg => (seg, Call.share 0 [1, 2, 3, 4, 5, 6, 7]
    ⟨seg, .ok (), []⟩ (seg.stop - seg.start))) hsegs
  rw [List.map_map] at hshares
  exact hshares

end Bytehaul.Session
