import Bytehaul.Foundation.Text
import Bytehaul.Session.Response

/-!
# The response head

`network/curl/driver/mod.rs`: from the header lines of a transfer, in blocks closed by a
blank line, to the one response head its caller waits for.
-/

namespace Bytehaul.Network

open Foundation Session List Text

inductive IpAddr
  | v4 (bits : BitVec 32)
  | v6 (bits : BitVec 128)
  deriving DecidableEq, Repr

structure ResponseHead where
  status : Nat
  pinnedIp : Option IpAddr
  headers : List (Text × Text)
  deriving DecidableEq, Repr

structure RequestOptions where
  url : List UInt8
  proxy : Option (List UInt8)
  deriving DecidableEq, Repr

def maxHeaderBlockBytes : Nat := 128 * 1024

structure HeaderBlock where
  statusLine : Text
  headers : List (Text × Text)
  bytes : Nat
  deriving DecidableEq, Repr

/-- `sender` says whether the sender is still here, `sent` what has gone through it. -/
structure HeadParser where
  pinnedIp : Option IpAddr
  expectConnect : Bool
  connectSeen : Bool
  block : Option HeaderBlock
  published : Bool
  sender : Bool
  sent : List (Except DownloadError ResponseHead)

def stripSuffix (byte : UInt8) (line : List UInt8) : List UInt8 :=
  if line.getLast? = some byte then line.dropLast else line

def stripCrlf (line : List UInt8) : List UInt8 := stripSuffix 13 (stripSuffix 10 line)

def parseStatusLine (statusLine : Text) : Option Nat := do
  let rest ← (['H', 'T', 'T', 'P', '/'].isPrefixOf? statusLine).or
    (['h', 't', 't', 'p', '/'].isPrefixOf? statusLine)
  let (_, code) ← splitOnce isWhitespace rest
  parseBelow (2 ^ 16) ((trimStart code).takeWhile fun c => !Text.isWhitespace c)

def splitHeader (line : List UInt8) : Option (Text × Text) :=
  (splitOnce (· == ':') (fromUtf8Lossy line)).map fun (name, value) =>
    ((trim name).map asciiLowercase, trim value)

def expectsProxyTunnel (options : RequestOptions) : Bool :=
  options.proxy.isSome &&
    (8 ≤ options.url.length && eqIgnoreAsciiCase (options.url.take 8)
      (ascii ['h', 't', 't', 'p', 's', ':', '/', '/']))

namespace HeadParser

variable (parser : HeadParser)

def new (expectConnect : Bool) : HeadParser where
  pinnedIp := none
  expectConnect := expectConnect
  connectSeen := false
  block := none
  published := false
  sender := true
  sent := []

def send (result : Except DownloadError ResponseHead) : HeadParser :=
  if parser.sender then { parser with sender := false, sent := parser.sent ++ [result] }
  else parser

def oversized : DownloadError :=
  .internal "libcurl response headers exceeded 131072 bytes"

def unparsed (statusLine : Text) : DownloadError :=
  .internal ("libcurl response status line could not be parsed: " ++ String.ofList statusLine)

def isInformational (status : Nat) : Bool := 100 ≤ status && status < 200

def finishBlock : HeadParser :=
  match parser.block with
  | none => parser
  | some block =>
    let taken := { parser with block := none }
    if parser.published then taken
    else match parseStatusLine block.statusLine with
      | none => { taken with published := true }.send (.error (unparsed block.statusLine))
      | some status =>
        if isInformational status then taken
        else if parser.expectConnect && !parser.connectSeen then
          { taken with connectSeen := true }
        else if parser.sender then
          { taken with published := true }.send (.ok ⟨status, parser.pinnedIp, block.headers⟩)
        else taken

def addLine (block : Option HeaderBlock) (trimmed : List UInt8) : HeaderBlock :=
  match block with
  | none => ⟨fromUtf8Lossy trimmed, [], trimmed.length⟩
  | some block =>
    match splitHeader trimmed with
    | some (name, value) =>
      { block with
        bytes := block.bytes + (utf8Len name + utf8Len value)
        headers := block.headers ++ [(name, value)] }
    | none => { block with bytes := block.bytes + trimmed.length }

def push (line : List UInt8) : HeadParser :=
  if parser.published then parser
  else
    let trimmed := stripCrlf line
    if trimmed = [] then parser.finishBlock
    else
      let block := addLine parser.block trimmed
      if maxHeaderBlockBytes < block.bytes then
        { parser with block := none, published := true }.send (.error oversized)
      else { parser with block := some block }

def fail (error : DownloadError) : HeadParser := parser.send (.error error)

def feed (lines : List (List UInt8)) : HeadParser := lines.foldl push parser

end HeadParser

def fieldBytes (line : List UInt8) : Nat :=
  match splitHeader (stripCrlf line) with
  | some (name, value) => utf8Len name + utf8Len value
  | none => (stripCrlf line).length

/-- A header block on the wire: a status line that parses, field lines, a blank line. -/
structure WireBlock where
  statusLine : List UInt8
  fields : List (List UInt8)
  blank : List UInt8
  status : Nat
  statusLine_text : stripCrlf statusLine ≠ []
  fields_text : ∀ line ∈ fields, stripCrlf line ≠ []
  blank_line : stripCrlf blank = []
  parses : parseStatusLine (fromUtf8Lossy (stripCrlf statusLine)) = some status
  bounded : (stripCrlf statusLine).length + (fields.map fieldBytes).sum ≤ maxHeaderBlockBytes

namespace WireBlock

def lines (wire : WireBlock) : List (List UInt8) :=
  wire.statusLine :: (wire.fields ++ [wire.blank])

def headers (wire : WireBlock) : List (Text × Text) :=
  wire.fields.filterMap fun line => splitHeader (stripCrlf line)

end WireBlock

/-- The `CONNECT` block is there exactly when the transfer opens a new tunnel. -/
structure WireResponse where
  connect : Option WireBlock
  informational : List WireBlock
  final : WireBlock
  connect_status : ∀ wire ∈ connect, HeadParser.isInformational wire.status = false
  informational_status : ∀ wire ∈ informational, HeadParser.isInformational wire.status = true
  final_status : HeadParser.isInformational final.status = false

namespace WireResponse

def opensTunnel (response : WireResponse) : Bool := response.connect.isSome

def blocksBefore (response : WireResponse) : List WireBlock :=
  response.connect.toList ++ response.informational

def linesBefore (response : WireResponse) : List (List UInt8) :=
  response.blocksBefore.flatMap WireBlock.lines

def lines (response : WireResponse) : List (List UInt8) :=
  response.linesBefore ++ response.final.lines

end WireResponse

namespace HeadParser

variable {parser : HeadParser}

@[simp] theorem feed_nil : parser.feed [] = parser := rfl

@[simp] theorem feed_cons (line : List UInt8) (lines : List (List UInt8)) :
    parser.feed (line :: lines) = (parser.push line).feed lines := rfl

theorem feed_append {first second : List (List UInt8)} :
    parser.feed (first ++ second) = (parser.feed first).feed second :=
  foldl_append

theorem feed_published (h : parser.published = true) (lines : List (List UInt8)) :
    parser.feed lines = parser := by
  induction lines with
  | nil => rfl
  | cons line lines ih => rw [feed_cons, push, if_pos h, ih]

theorem bytes_addLine {block : HeaderBlock} {line : List UInt8} :
    addLine (some block) (stripCrlf line) =
      ⟨block.statusLine, block.headers ++ (splitHeader (stripCrlf line)).toList,
        block.bytes + fieldBytes line⟩ := by
  unfold addLine fieldBytes
  cases splitHeader (stripCrlf line) with
  | none => simp
  | some field => rfl

def inBlock (parser : HeadParser) (block : HeaderBlock) : HeadParser :=
  { parser with block := some block }

theorem feed_fields {block : HeaderBlock} {fields : List (List UInt8)}
    (hpub : parser.published = false) (htext : ∀ line ∈ fields, stripCrlf line ≠ [])
    (hbd : block.bytes + (fields.map fieldBytes).sum ≤ maxHeaderBlockBytes) :
    (parser.inBlock block).feed fields = parser.inBlock ⟨block.statusLine,
        block.headers ++ fields.filterMap fun line => splitHeader (stripCrlf line),
        block.bytes + (fields.map fieldBytes).sum⟩ := by
  induction fields generalizing block with
  | nil => simp
  | cons line fields ih =>
    rw [forall_mem_cons] at htext
    rw [map_cons, sum_cons] at hbd
    have hpush : (parser.inBlock block).push line =
        parser.inBlock (addLine (some block) (stripCrlf line)) := by
      rw [push, if_neg (by simp [inBlock, hpub]), if_neg htext.1]
      change (if maxHeaderBlockBytes < (addLine (some block) (stripCrlf line)).bytes then _
        else _) = _
      rw [if_neg (by rw [bytes_addLine]; simp only; omega)]
      rfl
    rw [feed_cons, hpush, bytes_addLine, ih htext.2 (by simp only; omega)]
    cases hfield : splitHeader (stripCrlf line) <;>
      simp [hfield, Nat.add_assoc, append_assoc]

/-- The parser between two blocks, its channel not used yet. -/
structure Waiting (parser : HeadParser) : Prop where
  block : parser.block = none
  published : parser.published = false
  sender : parser.sender = true
  sent : parser.sent = []

def conclude (parser : HeadParser) (wire : WireBlock) : HeadParser :=
  if isInformational wire.status then parser
  else if parser.expectConnect && !parser.connectSeen then { parser with connectSeen := true }
  else { parser with
    published := true
    sender := false
    sent := [.ok ⟨wire.status, parser.pinnedIp, wire.headers⟩] }

theorem Waiting.feed_block (h : parser.Waiting) {wire : WireBlock} :
    parser.feed wire.lines = parser.conclude wire := by
  have hbdd := wire.bounded
  have hopen : parser.push wire.statusLine = parser.inBlock
      ⟨fromUtf8Lossy (stripCrlf wire.statusLine), [], (stripCrlf wire.statusLine).length⟩ := by
    rw [push, if_neg (by simp [h.published]), if_neg wire.statusLine_text, h.block]
    change (if maxHeaderBlockBytes < (stripCrlf wire.statusLine).length then _ else _) = _
    rw [if_neg (by omega)]
    rfl
  rw [WireBlock.lines, feed_cons, hopen, feed_append,
    feed_fields h.published wire.fields_text hbdd, feed_cons, feed_nil, push,
    if_neg (by simp [inBlock, h.published]), if_pos wire.blank_line]
  obtain ⟨pinnedIp, expectConnect, connectSeen, block, published, sender, sent⟩ := parser
  obtain ⟨rfl, rfl, rfl, rfl⟩ := h
  simp only [finishBlock, inBlock, wire.parses, conclude, WireBlock.headers, send]
  rfl

private theorem Waiting.skips (h : parser.Waiting) {wire : WireBlock}
    (hstat : isInformational wire.status = true) : parser.feed wire.lines = parser := by
  rw [h.feed_block, conclude, if_pos hstat]

theorem Waiting.skips_all (h : parser.Waiting) {blocks : List WireBlock}
    (hstat : ∀ wire ∈ blocks, isInformational wire.status = true) :
    parser.feed (blocks.flatMap WireBlock.lines) = parser := by
  induction blocks with
  | nil => rfl
  | cons wire blocks ih =>
    rw [forall_mem_cons] at hstat
    rw [flatMap_cons, feed_append, h.skips hstat.1, ih hstat.2]

def Sends (parser next : HeadParser) : Prop :=
  (next.sender = parser.sender ∧ next.sent = parser.sent) ∨
    (parser.sender = true ∧ next.sender = false ∧ ∃ result, next.sent = parser.sent ++ [result])

theorem sends_send (parser : HeadParser) (result : Except DownloadError ResponseHead) :
    parser.Sends (parser.send result) := by
  unfold HeadParser.send
  split
  case isTrue hsend => exact .inr ⟨hsend, rfl, result, rfl⟩
  case isFalse => exact .inl ⟨rfl, rfl⟩

private theorem sends_finishBlock : parser.Sends parser.finishBlock := by
  have hkeep : parser.Sends parser := .inl ⟨rfl, rfl⟩
  unfold finishBlock
  split
  · exact hkeep
  · split
    · exact hkeep
    · split
      · exact sends_send { parser with block := none, published := true } _
      · split
        · exact hkeep
        · split
          · exact hkeep
          · split
            · exact sends_send { parser with block := none, published := true } _
            · exact hkeep

theorem sends_push (parser : HeadParser) (line : List UInt8) : parser.Sends (parser.push line) := by
  have hkeep : parser.Sends parser := .inl ⟨rfl, rfl⟩
  unfold HeadParser.push
  split
  · exact hkeep
  · dsimp only
    split
    · exact sends_finishBlock
    · split
      · exact sends_send { parser with block := none, published := true } _
      · exact hkeep

/-- The channel is empty until the final block, and holds that block's head from then on. -/
structure PublishesOrigin (parser : HeadParser) (response : WireResponse) : Prop where
  silent : (parser.feed response.linesBefore).sent = []
  published : (parser.feed response.lines).sent =
    [.ok ⟨response.final.status, parser.pinnedIp, response.final.headers⟩]
  inert : ∀ later, parser.feed (response.lines ++ later) = parser.feed response.lines

def ofTransfer (options : RequestOptions) (pinnedIp : Option IpAddr) : HeadParser :=
  { new (expectsProxyTunnel options) with pinnedIp := pinnedIp }

section Transfer

variable {middle : HeadParser} {response : WireResponse}

theorem Waiting.conclude_tunnel (h : parser.Waiting) (wire : WireBlock)
    (hstat : isInformational wire.status = false)
    (hexpect : (parser.expectConnect && !parser.connectSeen) = true) :
    parser.feed wire.lines = { parser with connectSeen := true } := by
  rw [h.feed_block, conclude, if_neg (by simp [hstat]), if_pos hexpect]

theorem Waiting.conclude_head (h : parser.Waiting) (wire : WireBlock)
    (hstat : isInformational wire.status = false)
    (hexpect : (parser.expectConnect && !parser.connectSeen) = false) :
    parser.feed wire.lines = { parser with
      published := true
      sender := false
      sent := [.ok ⟨wire.status, parser.pinnedIp, wire.headers⟩] } := by
  rw [h.feed_block, conclude, if_neg (by simp [hstat]), if_neg (by simp [hexpect])]

theorem feed_lines :
    parser.feed response.lines = (parser.feed response.linesBefore).feed response.final.lines :=
  feed_append

private theorem feed_linesBefore (parser : HeadParser) (response : WireResponse) :
    parser.feed response.linesBefore =
      (parser.feed (response.connect.toList.flatMap WireBlock.lines)).feed
        (response.informational.flatMap WireBlock.lines) := by
  rw [WireResponse.linesBefore, WireResponse.blocksBefore, flatMap_append, feed_append]

theorem Waiting.publishesOrigin (h : middle.Waiting)
    (hmiddle : parser.feed response.linesBefore = middle) (hip : middle.pinnedIp = parser.pinnedIp)
    (hexpect : (middle.expectConnect && !middle.connectSeen) = false) :
    parser.PublishesOrigin response := by
  have hfinal := h.conclude_head response.final response.final_status hexpect
  rw [hip] at hfinal
  refine ⟨hmiddle ▸ h.sent, ?_, fun later => ?_⟩
  · rw [feed_lines, hmiddle, hfinal]
  · rw [feed_append, feed_lines, hmiddle, hfinal]
    exact feed_published rfl later

private theorem Waiting.not_publishesOrigin (h : middle.Waiting)
    (hmiddle : parser.feed response.linesBefore = middle)
    (hexpect : (middle.expectConnect && !middle.connectSeen) = true) :
    ¬ parser.PublishesOrigin response := by
  intro hpublishes
  have hsent := hpublishes.published
  rw [feed_lines, hmiddle, h.conclude_tunnel response.final response.final_status hexpect] at hsent
  rw [h.sent] at hsent
  exact cons_ne_nil _ _ hsent.symm

/-- A parser publishes the origin's final response and only that if and only if the transfer opens
a new tunnel exactly when its options let the driver expect one. -/
theorem origin_head_is_published_iff (options : RequestOptions) (pinnedIp : Option IpAddr)
    (response : WireResponse) : (ofTransfer options pinnedIp).PublishesOrigin response ↔
      response.opensTunnel = expectsProxyTunnel options := by
  have hwait : (ofTransfer options pinnedIp).Waiting := ⟨rfl, rfl, rfl, rfl⟩
  have hseen : (ofTransfer options pinnedIp).connectSeen = false := rfl
  change _ ↔ _ = (ofTransfer options pinnedIp).expectConnect
  generalize ofTransfer options pinnedIp = parser at hwait hseen
  have hbef := feed_linesBefore parser response
  cases hconnect : response.connect with
  | none =>
    have hopens : response.opensTunnel = false := by rw [WireResponse.opensTunnel, hconnect]; rfl
    rw [hconnect, Option.toList_none, flatMap_nil, feed_nil,
      hwait.skips_all response.informational_status] at hbef
    rw [hopens]
    cases hexpect : parser.expectConnect with
    | false => exact iff_of_true (hwait.publishesOrigin hbef rfl (by simp [hexpect])) rfl
    | true =>
      exact iff_of_false (hwait.not_publishesOrigin hbef (by simp [hexpect, hseen]))
        Bool.noConfusion
  | some wire =>
    have hopens : response.opensTunnel = true := by rw [WireResponse.opensTunnel, hconnect]; rfl
    have hstat := response.connect_status wire (by rw [hconnect]; rfl)
    rw [hconnect, Option.toList_some, flatMap_singleton] at hbef
    rw [hopens]
    cases hexpect : parser.expectConnect with
    | true =>
      have hmiddle : Waiting { parser with connectSeen := true } :=
        ⟨hwait.block, hwait.published, hwait.sender, hwait.sent⟩
      rw [hwait.conclude_tunnel wire hstat (by simp [hexpect, hseen]),
        hmiddle.skips_all response.informational_status] at hbef
      exact iff_of_true (hmiddle.publishesOrigin hbef rfl (by simp)) rfl
    | false =>
      refine iff_of_false (fun h => ?_) Bool.noConfusion
      have hsilent := h.silent
      rw [hbef, hwait.conclude_head wire hstat (by simp [hexpect]), feed_published rfl] at hsilent
      exact cons_ne_nil _ _ hsilent

end Transfer

def reusedTunnel : WireResponse where
  connect := none
  informational := []
  final :=
    { statusLine := ascii "HTTP/1.1 206 Partial Content\r\n".toList
      fields := [ascii "Content-Length: 4\r\n".toList]
      blank := [13, 10]
      status := 206
      statusLine_text := by decide
      fields_text := by decide
      blank_line := by decide
      parses := by decide
      bounded := by decide }
  connect_status := by decide
  informational_status := by decide
  final_status := by decide

theorem reused_tunnel_loses_the_head :
    ¬ (ofTransfer ⟨ascii "https://h/f".toList, some (ascii "http://p".toList)⟩ none).PublishesOrigin
      reusedTunnel ∧
    ((ofTransfer ⟨ascii "https://h/f".toList, some (ascii "http://p".toList)⟩ none).feed
      reusedTunnel.lines).sent.length = 0 := by
  have hlost : ((ofTransfer ⟨ascii "https://h/f".toList, some (ascii "http://p".toList)⟩ none).feed
      reusedTunnel.lines).sent.length = 0 := by decide
  refine ⟨fun h => ?_, hlost⟩
  rw [h.published] at hlost
  exact Nat.noConfusion hlost

end HeadParser

end Bytehaul.Network
