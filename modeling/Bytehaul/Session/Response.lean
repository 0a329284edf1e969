import Bytehaul.Session.Error

/-!
# Range responses

`http/response.rs`, `session/range_validate.rs` and `session/multi/worker/request.rs`.
Header values are byte strings; `Retry-After` is the number of seconds it parses to.
-/

namespace Bytehaul.Session

abbrev HeaderText := List UInt8

def ascii (text : List Char) : HeaderText := text.map fun c => UInt8.ofNat c.toNat

def asciiLower (byte : UInt8) : UInt8 := if 65 ≤ byte ∧ byte ≤ 90 then byte + 32 else byte

def eqIgnoreAsciiCase (first second : HeaderText) : Bool :=
  first.map asciiLower == second.map asciiLower

structure ResponseMeta where
  contentLength : Option Nat
  contentRangeStart : Option Nat
  contentRangeEnd : Option Nat
  contentRangeTotal : Option Nat
  etag : Option HeaderText
  lastModified : Option HeaderText
  contentEncoding : Option HeaderText
  deriving DecidableEq, Repr

/-- The head of a response: status, metadata, and the framing headers that only the
hedge looks at. -/
structure HttpResponse where
  status : Nat
  retryAfter : Option Nat
  metadata : ResponseMeta
  framedLength : Option Nat
  transferEncoding : Bool
  deriving DecidableEq, Repr

inductive RangeValidationMode
  | freshProbe
  | resumeProbe
  | segment
  deriving DecidableEq, Repr

structure ExpectedRange where
  start : Nat
  endInclusive : Nat
  totalSize : Option Nat
  deriving DecidableEq, Repr

inductive FreshRangeFallbackReason
  | rangeNotSupported
  | encodedResponse
  deriving DecidableEq, Repr

inductive RangeValidationDecision
  | accept
  | fallbackToSingle (reason : FreshRangeFallbackReason)
  deriving DecidableEq, Repr

def identityEncoding : HeaderText := ascii ['i', 'd', 'e', 'n', 't', 'i', 't', 'y']

def rangeResponseAllowed (metadata : ResponseMeta) : Bool :=
  metadata.contentEncoding.all fun encoding => eqIgnoreAsciiCase encoding identityEncoding

def validateRangeStatus (status : Nat) (retryAfter : Option Nat)
    (mode : RangeValidationMode) : Except DownloadError RangeValidationDecision :=
  if status = 200 then
    match mode with
    | .freshProbe => .ok (.fallbackToSingle .rangeNotSupported)
    | .resumeProbe | .segment => .error (.httpStatus 200
        (.text "server returned 200 instead of 206; Range not supported"))
  else if status = 429 ∨ status = 503 then
    match retryAfter with
    | some secs => .error (.httpStatus status (.retryAfter secs))
    | none => .error (.httpStatus status (.text s!"HTTP {status}"))
  else if status ≠ 206 then
    match mode with
    | .freshProbe => .error (.httpStatus status (.text s!"expected 206 or 200, got {status}"))
    | .resumeProbe | .segment =>
      .error (.httpStatus status (.text s!"expected 206, got {status}"))
  else .ok .accept

def mismatchedContentRangeError : DownloadError :=
  .resumeMismatch "server returned a mismatched Content-Range"

def resolveResponseTotal (metadata : ResponseMeta) (mode : RangeValidationMode)
    (expectedTotalSize : Option Nat) : Except DownloadError Nat :=
  match mode with
  | .freshProbe =>
    match metadata.contentRangeTotal with
    | some total => .ok total
    | none => .error (.resumeMismatch "range probe response missing Content-Range total")
  | .resumeProbe | .segment =>
    match expectedTotalSize, metadata.contentRangeTotal with
    | some expected, some actual =>
      if actual = expected then .ok actual else .error mismatchedContentRangeError
    | _, _ => .error mismatchedContentRangeError

def resolveExpectedEnd (expected : ExpectedRange) (responseTotal : Nat)
    (mode : RangeValidationMode) : Option Nat :=
  match mode with
  | .freshProbe =>
    if responseTotal = 0 ∨ responseTotal - 1 < expected.start then none
    else some (min expected.endInclusive (responseTotal - 1))
  | .resumeProbe | .segment => some expected.endInclusive

def checkContentLength (metadata : ResponseMeta) (mode : RangeValidationMode)
    (expectedLen : Nat) : Except DownloadError RangeValidationDecision :=
  if metadata.contentLength.any (· != expectedLen) then
    match mode with
    | .segment => .error (.transport .body
        "server returned a mismatched Content-Length for range response")
    | .freshProbe | .resumeProbe => .error (.resumeMismatch
        "server returned a mismatched Content-Length for range response")
  else .ok .accept

def checkContentRange (metadata : ResponseMeta) (mode : RangeValidationMode)
    (expected : ExpectedRange) (expectedEnd : Nat) :
    Except DownloadError RangeValidationDecision :=
  if metadata.contentRangeStart ≠ some expected.start ∨
      metadata.contentRangeEnd ≠ some expectedEnd ∨ expectedEnd < expected.start then
    .error mismatchedContentRangeError
  else checkContentLength metadata mode (expectedEnd - expected.start + 1)

def validateRangeBody (metadata : ResponseMeta) (mode : RangeValidationMode)
    (expected : ExpectedRange) : Except DownloadError RangeValidationDecision :=
  if !rangeResponseAllowed metadata then
    match mode with
    | .freshProbe => .ok (.fallbackToSingle .encodedResponse)
    | .resumeProbe | .segment => .error (.resumeMismatch
        "range responses with content-encoding are not supported")
  else
    match resolveResponseTotal metadata mode expected.totalSize with
    | .error error => .error error
    | .ok responseTotal =>
      match resolveExpectedEnd expected responseTotal mode with
      | none => .error mismatchedContentRangeError
      | some expectedEnd => checkContentRange metadata mode expected expectedEnd

def validateRangeResponse (response : HttpResponse) (mode : RangeValidationMode)
    (expected : ExpectedRange) : Except DownloadError RangeValidationDecision :=
  match validateRangeStatus response.status response.retryAfter mode with
  | .ok .accept => validateRangeBody response.metadata mode expected
  | decision => decision

def strongEtag (value : HeaderText) : Bool :=
  2 ≤ value.length && value.head? == some 0x22 && value.getLast? == some 0x22 &&
    (value.drop 1).dropLast.all fun b => b == 0x21 || (0x23 ≤ b && b ≤ 0x7e) || 0x80 ≤ b

def conditionHeaders : List HeaderText :=
  [ascii ['i', 'f', '-', 'm', 'a', 't', 'c', 'h'],
   ascii ['i', 'f', '-', 'r', 'a', 'n', 'g', 'e'],
   ascii ['i', 'f', '-', 'n', 'o', 'n', 'e', '-', 'm', 'a', 't', 'c', 'h'],
   ascii ['i', 'f', '-', 'u', 'n', 'm', 'o', 'd', 'i', 'f', 'i', 'e', 'd', '-',
     's', 'i', 'n', 'c', 'e'],
   ascii ['i', 'f', '-', 'm', 'o', 'd', 'i', 'f', 'i', 'e', 'd', '-', 's', 'i', 'n', 'c', 'e']]

/-- A strong entity tag, unless the caller's own headers already carry a condition. -/
def usableValidator (headerNames : List HeaderText) (metadata : ResponseMeta) :
    Option HeaderText :=
  let conflict := headerNames.any fun name => conditionHeaders.any (eqIgnoreAsciiCase name)
  if conflict then none else metadata.etag.filter strongEtag

structure CandidateFailure where
  error : DownloadError
  identityChanged : Bool
  deriving DecidableEq, Repr

def CandidateFailure.ofError (error : DownloadError) : CandidateFailure where
  error := error
  identityChanged := match error with
    | .httpStatus status _ => status == 412
    | _ => false

def validatorChanged : CandidateFailure where
  error := .resumeMismatch "object validator changed during adaptive download"
  identityChanged := true

structure RequestContext where
  start : Nat
  requestEnd : Nat
  total : Nat
  validator : Option HeaderText
  requireValidator : Bool

def RequestContext.contradicts (ctx : RequestContext) (metadata : ResponseMeta) : Bool :=
  ctx.validator.any fun expected => metadata.etag.any (· != expected)

/-- Under a required validator a response without entity tag is no better. -/
def RequestContext.unconfirmed (ctx : RequestContext) (metadata : ResponseMeta) : Bool :=
  ctx.requireValidator && ctx.validator.any fun expected => metadata.etag != some expected

def checkedResponse (ctx : RequestContext) (response : HttpResponse) :
    Except CandidateFailure Unit :=
  if ctx.contradicts response.metadata then .error validatorChanged
  else
    match validateRangeResponse response .segment
        ⟨ctx.start, ctx.requestEnd - 1, some ctx.total⟩ with
    | .error error => .error (.ofError error)
    | .ok _ => if ctx.unconfirmed response.metadata then .error validatorChanged else .ok ()

variable {ctx : RequestContext} {resp : HttpResponse}

theorem validateRangeResponse_exact {mode : RangeValidationMode} {expected : ExpectedRange}
    {decision : RangeValidationDecision} (hmode : mode ≠ .freshProbe)
    (h : validateRangeResponse resp mode expected = .ok decision) :
    decision = .accept ∧ resp.status = 206 ∧
      resp.metadata.contentRangeTotal = expected.totalSize ∧
      resp.metadata.contentRangeStart = some expected.start ∧
      resp.metadata.contentRangeEnd = some expected.endInclusive := by
  unfold validateRangeResponse at h
  have hstat : validateRangeStatus resp.status resp.retryAfter mode = .ok .accept ∧
      resp.status = 206 := by
    revert h
    unfold validateRangeStatus
    repeat' split
    all_goals simp_all
  simp only [hstat.1, validateRangeBody] at h
  split at h
  · cases mode <;> first | exact absurd rfl hmode | cases h
  · split at h
    · cases h
    · rename_i responseTotal htot
      have hend : resolveExpectedEnd expected responseTotal mode = some expected.endInclusive := by
        cases mode <;> first | rfl | exact absurd rfl hmode
      have hresolved : resp.metadata.contentRangeTotal = expected.totalSize := by
        unfold resolveResponseTotal at htot
        split at htot
        · exact absurd rfl hmode
        all_goals
          split at htot
          · rename_i first second hfst hsnd
            split at htot
            · rename_i heq
              rw [hfst, hsnd, heq]
            · cases htot
          · cases htot
      simp only [hend, checkContentRange, checkContentLength] at h
      split at h
      · cases h
      · rename_i hrng
        simp only [not_or, not_not] at hrng
        split at h
        · cases mode <;> cases h
        · cases h
          exact ⟨rfl, hstat.2, hresolved, hrng.1, hrng.2.1⟩

end Bytehaul.Session
