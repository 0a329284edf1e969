import Bytehaul.Session.Error

/-!
# Retry accounting

`session/retry.rs`. Times are in nanoseconds; a decision reads the clock twice and takes the
random part of its back-off as an argument.
-/

namespace Bytehaul.Session

def nanosPerSec : Nat := 1000000000

def durationMax : Nat := 2 ^ 64 * nanosPerSec - 1

structure RetryPolicy where
  maxRetries : Nat
  baseDelay : Nat
  maxDelay : Nat
  maxRetryElapsed : Option Nat
  deriving DecidableEq, Repr

structure RetryState where
  retriesStarted : Nat
  startedAt : Nat
  policy : RetryPolicy
  deriving DecidableEq, Repr

inductive RetryDecision
  | stop (error : DownloadError)
  | retry (error : DownloadError) (retryCount backoff elapsed : Nat)
  deriving DecidableEq, Repr

def rawDelay (retryCount baseDelay maxDelay : Nat) : Nat :=
  min (min (baseDelay * 2 ^ min retryCount 10) durationMax) maxDelay

/-- Half of the capped exponential delay, and up to as much again at random. -/
def retryBackoff (error : DownloadError) (retryCount baseDelay maxDelay jitter : Nat) : Nat :=
  match error.retryAfterSecs with
  | some secs => secs * nanosPerSec
  | none =>
    let half := rawDelay retryCount baseDelay maxDelay / 2
    let maxJitter := min half (2 ^ 64 - 1)
    half + jitter % (maxJitter + 1)

namespace RetryState

def new (policy : RetryPolicy) (now : Nat) : RetryState where
  retriesStarted := 0
  startedAt := now
  policy := policy

def overLimit (policy : RetryPolicy) (exceeds : Nat → Bool) : Option Nat :=
  policy.maxRetryElapsed.filter exceeds

def decideInner (state : RetryState) (error : DownloadError) (forceRetry immediate : Bool)
    (now later jitter : Nat) : RetryDecision × RetryState :=
  if (!forceRetry && !error.isRetryable) ∨ state.policy.maxRetries ≤ state.retriesStarted then
    (.stop error, state)
  else
    let elapsed := now - state.startedAt
    match overLimit state.policy (· ≤ elapsed) with
    | some limit => (.stop (.retryBudgetExceeded elapsed limit), state)
    | none =>
      let retryCount := state.retriesStarted + 1
      let backoff :=
        if immediate && retryCount == 1 && error.retryAfterSecs.isNone then 0
        else retryBackoff error retryCount state.policy.baseDelay state.policy.maxDelay jitter
      let elapsed := later - state.startedAt
      match overLimit state.policy (· < min (elapsed + backoff) durationMax) with
      | some limit => (.stop (.retryBudgetExceeded elapsed limit), state)
      | none =>
        (.retry error retryCount backoff elapsed, { state with retriesStarted := retryCount })

def decide (state : RetryState) (error : DownloadError) (now later jitter : Nat) :
    RetryDecision × RetryState :=
  state.decideInner error false false now later jitter

/-- A body timeout has already waited: one immediate reconnect is allowed. -/
def decideBodyFailure (state : RetryState) (error : DownloadError) (now later jitter : Nat) :
    RetryDecision × RetryState :=
  let immediate := match error with
    | .transport kind _ => kind == .timeout
    | _ => false
  state.decideInner error false immediate now later jitter

def decideRestart (state : RetryState) (error : DownloadError) (now later jitter : Nat) :
    RetryDecision × RetryState :=
  state.decideInner error true false now later jitter

/-- The error a retry is granted for: the one that was reported. -/
def Charged (state : RetryState) : RetryDecision × RetryState → Prop
  | (.stop _, next) => next = state
  | (.retry _ retryCount _ _, next) =>
    retryCount = state.retriesStarted + 1 ∧ retryCount ≤ state.policy.maxRetries ∧
      next = { state with retriesStarted := retryCount }

theorem decideInner_charged (state : RetryState) (error : DownloadError)
    (forceRetry immediate : Bool) (now later jitter : Nat) :
    state.Charged (state.decideInner error forceRetry immediate now later jitter) := by
  unfold decideInner
  split
  · rfl
  · dsimp only
    split
    · rfl
    · split
      · rfl
      · exact ⟨rfl, by omega, rfl⟩

inductive RetryEntry
  | decide
  | bodyFailure
  | restart
  deriving DecidableEq, Repr

structure RetryCall where
  entry : RetryEntry
  error : DownloadError
  now : Nat
  later : Nat
  jitter : Nat
  deriving DecidableEq, Repr

def RetryCall.isBodyTimeout (call : RetryCall) : Bool :=
  call.entry == .bodyFailure && match call.error with
    | .transport kind _ => kind == .timeout
    | _ => false

def answer (state : RetryState) (call : RetryCall) : RetryDecision × RetryState :=
  match call.entry with
  | .decide => state.decide call.error call.now call.later call.jitter
  | .bodyFailure => state.decideBodyFailure call.error call.now call.later call.jitter
  | .restart => state.decideRestart call.error call.now call.later call.jitter

def after (state : RetryState) (calls : List RetryCall) : RetryState :=
  calls.foldl (fun state call => (state.answer call).2) state

def retryCount : RetryDecision → Option Nat
  | .stop _ => none
  | .retry _ retryCount _ _ => some retryCount

/-- The numbers of the retries that the calls are granted, in the order of the calls. -/
def retryCounts : RetryState → List RetryCall → List Nat
  | _, [] => []
  | state, call :: calls =>
    (retryCount (state.answer call).1).toList ++ retryCounts (state.answer call).2 calls

structure Granted (policy : RetryPolicy) (startedAt : Nat) (call : RetryCall)
    (retryCount backoff elapsed : Nat) : Prop where
  reading : elapsed = call.later - startedAt
  within : ∀ limit, policy.maxRetryElapsed = some limit →
    call.now - startedAt < limit ∧ min (elapsed + backoff) durationMax ≤ limit
  retryAfter : ∀ secs, call.error.retryAfterSecs = some secs → backoff = secs * nanosPerSec
  immediate : retryCount = 1 → call.isBodyTimeout = true → backoff = 0
  jittered : call.error.retryAfterSecs = none →
    ¬ (retryCount = 1 ∧ call.isBodyTimeout = true) →
    rawDelay retryCount policy.baseDelay policy.maxDelay / 2 ≤ backoff ∧
      backoff ≤ rawDelay retryCount policy.baseDelay policy.maxDelay
  retryable : call.entry = .decide → call.error.isRetryable = true

private theorem retryBackoff_bounds {error : DownloadError} (h : error.retryAfterSecs = none)
    (retryCount baseDelay maxDelay jitter : Nat) : rawDelay retryCount baseDelay maxDelay / 2 ≤
        retryBackoff error retryCount baseDelay maxDelay jitter ∧
      retryBackoff error retryCount baseDelay maxDelay jitter ≤
        rawDelay retryCount baseDelay maxDelay := by
  unfold retryBackoff
  simp only [h]
  generalize rawDelay retryCount baseDelay maxDelay = raw
  have hjitter : jitter % (min (raw / 2) (2 ^ 64 - 1) + 1) < min (raw / 2) (2 ^ 64 - 1) + 1 :=
    Nat.mod_lt jitter (Nat.succ_pos _)
  omega

theorem overLimit_eq_none {policy : RetryPolicy} {exceeds : Nat → Bool}
    (h : overLimit policy exceeds = none) {limit : Nat}
    (hlimit : policy.maxRetryElapsed = some limit) : exceeds limit = false := by
  rw [overLimit, hlimit, Option.filter_eq_none_iff] at h
  simpa using h limit rfl

/-- The three entry points in one: restarts are forced, a body timeout may retry at once. -/
theorem answer_eq (state : RetryState) (call : RetryCall) :
    state.answer call = state.decideInner call.error (call.entry == .restart) call.isBodyTimeout
      call.now call.later call.jitter := by
  unfold answer RetryCall.isBodyTimeout
  cases call.entry <;> rfl

theorem answer_charged (state : RetryState) (call : RetryCall) :
    state.Charged (state.answer call) := by
  rw [answer_eq]
  exact decideInner_charged state _ _ _ _ _ _

theorem answer_granted {state next : RetryState} {call : RetryCall} {error : DownloadError}
    {retryCount backoff elapsed : Nat}
    (h : state.answer call = (.retry error retryCount backoff elapsed, next)) :
    error = call.error ∧ Granted state.policy state.startedAt call retryCount backoff elapsed := by
  rw [answer_eq] at h
  unfold decideInner at h
  split at h
  · cases h
  rename_i hallow
  dsimp only at h
  split at h
  · cases h
  rename_i hbef
  split at h
  · cases h
  rename_i haft
  obtain ⟨⟨rfl, rfl, rfl, rfl⟩, -⟩ := h
  refine ⟨rfl, rfl, fun limit hlimit => ?_, fun secs hsecs => ?_, fun hfst htime => ?_,
    fun hnone hnot => ?_, fun hplain => ?_⟩
  · have hnow := overLimit_eq_none hbef hlimit
    have hlater := overLimit_eq_none haft hlimit
    simp only [decide_eq_false_iff_not] at hnow hlater
    omega
  · simp [hsecs, retryBackoff]
  · have hnone : call.error.retryAfterSecs = none := by
      unfold RetryCall.isBodyTimeout at htime
      cases herr : call.error with
      | httpStatus status msg => simp [herr] at htime
      | _ => rfl
    simp [hfst, htime, hnone]
  · have hslow : (call.isBodyTimeout && state.retriesStarted + 1 == 1 &&
        call.error.retryAfterSecs.isNone) = false := by
      simp only [hnone, Option.isNone_none, Bool.and_true, Bool.and_eq_false_iff]
      by_cases hfst : state.retriesStarted + 1 = 1
      · exact .inl (Bool.eq_false_iff.mpr fun htime => hnot ⟨hfst, htime⟩)
      · exact .inr (beq_eq_false_iff_ne.mpr hfst)
    simp only [hslow, Bool.false_eq_true, if_false]
    exact retryBackoff_bounds hnone _ _ _ _
  · by_contra hfalse
    exact hallow (.inl (by simp [hplain, hfalse]))

theorem Charged.same {state : RetryState} {out : RetryDecision × RetryState}
    (h : state.Charged out) :
    out.2.policy = state.policy ∧ out.2.startedAt = state.startedAt := by
  rcases out with ⟨_ | _, next⟩
  · obtain rfl : next = state := h
    exact ⟨rfl, rfl⟩
  · obtain ⟨-, -, rfl⟩ := h
    exact ⟨rfl, rfl⟩

private theorem after_same (calls : List RetryCall) : ∀ state : RetryState,
    (state.after calls).policy = state.policy ∧
      (state.after calls).startedAt = state.startedAt := by
  induction calls with
  | nil => exact fun _ => ⟨rfl, rfl⟩
  | cons call calls ih =>
    intro state
    have hsame := (answer_charged state call).same
    have hlater := ih (state.answer call).2
    exact ⟨hlater.1.trans hsame.1, hlater.2.trans hsame.2⟩

private theorem retryCounts_eq (calls : List RetryCall) :
    ∀ state : RetryState, state.retriesStarted ≤ state.policy.maxRetries →
      ∃ n, state.retriesStarted + n ≤ state.policy.maxRetries ∧
        state.retryCounts calls = List.range' (state.retriesStarted + 1) n := by
  induction calls with
  | nil => exact fun state h => ⟨0, h, rfl⟩
  | cons call calls ih =>
    intro state h
    have hchgd := answer_charged state call
    rw [retryCounts]
    generalize state.answer call = out at hchgd ⊢
    obtain ⟨decision, next⟩ := out
    cases decision with
    | stop error =>
      obtain rfl : next = state := hchgd
      exact ih next h
    | retry error retryCount backoff elapsed =>
      obtain ⟨rfl, hle, rfl⟩ := hchgd
      obtain ⟨n, hn, hcounts⟩ := ih { state with retriesStarted := state.retriesStarted + 1 } hle
      refine ⟨n + 1, ?_, ?_⟩
      · dsimp only at hn
        omega
      · rw [hcounts]
        rfl

/-- At most `maxRetries` calls are granted a retry, numbered from one; the others change nothing;
and a retry is granted only before the limit, with a back-off that it has room for. -/
theorem retries_keep_the_policy (policy : RetryPolicy) (startedAt : Nat) (calls : List RetryCall) :
    (∃ n ≤ policy.maxRetries, (new policy startedAt).retryCounts calls = List.range' 1 n) ∧
    ∀ before call rest, calls = before ++ call :: rest → ∀ decision next,
      ((new policy startedAt).after before).answer call = (decision, next) →
      (∀ error, decision = .stop error → next = (new policy startedAt).after before) ∧
      ∀ error retryCount backoff elapsed, decision = .retry error retryCount backoff elapsed →
        error = call.error ∧ Granted policy startedAt call retryCount backoff elapsed := by
  constructor
  · obtain ⟨n, hn, hcounts⟩ := retryCounts_eq calls (new policy startedAt) (Nat.zero_le _)
    exact ⟨n, by simpa [new] using hn, hcounts⟩
  · rintro before call rest - decision next hanswer
    have hchgd := answer_charged ((new policy startedAt).after before) call
    obtain ⟨hpolicy, hstarted⟩ := after_same before (new policy startedAt)
    rw [hanswer] at hchgd
    constructor
    · rintro error rfl
      exact hchgd
    · rintro error retryCount backoff elapsed rfl
      have hgrd := answer_granted hanswer
      rwa [hpolicy, hstarted] at hgrd

/-- The second reading may find the limit reached; `Duration::MAX` is never exceeded. -/
theorem retry_is_granted_at_the_limit :
    ((new ⟨1, 0, 0, some 5⟩ 0).answer ⟨.decide, .transport .timeout "", 4, 5, 0⟩).1 =
        .retry (.transport .timeout "") 1 0 5 ∧
      ((new ⟨1, 0, 0, some durationMax⟩ 0).answer
        ⟨.decide, .httpStatus 503 (.retryAfter (2 ^ 64 - 1)), nanosPerSec, nanosPerSec, 0⟩).1 =
          .retry (.httpStatus 503 (.retryAfter (2 ^ 64 - 1))) 1 ((2 ^ 64 - 1) * nanosPerSec)
            nanosPerSec ∧
      durationMax < nanosPerSec + (2 ^ 64 - 1) * nanosPerSec := by
  decide

end RetryState

end Bytehaul.Session
