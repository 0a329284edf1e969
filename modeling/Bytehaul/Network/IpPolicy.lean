import Bytehaul.Foundation.Checked
import Bytehaul.Foundation.Keyed
import Bytehaul.Foundation.Text
import Bytehaul.Network.Body
import Bytehaul.Network.HeadParser

/-!
# The candidate policy

`network/curl/ip_policy.rs`: a table of addresses for each origin. Times are in nanoseconds;
the floating-point arithmetic of rates is a parameter.
-/

namespace Bytehaul.Network

open Foundation List Keyed

def preferredSetSize : Nat := 2
def minSamples : Nat := 3
def minWindow : Nat := 200 * 10 ^ 6
def minSampleBytes : Nat := 64 * 1024
def sampleTtl : Nat := 60 * 10 ^ 9
def minDwell : Nat := 5 * 10 ^ 9
def explorePeriod : Nat := 16
def connectFailureCooldown : Nat := 3 * 10 ^ 9
def removedHistory : Nat := 120 * 10 ^ 9

structure PoolKey where
  origin : Text
  proxy : Option Text
  deriving DecidableEq, Repr

inductive AttemptOutcome
  | completed
  | failed
  | connectFailed
  | cancelled
  deriving DecidableEq, Repr

inductive SelectionReason
  | single
  | coverage
  | preferred
  | exploration
  | fallback
  deriving DecidableEq, Repr

structure Selection where
  address : IpAddr
  generation : Nat
  reason : SelectionReason
  deriving DecidableEq, Repr

inductive SelectionError
  | expired
  | noCandidates
  deriving DecidableEq, Repr

structure CandidateSet where
  addresses : List IpAddr
  validUntil : Nat
  deriving DecidableEq, Repr

structure RateModel (ρ : Type) where
  measure : TransferSample → ρ
  decay : ρ → Nat → ρ
  blend : ρ → ρ → ρ
  le : ρ → ρ → Bool
  clearlyBetter : ρ → ρ → Bool
  unpolluted : TransferSample → Bool

structure Candidate (ρ : Type) where
  address : IpAddr
  generation : Nat
  present : Bool
  lastSeen : Nat
  inFlight : Nat
  attempts : Nat
  cooldownUntil : Option Nat
  rate : Option ρ
  samples : Nat
  polluted : Nat
  updatedAt : Option Nat
  successes : Nat
  failures : Nat
  deriving DecidableEq, Repr

/-- The policy state of one origin, its candidates in the order of the last answer. -/
structure Origin (ρ : Type) where
  generation : Nat
  validUntil : Nat
  candidates : List (Candidate ρ)
  preferred : Option IpAddr
  preferredSince : Option Nat
  deriving DecidableEq, Repr

structure IpPolicy (ρ : Type) where
  origins : PoolKey → Option (Origin ρ)
  selections : Nat
  pollutedWindows : Nat

structure Pick where
  address : IpAddr
  reason : SelectionReason
  deriving DecidableEq, Repr

section Source

variable {ρ : Type} (rates : RateModel ρ)

namespace Candidate

variable (candidate : Candidate ρ)

def new (address : IpAddr) (generation now : Nat) : Candidate ρ where
  address := address
  generation := generation
  present := true
  lastSeen := now
  inFlight := 0
  attempts := 0
  cooldownUntil := none
  rate := none
  samples := 0
  polluted := 0
  updatedAt := none
  successes := 0
  failures := 0

def isAvailable (now : Nat) : Bool :=
  candidate.present && candidate.cooldownUntil.all fun until_ => until_ ≤ now

def effectiveRate (now : Nat) : Option ρ := do
  let rate ← candidate.rate
  let updatedAt ← candidate.updatedAt
  if sampleTtl ≤ now - updatedAt then none else some (rates.decay rate (now - updatedAt))

def isProven : Bool := minSamples ≤ candidate.samples

end Candidate

namespace Origin

variable (origin : Origin ρ)

def new (now : Nat) : Origin ρ where
  generation := 0
  validUntil := now
  candidates := []
  preferred := none
  preferredSince := none

def candidate (address : IpAddr) : Option (Candidate ρ) :=
  lookup Candidate.address address origin.candidates

def alter (origin : Origin ρ) (address : IpAddr) (change : Candidate ρ → Candidate ρ) :
    Origin ρ :=
  { origin with candidates := Keyed.alter Candidate.address address change origin.candidates }

def offer (generation now : Nat) (candidates : List (Candidate ρ)) (address : IpAddr) :
    List (Candidate ρ) :=
  match lookup Candidate.address address candidates with
  | some _ =>
    Keyed.alter Candidate.address address (fun candidate =>
      { candidate with present := true, generation := generation, lastSeen := now }) candidates
  | none => candidates ++ [.new address generation now]

def position (set : CandidateSet) (candidate : Candidate ρ) : Nat :=
  (set.addresses.idxOf? candidate.address).getD (2 ^ 64 - 1)

def isKept (now : Nat) (candidate : Candidate ρ) : Bool :=
  candidate.present || 0 < candidate.inFlight || now - candidate.lastSeen < removedHistory

def offered : List IpAddr :=
  (origin.candidates.filter Candidate.present).map Candidate.address

def isSameSet (set : CandidateSet) : Bool :=
  origin.offered.length == set.addresses.length &&
    origin.offered.all fun address => set.addresses.contains address

def observe (set : CandidateSet) (now : Nat) : Origin ρ :=
  let generation := if origin.isSameSet set then origin.generation else origin.generation + 1
  let absent := origin.candidates.map fun candidate => { candidate with present := false }
  let listed := set.addresses.foldl (offer generation now) absent
  let sorted := listed.insertionSort fun first second =>
    position set first ≤ position set second
  let removed := origin.preferred.any fun address => !set.addresses.contains address
  { generation := generation
    validUntil := set.validUntil
    candidates := sorted.filter (isKept now)
    preferred := if removed then none else origin.preferred
    preferredSince := if removed then none else origin.preferredSince }

def ranked (now : Nat) : List (IpAddr × ρ) :=
  let proven := origin.candidates.filter fun candidate =>
    candidate.present && candidate.isProven
  (proven.filterMap fun candidate =>
    (candidate.effectiveRate rates now).map (candidate.address, ·)).insertionSort
      fun left right => rates.le right.2 left.2 = true

def updatePreferred (now : Nat) : Origin ρ :=
  match (origin.ranked rates now).head? with
  | none => { origin with preferred := none, preferredSince := none }
  | some (best, bestRate) =>
    match origin.preferred with
    | none => { origin with preferred := some best, preferredSince := some now }
    | some current =>
      if current = best then origin
      else
        let currentRate := (origin.candidate current).bind (·.effectiveRate rates now)
        let settled := origin.preferredSince.all fun since => minDwell ≤ now - since
        let clearlyBetter := currentRate.all fun rate => rates.clearlyBetter bestRate rate
        if settled && clearlyBetter then
          { origin with preferred := some best, preferredSince := some now }
        else origin

def preferredSet (now : Nat) : List IpAddr :=
  let set := ((origin.ranked rates now).map Prod.fst).take preferredSetSize
  match origin.preferred with
  | some preferred => (preferred :: set.filter (· != preferred)).take preferredSetSize
  | none => set

def novelty (now : Nat) (candidate : Candidate ρ) : Nat :=
  if candidate.samples = 0 then 2
  else if (candidate.effectiveRate rates now).isNone then 1
  else 0

/-- `max_by_key` returns the last of several maxima. -/
def exploreCandidate (now : Nat) (preferred : List IpAddr) : Option IpAddr :=
  let outside := origin.candidates.filter fun candidate =>
    candidate.present && !preferred.contains candidate.address && candidate.isAvailable now
  (outside.reverse.argmax (novelty rates now)).map Candidate.address

def eligible (now : Nat) : List IpAddr :=
  let preferred := (origin.preferredSet rates now).filter fun address =>
    (origin.candidate address).any (·.isAvailable now)
  if preferred.isEmpty then
    (origin.candidates.filter (·.isAvailable now)).map Candidate.address
  else preferred

def remainingCooldown (now : Nat) (candidate : Candidate ρ) : Nat :=
  (candidate.cooldownUntil.map (· - now)).getD 0

def pickFallback (now : Nat) : Option Pick :=
  ((origin.candidates.filter Candidate.present).argmin (remainingCooldown now)).map
    fun candidate => ⟨candidate.address, .fallback⟩

/-- `min_by_key` returns the first of several minima. -/
def pickEligible (now : Nat) (explorationDue : Bool) : Option Pick :=
  let eligible := origin.eligible rates now
  let explored := if explorationDue then origin.exploreCandidate rates now eligible else none
  match explored with
  | some address => some ⟨address, .exploration⟩
  | none =>
    (eligible.argmin fun address =>
      ((origin.candidate address).map Candidate.inFlight).getD (2 ^ 64 - 1)).map
        fun address => ⟨address, .preferred⟩

def isUntried (candidate : Candidate ρ) : Bool :=
  candidate.present && candidate.attempts == 0 && candidate.samples == 0

def pick (now : Nat) (explorationDue : Bool) : Option Pick :=
  match origin.candidates.filter Candidate.present with
  | [] => none
  | [candidate] => some ⟨candidate.address, .single⟩
  | _ =>
    match origin.candidates.find? isUntried with
    | some candidate => some ⟨candidate.address, .coverage⟩
    | none =>
      if (origin.eligible rates now).isEmpty then origin.pickFallback now
      else origin.pickEligible rates now explorationDue

end Origin

/-- A window is long enough, big enough and not spent waiting for the consumer. -/
def sampleIsUsable (sample : TransferSample) : Bool :=
  minWindow ≤ sample.window && minSampleBytes ≤ sample.bytes && rates.unpolluted sample

namespace IpPolicy

variable (policy : IpPolicy ρ)

def new : IpPolicy ρ where
  origins := fun _ => none
  selections := 0
  pollutedWindows := 0

def setOrigin (pool : PoolKey) (origin : Origin ρ) : IpPolicy ρ :=
  { policy with origins := Function.update policy.origins pool (some origin) }

def observe (policy : IpPolicy ρ) (pool : PoolKey) (set : CandidateSet) (now : Nat) :
    IpPolicy ρ :=
  policy.setOrigin pool (((policy.origins pool).getD (.new now)).observe set now)

/-- An address is chosen and counted as busy in one call, which panics if it is not in the table. -/
def selectChecked (pool : PoolKey) (now : Nat) :
    Checked (Except SelectionError Selection × IpPolicy ρ) :=
  match policy.origins pool with
  | none => some (.error .noCandidates, policy)
  | some origin =>
    if !origin.candidates.any Candidate.present then some (.error .noCandidates, policy)
    else if origin.validUntil ≤ now then some (.error .expired, policy)
    else
      let policy := { policy with selections := policy.selections + 1 }
      let origin := origin.updatePreferred rates now
      match origin.pick rates now (policy.selections % explorePeriod == 0) with
      | none => some (.error .noCandidates, policy.setOrigin pool origin)
      | some pick => do
        let candidate ← origin.candidate pick.address
        some (.ok ⟨pick.address, candidate.generation, pick.reason⟩,
          policy.setOrigin pool (origin.alter pick.address fun candidate =>
            { candidate with
              inFlight := candidate.inFlight + 1
              attempts := candidate.attempts + 1 }))

def select (pool : PoolKey) (now : Nat) : Except SelectionError Selection × IpPolicy ρ :=
  (policy.selectChecked rates pool now).getD (.error .noCandidates, policy)

/-- `current` says that the event is of the generation of the last answer. -/
def settled (outcome : AttemptOutcome) (current : Bool) (now : Nat) (candidate : Candidate ρ) :
    Candidate ρ :=
  let released := { candidate with inFlight := candidate.inFlight - 1 }
  match outcome with
  | .connectFailed =>
    { released with
      cooldownUntil :=
        if current then some (now + connectFailureCooldown) else candidate.cooldownUntil
      failures := candidate.failures + 1 }
  | .failed => { released with failures := candidate.failures + 1 }
  | .completed => { released with successes := candidate.successes + 1 }
  | .cancelled => released

def settle (pool : PoolKey) (address : IpAddr) (generation : Nat)
    (outcome : AttemptOutcome) (now : Nat) : IpPolicy ρ :=
  match policy.origins pool with
  | none => policy
  | some origin =>
    policy.setOrigin pool
      (origin.alter address (settled outcome (generation == origin.generation) now))

def folded (sample : TransferSample) (now : Nat) (candidate : Candidate ρ) : Candidate ρ :=
  { candidate with
    rate := some (match candidate.effectiveRate rates now with
      | some previous => rates.blend (rates.measure sample) previous
      | none => rates.measure sample)
    samples := candidate.samples + 1
    updatedAt := some now }

def recordSample (pool : PoolKey) (address : IpAddr)
    (sample : TransferSample) (now : Nat) : Bool × IpPolicy ρ :=
  match policy.origins pool with
  | none => (false, policy)
  | some origin =>
    if (origin.candidate address).isNone then (false, policy)
    else if sampleIsUsable rates sample then
      (true, policy.setOrigin pool (origin.alter address (folded rates sample now)))
    else
      (false, { policy.setOrigin pool (origin.alter address fun candidate =>
          { candidate with polluted := candidate.polluted + 1 }) with
        pollutedWindows := policy.pollutedWindows + 1 })

end IpPolicy

end Source

section Reservations

variable {ρ : Type}

def busy (candidates : List (Candidate ρ)) (address : IpAddr) : Nat :=
  ((lookup Candidate.address address candidates).map Candidate.inFlight).getD 0

abbrev Table (candidates : List (Candidate ρ)) : Prop :=
  Keyed.Distinct Candidate.address candidates

variable {candidates : List (Candidate ρ)}

private theorem busy_alter {change : Candidate ρ → Candidate ρ} {count : Nat → Nat}
    (haddr : ∀ candidate, (change candidate).address = candidate.address)
    (hc : ∀ candidate, (change candidate).inFlight = count candidate.inFlight)
    {addr : IpAddr} (hmem : addr ∈ candidates.map Candidate.address ∨ count 0 = 0)
    {other : IpAddr} : busy (alter Candidate.address addr change candidates) other =
      if other = addr then count (busy candidates other) else busy candidates other := by
  unfold busy
  rw [lookup_alter haddr]
  split
  case isTrue heq =>
    subst heq
    cases hlook : lookup Candidate.address other candidates with
    | none =>
      rcases hmem with hmem | hzero
      · exact absurd hmem (lookup_eq_none.mp hlook)
      · exact hzero.symm
    | some candidate => simp [hc]
  case isFalse => rfl

namespace Origin

variable {origin : Origin ρ} {now : Nat}

private theorem offer_table (h : Table candidates) {generation : Nat} {address : IpAddr} :
    Table (offer generation now candidates address) := by
  unfold offer
  split
  case h_1 =>
    unfold Table Keyed.Distinct
    rw [Keyed.map_alter (by intro; rfl)]
    exact h
  case h_2 hnone =>
    have hnew := Keyed.lookup_eq_none.mp hnone
    unfold Table Keyed.Distinct
    rw [map_append]
    refine nodup_append.mpr ⟨h, nodup_singleton _, ?_⟩
    rintro first hfst second hsnd rfl
    obtain rfl : first = address := mem_singleton.mp hsnd
    exact hnew hfst

def listed (generation now : Nat) (address : IpAddr) : Option (Candidate ρ) → Candidate ρ
  | some candidate =>
    { candidate with present := true, generation := generation, lastSeen := now }
  | none => .new address generation now

def withdrawn (candidate : Candidate ρ) : Candidate ρ := { candidate with present := false }

private theorem lookup_offer {gen : Nat} {addr other : IpAddr} :
    Keyed.lookup Candidate.address other (offer gen now candidates addr) =
      if other = addr then
        some (listed gen now other (Keyed.lookup Candidate.address other candidates))
      else Keyed.lookup Candidate.address other candidates := by
  unfold offer
  split
  case h_1 candidate hsome =>
    rw [Keyed.lookup_alter (by intro; rfl)]
    split
    case isTrue heq =>
      subst heq
      rw [hsome]
      rfl
    case isFalse => rfl
  case h_2 hnone =>
    rw [Keyed.lookup_append_singleton]
    by_cases heq : other = addr
    · subst heq
      simp [hnone, listed, Candidate.new]
    · have hne : (Candidate.new addr gen now : Candidate ρ).address ≠ other := fun h => heq h.symm
      rw [if_neg heq, if_neg hne, Option.or_none]

private theorem lookup_foldl_offer (gen now : Nat) (addrs : List IpAddr) (other : IpAddr) :
    lookup Candidate.address other (addrs.foldl (offer gen now) candidates) =
      if other ∈ addrs then
        some (listed gen now other (lookup Candidate.address other candidates))
      else lookup Candidate.address other candidates := by
  induction addrs generalizing candidates with
  | nil => rfl
  | cons addr addrs ih =>
    rw [foldl_cons, ih, lookup_offer]
    by_cases heq : other = addr
    · subst heq
      cases lookup Candidate.address other candidates <;> simp [listed, Candidate.new]
    · simp [heq]

private theorem foldl_offer_table (h : Table candidates) (gen now : Nat) (addrs : List IpAddr) :
    Table (addrs.foldl (offer gen now) candidates) := by
  induction addrs generalizing candidates with
  | nil => exact h
  | cons addr addrs ih => exact ih (offer_table h)

/-- The listed addresses keep what is known of them, the others stay while busy or fresh. -/
theorem observe_spec (origin : Origin ρ) (h : Table origin.candidates) (set : CandidateSet)
    (now : Nat) : Table (origin.observe set now).candidates ∧
      ∀ address, (origin.observe set now).candidate address = if address ∈ set.addresses then
          some (listed (origin.observe set now).generation now address (origin.candidate address))
        else ((origin.candidate address).map withdrawn).filter (isKept now) := by
  let generation := (origin.observe set now).generation
  have habs : Table (origin.candidates.map withdrawn) := by
    unfold Table Keyed.Distinct
    rw [map_map]
    exact h
  have hlist := foldl_offer_table habs generation now set.addresses
  have hperm := perm_insertionSort (fun first second : Candidate ρ =>
    position set first ≤ position set second)
    (set.addresses.foldl (offer generation now) (origin.candidates.map withdrawn))
  have hsort : Table (((set.addresses.foldl (offer generation now)
      (origin.candidates.map withdrawn))).insertionSort fun first second =>
        position set first ≤ position set second) :=
    (hperm.map Candidate.address).nodup_iff.mpr hlist
  refine ⟨hsort.filter (isKept now), fun address => ?_⟩
  have hlook : lookup Candidate.address address _ = _ :=
    (hsort.lookup_filter (isKept now)).trans (congrArg _ (hlist.lookup_perm hperm.symm))
  rw [lookup_foldl_offer, lookup_map (by intro; rfl)] at hlook
  refine hlook.trans ?_
  split
  case isTrue =>
    unfold candidate
    cases lookup Candidate.address address origin.candidates <;>
      simp [listed, isKept, Candidate.new, withdrawn, generation]
  case isFalse => rfl

private theorem busy_observe (h : Table origin.candidates) {set : CandidateSet}
    {address : IpAddr} :
    busy (origin.observe set now).candidates address = busy origin.candidates address := by
  change (((origin.observe set now).candidate address).map Candidate.inFlight).getD 0 =
    ((origin.candidate address).map Candidate.inFlight).getD 0
  rw [(observe_spec origin h set now).2]
  cases origin.candidate address with
  | none => split <;> rfl
  | some candidate =>
    split
    · rfl
    · rw [Option.map_some, Option.map_some]
      cases hkept : isKept now (withdrawn candidate) with
      | true =>
        rw [Option.filter_some_pos hkept]
        rfl
      | false =>
        have hidle : candidate.inFlight = 0 := by
          simp only [isKept, Bool.or_eq_false_iff, decide_eq_false_iff_not] at hkept
          exact Nat.eq_zero_of_not_pos hkept.1.2
        rw [Option.filter_some_neg hkept, hidle]
        rfl

private theorem present_of_mem_ranked {rates : RateModel ρ} {entry : IpAddr × ρ}
    (h : entry ∈ origin.ranked rates now) :
    ∃ candidate ∈ origin.candidates, candidate.present = true ∧ candidate.address = entry.1 := by
  obtain ⟨candidate, hmem, hrate⟩ := mem_filterMap.mp ((mem_insertionSort _).mp h)
  obtain ⟨hmem, hproven⟩ := mem_filter.mp hmem
  obtain ⟨rate, -, rfl⟩ := Option.map_eq_some_iff.mp hrate
  exact ⟨candidate, hmem, (Bool.and_eq_true_iff.mp hproven).1, rfl⟩

theorem updatePreferred_spec (rates : RateModel ρ) (origin : Origin ρ) (now : Nat) :
    ∃ preferred since, origin.updatePreferred rates now =
        { origin with preferred := preferred, preferredSince := since } ∧
      ∀ address, preferred = some address → origin.preferred = some address ∨
        ∃ candidate ∈ origin.candidates,
          candidate.present = true ∧ candidate.address = address := by
  unfold updatePreferred
  split
  case h_1 => exact ⟨none, none, rfl, by simp⟩
  case h_2 best bestRate hbest =>
    have hoffd := present_of_mem_ranked (mem_of_head? hbest)
    have hswitch : ∀ address, some best = some address → origin.preferred = some address ∨
        ∃ candidate ∈ origin.candidates,
          candidate.present = true ∧ candidate.address = address := by
      rintro address ⟨⟩
      exact .inr hoffd
    split
    case h_1 => exact ⟨some best, some now, rfl, hswitch⟩
    case h_2 current hcurr =>
      have hkeep : ∀ address, origin.preferred = some address →
          origin.preferred = some address ∨ ∃ candidate ∈ origin.candidates,
            candidate.present = true ∧ candidate.address = address := fun _ => .inl
      split
      · exact ⟨_, _, rfl, hkeep⟩
      · dsimp only
        split
        · exact ⟨some best, some now, rfl, hswitch⟩
        · exact ⟨_, _, rfl, hkeep⟩

@[simp] theorem updatePreferred_candidates (rates : RateModel ρ) (origin : Origin ρ) (now : Nat) :
    (origin.updatePreferred rates now).candidates = origin.candidates := by
  obtain ⟨preferred, since, hupd, -⟩ := updatePreferred_spec rates origin now
  rw [hupd]

/-- No address has two candidates, and an address that is in use has been assigned. -/
structure Sound (origin : Origin ρ) : Prop where
  table : Table origin.candidates
  tried : ∀ address candidate, origin.candidate address = some candidate →
    candidate.inFlight ≤ candidate.attempts

theorem Sound.observe (h : origin.Sound) {set : CandidateSet} :
    (origin.observe set now).Sound := by
  obtain ⟨htable, hspec⟩ := observe_spec origin h.table set now
  refine ⟨htable, fun addr candidate hf => ?_⟩
  rw [hspec] at hf
  split at hf
  · cases hf
    cases hearl : origin.candidate addr with
    | none => exact Nat.le_refl 0
    | some earlier => exact h.tried addr earlier hearl
  · obtain ⟨hf, -⟩ := Option.filter_eq_some_iff.mp hf
    obtain ⟨earlier, hearl, rfl⟩ := Option.map_eq_some_iff.mp hf
    exact h.tried addr earlier hearl

theorem Sound.alter {origin after : Origin ρ} (h : origin.Sound)
    (haft : after.candidates = origin.candidates) (addr : IpAddr)
    {change : Candidate ρ → Candidate ρ}
    (haddr : ∀ candidate, (change candidate).address = candidate.address)
    (htried : ∀ candidate, candidate.inFlight ≤ candidate.attempts →
      (change candidate).inFlight ≤ (change candidate).attempts) :
    (after.alter addr change).Sound := by
  constructor
  · unfold Table Keyed.Distinct Origin.alter
    rw [Keyed.map_alter haddr, haft]
    exact h.table
  · intro other candidate hf
    rw [Origin.candidate, Origin.alter, lookup_alter haddr, haft] at hf
    split at hf
    · obtain ⟨earlier, hearl, rfl⟩ := Option.map_eq_some_iff.mp hf
      exact htried earlier (h.tried other earlier hearl)
    · exact h.tried other candidate hf

variable {rates : RateModel ρ} {due : Bool} {choice : Pick}

theorem isSome_candidate {candidate : Candidate ρ} (h : candidate ∈ origin.candidates) :
    (origin.candidate candidate.address).isSome = true := by
  rw [Option.isSome_iff_ne_none, Origin.candidate, ne_eq, lookup_eq_none, not_not]
  exact mem_map_of_mem h

private theorem isSome_pickEligible (h : origin.pickEligible rates now due = some choice) :
    (origin.candidate choice.address).isSome = true := by
  unfold pickEligible at h
  dsimp only at h
  split at h
  case h_1 address hexplored =>
    cases h
    obtain ⟨-, hexplored⟩ := Option.ite_none_right_eq_some.mp hexplored
    obtain ⟨candidate, hmax, rfl⟩ := Option.map_eq_some_iff.mp hexplored
    exact isSome_candidate (mem_of_mem_filter (mem_reverse.mp (argmax_mem hmax)))
  case h_2 =>
    obtain ⟨address, hmin, rfl⟩ := Option.map_eq_some_iff.mp h
    have hmem := argmin_mem hmin
    unfold eligible at hmem
    dsimp only at hmem
    split at hmem
    · obtain ⟨candidate, hcand, rfl⟩ := mem_map.mp hmem
      exact isSome_candidate (mem_of_mem_filter hcand)
    · obtain ⟨candidate, hcand, -⟩ := (Option.any_eq_true _ _).mp (mem_filter.mp hmem).2
      exact Option.isSome_of_eq_some hcand

private theorem isSome_pick (h : origin.pick rates now due = some choice) :
    (origin.candidate choice.address).isSome = true := by
  unfold pick at h
  split at h
  · cases h
  · rename_i only honly
    cases h
    exact isSome_candidate (mem_of_mem_filter (honly ▸ mem_singleton_self only))
  split at h
  · rename_i untried huntr
    cases h
    exact isSome_candidate (mem_of_find?_eq_some huntr)
  split at h
  · obtain ⟨candidate, hmin, rfl⟩ := Option.map_eq_some_iff.mp h
    exact isSome_candidate (mem_of_mem_filter (argmin_mem hmin))
  · exact isSome_pickEligible h

end Origin

namespace IpPolicy

variable {policy : IpPolicy ρ} {pool : PoolKey}

/-- The chosen address is in the table. -/
theorem selectChecked_eq (policy : IpPolicy ρ) (rates : RateModel ρ) (pool : PoolKey) (now : Nat) :
    policy.selectChecked rates pool now = some (policy.select rates pool now) := by
  unfold IpPolicy.select selectChecked
  split
  · rfl
  split
  · rfl
  split
  · rfl
  dsimp only
  split
  · rfl
  · rename_i pick hpick
    obtain ⟨candidate, hcand⟩ := Option.isSome_iff_exists.mp (Origin.isSome_pick hpick)
    rw [hcand]
    rfl

def inFlight (policy : IpPolicy ρ) (pool : PoolKey) (address : IpAddr) : Nat :=
  match policy.origins pool with
  | some origin => busy origin.candidates address
  | none => 0

def WellFormed (policy : IpPolicy ρ) : Prop :=
  ∀ pool origin, policy.origins pool = some origin → origin.Sound

def reservation (pool : PoolKey) (address : IpAddr) (other : PoolKey) (found : IpAddr) : Nat :=
  if other = pool ∧ found = address then 1 else 0

theorem wellFormed_new : (new : IpPolicy ρ).WellFormed := by
  intro pool origin h
  cases h

theorem inFlight_of_origin {origin : Origin ρ} (h : policy.origins pool = some origin)
    (address : IpAddr) : policy.inFlight pool address = busy origin.candidates address := by
  rw [inFlight, h]

theorem inFlight_setOrigin {origin : Origin ρ} {other : PoolKey} {address : IpAddr} :
    (policy.setOrigin pool origin).inFlight other address =
      if other = pool then busy origin.candidates address else policy.inFlight other address := by
  unfold inFlight setOrigin
  by_cases h : other = pool
  · subst h
    simp
  · simp [h]

variable (h : policy.WellFormed)
include h

theorem WellFormed.setOrigin {origin : Origin ρ} (hsound : origin.Sound) :
    (policy.setOrigin pool origin).WellFormed := by
  intro other found hf
  change Function.update policy.origins pool (some origin) other = some found at hf
  by_cases heq : other = pool
  · rw [heq, Function.update_self] at hf
    cases hf
    exact hsound
  · rw [Function.update_of_ne heq] at hf
    exact h other found hf

theorem WellFormed.alter {origin after : Origin ρ}
    (horig : policy.origins pool = some origin) (haft : after.candidates = origin.candidates)
    (change : Candidate ρ → Candidate ρ) (count : Nat → Nat)
    (haddr : ∀ candidate, (change candidate).address = candidate.address)
    (hc : ∀ candidate, (change candidate).inFlight = count candidate.inFlight)
    (htried : ∀ candidate, candidate.inFlight ≤ candidate.attempts →
      (change candidate).inFlight ≤ (change candidate).attempts) {address : IpAddr}
    (hmem : address ∈ origin.candidates.map Candidate.address ∨ count 0 = 0) :
    (policy.setOrigin pool (after.alter address change)).WellFormed ∧
      ∀ other found, (policy.setOrigin pool (after.alter address change)).inFlight other found =
        if other = pool ∧ found = address then count (policy.inFlight other found)
        else policy.inFlight other found := by
  refine ⟨h.setOrigin ((h pool origin horig).alter haft address haddr htried),
    fun other found => ?_⟩
  rw [inFlight_setOrigin, Origin.alter, haft, busy_alter haddr hc hmem]
  by_cases heq : other = pool
  · subst heq
    simp [inFlight_of_origin horig]
  · simp [heq]

theorem WellFormed.origin (pool : PoolKey) (now : Nat) :
    ((policy.origins pool).getD (.new now)).Sound := by
  cases horig : policy.origins pool with
  | none => exact ⟨nodup_nil, nofun⟩
  | some origin => exact h pool origin horig

theorem WellFormed.observe (pool : PoolKey) (set : CandidateSet) (now : Nat) :
    (policy.observe pool set now).WellFormed ∧
      ∀ other address, (policy.observe pool set now).inFlight other address =
        policy.inFlight other address := by
  have hsound := h.origin pool now
  refine ⟨h.setOrigin (hsound.observe), fun other address => ?_⟩
  unfold IpPolicy.observe
  rw [inFlight_setOrigin]
  split
  case isTrue heq =>
    subst heq
    rw [Origin.busy_observe hsound.table]
    cases horig : policy.origins other with
    | none =>
      rw [inFlight, horig]
      rfl
    | some origin => rw [inFlight_of_origin horig, Option.getD_some]
  case isFalse => rfl

private theorem WellFormed.prefer {origin : Origin ρ}
    (horig : policy.origins pool = some origin) (rates : RateModel ρ) (now : Nat) :
    (policy.setOrigin pool (origin.updatePreferred rates now)).WellFormed ∧ ∀ other address,
        (policy.setOrigin pool (origin.updatePreferred rates now)).inFlight other address =
          policy.inFlight other address := by
  have hcands := Origin.updatePreferred_candidates rates origin now
  have hsound : (origin.updatePreferred rates now).Sound := by
    obtain ⟨htable, htried⟩ := h pool origin horig
    refine ⟨hcands ▸ htable, fun address candidate hf => ?_⟩
    rw [Origin.candidate, hcands] at hf
    exact htried address candidate hf
  refine ⟨h.setOrigin hsound, fun other address => ?_⟩
  rw [inFlight_setOrigin, hcands]
  split
  case isTrue heq =>
    subst heq
    rw [inFlight_of_origin horig]
  case isFalse => rfl

def reserved (pool : PoolKey) : Except SelectionError Selection → PoolKey → IpAddr → Nat
  | .ok selection, other, address => reservation pool selection.address other address
  | .error _, _, _ => 0

theorem WellFormed.select (rates : RateModel ρ) (pool : PoolKey) (now : Nat) :
    (policy.select rates pool now).2.WellFormed ∧
      ∀ other address, (policy.select rates pool now).2.inFlight other address =
        policy.inFlight other address +
          reserved pool (policy.select rates pool now).1 other address := by
  unfold IpPolicy.select IpPolicy.selectChecked
  split
  case h_1 => exact ⟨h, fun _ _ => rfl⟩
  case h_2 origin horig =>
    have hcnt : ({ policy with selections := policy.selections + 1 } :
        IpPolicy ρ).WellFormed := h
    split
    · exact ⟨h, fun _ _ => rfl⟩
    · split
      · exact ⟨h, fun _ _ => rfl⟩
      · dsimp only
        split
        case h_1 => exact hcnt.prefer horig rates now
        case h_2 pick _ =>
          cases hcand : (origin.updatePreferred rates now).candidate pick.address with
          | none => exact ⟨h, fun _ _ => rfl⟩
          | some candidate =>
            have hf := mem_of_lookup hcand
            rw [Origin.updatePreferred_candidates] at hf
            have hmem := List.mem_map_of_mem (f := Candidate.address) hf
            rw [key_of_lookup hcand] at hmem
            obtain ⟨hwell, hbusy⟩ := hcnt.alter horig
              (Origin.updatePreferred_candidates rates origin now)
              (fun candidate => { candidate with
                inFlight := candidate.inFlight + 1
                attempts := candidate.attempts + 1 })
              (· + 1) (by intro; rfl) (by intro; rfl) (fun _ => Nat.succ_le_succ) (.inl hmem)
            refine ⟨hwell, fun other address => (hbusy other address).trans ?_⟩
            change _ = policy.inFlight other address +
              if other = pool ∧ address = pick.address then 1 else 0
            split <;> rfl

theorem WellFormed.settle {address : IpAddr} (hbusy : 0 < policy.inFlight pool address)
    (generation : Nat) (outcome : AttemptOutcome) (now : Nat) :
    (policy.settle pool address generation outcome now).WellFormed ∧
      ∀ other found, (policy.settle pool address generation outcome now).inFlight other found +
        reservation pool address other found = policy.inFlight other found := by
  unfold IpPolicy.settle
  split
  case h_1 horig => simp [inFlight, horig] at hbusy
  case h_2 origin horig =>
    obtain ⟨hwell, hc⟩ := h.alter horig rfl
      (settled outcome (generation == origin.generation) now) (· - 1)
      (by intro; cases outcome <;> rfl) (by intro; cases outcome <;> rfl)
      (fun _ htried => by cases outcome <;> exact (Nat.sub_le _ 1).trans htried) (.inr rfl)
    refine ⟨hwell, fun other found => ?_⟩
    rw [hc, reservation]
    by_cases heq : other = pool ∧ found = address
    · obtain ⟨rfl, rfl⟩ := heq
      simp only [and_self, if_true]
      omega
    · simp [heq]

theorem WellFormed.recordSample (rates : RateModel ρ) (pool : PoolKey)
    (addr : IpAddr) (sample : TransferSample) (now : Nat) :
    (policy.recordSample rates pool addr sample now).2.WellFormed ∧
      ∀ other found, (policy.recordSample rates pool addr sample now).2.inFlight other found =
        policy.inFlight other found := by
  unfold IpPolicy.recordSample
  split
  case h_1 => exact ⟨h, fun _ _ => rfl⟩
  case h_2 origin horig =>
    have hkeep : ∀ {change : Candidate ρ → Candidate ρ},
        (∀ candidate, (change candidate).address = candidate.address) →
        (∀ candidate, (change candidate).inFlight = candidate.inFlight) →
        (∀ candidate, candidate.inFlight ≤ candidate.attempts →
          (change candidate).inFlight ≤ (change candidate).attempts) →
        (policy.setOrigin pool (origin.alter addr change)).WellFormed ∧
          ∀ other found, (policy.setOrigin pool (origin.alter addr change)).inFlight
            other found = policy.inFlight other found := by
      intro change haddr hc htried
      obtain ⟨hwell, hbusy⟩ := h.alter horig rfl change id haddr hc htried (.inr rfl)
      exact ⟨hwell, fun other found => (hbusy other found).trans (ite_self _)⟩
    split
    · exact ⟨h, fun _ _ => rfl⟩
    · split
      · exact hkeep (by intro; rfl) (by intro; rfl) fun _ => id
      · exact hkeep (by intro; rfl) (by intro; rfl) fun _ => id

end IpPolicy

end Reservations

end Bytehaul.Network
