import Bytehaul.Foundation.Runs
import Bytehaul.Network.IpPolicy

/-!
# Choosing an address

The table of an origin follows its last answer: the listed addresses are present in its
order, among others that are remembered for a while.
-/

namespace Bytehaul.Network

open Foundation Option Function Candidate

variable {ρ : Type} {rates : RateModel ρ} {now : Nat}

namespace Origin

variable {origin : Origin ρ} {set : CandidateSet} {address : IpAddr} {candidate : Candidate ρ}

/-! ## The table follows the last answer -/

structure Follows (origin : Origin ρ) (set : CandidateSet) : Prop where
  table : Table origin.candidates
  validUntil : origin.validUntil = set.validUntil
  present : ∀ address candidate, origin.candidate address = some candidate →
    (candidate.present = true ↔ address ∈ set.addresses)
  generation : ∀ address candidate, origin.candidate address = some candidate →
    candidate.present = true → candidate.generation = origin.generation
  listed : ∀ address ∈ set.addresses, ∃ candidate, origin.candidate address = some candidate
  ordered : (origin.candidates.map Candidate.address).Pairwise fun first second =>
    first ∈ set.addresses → second ∈ set.addresses →
      set.addresses.idxOf first ≤ set.addresses.idxOf second
  preferred : ∀ address, origin.preferred = some address → address ∈ set.addresses

theorem Follows.candidate_of_mem (h : origin.Follows set) (hmem : candidate ∈ origin.candidates) :
    origin.candidate candidate.address = some candidate :=
  h.table.lookup_eq_some.mpr ⟨hmem, rfl⟩

theorem mem_of_candidate (h : origin.candidate address = some candidate) :
    candidate ∈ origin.candidates ∧ candidate.address = address :=
  ⟨Keyed.mem_of_lookup h, Keyed.key_of_lookup h⟩

private theorem follows_new : (new now : Origin ρ).Follows ⟨[], now⟩ where
  table := List.nodup_nil
  validUntil := rfl
  present _ _ h := by cases h
  generation _ _ h := by cases h
  listed _ h := by cases h
  ordered := .nil
  preferred _ h := by cases h

private theorem observe_ordered :
    ((origin.observe set now).candidates.map Candidate.address).Pairwise fun first second =>
      first ∈ set.addresses → second ∈ set.addresses →
        set.addresses.idxOf first ≤ set.addresses.idxOf second := by
  let before (first second : Candidate ρ) : Prop := position set first ≤ position set second
  have hplace : ∀ candidate : Candidate ρ, candidate.address ∈ set.addresses →
      position set candidate = set.addresses.idxOf candidate.address := by
    intro candidate hmem
    obtain ⟨place, hf⟩ := isSome_iff_exists.mp (List.isSome_idxOf?.mpr hmem)
    rw [position, List.idxOf_eq_getD_idxOf?, hf, getD_some, getD_some]
  rw [List.pairwise_map]
  refine List.Pairwise.imp ?_ ((List.pairwise_insertionSort before _).filter (isKept now))
  intro first second hle hfst hsnd
  rw [← hplace first hfst, ← hplace second hsnd]
  exact hle

theorem Follows.observe (h : Table origin.candidates) (set : CandidateSet) (now : Nat) :
    (origin.observe set now).Follows set := by
  obtain ⟨htable, hspec⟩ := observe_spec origin h set now
  refine ⟨htable, rfl, fun address candidate hf => ?_, fun address candidate hf => ?_,
    fun address hmem => ⟨_, (hspec address).trans (if_pos hmem)⟩, observe_ordered,
    fun address hpreferred => ?_⟩
  · rw [hspec] at hf
    split at hf
    case isTrue hmem =>
      cases hf
      cases origin.candidate address <;> simp [hmem, Origin.listed, Candidate.new]
    case isFalse hmem =>
      obtain ⟨hf, -⟩ := filter_eq_some_iff.mp hf
      obtain ⟨earlier, -, rfl⟩ := map_eq_some_iff.mp hf
      simp [hmem, withdrawn]
  · rw [hspec] at hf
    split at hf
    case isTrue =>
      cases hf
      cases origin.candidate address <;> exact fun _ => rfl
    case isFalse =>
      obtain ⟨hf, -⟩ := filter_eq_some_iff.mp hf
      obtain ⟨earlier, -, rfl⟩ := map_eq_some_iff.mp hf
      intro hpres
      cases hpres
  · simp only [Origin.observe] at hpreferred
    split at hpreferred
    · cases hpreferred
    · rename_i hkept
      simpa [hpreferred] using hkept

theorem Follows.alter (h : origin.Follows set) {change : Candidate ρ → Candidate ρ}
    (hchg : ∀ candidate, (change candidate).address = candidate.address ∧
      (change candidate).present = candidate.present ∧
      (change candidate).generation = candidate.generation) :
    (origin.alter address change).Follows set := by
  have haddr : ∀ candidate, (change candidate).address = candidate.address :=
    fun candidate => (hchg candidate).1
  have haddrs : (origin.alter address change).candidates.map Candidate.address =
      origin.candidates.map Candidate.address := Keyed.map_alter haddr
  have hf : ∀ other candidate, (origin.alter address change).candidate other = some candidate →
      ∃ earlier, origin.candidate other = some earlier ∧ candidate.present = earlier.present ∧
        candidate.generation = earlier.generation := by
    intro other candidate ho
    rw [Origin.candidate, Origin.alter, Keyed.lookup_alter haddr] at ho
    split at ho
    · obtain ⟨earlier, hearl, rfl⟩ := map_eq_some_iff.mp ho
      exact ⟨earlier, hearl, (hchg earlier).2⟩
    · exact ⟨candidate, ho, rfl, rfl⟩
  refine ⟨?_, h.validUntil, ?_, ?_, ?_, haddrs ▸ h.ordered, h.preferred⟩
  · unfold Table Keyed.Distinct
    rw [haddrs]
    exact h.table
  · intro other candidate ho
    obtain ⟨earlier, hearl, hsame, -⟩ := hf other candidate ho
    rw [hsame]
    exact h.present other earlier hearl
  · intro other candidate ho
    obtain ⟨earlier, hearl, hsame, hsameGeneration⟩ := hf other candidate ho
    rw [hsame, hsameGeneration]
    exact h.generation other earlier hearl
  · intro other ho
    obtain ⟨candidate, hcand⟩ := h.listed other ho
    rw [Origin.candidate, Origin.alter, Keyed.lookup_alter haddr]
    split
    · exact ⟨change candidate, map_eq_some_iff.mpr ⟨candidate, hcand, rfl⟩⟩
    · exact ⟨candidate, hcand⟩

theorem Follows.updatePreferred (h : origin.Follows set) (rates : RateModel ρ) (now : Nat) :
    (origin.updatePreferred rates now).Follows set := by
  obtain ⟨preferred, since, hupd, hoffd⟩ := updatePreferred_spec rates origin now
  rw [hupd]
  refine ⟨h.table, h.validUntil, h.present, h.generation, h.listed, h.ordered, ?_⟩
  intro address haddr
  rcases hoffd address haddr with hsame | ⟨candidate, hmem, hpres, rfl⟩
  · exact h.preferred address hsame
  · exact (h.present _ _ (h.candidate_of_mem hmem)).mp hpres

/-! ## What is picked -/

def untried (origin : Origin ρ) (address : IpAddr) : Bool :=
  (origin.candidate address).any isUntried

def cooldown (origin : Origin ρ) (now : Nat) (address : IpAddr) : Nat :=
  ((origin.candidate address).map (remainingCooldown now)).getD 0

theorem cooldown_of_candidate (h : origin.candidate address = some candidate) :
    origin.cooldown now address = remainingCooldown now candidate := by
  rw [cooldown, h]
  rfl

private theorem isAvailable_iff : candidate.isAvailable now = true ↔
    candidate.present = true ∧ remainingCooldown now candidate = 0 := by
  cases hcooldown : candidate.cooldownUntil <;>
    simp [isAvailable, remainingCooldown, hcooldown, Nat.sub_eq_zero_iff_le]

private theorem available_of_mem_eligible (h : origin.Follows set)
    (hmem : address ∈ origin.eligible rates now) :
    ∃ candidate, origin.candidate address = some candidate ∧ candidate.isAvailable now = true := by
  unfold eligible at hmem
  dsimp only at hmem
  split at hmem
  · obtain ⟨candidate, hcand, rfl⟩ := List.mem_map.mp hmem
    obtain ⟨hcand, havl⟩ := List.mem_filter.mp hcand
    exact ⟨candidate, h.candidate_of_mem hcand, havl⟩
  · exact (any_eq_true _ _).mp (List.mem_filter.mp hmem).2

theorem pickEligible_spec (h : origin.Follows set)
    (hsome : (origin.eligible rates now).isEmpty = false) {due : Bool} :
    ∃ pick candidate, origin.pickEligible rates now due = some pick ∧
      origin.candidate pick.address = some candidate ∧ candidate.isAvailable now = true := by
  unfold pickEligible
  dsimp only
  split
  case h_1 address hexplored =>
    split at hexplored
    · obtain ⟨candidate, hargmax, rfl⟩ := map_eq_some_iff.mp hexplored
      have hmem := List.mem_reverse.mp (List.argmax_mem hargmax)
      obtain ⟨hmem, hoffd⟩ := List.mem_filter.mp hmem
      exact ⟨_, candidate, rfl, h.candidate_of_mem hmem, (Bool.and_eq_true_iff.mp hoffd).2⟩
    · cases hexplored
  case h_2 =>
    cases hargmin : (origin.eligible rates now).argmin fun address =>
        ((origin.candidate address).map inFlight).getD (2 ^ 64 - 1) with
    | none =>
      rw [List.argmin_eq_none.mp hargmin] at hsome
      cases hsome
    | some address =>
      obtain ⟨candidate, hcand, havl⟩ := available_of_mem_eligible h (List.argmin_mem hargmin)
      exact ⟨_, candidate, rfl, hcand, havl⟩

theorem pickFallback_spec (h : origin.Follows set) (hne : set.addresses ≠ []) :
    ∃ pick, origin.pickFallback now = some pick ∧ pick.address ∈ set.addresses ∧
      ∀ address ∈ set.addresses,
        origin.cooldown now pick.address ≤ origin.cooldown now address := by
  have hoffd : ∀ address ∈ set.addresses, ∃ candidate, origin.candidate address = some candidate ∧
      candidate ∈ origin.candidates.filter present := by
    intro address haddr
    obtain ⟨candidate, hcand⟩ := h.listed address haddr
    exact ⟨candidate, hcand, List.mem_filter.mpr ⟨(mem_of_candidate hcand).1,
      (h.present _ _ hcand).mpr haddr⟩⟩
  unfold pickFallback
  cases hargmin : (origin.candidates.filter present).argmin (remainingCooldown now) with
  | none =>
    obtain ⟨first, hfst⟩ := List.exists_mem_of_ne_nil _ hne
    obtain ⟨candidate, -, hmem⟩ := hoffd first hfst
    rw [List.argmin_eq_none.mp hargmin] at hmem
    cases hmem
  | some picked =>
    obtain ⟨hmem, hpres⟩ := List.mem_filter.mp (List.argmin_mem hargmin)
    have hpicked := h.candidate_of_mem hmem
    refine ⟨_, rfl, (h.present _ _ hpicked).mp hpres, fun address haddr => ?_⟩
    obtain ⟨candidate, hcand, ho⟩ := hoffd address haddr
    rw [cooldown_of_candidate hpicked, cooldown_of_candidate hcand]
    exact List.le_of_mem_argmin ho hargmin

/-- The first address that nothing is known of, or else the soonest usable one. -/
def Chosen (origin : Origin ρ) (set : CandidateSet) (now : Nat) (address : IpAddr) : Prop :=
  set.addresses.find? origin.untried = some address ∨
    set.addresses.find? origin.untried = none ∧
      ∀ other ∈ set.addresses, origin.cooldown now address ≤ origin.cooldown now other

theorem pick_spec (rates : RateModel ρ) (now : Nat) (h : origin.Follows set)
    (hne : set.addresses ≠ []) (due : Bool) :
    ∃ pick, origin.pick rates now due = some pick ∧ pick.address ∈ set.addresses ∧
      (∀ first ∈ set.addresses, ∀ second ∈ set.addresses, first ≠ second →
        origin.Chosen set now pick.address) := by
  have hoffd : ∀ address ∈ set.addresses, ∃ candidate, candidate.address = address ∧
      candidate ∈ origin.candidates.filter present := by
    intro address haddr
    obtain ⟨candidate, hcand⟩ := h.listed address haddr
    obtain ⟨hmem, rfl⟩ := mem_of_candidate hcand
    exact ⟨candidate, rfl, List.mem_filter.mpr ⟨hmem, (h.present _ _ hcand).mpr haddr⟩⟩
  unfold pick
  split
  case h_1 hnone =>
    obtain ⟨first, hfst⟩ := List.exists_mem_of_ne_nil _ hne
    obtain ⟨candidate, -, hmem⟩ := hoffd first hfst
    rw [hnone] at hmem
    cases hmem
  case h_2 only honly =>
    have hmem : only ∈ origin.candidates.filter present := by
      rw [honly]
      exact List.mem_singleton_self only
    obtain ⟨hmem, hpres⟩ := List.mem_filter.mp hmem
    refine ⟨_, rfl, (h.present _ _ (h.candidate_of_mem hmem)).mp hpres, ?_⟩
    intro first hfst second hsnd hdiffer
    obtain ⟨one, rfl, hone⟩ := hoffd first hfst
    obtain ⟨two, rfl, htwo⟩ := hoffd second hsnd
    rw [honly, List.mem_singleton] at hone htwo
    exact absurd (by rw [hone, htwo]) hdiffer
  case h_3 =>
    split
    case h_1 candidate huntr =>
      have hmem := List.mem_of_find?_eq_some huntr
      have hpres : candidate.present = true := by
        have htest := List.find?_some huntr
        simp only [isUntried, Bool.and_eq_true] at htest
        exact htest.1.1
      have hlist := (h.present _ _ (h.candidate_of_mem hmem)).mp hpres
      exact ⟨_, rfl, hlist, fun _ _ _ _ _ =>
        .inl (h.table.find?_of_ordered h.ordered hlist huntr)⟩
    case h_2 huntr =>
      have htried : set.addresses.find? origin.untried = none := by
        rw [List.find?_eq_none]
        intro address _ hsome
        obtain ⟨candidate, hcand, htest⟩ := (any_eq_true _ _).mp hsome
        exact List.find?_eq_none.mp huntr candidate (mem_of_candidate hcand).1 htest
      split
      · obtain ⟨pick, hpick, hlist, hsoonest⟩ := pickFallback_spec h hne
        exact ⟨pick, hpick, hlist, fun _ _ _ _ _ => .inr ⟨htried, hsoonest⟩⟩
      · rename_i hsome
        obtain ⟨pick, candidate, hpick, hcand, havl⟩ :=
          pickEligible_spec h (Bool.eq_false_iff.mpr hsome)
        obtain ⟨hpres, husab⟩ := isAvailable_iff.mp havl
        refine ⟨pick, hpick, (h.present _ _ hcand).mp hpres, fun _ _ _ _ _ =>
          .inr ⟨htried, fun other _ => ?_⟩⟩
        rw [cooldown_of_candidate hcand, husab]
        exact Nat.zero_le _

/-! ## When the generation changes -/

theorem isSameSet_iff (h : origin.Follows set) (answer : CandidateSet) :
    origin.isSameSet answer = true ↔ answer.addresses.Nodup ∧
      ∀ address, address ∈ set.addresses ↔ address ∈ answer.addresses := by
  have hnodup : origin.offered.Nodup := h.table.filter present
  have hoffd : ∀ address, address ∈ origin.offered ↔ address ∈ set.addresses := by
    intro address
    simp only [offered, List.mem_map, List.mem_filter]
    constructor
    · rintro ⟨candidate, ⟨hmem, hpres⟩, rfl⟩
      exact (h.present _ _ (h.candidate_of_mem hmem)).mp hpres
    · intro haddr
      obtain ⟨candidate, hcand⟩ := h.listed address haddr
      exact ⟨candidate, ⟨(mem_of_candidate hcand).1, (h.present _ _ hcand).mpr haddr⟩,
        (mem_of_candidate hcand).2⟩
  simp only [isSameSet, Bool.and_eq_true, beq_iff_eq, List.all_eq_true, List.contains_iff_mem,
    ← hoffd]
  constructor
  · rintro ⟨hlen, hsubset⟩
    have hperm := (List.subperm_of_subset hnodup hsubset).perm_of_length_le hlen.ge
    exact ⟨hperm.nodup_iff.mp hnodup, fun _ => hperm.mem_iff⟩
  · rintro ⟨hanswer, hsame⟩
    have hperm := (List.perm_ext_iff_of_nodup hnodup hanswer).mpr hsame
    exact ⟨hperm.length_eq, fun address => (hsame address).mp⟩

end Origin

/-! ## Selections -/

def reserve (candidate : Candidate ρ) : Candidate ρ :=
  { candidate with
    inFlight := candidate.inFlight + 1
    attempts := candidate.attempts + 1 }

theorem IpPolicy.select_spec {policy : IpPolicy ρ} {pool : PoolKey} {origin : Origin ρ}
    {set : CandidateSet} (h : origin.Follows set) (horig : policy.origins pool = some origin)
    (rates : RateModel ρ) (now : Nat) :
    (∃ error, policy.select rates pool now = (.error error, policy) ∧
      (set.addresses = [] ∨ set.validUntil ≤ now)) ∨
    ∃ selection, policy.select rates pool now = (.ok selection,
        { policy with selections := policy.selections + 1 }.setOrigin pool
          ((origin.updatePreferred rates now).alter selection.address reserve)) ∧
      selection.address ∈ set.addresses ∧ now < set.validUntil ∧
      ∀ first ∈ set.addresses, ∀ second ∈ set.addresses, first ≠ second →
        origin.Chosen set now selection.address := by
  unfold IpPolicy.select IpPolicy.selectChecked
  simp only [horig]
  split
  case isTrue hnone =>
    refine .inl ⟨_, rfl, .inl (List.eq_nil_iff_forall_not_mem.mpr fun address hmem => ?_)⟩
    obtain ⟨candidate, hcand⟩ := h.listed address hmem
    have hany : origin.candidates.any present = true := List.any_eq_true.mpr
      ⟨candidate, (Origin.mem_of_candidate hcand).1, (h.present _ _ hcand).mpr hmem⟩
    simp [hany] at hnone
  case isFalse hsome =>
    simp only [Bool.not_eq_true', Bool.not_eq_false, List.any_eq_true] at hsome
    obtain ⟨candidate, hmem, hpres⟩ := hsome
    have hne : set.addresses ≠ [] :=
      List.ne_nil_of_mem ((h.present _ _ (h.candidate_of_mem hmem)).mp hpres)
    split
    case isTrue hexpired => exact .inl ⟨_, rfl, .inr (h.validUntil ▸ hexpired)⟩
    case isFalse hval =>
      have hupd := h.updatePreferred rates now
      obtain ⟨pick, hpick, hlist, hchos⟩ := Origin.pick_spec rates now hupd
        hne ((policy.selections + 1) % explorePeriod == 0)
      obtain ⟨found, hf⟩ := hupd.listed _ hlist
      rw [hpick]
      dsimp only
      rw [hf]
      refine .inr ⟨_, rfl, hlist, h.validUntil ▸ Nat.lt_of_not_le hval,
        fun first hfst second hsnd hne => ?_⟩
      have hsame : ∀ address, (origin.updatePreferred rates now).candidate address =
          origin.candidate address := by
        intro address
        rw [Origin.candidate, Origin.updatePreferred_candidates]
        rfl
      have huntr : (origin.updatePreferred rates now).untried = origin.untried := by
        funext address
        rw [Origin.untried, hsame, Origin.untried]
      simpa only [Origin.Chosen, huntr, Origin.cooldown, hsame]
        using hchos first hfst second hsnd hne

/-! ## Histories -/

inductive PolicyCall
  | observe (set : CandidateSet)
  | select
  | settle (address : IpAddr) (generation : Nat) (outcome : AttemptOutcome)
  | recordSample (address : IpAddr) (sample : TransferSample)

structure PolicyEvent where
  pool : PoolKey
  now : Nat
  call : PolicyCall

/-- What the calls for one origin say of an address; `forgotten` counts what was dropped of it. -/
structure Standing where
  seen : Option Nat
  pending : Nat
  assigned : Nat
  sampled : Nat
  forgotten : Nat
  deriving DecidableEq

namespace Standing

variable (standing : Standing)

def new : Standing := ⟨none, 0, 0, 0, 0⟩

def observe (listed : Bool) (now : Nat) : Standing :=
  if listed then { standing with seen := some now }
  else if standing.pending = 0 ∧ standing.seen.any (removedHistory ≤ now - ·) then
    { standing with seen := none, forgotten := standing.assigned + standing.sampled }
  else standing

def assign : Standing :=
  { standing with pending := standing.pending + 1, assigned := standing.assigned + 1 }

def settle : Standing := { standing with pending := standing.pending - 1 }

def sample : Standing := { standing with sampled := standing.sampled + 1 }

def isUnknown : Bool := standing.assigned + standing.sampled == standing.forgotten

structure Records (standing : Standing) (candidate : Option (Candidate ρ)) : Prop where
  seen : standing.seen = candidate.map lastSeen
  pending : standing.pending = (candidate.map inFlight).getD 0
  uses : (candidate.map fun found => found.attempts + found.samples).getD 0 +
    standing.forgotten = standing.assigned + standing.sampled

variable {standing} {found : Option (Candidate ρ)} {candidate : Candidate ρ}

theorem Records.listed (h : standing.Records found) {gen now : Nat} {address : IpAddr} :
    (standing.observe true now).Records (some (Origin.listed gen now address found)) := by
  cases found with
  | none | some candidate => exact ⟨rfl, h.pending, h.uses⟩

theorem Records.withdrawn (h : standing.Records found) {now : Nat} :
    (standing.observe false now).Records
      ((found.map Origin.withdrawn).filter (Origin.isKept now)) := by
  have hsame : (found.map Origin.withdrawn).filter (Origin.isKept now) =
      if standing.pending = 0 ∧ standing.seen.any (removedHistory ≤ now - ·) then none
      else found.map Origin.withdrawn := by
    rw [h.pending, h.seen]
    cases found with
    | none => simp
    | some candidate =>
      simp only [map_some, filter_some, Origin.isKept, Origin.withdrawn,
        Bool.false_or, getD_some, any_some]
      split <;> split <;> simp_all
      omega
  rw [hsame]
  unfold Standing.observe
  simp only [Bool.false_eq_true, if_false]
  split
  case isTrue hforgets => exact ⟨rfl, hforgets.1, Nat.zero_add _⟩
  case isFalse =>
    cases found with
    | none => exact h
    | some candidate => exact ⟨h.seen, h.pending, h.uses⟩

theorem Records.assign (h : standing.Records (some candidate)) :
    standing.assign.Records (some (reserve candidate)) := by
  refine ⟨h.seen, congrArg (· + 1) h.pending, ?_⟩
  have huses := h.uses
  simp only [map_some, getD_some, Standing.assign, reserve] at huses ⊢
  omega

theorem Records.sample (h : standing.Records (some candidate)) (rates : RateModel ρ)
    (window : TransferSample) (now : Nat) :
    standing.sample.Records (some (IpPolicy.folded rates window now candidate)) := by
  refine ⟨h.seen, h.pending, ?_⟩
  have huses := h.uses
  simp only [map_some, getD_some, Standing.sample, IpPolicy.folded] at huses ⊢
  omega

theorem Records.settle (h : standing.Records found) (outcome : AttemptOutcome) (current : Bool)
    (now : Nat) : standing.settle.Records (found.map (IpPolicy.settled outcome current now)) := by
  cases found with
  | none => exact ⟨h.seen, by rw [Standing.settle, h.pending]; rfl, h.uses⟩
  | some candidate =>
    have hpend : standing.pending - 1 = candidate.inFlight - 1 := congrArg (· - 1) h.pending
    cases outcome <;> exact ⟨h.seen, hpend, h.uses⟩

private theorem settle_of_pending (h : standing.pending = 0) : standing.settle = standing := by
  obtain ⟨seen, pending, assigned, sampled, forgotten⟩ := standing
  cases h
  rfl

theorem isUnknown_iff (h : standing.Records (some candidate)) (hpres : candidate.present = true) :
    standing.isUnknown = Origin.isUntried candidate := by
  have huses := h.uses
  simp only [map_some, getD_some] at huses
  rw [Bool.eq_iff_iff]
  simp only [isUnknown, Origin.isUntried, hpres, Bool.true_and, beq_iff_eq, Bool.and_eq_true]
  omega

end Standing

/-- A policy with its history: the last answer for each origin, and the standing of the
addresses. -/
structure PolicyRun (ρ : Type) where
  policy : IpPolicy ρ
  clock : Nat
  latest : PoolKey → CandidateSet
  standing : PoolKey → IpAddr → Standing

def amend (table : PoolKey → IpAddr → Standing) (pool : PoolKey) (address : IpAddr)
    (change : Standing → Standing) : PoolKey → IpAddr → Standing :=
  update table pool (update (table pool) address (change (table pool address)))

namespace PolicyRun

def new : PolicyRun ρ where
  policy := .new
  clock := 0
  latest := fun _ => ⟨[], 0⟩
  standing := fun _ _ => .new

def step (rates : RateModel ρ) (run : PolicyRun ρ) (event : PolicyEvent) :
    Option (PolicyRun ρ) :=
  if event.now < run.clock then none
  else
    let run := { run with clock := event.now }
    match event.call with
    | .observe set =>
      some { run with
        policy := run.policy.observe event.pool set event.now
        latest := update run.latest event.pool set
        standing := update run.standing event.pool fun address =>
          (run.standing event.pool address).observe (set.addresses.contains address) event.now }
    | .select =>
      let (result, policy) := run.policy.select rates event.pool event.now
      some { run with
        policy := policy
        standing := match result with
          | .ok selection => amend run.standing event.pool selection.address .assign
          | .error _ => run.standing }
    | .settle address generation outcome =>
      some { run with
        policy := run.policy.settle event.pool address generation outcome event.now
        standing := amend run.standing event.pool address .settle }
    | .recordSample address sample =>
      let (usable, policy) := run.policy.recordSample rates event.pool address sample event.now
      some { run with
        policy := policy
        standing := if usable then amend run.standing event.pool address .sample
          else run.standing }

abbrev Reachable (rates : RateModel ρ) (run : PolicyRun ρ) : Prop :=
  Reaches (step rates) (fun _ _ => True) new run

variable {run next : PolicyRun ρ} {pool : PoolKey} {origin : Origin ρ} {address : IpAddr}

structure Traces (run : PolicyRun ρ) (pool : PoolKey) (origin : Origin ρ) : Prop where
  follows : origin.Follows (run.latest pool)
  records : ∀ address, (run.standing pool address).Records (origin.candidate address)

structure Coherent (run : PolicyRun ρ) : Prop where
  traces : ∀ pool origin, run.policy.origins pool = some origin → run.Traces pool origin
  unknown : ∀ pool, run.policy.origins pool = none → (run.latest pool).addresses = [] ∧
    ∀ address, (run.standing pool address).Records (none : Option (Candidate ρ))

theorem Coherent.update (h : run.Coherent)
    (horigins : next.policy.origins = update run.policy.origins pool (some origin))
    (htrs : next.Traces pool origin)
    (hoths : ∀ other, other ≠ pool → next.latest other = run.latest other ∧
      next.standing other = run.standing other) : next.Coherent := by
  constructor
  · intro other found hf
    rw [horigins] at hf
    by_cases heq : other = pool
    · subst heq
      rw [update_self] at hf
      cases hf
      exact htrs
    · rw [update_of_ne heq] at hf
      obtain ⟨hlatest, hstand⟩ := hoths other heq
      have hbef := h.traces other found hf
      exact ⟨hlatest ▸ hbef.follows, hstand ▸ hbef.records⟩
  · intro other hnone
    rw [horigins] at hnone
    by_cases heq : other = pool
    · rw [heq, update_self] at hnone
      cases hnone
    · rw [update_of_ne heq] at hnone
      rw [(hoths other heq).1, (hoths other heq).2]
      exact h.unknown other hnone

private theorem amend_self {table : PoolKey → IpAddr → Standing} {change : Standing → Standing}
    {other : IpAddr} : amend table pool address change pool other =
      if other = address then change (table pool other) else table pool other := by
  rw [amend, update_self, update_apply]
  split
  case isTrue heq => rw [heq]
  case isFalse => rfl

private theorem amend_other {table : PoolKey → IpAddr → Standing} {change : Standing → Standing}
    {other : PoolKey} (hne : other ≠ pool) :
    amend table pool address change other = table other :=
  update_of_ne hne _ _

theorem Coherent.current (h : run.Coherent) (pool : PoolKey) (now : Nat) :
    (∃ set : CandidateSet, set.addresses = (run.latest pool).addresses ∧
      ((run.policy.origins pool).getD (.new now)).Follows set) ∧
    ∀ address, (run.standing pool address).Records
      (((run.policy.origins pool).getD (.new now)).candidate address) := by
  cases horig : run.policy.origins pool with
  | none =>
    obtain ⟨hemp, hrecs⟩ := h.unknown pool horig
    exact ⟨⟨_, hemp.symm, Origin.follows_new⟩, hrecs⟩
  | some origin =>
    have htrs := h.traces pool origin horig
    exact ⟨⟨_, rfl, htrs.follows⟩, htrs.records⟩

theorem Coherent.observe (h : run.Coherent) (pool : PoolKey) (set : CandidateSet) (now : Nat) :
    Coherent { run with
      policy := run.policy.observe pool set now
      latest := Function.update run.latest pool set
      standing := Function.update run.standing pool fun address =>
        (run.standing pool address).observe (set.addresses.contains address) now } := by
  obtain ⟨⟨earlier, -, hfol⟩, hrecs⟩ := h.current pool now
  refine h.update rfl ⟨?_, fun address => ?_⟩
    fun other hne => ⟨update_of_ne hne _ _, update_of_ne hne _ _⟩
  · dsimp only
    rw [update_self]
    exact Origin.Follows.observe hfol.table set now
  · dsimp only
    rw [update_self, (Origin.observe_spec _ hfol.table set now).2]
    split
    case isTrue hmem =>
      rw [List.contains_iff_mem.mpr hmem]
      exact (hrecs address).listed
    case isFalse hmem =>
      rw [Bool.eq_false_iff.mpr fun hcontains => hmem (List.contains_iff_mem.mp hcontains)]
      exact (hrecs address).withdrawn

/-- What a call other than an answer does to the origin that it finds. -/
structure Touches (run next : PolicyRun ρ) (pool : PoolKey) (origin after : Origin ρ) : Prop where
  before : run.policy.origins pool = some origin
  origins : next.policy.origins = update run.policy.origins pool (some after)
  generation : after.generation = origin.generation
  traces : next.Traces pool after
  others : ∀ other, other ≠ pool → next.latest other = run.latest other ∧
    next.standing other = run.standing other

theorem Touches.of_alter {change : Candidate ρ → Candidate ρ} {note : Standing → Standing}
    {after : Origin ρ} (hbef : run.policy.origins pool = some origin)
    (htrs : run.Traces pool after) (hgeneration : after.generation = origin.generation)
    (hlatest : next.latest = run.latest)
    (horigins : next.policy.origins =
      update run.policy.origins pool (some (after.alter address change)))
    (hstand : next.standing = amend run.standing pool address note)
    (hchg : ∀ candidate, (change candidate).address = candidate.address ∧
      (change candidate).present = candidate.present ∧
      (change candidate).generation = candidate.generation)
    (hrecs : (note (run.standing pool address)).Records ((after.candidate address).map change)) :
    Touches run next pool origin (after.alter address change) := by
  refine ⟨hbef, horigins, hgeneration, ⟨hlatest ▸ htrs.follows.alter hchg, fun other => ?_⟩,
    fun other hne => ⟨congrFun hlatest other, hstand ▸ amend_other hne⟩⟩
  rw [hstand, amend_self, Origin.candidate, Origin.alter,
    Keyed.lookup_alter fun found => (hchg found).1]
  split
  case isTrue heq => exact heq ▸ hrecs
  case isFalse => exact htrs.records other

theorem amend_id (table : PoolKey → IpAddr → Standing) (pool : PoolKey) (address : IpAddr)
    (change : Standing → Standing) (h : change (table pool address) = table pool address) :
    amend table pool address change = table := by
  unfold amend
  rw [h, update_eq_self, update_eq_self]

theorem touches_of_step {event : PolicyEvent} (h : run.Coherent)
    (hcall : ∀ set, event.call ≠ .observe set) (hstep : step rates run event = some next) :
    next = { run with clock := event.now } ∨
      ∃ origin after, Touches run next event.pool origin after := by
  obtain ⟨pool, now, call⟩ := event
  unfold step at hstep
  split at hstep
  · cases hstep
  cases horig : run.policy.origins pool with
  | none =>
    left
    cases call with
    | observe set => exact absurd rfl (hcall set)
    | settle address gen outcome =>
      have hidle := ((h.unknown pool horig).2 address).pending
      simp only [IpPolicy.settle, horig] at hstep
      rw [amend_id _ _ _ _ (Standing.settle_of_pending hidle)] at hstep
      cases hstep
      rfl
    | select | recordSample =>
      simp only [IpPolicy.select, IpPolicy.selectChecked, IpPolicy.recordSample, horig] at hstep
      cases hstep
      rfl
  | some origin =>
    have htrs := h.traces pool origin horig
    cases call with
    | observe set => exact absurd rfl (hcall set)
    | select =>
      rcases IpPolicy.select_spec htrs.follows horig rates now with
        ⟨error, hsel, -⟩ | ⟨selection, hsel, hlist, -⟩
      · simp only [hsel] at hstep
        cases hstep
        exact .inl rfl
      simp only [hsel] at hstep
      cases hstep
      obtain ⟨preferred, since, hupd, -⟩ := Origin.updatePreferred_spec rates origin now
      have hprefers : run.Traces pool (origin.updatePreferred rates now) := by
        refine ⟨htrs.follows.updatePreferred rates now, ?_⟩
        rw [hupd]
        exact htrs.records
      obtain ⟨candidate, hcand⟩ := hprefers.follows.listed _ hlist
      refine .inr ⟨origin, _, .of_alter horig hprefers (by rw [hupd]) rfl rfl rfl
        (fun _ => ⟨rfl, rfl, rfl⟩) ?_⟩
      have hrecs := hprefers.records selection.address
      rw [hcand] at hrecs ⊢
      exact hrecs.assign
    | settle address gen outcome =>
      simp only [IpPolicy.settle, horig] at hstep
      cases hstep
      exact .inr ⟨origin, _, .of_alter horig htrs rfl rfl rfl rfl
        (fun _ => by cases outcome <;> exact ⟨rfl, rfl, rfl⟩)
        ((htrs.records address).settle outcome _ now)⟩
    | recordSample address sample =>
      simp only [IpPolicy.recordSample, horig] at hstep
      cases hcand : origin.candidate address with
      | none =>
        simp only [hcand, isNone_none, if_true, Bool.false_eq_true, if_false] at hstep
        cases hstep
        exact .inl rfl
      | some candidate =>
        have hrecs := hcand ▸ htrs.records address
        by_cases husab : sampleIsUsable rates sample = true
        · simp only [hcand, isNone_some, husab, if_true, Bool.false_eq_true, if_false] at hstep
          cases hstep
          exact .inr ⟨origin, _, .of_alter horig htrs rfl rfl rfl rfl
            (fun _ => ⟨rfl, rfl, rfl⟩) (hcand ▸ hrecs.sample rates sample now)⟩
        · simp only [hcand, isNone_some, husab, Bool.false_eq_true, if_false] at hstep
          cases hstep
          exact .inr ⟨origin, _, .of_alter horig htrs rfl rfl rfl
            (amend_id run.standing pool address id rfl).symm
            (fun _ => ⟨rfl, rfl, rfl⟩)
            (hcand.symm ▸ ⟨hrecs.seen, hrecs.pending, hrecs.uses⟩)⟩

theorem observe_of_step {set : CandidateSet}
    (hstep : step rates run ⟨pool, now, .observe set⟩ = some next) : next = { run with
      policy := run.policy.observe pool set now
      clock := now
      latest := update run.latest pool set
      standing := update run.standing pool fun address =>
        (run.standing pool address).observe (set.addresses.contains address) now } := by
  unfold step at hstep
  split at hstep
  · cases hstep
  · cases hstep
    rfl

theorem Coherent.step {event : PolicyEvent} (h : run.Coherent)
    (hstep : step rates run event = some next) : next.Coherent := by
  by_cases hcall : ∀ set, event.call ≠ .observe set
  · rcases touches_of_step h hcall hstep with rfl | ⟨origin, after, htouch⟩
    · exact ⟨fun pool origin horig => ⟨(h.traces pool origin horig).follows,
        (h.traces pool origin horig).records⟩, h.unknown⟩
    · exact h.update htouch.origins htouch.traces htouch.others
  · obtain ⟨pool, now, call⟩ := event
    simp only [not_forall, not_not] at hcall
    obtain ⟨set, rfl⟩ := hcall
    rw [observe_of_step hstep]
    have hobs := h.observe pool set now
    exact ⟨fun other origin horig => ⟨(hobs.traces other origin horig).follows,
      (hobs.traces other origin horig).records⟩, hobs.unknown⟩

theorem Reachable.coherent (h : run.Reachable rates) : run.Coherent :=
  h.invariant ⟨nofun, fun _ _ => ⟨rfl, fun _ => ⟨rfl, rfl, rfl⟩⟩⟩
    fun _ _ _ hcoh _ hstep => hcoh.step hstep

/-- A selection from a valid answer returns one of its addresses: the first one that was neither
assigned nor sampled since it was last forgotten, or else one that is not parked if there is one.
-/
theorem selection_prefers_unknown_addresses (h : run.Reachable rates) (pool : PoolKey) (now : Nat) :
    (∀ origin address, run.policy.origins pool = some origin →
      origin.preferred = some address → address ∈ (run.latest pool).addresses) ∧
    ((run.latest pool).addresses ≠ [] → now < (run.latest pool).validUntil →
      ∃ origin selection policy, run.policy.origins pool = some origin ∧
        run.policy.select rates pool now = (.ok selection, policy) ∧
        selection.address ∈ (run.latest pool).addresses ∧
        (∀ address ∈ (run.latest pool).addresses,
          origin.untried address = (run.standing pool address).isUnknown) ∧
        ((∃ first ∈ (run.latest pool).addresses, ∃ second ∈ (run.latest pool).addresses,
            first ≠ second) →
          ((∃ address ∈ (run.latest pool).addresses,
              (run.standing pool address).isUnknown = true) →
            (run.latest pool).addresses.find? (fun address =>
              (run.standing pool address).isUnknown) = some selection.address) ∧
          ((∀ address ∈ (run.latest pool).addresses,
              (run.standing pool address).isUnknown = false) →
            ((∃ address ∈ (run.latest pool).addresses, origin.cooldown now address = 0) →
              origin.cooldown now selection.address = 0) ∧
            ∀ address ∈ (run.latest pool).addresses,
              origin.cooldown now selection.address ≤ origin.cooldown now address))) := by
  have hcoh := h.coherent
  refine ⟨fun origin address horig => (hcoh.traces pool origin horig).follows.preferred
    address, fun hne hval => ?_⟩
  cases horig : run.policy.origins pool with
  | none => exact absurd (hcoh.unknown pool horig).1 hne
  | some origin =>
    have htrs := hcoh.traces pool origin horig
    have hfol := htrs.follows
    have huntr : ∀ address ∈ (run.latest pool).addresses,
        origin.untried address = (run.standing pool address).isUnknown := by
      intro address hmem
      obtain ⟨candidate, hcand⟩ := hfol.listed address hmem
      rw [Origin.untried, hcand, Standing.isUnknown_iff (hcand ▸ htrs.records address)
        ((hfol.present address candidate hcand).mpr hmem), any_some]
    rcases IpPolicy.select_spec hfol horig rates now with
      ⟨_, -, hnone | hexpired⟩ | ⟨selection, hsel, hlist, -, hchos⟩
    · exact absurd hnone hne
    · omega
    refine ⟨origin, selection, _, rfl, hsel, hlist, huntr, ?_⟩
    rintro ⟨first, hfst, second, hsnd, hdiffer⟩
    have hchos := hchos first hfst second hsnd hdiffer
    unfold Origin.Chosen at hchos
    rw [List.find?_congr huntr] at hchos
    refine ⟨fun ⟨address, hmem, hunk⟩ => ?_, fun hknown => ?_⟩
    · rcases hchos with hf | ⟨hnone, -⟩
      · exact hf
      · exact absurd hunk (List.find?_eq_none.mp hnone address hmem)
    · rcases hchos with hf | ⟨-, hsoonest⟩
      · have hunk := List.find?_some hf
        rw [hknown _ (List.mem_of_find?_eq_some hf)] at hunk
        cases hunk
      · refine ⟨fun ⟨address, hmem, husab⟩ => ?_, hsoonest⟩
        exact Nat.le_zero.mp (husab ▸ hsoonest address hmem)

def equalRates : RateModel Unit where
  measure _ := ()
  decay _ _ := ()
  blend _ _ := ()
  le _ _ := true
  clearlyBetter _ _ := false
  unpolluted _ := true

def onePool : PoolKey := ⟨['h'], none⟩

def observing (now : Nat) (addresses : List IpAddr) : PolicyEvent :=
  ⟨onePool, now, .observe ⟨addresses, 10 ^ 12⟩⟩

theorem first_of_two_addresses_is_selected : ∃ run : PolicyRun Unit, run.Reachable equalRates ∧
    ∃ selection policy, run.policy.select equalRates onePool 1 = (.ok selection, policy) ∧
      selection.address = .v4 1 := by
  have hview : (runLabels (step equalRates) (fun _ _ => true) new
      [observing 0 [.v4 1, .v4 2]]).map (fun run => (run.latest onePool,
        run.standing onePool (.v4 1))) =
          some (⟨[.v4 1, .v4 2], 10 ^ 12⟩, ⟨some 0, 0, 0, 0, 0⟩) := by
    decide
  obtain ⟨run, hr, heq⟩ := Reaches.exists_of_run hview
  obtain ⟨hlatest, hstand⟩ := Prod.mk.inj heq
  obtain ⟨-, hselects⟩ := selection_prefers_unknown_addresses hr onePool 1
  rw [hlatest] at hselects
  obtain ⟨origin, selection, policy, -, hsel, -, -, hseveral⟩ := hselects (by decide) (by decide)
  obtain ⟨hfst, -⟩ := hseveral ⟨.v4 1, by decide, .v4 2, by decide, by decide⟩
  have hunk : (run.standing onePool (.v4 1)).isUnknown = true := by
    rw [hstand]
    rfl
  have hf := hfst ⟨.v4 1, by decide, hunk⟩
  simp only [List.find?_cons, hunk] at hf
  exact ⟨run, hr, selection, policy, hsel, (some.inj hf).symm⟩

/-- The first address is assigned, forgotten and listed again before the second one is assigned. -/
def returningRun : List PolicyEvent :=
  [observing 0 [.v4 1], ⟨onePool, 0, .select⟩, ⟨onePool, 1, .settle (.v4 1) 1 .completed⟩,
    observing 2 [.v4 2], observing (200 * 10 ^ 9) [.v4 2],
    observing (201 * 10 ^ 9) [.v4 1, .v4 2]]

theorem forgotten_address_is_covered_again : ∃ run : PolicyRun Unit, run.Reachable equalRates ∧
    run.latest onePool = ⟨[.v4 1, .v4 2], 10 ^ 12⟩ ∧
    (run.standing onePool (.v4 1)).assigned = 1 ∧ (run.standing onePool (.v4 1)).forgotten = 1 ∧
    (run.standing onePool (.v4 2)).assigned = 0 ∧ (run.standing onePool (.v4 2)).sampled = 0 ∧
    (run.policy.select equalRates onePool (201 * 10 ^ 9)).1 = .ok ⟨.v4 1, 3, .coverage⟩ := by
  have hview : (runLabels (step equalRates) (fun _ _ => true) new returningRun).map
      (fun run => (run.latest onePool, run.standing onePool (.v4 1), run.standing onePool (.v4 2),
        (run.policy.select equalRates onePool (201 * 10 ^ 9)).1.toOption)) =
      some (⟨[.v4 1, .v4 2], 10 ^ 12⟩, ⟨some (201 * 10 ^ 9), 0, 1, 0, 1⟩,
        ⟨some (201 * 10 ^ 9), 0, 0, 0, 0⟩, some ⟨.v4 1, 3, .coverage⟩) := by
    decide
  obtain ⟨run, hr, heq⟩ := Reaches.exists_of_run hview
  simp only [Prod.mk.injEq] at heq
  obtain ⟨hlatest, hfst, hsnd, hsel⟩ := heq
  refine ⟨run, hr, hlatest, by rw [hfst], by rw [hfst], by rw [hsnd], by rw [hsnd], ?_⟩
  cases hres : (run.policy.select equalRates onePool (201 * 10 ^ 9)).1 with
  | ok selection =>
    rw [hres] at hsel
    rw [some.inj hsel]
  | error error =>
    rw [hres] at hsel
    cases hsel

/-! ## Generations -/

def generation (run : PolicyRun ρ) (pool : PoolKey) : Nat :=
  ((run.policy.origins pool).map Origin.generation).getD 0

def SameAddresses (run : PolicyRun ρ) (pool : PoolKey) (set : CandidateSet) : Prop :=
  ∀ address, address ∈ (run.latest pool).addresses ↔ address ∈ set.addresses

theorem generation_observe (h : run.Coherent) (pool : PoolKey) (set : CandidateSet) (now : Nat)
    {standing : PoolKey → IpAddr → Standing} : run.generation pool < generation { run with
        policy := run.policy.observe pool set now
        clock := now
        latest := update run.latest pool set
        standing := standing } pool ↔
      ¬ (set.addresses.Nodup ∧ run.SameAddresses pool set) := by
  obtain ⟨⟨earlier, haddrs, hfol⟩, -⟩ := h.current pool now
  have hsame := Origin.isSameSet_iff hfol set
  have hbef : run.generation pool = ((run.policy.origins pool).getD (.new now)).generation := by
    rw [generation]
    cases run.policy.origins pool <;> rfl
  rw [haddrs] at hsame
  rw [← show _ ↔ set.addresses.Nodup ∧ run.SameAddresses pool set from hsame, hbef]
  simp only [generation, IpPolicy.observe, IpPolicy.setOrigin, update_self,
    map_some, getD_some, Origin.observe]
  split
  case isTrue hsame => simp [hsame]
  case isFalse hdiffer => simp [hdiffer]

/-- The generation of an origin increases exactly when an answer changes the set of addresses,
unless it repeats one; no other call changes it. -/
theorem generation_tracks_addresses_iff {event : PolicyEvent} (h : run.Reachable rates)
    (hstep : step rates run event = some next) (pool : PoolKey) :
    (∀ set, event.call = .observe set → event.pool = pool →
      ((run.generation pool < next.generation pool ↔ ¬ run.SameAddresses pool set) ↔
        (run.SameAddresses pool set → set.addresses.Nodup))) ∧
    (((∀ set, event.call ≠ .observe set) ∨ event.pool ≠ pool) →
      next.generation pool = run.generation pool) := by
  have hcoh := h.coherent
  constructor
  · obtain ⟨eventPool, now, call⟩ := event
    rintro set rfl rfl
    rw [observe_of_step hstep, generation_observe hcoh]
    tauto
  · intro ho
    by_cases hcall : ∀ set, event.call ≠ .observe set
    · rcases touches_of_step hcoh hcall hstep with rfl | ⟨origin, after, htouch⟩
      · rfl
      · rw [generation, htouch.origins]
        by_cases heq : pool = event.pool
        · subst heq
          rw [update_self, generation, htouch.before, map_some, map_some, htouch.generation]
        · rw [update_of_ne heq]
          rfl
    · have hne := ho.resolve_left hcall
      obtain ⟨eventPool, now, call⟩ := event
      simp only [not_forall, not_not] at hcall
      obtain ⟨set, rfl⟩ := hcall
      rw [observe_of_step hstep, generation]
      simp only [IpPolicy.observe, IpPolicy.setOrigin]
      rw [update_of_ne (Ne.symm hne)]
      rfl

theorem reordered_answer_keeps_the_generation : ∃ run next : PolicyRun Unit,
    run.Reachable equalRates ∧
    step equalRates run (observing 1 [.v4 2, .v4 1]) = some next ∧
    ¬ run.generation onePool < next.generation onePool := by
  have hview : (runLabels (step equalRates) (fun _ _ => true) new
      [observing 0 [.v4 1, .v4 2]]).map (fun run => (run.clock, run.latest onePool)) =
        some (0, ⟨[.v4 1, .v4 2], 10 ^ 12⟩) := by
    decide
  obtain ⟨run, hr, heq⟩ := Reaches.exists_of_run hview
  obtain ⟨hclock, hlatest⟩ := Prod.mk.inj heq
  have hstep : ∃ next, step equalRates run (observing 1 [.v4 2, .v4 1]) = some next := by
    simp [step, observing, hclock]
  obtain ⟨next, hstep⟩ := hstep
  have hsame : run.SameAddresses onePool ⟨[.v4 2, .v4 1], 10 ^ 12⟩ := by
    simp [SameAddresses, hlatest, or_comm]
  obtain ⟨htracks, -⟩ := generation_tracks_addresses_iff hr hstep onePool
  have hexact := (htracks _ rfl rfl).mpr fun _ => by decide
  exact ⟨run, next, hr, hstep, fun hless => hexact.mp hless hsame⟩

theorem doubled_address_changes_the_generation : ∃ run next : PolicyRun Unit,
    run.Reachable equalRates ∧ run.latest onePool = ⟨[.v4 1, .v4 1], 10 ^ 12⟩ ∧
    step equalRates run (observing 1 [.v4 1, .v4 1]) = some next ∧
    run.generation onePool = 1 ∧ next.generation onePool = 2 := by
  have hview : ((runLabels (step equalRates) (fun _ _ => true) new
      [observing 0 [.v4 1, .v4 1]]).bind fun run =>
        (step equalRates run (observing 1 [.v4 1, .v4 1])).map fun next =>
          (run.latest onePool, run.generation onePool, next.generation onePool)) =
      some (⟨[.v4 1, .v4 1], 10 ^ 12⟩, 1, 2) := by
    decide
  obtain ⟨run, hrun, hview⟩ := bind_eq_some_iff.mp hview
  obtain ⟨next, hnext, heq⟩ := map_eq_some_iff.mp hview
  simp only [Prod.mk.injEq] at heq
  exact ⟨run, next, Reaches.of_runLabels hrun .refl fun _ _ _ => trivial, heq.1, hnext, heq.2⟩

end PolicyRun

end Bytehaul.Network
