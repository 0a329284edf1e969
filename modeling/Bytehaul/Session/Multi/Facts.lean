import Bytehaul.Session.Multi.Worker

/-!
# What holds at each point of a worker

The local variables of a worker, by the point it has reached. `G b v` says that byte `v` may
stand at position `b` of the file.
-/

namespace Bytehaul.Session

open Foundation Foundation.DiskFile Storage Scheduler List

def Accepted (cfg : PoolConfig) (response : HttpResponse) : Prop :=
  ∃ job requestEnd, checkedResponse (.ofJob cfg job requestEnd) response = .ok ()

def Spells (G : Nat → UInt8 → Prop) (pos : Nat) (data : List UInt8) : Prop :=
  ∀ b v, Lays pos data b v → G b v

section Spells

variable {G : Nat → UInt8 → Prop} {pos : Nat} {data : List UInt8}

theorem Spells.nil : Spells G pos [] := fun _ _ h => absurd h not_lays_nil

theorem Spells.append {more : List UInt8} (h : Spells G pos data)
    (hmore : Spells G (pos + data.length) more) : Spells G pos (data ++ more) := by
  intro b v hv
  rcases lays_append.mp hv with hv | hv
  · exact h b v hv
  · exact hmore b v hv

theorem Spells.take (h : Spells G pos data) (count : Nat) : Spells G pos (data.take count) :=
  fun b v hv => h b v hv.of_take

theorem Spells.drop (h : Spells G pos data) (count : Nat) :
    Spells G (pos + count) (data.drop count) := by
  rintro b v ⟨hle, hget⟩
  rw [getElem?_drop] at hget
  refine h b v ⟨by omega, ?_⟩
  rwa [show b - pos = count + (b - (pos + count)) by omega]

end Spells

/-- Leases that one request can serve, none of them empty. -/
structure Proper (segments : List Segment) : Prop where
  batch : Batch segments
  pos : ∀ segment ∈ segments, segment.start < segment.stop

variable {seg : Segment} {segments : List Segment}

theorem Proper.singleton (h : seg.start < seg.stop) : Proper [seg] :=
  ⟨.singleton seg, by simpa using h⟩

theorem Proper.tail (h : Proper (seg :: segments)) : Proper segments :=
  ⟨h.batch.tail, fun other ho => h.pos other (mem_cons_of_mem _ ho)⟩

theorem Proper.replace {first second : Segment} (h : Proper (first :: segments))
    (hp : second.pieceId = first.pieceId) (hstop : second.stop = first.stop)
    (hpos : second.start < second.stop) : Proper (second :: segments) := by
  constructor
  · cases segments with
    | nil => exact .singleton second
    | cons next segments =>
      have hbatch := h.batch
      unfold Batch at hbatch ⊢
      rw [isChain_cons_cons] at hbatch ⊢
      obtain ⟨⟨hfol, hstart⟩, hrest⟩ := hbatch
      exact ⟨⟨by rw [hp, hfol], by rw [hstop, hstart]⟩, hrest⟩
  · intro other ho
    rcases mem_cons.mp ho with rfl | ho
    · exact hpos
    · exact h.pos other (mem_cons_of_mem _ ho)

theorem Proper.of_lends {sched after : SchedulerState} (hlnd : sched.Lends after segments)
    (hbatch : Batch segments) : Proper segments :=
  ⟨hbatch, fun seg hseg => (hlnd.segment seg hseg).2.1⟩

theorem Proper.stop_le_last {queued : List Segment} (h : Proper (seg :: queued)) :
    ∀ other ∈ seg :: queued,
      other.stop ≤ (queued.getLast?.map Segment.stop).getD seg.stop := by
  induction queued generalizing seg with
  | nil => simp
  | cons next queued ih =>
    have hlast : ((next :: queued).getLast?.map Segment.stop).getD seg.stop =
        (queued.getLast?.map Segment.stop).getD next.stop := by
      cases hq : queued.getLast? <;> simp [getLast?_cons, hq]
    rw [hlast]
    have hrest := ih h.tail
    intro other ho
    rcases mem_cons.mp ho with rfl | ho
    · have hfol := (isChain_cons_cons.mp h.batch).1.2
      have hpos := h.pos next (by simp)
      have hnext := hrest next mem_cons_self
      omega
    · exact hrest other ho

structure RequestStream.Sound (cfg : PoolConfig) (G : Nat → UInt8 → Prop) (job : Job)
    (stream : RequestStream) : Prop where
  accepted : Accepted cfg stream.response
  position : stream.start + stream.consumed = job.segment.start + job.forwarded
  wire : stream.wire = stream.consumed + stream.buffered.length
  expected : stream.wire ≤ stream.expected
  stop : stream.start + stream.expected = job.requestEnd
  bytes : Spells G (stream.start + stream.consumed) stream.buffered
  observed : job.observation = ⟨stream.wire, stream.consumed⟩

structure Staged.Sound (cfg : PoolConfig) (G : Nat → UInt8 → Prop) (segment : Segment)
    (staged : Staged) : Prop where
  accepted : Accepted cfg staged.response
  length : staged.data.length = segment.stop - segment.start
  bytes : Spells G segment.start staged.data

structure Job.Sound (cfg : PoolConfig) (G : Nat → UInt8 → Prop) (job : Job) : Prop where
  proper : Proper job.leases
  forwarded_le : job.forwarded ≤ job.len
  reach : ∀ segment ∈ job.leases, segment.stop ≤ job.requestEnd
  stream : ∀ stream, job.stream = some stream → stream.Sound cfg G job
  unread : job.stream = none → job.staged = none →
    job.forwarded = 0 ∧ job.observation = .new
  challenger : ∀ challenger staging, job.challenger = some challenger →
    challenger.staging = some staging →
      Accepted cfg staging.response ∧ Spells G job.segment.start staging.data
  staged : ∀ staged, job.staged = some staged →
    staged.Sound cfg G job.segment ∧ job.queued = [] ∧ job.stream = none

structure Job.Idle (job : Job) : Prop where
  proper : Proper job.leases
  stream : job.stream = none
  requestEnd : job.requestEnd = job.segment.stop
  challenger : job.challenger = none
  staged : job.staged = none

def Outcome.Sound (cfg : PoolConfig) (G : Nat → UInt8 → Prop) (segment : Segment) :
    Outcome → Prop
  | .staged winner => winner.Sound cfg G segment
  | _ => True

def Cause.Sound (cfg : PoolConfig) (G : Nat → UInt8 → Prop) (segment : Segment) :
    Cause → Prop
  | .staged winner => winner.Sound cfg G segment
  | _ => True

/-- A prefix is kept only of a request that sent a proper part of its lease. -/
def Retainable (job : Job) (cause : Cause) (retain : Bool) : Prop :=
  retain = true → 0 < job.forwarded ∧ job.forwarded < job.len ∧ ∀ staged, cause ≠ .staged staged

/-- The job waits for its next attempt; what it forwarded before does not count. -/
def Job.Waits (cfg : PoolConfig) (G : Nat → UInt8 → Prop) (job : Job) : Prop :=
  { job with forwarded := 0 }.Sound cfg G ∧ job.challenger = none

def Pc.Sound (cfg : PoolConfig) (G : Nat → UInt8 → Prop) : Pc → Prop
  | .claimed segment queued _ => Proper (segment :: queued)
  | .starting job => job.Waits cfg G
  | .running job => job.Sound cfg G ∧ job.staged = none
  | .advised job _ _ | .spare job _ | .cancelling job _ =>
    job.Sound cfg G ∧ job.staged = none ∧ job.challenger = none
  | .copying job => job.Sound cfg G ∧ job.challenger = none
  | .completing job | .flushing job | .recording job =>
    job.Sound cfg G ∧ job.challenger = none ∧ job.forwarded = job.len
  | .interrupted job outcome =>
    Proper job.leases ∧ job.forwarded ≤ job.len ∧ job.challenger = none ∧
      job.staged = none ∧ outcome.Sound cfg G job.segment
  | .settling job cause retain | .settleWait job cause retain =>
    job.Idle ∧ job.forwarded ≤ job.len ∧ cause.Sound cfg G job.segment ∧
      Retainable job cause retain
  | .settled job cause _ | .crediting job cause _ | .releasing job cause _ =>
    job.Idle ∧ cause.Sound cfg G job.segment
  | .releasingRest job _ | .stopping job _ | .reclaiming job _ _ => Proper job.leases
  | .renewing job none => job.Waits cfg G ∧ job.queued = []
  | .counting job _ | .renewing job (some _) | .vacating job _ | .sleeping job _
  | .reacquiring job => { job with observation := .new }.Waits cfg G ∧ job.queued = []
  | _ => True

structure Holding where
  leases : List Segment
  lineage : Option LineageId
  transit : Option Segment
  failing : Bool
  deriving DecidableEq, Repr

def Holding.empty : Holding := ⟨[], none, none, false⟩

def Job.holding (job : Job) : Holding := ⟨job.leases, some job.lineage, none, false⟩

def Pc.holding : Pc → Holding
  | .claimed segment queued _ => ⟨segment :: queued, none, none, false⟩
  | .starting job | .running job | .advised job _ _ | .spare job _ | .cancelling job _
  | .copying job | .completing job | .flushing job | .interrupted job _ | .settling job _ _
  | .settleWait job _ _ | .releasing job _ _ | .counting job _ | .renewing job _
  | .vacating job _ | .sleeping job _ | .reacquiring job => job.holding
  | .recording job => ⟨job.queued, some job.lineage, some job.segment, false⟩
  | .settled job _ kept | .crediting job _ kept => { job.holding with transit := kept }
  | .releasingRest job _ => ⟨job.queued, some job.lineage, none, false⟩
  | .stopping job _ | .reclaiming job _ _ => { job.holding with failing := true }
  | .closing _ (some _) | .exited (some _) => { Holding.empty with failing := true }
  | _ => .empty

/-- The scheduler has every lease of the worker as the worker has it. -/
def Backed (sched : SchedulerState) (segments : List Segment) : Prop :=
  ∀ segment ∈ segments, sched.leaseRange segment.leaseKey = some segment.span

/-- Bytes allowed at the position reached, as long as the body stays inside its range. -/
def HonestChunk (G : Nat → UInt8 → Prop) (job : Job) (data : List UInt8) : Prop :=
  ∀ stream, job.stream = some stream → stream.wire + data.length ≤ stream.expected →
    Spells G (stream.start + stream.wire) data

def HonestHedgeChunk (G : Nat → UInt8 → Prop) (job : Job) (data : List UInt8) : Prop :=
  ∀ challenger staging, job.challenger = some challenger → challenger.staging = some staging →
    staging.data.length + data.length ≤ job.len →
      Spells G (job.segment.start + staging.data.length) data

def HonestAction (G : Nat → UInt8 → Prop) : Pc → WorkerAction → Prop
  | .running job, .chunk data => HonestChunk G job data
  | .running job, .hedgeChunk data => HonestHedgeChunk G job data
  | _, _ => True

section Job

variable {cfg : PoolConfig} {G : Nat → UInt8 → Prop} {job : Job} {stream : RequestStream}

theorem RequestStream.Sound.of_job {other : Job} (h : stream.Sound cfg G job)
    (hposn : other.segment.start + other.forwarded = job.segment.start + job.forwarded)
    (hend : other.requestEnd = job.requestEnd) (hobs : other.observation = job.observation) :
    stream.Sound cfg G other :=
  ⟨h.accepted, h.position.trans hposn.symm, h.wire, h.expected, h.stop.trans hend.symm, h.bytes,
    hobs.trans h.observed⟩

theorem RequestStream.Sound.wire_of_empty (h : stream.Sound cfg G job)
    (hemp : stream.buffered = []) : stream.wire = stream.consumed := by
  simpa [hemp] using h.wire

variable (h : job.Sound cfg G)
include h

theorem Job.Sound.interrupted (hstgd : job.staged = none) (stream : Option RequestStream)
    (obs : Observation) {outcome : Outcome} (houtc : outcome.Sound cfg G job.segment) :
    (Pc.interrupted { job with
      stream := stream
      observation := obs
      challenger := none } outcome).Sound cfg G :=
  ⟨h.proper, h.forwarded_le, rfl, hstgd, houtc⟩

theorem Job.Sound.withChallenger {chal : Option Challenger}
    (hstaging : ∀ found staging, chal = some found → found.staging = some staging →
      Accepted cfg staging.response ∧ Spells G job.segment.start staging.data) :
    { job with challenger := chal }.Sound cfg G :=
  ⟨h.proper, h.forwarded_le, h.reach, fun stream hstr =>
    (h.stream stream hstr).of_job rfl rfl rfl, h.unread, hstaging, h.staged⟩

theorem Job.Sound.withoutChallenger : { job with challenger := none }.Sound cfg G :=
  h.withChallenger (by rintro _ _ ⟨⟩)

theorem Job.Sound.hedged (resv : Reservation) :
    { job with challenger := some ⟨resv, none⟩ }.Sound cfg G :=
  h.withChallenger (by rintro _ staging ⟨⟩ ⟨⟩)

theorem Job.Sound.staging {resv : Reservation} {staging : Staging}
    (hacc : Accepted cfg staging.response) (hbyt : Spells G job.segment.start staging.data) :
    { job with challenger := some ⟨resv, some staging⟩ }.Sound cfg G :=
  h.withChallenger (by rintro _ _ ⟨⟩ ⟨⟩; exact ⟨hacc, hbyt⟩)

theorem Job.Sound.accept (hstgd : job.staged = none) (hstr : job.stream = none)
    {resp : HttpResponse}
    (hacc : checkedResponse (.ofJob cfg job job.requestEnd) resp = .ok ()) : { job with
      initial := none
      stream := some ⟨resp, job.segment.start, job.requestEnd - job.segment.start, 0, 0,
        []⟩ }.Sound cfg G := by
  have hpos := h.proper.pos job.segment mem_cons_self
  have hr := h.reach job.segment mem_cons_self
  refine ⟨h.proper, h.forwarded_le, h.reach, ?_, by simp, h.challenger, by simp [hstgd]⟩
  rintro stream ⟨⟩
  refine ⟨⟨job, _, hacc⟩, ?_, rfl, Nat.zero_le _, ?_, .nil, (h.unread hstr hstgd).2⟩
  · simp [(h.unread hstr hstgd).1]
  · dsimp only
    omega

theorem Job.Sound.chunk (hstgd : job.staged = none)
    (hstr : job.stream = some stream) (hemp : stream.buffered = []) {data : List UInt8}
    (hfits : stream.wire + data.length ≤ stream.expected) (hhon : HonestChunk G job data) :
    { job with
      stream := some { stream with wire := stream.wire + data.length, buffered := data }
      observation.wire := job.observation.wire + data.length }.Sound cfg G := by
  have hsound := h.stream stream hstr
  have hwire := hsound.wire_of_empty hemp
  refine ⟨h.proper, h.forwarded_le, h.reach, ?_, by simp, h.challenger, by simp [hstgd]⟩
  rintro _ ⟨⟩
  refine ⟨hsound.accepted, hsound.position, by simp [hwire], hfits, hsound.stop, ?_,
    by simp [hsound.observed]⟩
  rw [← hwire]
  exact hhon stream hstr hfits

theorem Job.Sound.forwarded_of_eof (hstr : job.stream = some stream)
    (hemp : stream.buffered = []) (hdone : stream.wire = stream.expected) :
    job.forwarded = job.len := by
  have hsound := h.stream stream hstr
  have hwire := hsound.wire_of_empty hemp
  have hposn := hsound.position
  have hstop := hsound.stop
  have hr := h.reach job.segment mem_cons_self
  have hle := h.forwarded_le
  simp only [Job.len] at hle ⊢
  omega

theorem Job.Sound.forward (hstgd : job.staged = none) (hstr : job.stream = some stream)
    {len : Nat} (hbuf : len ≤ stream.buffered.length) (hlen : len ≤ job.len - job.forwarded) :
    { job with
      forwarded := job.forwarded + len
      stream := some { stream with
        consumed := stream.consumed + len
        buffered := stream.buffered.drop len }
      observation.enqueued := job.observation.enqueued + len }.Sound cfg G := by
  have hsound := h.stream stream hstr
  have hwire := hsound.wire
  have hposn := hsound.position
  have hle := h.forwarded_le
  refine ⟨h.proper, ?_, h.reach, ?_, by simp, h.challenger, by simp [hstgd]⟩
  · simp only [Job.len] at hle hlen ⊢
    omega
  · rintro _ ⟨⟩
    refine ⟨hsound.accepted, by dsimp only; omega, ?_, hsound.expected, hsound.stop, ?_,
      by simp [hsound.observed]⟩
    · simp only [length_drop]
      omega
    · rw [← Nat.add_assoc]
      exact hsound.bytes.drop _

theorem Job.Sound.copy {staged : Staged} (hstgd : job.staged = some staged)
    {len : Nat} (hlen : len ≤ job.len - job.forwarded) :
    { job with forwarded := job.forwarded + len }.Sound cfg G := by
  have hle := h.forwarded_le
  obtain ⟨-, -, hstr⟩ := h.staged staged hstgd
  refine ⟨h.proper, ?_, h.reach, by simp [hstr], by simp [hstgd], h.challenger, h.staged⟩
  simp only [Job.len] at hle hlen ⊢
  omega

theorem Job.Sound.alone (hstgd : job.staged = none) : { job with queued := [] }.Sound cfg G := by
  have hpos := h.proper.pos job.segment mem_cons_self
  have hr := h.reach job.segment mem_cons_self
  refine ⟨.singleton hpos, h.forwarded_le, ?_, fun stream hstr =>
    (h.stream stream hstr).of_job rfl rfl rfl, h.unread, h.challenger, by simp [hstgd]⟩
  simpa [Job.leases] using hr

theorem Job.Sound.proceed (hdone : job.forwarded = job.len) (hchal : job.challenger = none)
    (hstgd : job.staged = none) {queued : List Segment}
    (hqd : job.queued = seg :: queued) :
    { job with segment := seg, queued := queued }.Waits cfg G := by
  have hproper := h.proper
  simp only [Job.leases, hqd] at hproper
  refine ⟨⟨hproper.tail, Nat.zero_le _, ?_, ?_, fun hstr _ => ⟨rfl, (h.unread hstr hstgd).2⟩,
    by simp [hchal], by simp [hstgd]⟩, hchal⟩
  · intro other ho
    apply h.reach other
    simp only [Job.leases, hqd]
    exact mem_cons_of_mem _ ho
  · intro stream hstr
    have hfol := (isChain_cons_cons.mp hproper.batch).1.2
    have hpos := hproper.pos job.segment mem_cons_self
    refine (h.stream stream hstr).of_job ?_ rfl rfl
    simp only [Job.len] at hdone
    dsimp only
    omega

omit h

theorem Job.Idle.waits (h : job.Idle) {staged : Option Staged}
    (hstgd : ∀ winner, staged = some winner → winner.Sound cfg G job.segment) {obs : Observation}
    (hobs : staged = none → obs = .new) :
    { job with queued := [], staged := staged, observation := obs }.Waits cfg G := by
  have hpos := h.proper.pos job.segment mem_cons_self
  refine ⟨⟨.singleton hpos, Nat.zero_le _, ?_, by simp [h.stream],
    fun _ hnone => ⟨rfl, hobs hnone⟩, by simp [h.challenger], ?_⟩, h.challenger⟩
  · simp [Job.leases, h.requestEnd]
  · exact fun winner hwinner => ⟨hstgd winner hwinner, rfl, h.stream⟩

theorem Job.Idle.retain (h : job.Idle) {middle : Nat} (hlt : middle < job.segment.stop) :
    { job with segment := { job.segment with start := middle } }.Idle :=
  ⟨h.proper.replace rfl rfl hlt, h.stream, h.requestEnd, h.challenger, h.staged⟩

theorem Job.Waits.renew (h : job.Waits cfg G) (hqd : job.queued = [])
    (hspan : seg.span = job.segment.span) : { job with segment := seg }.Waits cfg G := by
  obtain ⟨hsound, hchal⟩ := h
  have hstart : seg.start = job.segment.start := congrArg Span.start hspan
  have hstop : seg.stop = job.segment.stop := congrArg Span.stop hspan
  have hpos := hsound.proper.pos job.segment mem_cons_self
  have hr := hsound.reach job.segment mem_cons_self
  refine ⟨⟨?_, Nat.zero_le _, ?_, ?_, hsound.unread, by simp [hchal], ?_⟩, hchal⟩
  · simp only [Job.leases, hqd]
    exact .singleton (by omega)
  · simpa [Job.leases, hqd, hstop] using hr
  · intro stream hstr
    exact (hsound.stream stream hstr).of_job (congrArg (· + 0) hstart) rfl rfl
  · intro winner hwinner
    obtain ⟨hwinner, -, hstr⟩ := hsound.staged winner hwinner
    refine ⟨⟨hwinner.accepted, ?_, ?_⟩, hqd, hstr⟩
    · simpa [hstart, hstop] using hwinner.length
    · simpa [hstart] using hwinner.bytes

end Job

end Bytehaul.Session
