import Bytehaul.Session.Multi.Shifts

/-!
# Integrity of a multi-connection transfer

The file holds the object wherever a piece is complete, unless the device refuses a block
whose write had been acknowledged.
-/

namespace Bytehaul.Session

open Foundation Foundation.DiskFile Storage Scheduler List PieceMap

/-- A piece map, and a file that holds the pieces the map has complete. -/
structure Launch (cfg : PoolConfig) (G : Nat → UInt8 → Prop) (pieceMap : PieceMap)
    (file : DiskFile) : Prop where
  valid : pieceMap.Valid
  total : pieceMap.totalSize = cfg.total
  bounded : file.content.length ≤ cfg.total
  present : ∀ i, pieceMap.bit i = true → ∀ b ∈ pieceMap.pieceRange i, file.Good G b

namespace Pool

variable {n : Nat} {cfg : PoolConfig} {G : Nat → UInt8 → Prop} {pool next : Pool n}
  {pieceMap : PieceMap} {file : DiskFile} {object : List UInt8}

theorem Sane.exclusive (h : pool.Sane cfg G) : pool.pipe.Exclusive where
  backed w lease hl :=
    h.kept.owned.backed w lease ((Pc.stage_leases_sublist _).subset hl)
  distinct w := (h.kept.owned.distinct w).sublist ((Pc.stage_leases_sublist _).map _)
  apart w other hne first hfst second hsnd :=
    h.kept.owned.apart w other hne first ((Pc.stage_leases_sublist _).subset hfst) second
      ((Pc.stage_leases_sublist _).subset hsnd)

theorem Sane.lease_lt (h : pool.Sane cfg G) (htot : pool.sched.pieceMap.totalSize = cfg.total)
    {key : LeaseKey} {span : Span} {b : Nat} (hheld : pool.sched.leaseRange key = some span)
    (hb : b ∈ span) : b < cfg.total := by
  obtain ⟨hlt, -, -, -, hin⟩ := h.conserved.leaseRange_spec hheld
  rw [← htot]
  exact ((h.conserved.map.mem_pieceRange_iff hlt b).mp (hin b hb)).1

/-- The invariant of the whole pool, as far as bytes are concerned. -/
structure Whole (cfg : PoolConfig) (G : Nat → UInt8 → Prop) (pool : Pool n) : Prop where
  sane : pool.Sane cfg G
  flows : pool.pipe.Flows G cfg.total
  total : pool.sched.pieceMap.totalSize = cfg.total
  synced : pool.writerStatus = .finished → pool.writer.file.Delivered

theorem Whole.step {act : Action n} (h : pool.Whole cfg G) (hhon : Honest G pool act)
    (hstep : Pool.step cfg pool act = some next) : next.Whole cfg G := by
  have hgrows := (h.sane.advances hstep).grows
  have hsize : next.sched.pieceMap.totalSize = pool.sched.pieceMap.totalSize := hgrows.totalSize
  have hshift := step_shift h.sane hstep
  refine ⟨h.sane.step hhon hstep, ?_, hsize.trans h.total, hshift.synced h.synced⟩
  exact hshift.flows h.sane.exclusive
    (fun _ _ _ hheld hb => h.sane.lease_lt h.total hheld hb) h.flows

theorem Whole.reach {start : Pool n} (h : start.Whole cfg G)
    (hr : Reaches (Pool.step cfg) (Honest G) start pool) : pool.Whole cfg G :=
  hr.invariant h fun _ _ _ hwh hhon hstep => hwh.step hhon hstep

private theorem flows_start (h : Launch cfg G pieceMap file) {watermark : Nat}
    {probe : Option (HttpResponse × Nat)} {files : ControlFiles} :
    (Pool.start pieceMap file watermark probe files : Pool n).pipe.Flows G cfg.total where
  written b hb := by
    obtain ⟨span, hspan, hb⟩ := hits_pos_iff.mp hb
    obtain ⟨i, hi, rfl⟩ := mem_map.mp hspan
    exact h.present i (mem_filter.mp hi).2 b hb
  bounded := h.bounded
  delivered _ := trivial
  leased _ := .new file watermark
  flow _ _ := by
    refine ⟨rfl, ?_, ?_⟩
    · rintro _ ⟨⟩
    · rintro _ ⟨⟩

theorem whole_start (h : Launch cfg G pieceMap file) (watermark : Nat)
    (probe : Option (HttpResponse × Nat)) (files : ControlFiles) :
    (Pool.start pieceMap file watermark probe files : Pool n).Whole cfg G :=
  ⟨.start h.valid file watermark probe files, flows_start h, h.total, by rintro ⟨⟩⟩

theorem Whole.good (h : pool.Whole cfg G) {i : Nat} (hbit : pool.sched.pieceMap.bit i = true)
    {b : Nat} (hb : b ∈ pool.sched.pieceMap.pieceRange i) : pool.writer.file.image.Good G b := by
  have hcons := h.sane.conserved
  have hlt := hcons.map.lt_count_of_bit hbit
  apply h.flows.written
  have hacked := (History.bit_iff_acked hcons hlt).mp hbit b hb
  change 0 < hits pool.history.acked b
  omega

instance neZeroOne : NeZero 1 := ⟨Nat.one_ne_zero⟩

instance neZeroTwo : NeZero 2 := ⟨Nat.succ_ne_zero 1⟩

def smallConfig (total : Nat) (baseline : ResponseMeta) : PoolConfig where
  url := "https://host/object"
  total := total
  baseline := baseline
  headerNames := []
  retry := ⟨2, 1, 1, none⟩
  slowTransferMode := .adaptive
  rateLimited := false
  minSegmentSize := 1
  requestBatchSize := 1
  rangeSchedulingMode := .fixed
  dynamicMinSplitSize := 1
  dynamicMaxRequestSize := 1
  logDebug := false
  logTrace := false
  channelBuffer := 8
  maxChunk := 8
  autosaveSyncEvery := 1
  instantLimit := 1000000

def partialContent (start stop total : Nat) : HttpResponse where
  status := 206
  retryAfter := none
  metadata := ⟨some (stop - start), some start, some (stop - 1), some total, none, none, none⟩
  framedLength := some (stop - start)
  transferEncoding := false

def emptyFile : DiskFile := ⟨[], 0, fun _ => false, fun _ => false, none, none⟩

def leased (pool : Pool n) (w : Fin n) : List Span :=
  (pool.workers w).pc.holding.leases.map Segment.span

/-- What a worker holds is not free, and apart from what any other worker holds. -/
theorem workers_hold_disjoint_ranges (hmap : pieceMap.Valid) (file : DiskFile) (watermark : Nat)
    (probe : Option (HttpResponse × Nat)) (files : ControlFiles)
    (hreach : Reachable cfg (Pool.start pieceMap file watermark probe files) pool) :
    ∀ w, ∀ first ∈ pool.leased w, (∀ b ∈ first, b ∉ pool.sched.custody.missing) ∧
      ∀ other ≠ w, ∀ second ∈ pool.leased other, first.Apart second := by
  intro w _ hmem
  obtain ⟨first, hfst, rfl⟩ := mem_map.mp hmem
  have h := Reachable.sane (Sane.start hmap file watermark probe files) hreach
  have hsound := h.conserved.custody_sound
  have howned := h.kept.owned
  have hheld := howned.backed w first hfst
  refine ⟨fun b => hsound.free _ _ b hheld, fun other hne _ hmem => ?_⟩
  obtain ⟨second, hsnd, rfl⟩ := mem_map.mp hmem
  exact hsound.apart _ _ _ _ (howned.apart w other hne first hfst second hsnd) hheld
    (howned.backed other second hsnd)

theorem two_workers_hold_two_bytes : ∃ pool : Pool 2, pool.leased 0 = [⟨0, 1⟩] ∧
    ∀ second ∈ pool.leased 1, Span.Apart ⟨0, 1⟩ second := by
  have hrun : (runLabels (step (smallConfig 2 (partialContent 0 1 2).metadata)) (fun _ _ => true)
      (Pool.start (new 2 1) emptyFile 16 none ⟨none, none⟩ : Pool 2) [.worker 0 .advance,
        .worker 0 (.inspect 0), .worker 1 .advance, .worker 1 (.inspect 1)]).map
      (fun pool => (pool.leased 0, pool.leased 1)) = some ([⟨0, 1⟩], [⟨1, 2⟩]) := by decide
  obtain ⟨pool, hr, hview⟩ := Reaches.exists_of_run hrun
  obtain ⟨hfst, -⟩ := Prod.mk.inj hview
  exact ⟨pool, hfst, (workers_hold_disjoint_ranges (new_valid (by decide)) emptyFile 16 none
    ⟨none, none⟩ hr 0 _ (by simp [hfst])).2 1 (by decide)⟩

end Pool

end Bytehaul.Session
