import Bytehaul.Foundation.Runs
import Bytehaul.Session.Multi.Moves
import Bytehaul.Session.Multi.Queue

/-!
# Every run of the pool

What one step keeps, every run keeps.
-/

namespace Bytehaul.Session

open Foundation Storage Scheduler

namespace Pool

variable {n : Nat} {cfg : PoolConfig} {G : Nat → UInt8 → Prop} {pool next : Pool n}
  {action : Action n}

/-- Bodies deliver allowed bytes; nothing else is asked of a step. -/
def Honest (G : Nat → UInt8 → Prop) (pool : Pool n) : Action n → Prop
  | .worker w action => HonestAction G (pool.workers w).pc action
  | _ => True

structure Sane (cfg : PoolConfig) (G : Nat → UInt8 → Prop) (pool : Pool n) : Prop where
  kept : pool.ledger.Kept
  sound : ∀ w, (pool.workers w).pc.Sound cfg G

theorem Sane.conserved (h : pool.Sane cfg G) : pool.sched.Conserved pool.history.acked :=
  h.kept.conserved

theorem Pc.notified_sound {pc : Pc} (h : pc.Sound cfg G) : (Pc.notified pc).Sound cfg G := by
  cases pc <;> exact h

theorem deliver_pc (mail : Option (Party n × WriterReply)) (w : Fin n) :
    ((pool.deliver mail).workers w).pc = (pool.workers w).pc := by
  rcases mail with _ | ⟨party, reply⟩
  · rfl
  cases party with
  | monitor => rfl
  | worker other =>
    by_cases ho : w = other
    · subst ho
      simp [deliver]
    · simp [deliver, ho]

theorem step_points {P : Pc → Prop} (hnotified : ∀ pc, P pc → P (Pc.notified pc))
    (hext : P (.exited (some .cancelled))) (hwork : ∀ w label, action = .worker w label →
      workerStep cfg pool w (pool.workers w).pc label = some next → P (next.workers w).pc)
    (h : ∀ w, P (pool.workers w).pc) (hstep : step cfg pool action = some next) (w : Fin n) :
    P (next.workers w).pc := by
  cases action with
  | worker actor label =>
    simp only [step] at hstep
    split at hstep
    · cases hstep
    by_cases hw : w = actor
    · subst hw
      exact hwork w label rfl hstep
    · rw [workerStep_frames hstep w hw]
      exact h w
  | notify actor =>
    simp only [step, notify] at hstep
    split at hstep
    · cases hstep
      exact hnotified _ (h w)
    · cases hstep
  | abort actor =>
    simp only [step, abort] at hstep
    split at hstep
    · cases hstep
    · cases hstep
      by_cases hw : w = actor
      · subst hw
        rw [owe_pc, put_pc]
        exact hext
      · simp only [owe_workers, put_workers, Function.update_of_ne hw]
        exact h w
  | write =>
    simp only [step, write] at hstep
    (repeat' split at hstep)
    all_goals cases hstep
    · rw [deliver_pc]
      exact h w
    · exact h w
  | _ =>
    rw [(step_aside rfl hstep).workers]
    exact h w

private theorem step_sound (hcons : pool.sched.Conserved pool.history.acked)
    (hback : ∀ w, Backed pool.sched (pool.workers w).pc.holding.leases)
    (hhon : Honest G pool action) (h : ∀ w, (pool.workers w).pc.Sound cfg G)
    (hstep : step cfg pool action = some next) (w : Fin n) : (next.workers w).pc.Sound cfg G := by
  refine step_points (P := Pc.Sound cfg G) (fun _ => Pc.notified_sound) trivial ?_ h hstep w
  rintro w label rfl hwork
  exact workerStep_sound hcons (hback w) hhon (h w) hwork

theorem Sane.advances (h : pool.Sane cfg G) (hstep : step cfg pool action = some next) :
    pool.ledger.Advances next.ledger :=
  (step_move h.kept.conserved h.kept.owned.backed h.sound hstep).advances h.kept

theorem Sane.step (h : pool.Sane cfg G) (hhon : Honest G pool action)
    (hstep : Pool.step cfg pool action = some next) : next.Sane cfg G where
  kept := (h.advances hstep).kept
  sound := step_sound h.kept.conserved h.kept.owned.backed hhon h.sound hstep

theorem Sane.start {pieceMap : PieceMap} (hmap : pieceMap.Valid) (file : DiskFile)
    (watermark : Nat) (probe : Option (HttpResponse × Nat)) (files : ControlFiles) :
    (Pool.start pieceMap file watermark probe files : Pool n).Sane cfg G where
  kept := ⟨History.start_conserved hmap, ⟨by simp [ledger, Pool.start, Worker.new, Pc.holding,
    Holding.empty, Backed], by simp [ledger, Pool.start, Worker.new, Pc.holding, Holding.empty],
    by simp [ledger, Pool.start, Worker.new, Pc.holding, Holding.empty]⟩, .nil⟩
  sound _ := trivial

theorem Sane.reach {start : Pool n} (h : start.Sane cfg G)
    (hr : Reaches (Pool.step cfg) (Honest G) start pool) : pool.Sane cfg G :=
  hr.invariant h fun _ _ _ hsane hhon hstep => hsane.step hhon hstep

theorem Sane.grows {start : Pool n} (h : start.Sane cfg G)
    (hr : Reaches (Pool.step cfg) (Honest G) start pool) :
    start.sched.pieceMap.Grows pool.sched.pieceMap := by
  have hboth : pool.Sane cfg G ∧ start.sched.pieceMap.Grows pool.sched.pieceMap := by
    apply hr.invariant
    · exact ⟨h, .refl _⟩
    rintro state action next ⟨hsane, hgrows⟩ hhon hstep
    exact ⟨hsane.step hhon hstep, hgrows.trans (hsane.advances hstep).grows⟩
  exact hboth.2

theorem honest_true (pool : Pool n) (action : Action n) : Honest (fun _ _ => True) pool action := by
  cases action with
  | worker w action =>
    simp only [Honest]
    unfold HonestAction
    split
    · exact fun _ _ _ _ _ _ => trivial
    · exact fun _ _ _ _ _ _ _ _ => trivial
    · trivial
  | _ => trivial

abbrev Reachable (cfg : PoolConfig) (start pool : Pool n) : Prop :=
  Reaches (step cfg) (fun _ _ => True) start pool

theorem Reachable.sane {start : Pool n} (h : start.Sane cfg fun _ _ => True)
    (hr : Reachable cfg start pool) : pool.Sane cfg fun _ _ => True :=
  h.reach (hr.mono fun pool action _ => honest_true pool action)

end Pool

end Bytehaul.Session
