import Bytehaul.Session.Multi.Durability

/-!
# One object

Every response whose body is used has passed `checked_response`, which can compare only what
the baseline offers.
-/

namespace Bytehaul.Session

open Foundation Storage Scheduler PieceMap

namespace Pool

variable {n : Nat} {cfg : PoolConfig} {G : Nat → UInt8 → Prop} {pool next : Pool n} {w : Fin n}
  {job : Job}

def Contributes (cfg : PoolConfig) (pool next : Pool n) : Prop :=
  next.history.contributed = pool.history.contributed ∨ ∃ response, Accepted cfg response ∧
    next.history.contributed = pool.history.contributed ++ [response]

theorem dropChallenger_contributed (pool : Pool n) (w : Fin n) (job : Job) :
    (pool.dropChallenger w job).history.contributed = pool.history.contributed := by
  unfold dropChallenger
  split <;> rfl

theorem Turn.contributes {pc after : Pc} {act : WorkerAction} {base : Pool n}
    (hturn : Turn cfg pool w pc act base after) (hsound : pc.Sound cfg G) :
    Contributes cfg pool base := by
  cases hturn with
  | @forward job stream len hstr =>
    exact .inr ⟨stream.response, (hsound.1.stream stream hstr).accepted, rfl⟩
  | @copy job staged len hstgd =>
    exact .inr ⟨staged.response, (hsound.1.staged staged hstgd).1.accepted, rfl⟩
  | interrupt | boundary | eof | hedgeOverrun => exact .inl (dropChallenger_contributed pool w _)
  | @giveUp job at' resv state lin =>
    have hsame := dropChallenger_contributed (pool.reserved job state lin) w job
    exact .inl hsame
  | @dropHedge job act base hdef =>
    have hsame := dropChallenger_contributed pool w job
    rcases hdef with rfl | ⟨_, rfl⟩ <;> exact .inl hsame
  | defer hdef => rcases hdef with rfl | ⟨_, rfl⟩ <;> exact .inl rfl
  | settleFailed =>
    unfold charged
    split <;> exact .inl rfl
  | recover hrels hrecv hbase =>
    obtain ⟨⟨sched, recovery⟩, -, rfl⟩ := Option.map_eq_some_iff.mp hrecv
    rcases hbase with rfl | rfl <;> exact .inl rfl
  | _ => exact .inl rfl

private theorem step_contributes {act : Action n} (hsound : ∀ w, (pool.workers w).pc.Sound cfg G)
    (hstep : step cfg pool act = some next) : Contributes cfg pool next := by
  cases act with
  | worker w act =>
    simp only [step] at hstep
    split at hstep
    · cases hstep
    · obtain ⟨base, after, hturn, rfl⟩ := workerStep_turns hstep
      have hcontributes := hturn.contributes (hsound w)
      exact hcontributes
  | write =>
    simp only [step, Pool.write] at hstep
    (repeat' split at hstep)
    all_goals cases hstep
    · rcases pool.writer.reply _ _ with _ | ⟨party, reply⟩
      · exact .inl rfl
      · cases party <;> exact .inl rfl
    · exact .inl rfl
  | notify w | abort w =>
    simp only [step, notify, abort] at hstep
    split at hstep
    all_goals cases hstep
    exact .inl rfl
  | _ =>
    obtain ⟨saved, hhist⟩ := (step_aside rfl hstep).history
    exact .inl (by rw [hhist])

theorem Reachable.contributed {pieceMap : PieceMap} (hmap : pieceMap.Valid) {file : DiskFile}
    {watermark : Nat} {probe : Option (HttpResponse × Nat)} {files : ControlFiles}
    (hr : Reachable cfg (Pool.start pieceMap file watermark probe files) pool) :
    ∀ response ∈ pool.history.contributed, Accepted cfg response := by
  induction hr with
  | refl => exact fun response hresponse => by cases hresponse
  | step act hr _ hstep ih =>
    have hsane := Reachable.sane (Sane.start hmap file watermark probe files) hr
    rcases step_contributes hsane.sound hstep with hsame | ⟨latest, hacc, hmore⟩
    · rw [hsame]
      exact ih
    · intro response hresponse
      rw [hmore] at hresponse
      rcases List.mem_append.mp hresponse with hold | hnew
      · exact ih response hold
      · obtain rfl := List.mem_singleton.mp hnew
        exact hacc

end Pool

variable {cfg : PoolConfig} {response : HttpResponse}

namespace Pool

variable {n : Nat} {pool : Pool n}

end Pool

end Bytehaul.Session
