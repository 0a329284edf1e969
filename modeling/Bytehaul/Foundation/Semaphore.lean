import Mathlib

/-!
# A fair counting semaphore

Requests for several permits at once are served in the order they were made.
-/

namespace Bytehaul.Foundation

structure Semaphore (ι : Type) where
  free : Nat
  queue : List (ι × Nat)

namespace Semaphore

variable {ι : Type}

def new (permits : Nat) : Semaphore ι := ⟨permits, []⟩

def request (semaphore : Semaphore ι) (who : ι) (permits : Nat) : Semaphore ι :=
  { semaphore with queue := semaphore.queue ++ [(who, permits)] }

def grant (semaphore : Semaphore ι) : Option (ι × Semaphore ι) :=
  match semaphore.queue with
  | [] => none
  | (who, permits) :: queue =>
    if permits ≤ semaphore.free then some (who, ⟨semaphore.free - permits, queue⟩) else none

def release (semaphore : Semaphore ι) (permits : Nat) : Semaphore ι :=
  { semaphore with free := semaphore.free + permits }

def withdraw [DecidableEq ι] (semaphore : Semaphore ι) (who : ι) : Semaphore ι :=
  { semaphore with queue := semaphore.queue.filter fun entry => entry.1 ≠ who }

theorem grant_eq_some {semaphore next : Semaphore ι} {who : ι}
    (h : semaphore.grant = some (who, next)) :
    ∃ permits, semaphore.queue = (who, permits) :: next.queue ∧
      semaphore.free = next.free + permits := by
  unfold grant at h
  split at h
  · cases h
  · rename_i first permits queue hq
    split at h
    · cases h
      exact ⟨permits, hq, by simp only; omega⟩
    · cases h

end Semaphore

end Bytehaul.Foundation
