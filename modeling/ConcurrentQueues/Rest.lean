import ConcurrentQueues.Ex4.Obstruction

/-!
# Rest — the versions with locks come to rest

When no new calls begin, no schedule can keep the open calls of Ex2 and Ex4 from their end.
-/

namespace ConcurrentQueues

open Reasoning

/-- **The open calls of the lock-based queues end under every schedule.**  From every reachable
state of Ex2 and of Ex4, whatever `malloc` returns: when no new calls begin, the `n` threads take at
most `21 * n` and `20 * n` more steps, and they cannot be stuck before all calls have returned. -/
theorem lockBasedQueues_terminate (n : Nat) :
    (∀ sched s, run Ex2.step (Ex2.init n) sched = some s →
      Terminates Ex2.step (fun _ => True) (fun l => l.pc ≠ .idle) (n * 21) s) ∧
    ∀ sched s, run Ex4.step (Ex4.init n) sched = some s →
      Terminates Ex4.step (fun _ => True) (fun l => l.pc ≠ .idle) (n * 20) s := by
  constructor
  · intro sched s h
    obtain ⟨g, hI, -⟩ := Ex2.exists_ghost h
    have hend := LockDiscipline.terminates (Ex2.foresees n) (fun l => l.pc.rank)
      (fun _ _ _ _ _ _ => Ex2.step_rank) ⟨.deq 0, false, none⟩ Ex2.rank_le ⟨g, hI⟩
    rwa [Fintype.card_fin] at hend
  · intro sched s h
    have hend := LockDiscipline.terminates (Ex4.foresees n) (fun l => l.pc.rank)
      (fun _ _ _ _ _ _ => Ex4.step_rank) ⟨.deq 0, false, none⟩ Ex4.rank_le (Ex4.exists_history h)
    rwa [Fintype.card_fin] at hend

/-- Thread 0 is inside its `enq`, and thread 1 in front of its own. -/
theorem lockBasedQueues_terminate_pair :
    (∃ s, run Ex2.step (Ex2.init 2)
        (Ex2.solo 0 (.enq 7) (some ⟨0, none⟩) 4 ++ Ex2.solo 1 (.enq 8) none 1) = some s ∧
      Terminates Ex2.step (fun _ => True) (fun l => l.pc ≠ .idle) (2 * 21) s) ∧
    ∃ s, run Ex4.step (Ex4.init 2)
        (Ex4.solo 0 (.enq 7) (some ⟨0, none⟩) 4 ++ Ex4.solo 1 (.enq 8) none 1) = some s ∧
      Terminates Ex4.step (fun _ => True) (fun l => l.pc ≠ .idle) (2 * 20) s := by
  obtain ⟨hone, htwo⟩ := lockBasedQueues_terminate 2
  constructor
  · obtain ⟨s, hs⟩ : ∃ s, run Ex2.step (Ex2.init 2)
        (Ex2.solo 0 (.enq 7) (some ⟨0, none⟩) 4 ++ Ex2.solo 1 (.enq 8) none 1) = some s := ⟨_, rfl⟩
    exact ⟨s, hs, hone _ s hs⟩
  · obtain ⟨s, hs⟩ : ∃ s, run Ex4.step (Ex4.init 2)
        (Ex4.solo 0 (.enq 7) (some ⟨0, none⟩) 4 ++ Ex4.solo 1 (.enq 8) none 1) = some s := ⟨_, rfl⟩
    exact ⟨s, hs, htwo _ s hs⟩

end ConcurrentQueues
