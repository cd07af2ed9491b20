import ConcurrentQueues.Ex1.Threads
import ConcurrentQueues.Ex2.Queue
import ConcurrentQueues.Ex4.Queue
import ConcurrentQueues.Ex5.Queue

/-!
# Versions — the queue that `bench.h` includes for each `VERSION`

Version 1 is meant for one thread: the others are safe under every interleaving of their steps,
while the calls of Ex1 must not overlap, so that each of them is one step here.
-/

namespace ConcurrentQueues

def version (n : Nat) : Nat → Queue n
  | 2 => Ex2.queue n
  | 4 => Ex4.queue n
  | 5 => Ex5.queue n
  -- the default
  | _ => Ex1.queue n

/-- `BENCH_VERSIONS`. -/
def benchVersions : List Nat := [1, 2, 4, 5]

/-- "Version 1 only supports a single thread." -/
def Supports (v numThreads : Nat) : Prop := v ∈ benchVersions ∧ (v = 1 → numThreads = 1)

instance (v numThreads : Nat) : Decidable (Supports v numThreads) :=
  inferInstanceAs (Decidable (_ ∧ _))

/-- Only the tail of Ex5 may lag behind between calls. -/
theorem exists_correct (n : Nat) (v : Nat) :
    ∃ C : (version n v).Correct, C.lag = if v = 5 then 1 else 0 := by
  by_cases h₂ : v = 2
  · subst h₂
    exact ⟨Ex2.correct n, rfl⟩
  by_cases h₄ : v = 4
  · subst h₄
    exact ⟨Ex4.correct n, rfl⟩
  by_cases h₅ : v = 5
  · subst h₅
    exact ⟨Ex5.correct n, rfl⟩
  · have hv : version n v = Ex1.queue n := by
      unfold version
      split <;> simp_all
    rw [hv, if_neg h₅]
    exact ⟨Ex1.correct n, rfl⟩

theorem version_correct (n : Nat) (v : Nat) : Nonempty (version n v).Correct :=
  let ⟨C, _⟩ := exists_correct n v
  ⟨C⟩

end ConcurrentQueues
