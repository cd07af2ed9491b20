import ConcurrentQueues.Ex4.Steps
import ConcurrentQueues.Ex2.Locks

/-!
# Ex4 — the two locks

`deq` may wait for `enq_lock` while it holds `deq_lock`; nobody waits for `deq_lock` while holding
`enq_lock`.
-/

namespace ConcurrentQueues.Ex4

open Reasoning

variable {n : Nat} {t : Fin n} {m : Mem n} {g : Layout n} {l : Local} {s : State n}

inductive Lock where
  | enq
  | deq
  deriving DecidableEq, Repr

namespace Lock

def holder (m : Mem n) : Lock → Option (Fin n)
  | .enq => m.enqLock
  | .deq => m.deqLock

def heldAt (pc : Pc) : Lock → Bool
  | .enq => pc.holdsEnq
  | .deq => pc.holdsDeq

def rank : Lock → Nat
  | .enq => 0
  | .deq => 1

end Lock

namespace Pc

/-- The lock of the `omp_set_lock` a thread is at. -/
def acquires : Pc → Option Lock
  | .enq .lock | .deq .repairLock => some .enq
  | .deq .lock => some .deq
  | _ => none

/-- The lock of the `omp_unset_lock` a thread is at. -/
def releases : Pc → Option Lock
  | .enq .unlock | .enq .unlockFail | .deq .repairUnlock => some .enq
  | .deq .unlock | .deq .unlockEmpty => some .deq
  | _ => none

end Pc

/-! ## No step but an acquisition has to wait -/

theorem upcylceNode_enabled {pc : UpcylcePc} (hO : Own t m g l) (hpc : l.pc = .upcylce pc)
    (c : Choice) : ∃ m' l', upcylceNode t c m l pc = .next m' l' := by
  have hout := hO.here
  simp only [outline, hpc] at hout
  cases pc <;> simp only [upcylceNode] at hout ⊢
  case loadNext =>
    obtain ⟨p, rest, hn, -⟩ := hout
    simp only [hn]
    exact ⟨_, _, rfl⟩
  case loadHead | malloc => split <;> exact ⟨_, _, rfl⟩
  all_goals exact ⟨_, _, rfl⟩

theorem enq_enabled {pc : EnqPc} (hO : Own t m g l) (hpc : l.pc = .enq pc)
    (hlock : pc = .lock → m.enqLock = none) : ∃ m' l', enq t m l pc = .next m' l' := by
  have hout := hO.here
  simp only [outline, hpc] at hout
  cases pc <;> simp only [enq] at hout ⊢
  case lock =>
    rw [hlock rfl]
    exact ⟨_, _, rfl⟩
  case data =>
    obtain ⟨p, hn⟩ := Option.ne_none_iff_exists'.mp hout
    simp only [hn]
    exact ⟨_, _, rfl⟩
  case next =>
    obtain ⟨p, hn, -⟩ := hout
    simp only [hn]
    exact ⟨_, _, rfl⟩
  case link =>
    simp only [hout.2]
    exact ⟨_, _, rfl⟩
  all_goals exact ⟨_, _, rfl⟩

theorem deq_enabled {pc : DeqPc} (hO : Own t m g l) (hpc : l.pc = .deq pc)
    (hdeq : pc = .lock → m.deqLock = none) (henq : pc = .repairLock → m.enqLock = none) :
    ∃ m' l', deq t m l pc = .next m' l' := by
  have hout := hO.here
  simp only [outline, hpc] at hout
  cases pc <;> simp only [deq] at hout ⊢
  case lock =>
    rw [hdeq rfl]
    exact ⟨_, _, rfl⟩
  case repairLock =>
    rw [henq rfl]
    exact ⟨_, _, rfl⟩
  case loadNext =>
    simp only [hout]
    split <;> exact ⟨_, _, rfl⟩
  case loadData =>
    simp only [hout.next]
    exact ⟨_, _, rfl⟩
  case reloadNext | repairNext =>
    simp only [hout.2]
    split <;> exact ⟨_, _, rfl⟩
  all_goals exact ⟨_, _, rfl⟩

theorem recycleNode_enabled {pc : RecyclePc} (hO : Own t m g l) (hpc : l.pc = .recycle pc) :
    ∃ m' l', recycleNode t m l pc = .next m' l' := by
  have hout := hO.here
  simp only [outline, hpc] at hout
  cases pc <;> simp only [recycleNode] at hout ⊢
  case next =>
    simp only [hout.sentinel]
    exact ⟨_, _, rfl⟩
  all_goals exact ⟨_, _, rfl⟩

theorem step_enabled (hO : Own t m g l)
    (hlock : ∀ k, l.pc.acquires = some k → Lock.holder m k = none) (c : Choice) :
    ∃ m' l', step t c m l = .next m' l' := by
  cases hpc : l.pc with
  | idle | ret =>
      simp only [step, hpc]
      exact ⟨_, _, rfl⟩
  | upcylce pc =>
      simp only [step, hpc]
      exact upcylceNode_enabled hO hpc c
  | enq pc =>
      simp only [step, hpc]
      exact enq_enabled hO hpc fun h => hlock .enq (by rw [hpc, h]; rfl)
  | deq pc =>
      simp only [step, hpc]
      exact deq_enabled hO hpc (fun h => hlock .deq (by rw [hpc, h]; rfl))
        (fun h => hlock .enq (by rw [hpc, h]; rfl))
  | recycle pc =>
      simp only [step, hpc]
      exact recycleNode_enabled hO hpc

/-! ## The discipline -/

/-- How Ex4 uses its locks: `deq_lock` is never taken under `enq_lock`. -/
def locks (n : Nat) : LockDiscipline (step (n := n)) Lock fun s => ∃ g, Inv s g where
  holder := Lock.holder
  holds l k := k.heldAt l.pc = true
  wants l := l.pc.acquires
  releases l := l.pc.releases
  active l := l.pc ≠ .idle
  rank := Lock.rank
  inv := fun ⟨_, hI⟩ hf => ⟨_, hI.fire hf⟩
  holder_iff := by
    rintro s t k ⟨g, hI⟩
    cases k with
    | enq => exact (hI.own t).status.enqLock
    | deq => exact (hI.own t).status.deqLock
  active_of_holds := by
    intro l k hheld hpc
    rw [hpc] at hheld
    cases k <;> cases hheld
  releases_holds := by
    intro l k hrel
    unfold Pc.releases at hrel
    split at hrel <;> cases hrel <;> simp [Lock.heldAt, Pc.holdsEnq, Pc.holdsDeq, *]
  order := by
    intro l k k' hwant hheld
    -- only the repair of `tail` waits for a lock while it holds one
    unfold Pc.acquires at hwant
    split at hwant <;> cases hwant <;> cases k' <;>
      simp_all [Lock.heldAt, Lock.rank, Pc.holdsEnq, Pc.holdsDeq]
  enabled := by
    rintro s t ⟨g, hI⟩ hfree c
    exact step_enabled (hI.own t) hfree c

end ConcurrentQueues.Ex4

namespace ConcurrentQueues

open Reasoning

/-- **The lock-based queues neither deadlock nor leak a lock.**  In every reachable state of Ex2 and
of Ex4, whatever `malloc` has returned, each lock is held by the one thread between its
`omp_set_lock` and its `omp_unset_lock`, and some unfinished call can take a step. -/
theorem lockBasedQueues_locksSound (n : Nat) :
    (∀ sched s, run Ex2.step (Ex2.init n) sched = some s → (Ex2.locks n).Sound s) ∧
    ∀ sched s, run Ex4.step (Ex4.init n) sched = some s → (Ex4.locks n).Sound s := by
  refine ⟨fun sched s h => ?_, fun sched s h => ?_⟩
  · obtain ⟨g, hI, -⟩ := Ex2.exists_ghost h
    exact (Ex2.locks n).sound ⟨g, hI⟩
  · exact (Ex4.locks n).sound (Ex4.exists_history h)

/-- After the call of `outOfMemory` that gets no memory, thread 0 holds no lock of Ex4; in the
middle of `overlap` thread 1 holds the lock of Ex2. -/
theorem lockBasedQueues_locksSound_examples :
    (∃ s, run Ex2.step (Ex2.init 2) ((Ex2.overlap 0 1).take 15) = some s ∧
      s.mem.lock = some 1 ∧ ∀ u, (s.th u).pc.inside = true → u = 1) ∧
    ∃ s, run Ex4.step (Ex4.init 2) (Ex4.handover 0 1 ++ Ex4.outOfMemory 0) = some s ∧
      (s.th 0).code = 0 ∧
      ∃ t, (s.th t).pc ≠ .idle ∧ ∀ c, ∃ s', fire Ex4.step s (t, c) = some s' := by
  refine ⟨?_, ?_⟩
  · obtain ⟨s, hs⟩ : ∃ s, run Ex2.step (Ex2.init 2) ((Ex2.overlap 0 1).take 15) = some s :=
      ⟨_, rfl⟩
    have hlock : s.mem.lock = some 1 := run_observe hs (fun s => s.mem.lock) rfl
    have hsound := (lockBasedQueues_locksSound 2).1 _ s hs
    have hheld := (hsound.holder_iff () 1).mp hlock
    exact ⟨s, hs, hlock, fun u hu => hsound.exclusive () u 1 hu hheld⟩
  · obtain ⟨s, hs⟩ :
        ∃ s, run Ex4.step (Ex4.init 2) (Ex4.handover 0 1 ++ Ex4.outOfMemory 0) = some s := ⟨_, rfl⟩
    have hcode : (s.th 0).code = 0 := run_observe hs (fun s => (s.th 0).code) rfl
    have hpc : (s.th 0).pc = .ret := run_observe hs (fun s => (s.th 0).pc) rfl
    have hactive : (s.th 0).pc ≠ .idle := by
      rw [hpc]
      decide
    exact ⟨s, hs, hcode, ((lockBasedQueues_locksSound 2).2 _ s hs).live ⟨0, hactive⟩⟩

end ConcurrentQueues
