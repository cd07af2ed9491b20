import ConcurrentQueues.Ex2.Refinement
import ConcurrentQueues.Reasoning.Locks

/-! Ex2 — the one lock: who holds it, and why some call can always go on. -/

namespace ConcurrentQueues.Ex2

open Reasoning

variable {n : Nat} {t : Fin n} {m : Mem n} {g : Ghost n} {l : Local} {s : State n} {p : Addr}
  {q : Store n} {sched : List (Fin n × Choice)}

namespace Pc

/-- At `omp_set_lock`. -/
def acquires : Pc → Bool
  | .enq .lock | .deq .lock => true
  | _ => false

/-- At `omp_unset_lock`. -/
def releases : Pc → Bool
  | .enq .unlock | .enq .unlockFail | .deq .unlock | .deq .unlockEmpty => true
  | _ => false

end Pc

/-! ## No step but an acquisition has to wait -/

theorem Taken.tail_some (hS : Shared m g) (h : Taken t g l p q) : ∃ last, q.tail = some last := by
  obtain ⟨lay, hquiet⟩ := hS.quiet
  exact ⟨_, h.tail.trans hquiet.valid.tail⟩

theorem upcycleNode_enabled {pc : UpcyclePc} (hO : Own t m g l) (hpc : l.pc = .upcycle pc)
    (c : Choice) : ∃ m' l', upcycleNode t c m l pc = .next m' l' := by
  have hin := hO.inner
  simp only [inner, hpc] at hin
  cases pc <;> simp only [upcycleNode] at hin ⊢
  case loadNext =>
    obtain ⟨-, p, hn, -⟩ := hin
    simp only [hn]
    exact ⟨_, _, rfl⟩
  case loadHead | malloc => split <;> exact ⟨_, _, rfl⟩
  all_goals exact ⟨_, _, rfl⟩

theorem enq_enabled {pc : EnqPc} (hS : Shared m g) (hO : Own t m g l) (hpc : l.pc = .enq pc)
    (hlock : pc = .lock → m.lock = none) : ∃ m' l', enq t m l pc = .next m' l' := by
  have hin := hO.inner
  simp only [inner, hpc] at hin
  cases pc <;> simp only [enq] at hin ⊢
  case lock =>
    rw [hlock rfl]
    exact ⟨_, _, rfl⟩
  case data =>
    obtain ⟨p, htaken⟩ := hin
    simp only [htaken.1]
    exact ⟨_, _, rfl⟩
  case next =>
    obtain ⟨p, q, htaken, -⟩ := hin
    simp only [htaken.1]
    exact ⟨_, _, rfl⟩
  case link =>
    obtain ⟨p, q, htaken, -, htail⟩ := hin
    obtain ⟨last, hlast⟩ := htaken.tail_some hS
    simp only [htail, hlast]
    exact ⟨_, _, rfl⟩
  all_goals exact ⟨_, _, rfl⟩

theorem deq_enabled {pc : DeqPc} (hS : Shared m g) (hO : Own t m g l) (hpc : l.pc = .deq pc)
    (hlock : pc = .lock → m.lock = none) : ∃ m' l', deq t m l pc = .next m' l' := by
  have hin := hO.inner
  simp only [inner, hpc] at hin
  cases pc <;> simp only [deq] at hin ⊢
  case lock =>
    rw [hlock rfl]
    exact ⟨_, _, rfl⟩
  case testNext =>
    obtain ⟨lay, hquiet⟩ := hS.quiet
    simp only [hin.2, hquiet.valid.head]
    split <;> exact ⟨_, _, rfl⟩
  case loadFirst =>
    obtain ⟨-, p, a, hfront⟩ := hin
    simp only [hfront.2.2]
    exact ⟨_, _, rfl⟩
  case loadNext =>
    obtain ⟨-, p, a, hfront, -⟩ := hin
    simp only [hfront.2.2]
    exact ⟨_, _, rfl⟩
  case loadData =>
    obtain ⟨-, p, a, -, hnext⟩ := hin
    simp only [hnext]
    exact ⟨_, _, rfl⟩
  case testTail =>
    obtain ⟨p, a, hfront, -⟩ := hin
    simp only [hfront.2.2]
    split <;> exact ⟨_, _, rfl⟩
  all_goals exact ⟨_, _, rfl⟩

theorem recycleNode_enabled {pc : RecyclePc} (hO : Own t m g l) (hpc : l.pc = .recycle pc) :
    ∃ m' l', recycleNode t m l pc = .next m' l' := by
  cases pc <;> simp only [recycleNode]
  case storeNext =>
    -- the sentinel the dequeue has detached
    obtain ⟨p, hp, -⟩ := hO.status.debt (by rw [hpc]; rfl)
    simp only [hp]
    exact ⟨_, _, rfl⟩
  all_goals exact ⟨_, _, rfl⟩

theorem step_enabled (hS : Shared m g) (hO : Own t m g l)
    (hlock : l.pc.acquires = true → m.lock = none) (c : Choice) :
    ∃ m' l', step t c m l = .next m' l' := by
  cases hpc : l.pc with
  | idle | ret =>
      simp only [step, hpc]
      exact ⟨_, _, rfl⟩
  | upcycle pc =>
      simp only [step, hpc]
      exact upcycleNode_enabled hO hpc c
  | enq pc =>
      simp only [step, hpc]
      exact enq_enabled hS hO hpc fun h => hlock (by rw [hpc, h]; rfl)
  | deq pc =>
      simp only [step, hpc]
      exact deq_enabled hS hO hpc fun h => hlock (by rw [hpc, h]; rfl)
  | recycle pc =>
      simp only [step, hpc]
      exact recycleNode_enabled hO hpc

/-! ## The discipline -/

/-- How Ex2 uses `Q->lock`. -/
def locks (n : Nat) : LockDiscipline (step (n := n)) Unit fun s => ∃ g, Inv s g where
  holder m _ := m.lock
  holds l _ := l.pc.inside = true
  wants l := if l.pc.acquires then some () else none
  releases l := if l.pc.releases then some () else none
  active l := l.pc ≠ .idle
  rank _ := 0
  inv := fun ⟨_, hI⟩ hf => ⟨_, hI.fire hf⟩
  holder_iff := fun ⟨_, hI⟩ => (hI.own _).status.lock
  active_of_holds := by
    intro l _ hin hpc
    rw [hpc] at hin
    cases hin
  releases_holds := by
    intro l k hrel
    unfold Pc.releases at hrel
    unfold Pc.inside
    split at hrel <;> simp_all
  order := by
    intro l k k' hwant hin
    -- a thread at `omp_set_lock` is outside
    unfold Pc.acquires at hwant
    unfold Pc.inside at hin
    split at hwant <;> simp_all
  enabled := by
    rintro s t ⟨g, hI⟩ hfree c
    exact step_enabled hI.shared (hI.own t) (fun h => hfree () (by simp [h])) c

end ConcurrentQueues.Ex2
