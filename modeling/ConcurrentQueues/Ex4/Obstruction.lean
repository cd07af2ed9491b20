import ConcurrentQueues.Ex2.Queue
import ConcurrentQueues.Ex4.Queue

/-!
# Obstruction — what a stalled thread blocks in Ex2 and Ex4

A thread that stops while it holds a lock stops the calls that need the lock.  In Ex2 these are all
calls.  In Ex4 an `enq` needs `enq_lock` only, and a `deq` needs `deq_lock` and, if it takes the last
element, `enq_lock` to repair `tail`.
-/

namespace ConcurrentQueues

open Reasoning

variable {n : Nat}

/-! ## Ex2 -/

namespace Ex2

variable {t : Fin n} {c : Choice} {m m' : Mem n} {l l' : Local}

theorem wants_iff {k : Unit} : (locks n).wants l = some k ↔ l.pc.acquires = true := by
  cases h : l.pc.acquires <;> simp [locks, h]

/-- A call begins at `omp_set_lock` and does not come back to it. -/
theorem step_not_acquires (hpc : l.pc ≠ .idle) (h : step t c m l = .next m' l') :
    l'.pc.acquires = false := by
  cases hl : l.pc with
  | idle => exact absurd hl hpc
  | ret =>
      simp only [step, hl] at h
      cases h
      rfl
  | upcycle pc =>
      simp only [step, hl] at h
      cases pc <;> simp only [upcycleNode] at h <;> (try split at h) <;> cases h <;> rfl
  | enq pc =>
      simp only [step, hl] at h
      cases pc <;> simp only [enq] at h <;> (try split at h) <;> cases h <;> rfl
  | deq pc =>
      simp only [step, hl] at h
      cases pc <;> simp only [deq] at h <;> (try split at h) <;> (try split at h) <;> cases h <;> rfl
  | recycle pc =>
      simp only [step, hl] at h
      cases pc <;> simp only [recycleNode] at h <;> (try split at h) <;> cases h <;> rfl

theorem rank_pos (h : l.pc ≠ .idle) : 0 < l.pc.rank := by
  unfold Pc.rank
  split <;> first | exact absurd ‹_› h | decide

theorem rank_le (l : Local) : l.pc.rank ≤ 21 := by
  unfold Pc.rank
  split <;> decide

/-- A call needs the lock as long as it has not got it. -/
theorem foresees (n : Nat) :
    (locks n).Foresees fun _ l _ => l.pc.acquires = true where
  of_wants := fun hwant => wants_iff.mp hwant
  active := by
    intro m l k hneeds hpc
    rw [hpc] at hneeds
    cases hneeds
  waits := by
    intro t c m l k u m' l' hwant hheld hstep
    have hacq := wants_iff.mp hwant
    have hlock : m.lock = some u := hheld
    unfold Pc.acquires at hacq
    split at hacq
    next hpc => simp [step, hpc, enq, hlock] at hstep
    next hpc => simp [step, hpc, deq, hlock] at hstep
    next => cases hacq
  keep := by
    intro s t c m' l' k hI hact hstep hwant
    have hbefore : ¬ (s.th t).pc.acquires = true := fun h => hwant (wants_iff.mpr h)
    have hafter := step_not_acquires hact hstep
    simp [hbefore, hafter]

end Ex2

/-! ## Ex4 -/

namespace Ex4

variable {t : Fin n} {c : Choice} {m m' : Mem n} {l l' : Local} {g : Layout n}

/-- There is one element in the queue. -/
def Mem.Single (m : Mem n) : Prop :=
  ∃ p q, m.store.head = some p ∧ (m.store.heap p).next = some q ∧ (m.store.heap q).next = none

/-- The `deq` is going to find `Q->head->next == NULL` behind its update of `head`. -/
def WillRepair (m : Mem n) (l : Local) : Prop :=
  match l.pc with
  | .deq .lock | .deq .loadHead | .deq .loadNext => m.Single
  | .deq .loadData | .deq .writeOut | .deq .storeHead =>
      ∃ q, l.next = some q ∧ (m.store.heap q).next = none
  | .deq .reloadHead | .deq .reloadNext =>
      ∃ p, m.store.head = some p ∧ (m.store.heap p).next = none
  | .deq .repairLock => True
  | _ => False

/-- The locks a call is still going to acquire. -/
def Needs (m : Mem n) (l : Local) : Lock → Prop
  | .enq => l.pc = .enq .lock ∨ WillRepair m l
  | .deq => l.pc = .deq .lock

/-- Whether it is going to repair does not change on the way there. -/
theorem willRepair_deq {pc : DeqPc} (hS : Shared m g) (hO : Own t m g l) (hpc : l.pc = .deq pc)
    (hrepair : pc ≠ .repairLock) (h : deq t m l pc = .next m' l') :
    WillRepair m' l' ↔ WillRepair m l := by
  have hout := hO.here
  have hhead := hS.valid.head
  simp only [outline, hpc] at hout
  cases pc <;> simp only [deq] at h hout
  case repairLock => exact absurd rfl hrepair
  case lock =>
    split at h <;> cases h
    simp [WillRepair, Mem.Single, hpc]
  case loadNext =>
    simp only [hout] at h
    split at h
    next a hnext =>
      cases h
      simp [WillRepair, Mem.Single, hpc, hhead, hnext]
    next hnext =>
      cases h
      simp [WillRepair, Mem.Single, hpc, hhead, hnext]
  case loadData =>
    simp only [hout.next] at h
    cases h
    simp [WillRepair, hpc, hout.next]
  case reloadNext =>
    simp only [hout.2] at h
    split at h
    next hnext =>
      cases h
      simp [WillRepair, hpc, hhead, hnext]
    next hnext =>
      cases h
      simp [WillRepair, hpc, hhead, hnext]
  case repairNext =>
    simp only [hout.2] at h
    split at h <;> cases h <;> simp [WillRepair, hpc]
  all_goals
    cases h
    simp [WillRepair, Mem.Single, hpc]

/-- The other steps of a call are behind the repair, or in an `enq`. -/
theorem not_willRepair (hidle : l.pc ≠ .idle) (hdeq : ∀ pc, l.pc ≠ .deq pc)
    (h : step t c m l = .next m' l') : ¬ WillRepair m l ∧ ¬ WillRepair m' l' := by
  cases hpc : l.pc with
  | idle => exact absurd hpc hidle
  | deq pc => exact absurd hpc (hdeq pc)
  | ret =>
      simp only [step, hpc] at h
      cases h
      simp [WillRepair, hpc]
  | upcylce pc =>
      simp only [step, hpc] at h
      cases pc <;> simp only [upcylceNode] at h <;> (try split at h) <;> cases h <;>
        simp [WillRepair, hpc]
  | enq pc =>
      simp only [step, hpc] at h
      cases pc <;> simp only [enq] at h <;> (try split at h) <;> cases h <;> simp [WillRepair, hpc]
  | recycle pc =>
      simp only [step, hpc] at h
      cases pc <;> simp only [recycleNode] at h <;> (try split at h) <;> cases h <;>
        simp [WillRepair, hpc]

/-- A call begins at its first `omp_set_lock` and does not come back to it. -/
theorem step_not_lock (hidle : l.pc ≠ .idle) (h : step t c m l = .next m' l') :
    l'.pc ≠ .enq .lock ∧ l'.pc ≠ .deq .lock := by
  cases hpc : l.pc with
  | idle => exact absurd hpc hidle
  | ret =>
      simp only [step, hpc] at h
      cases h
      simp
  | upcylce pc =>
      simp only [step, hpc] at h
      cases pc <;> simp only [upcylceNode] at h <;> (try split at h) <;> cases h <;> simp
  | enq pc =>
      simp only [step, hpc] at h
      cases pc <;> simp only [enq] at h <;> (try split at h) <;> cases h <;> simp
  | deq pc =>
      simp only [step, hpc] at h
      cases pc <;> simp only [deq] at h <;> (try split at h) <;> (try split at h) <;> cases h <;>
        simp
  | recycle pc =>
      simp only [step, hpc] at h
      cases pc <;> simp only [recycleNode] at h <;> (try split at h) <;> cases h <;> simp

theorem acquires_eq_enq (h : l.pc.acquires = some .enq) :
    l.pc = .enq .lock ∨ l.pc = .deq .repairLock := by
  unfold Pc.acquires at h
  split at h <;> simp_all

theorem acquires_eq_deq (h : l.pc.acquires = some .deq) : l.pc = .deq .lock := by
  unfold Pc.acquires at h
  split at h <;> simp_all

/-- What a call of Ex4 needs. -/
theorem foresees (n : Nat) : (locks n).Foresees Needs where
  of_wants := by
    intro m l k hwant
    cases k with
    | enq =>
        rcases acquires_eq_enq hwant with hpc | hpc
        · exact .inl hpc
        · exact .inr (by simp [WillRepair, hpc])
    | deq => exact acquires_eq_deq hwant
  active := by
    intro m l k hneeds hpc
    cases k <;> simp [Needs, WillRepair, hpc] at hneeds
  waits := by
    intro t c m l k u m' l' hwant hheld hstep
    cases k with
    | enq =>
        have hlock : m.enqLock = some u := hheld
        rcases acquires_eq_enq hwant with hpc | hpc
        · simp [step, hpc, enq, hlock] at hstep
        · simp [step, hpc, deq, hlock] at hstep
    | deq =>
        have hlock : m.deqLock = some u := hheld
        simp [step, acquires_eq_deq hwant, deq, hlock] at hstep
  keep := by
    rintro s t c m' l' k ⟨g, hI⟩ hact hstep hwant
    have hlock := step_not_lock hact hstep
    cases k with
    | deq =>
        have hbefore : (s.th t).pc ≠ .deq .lock := by
          intro hpc
          exact hwant (by simp [locks, hpc, Pc.acquires])
        simp [Needs, hlock.2, hbefore]
    | enq =>
        have hbefore : (s.th t).pc ≠ .enq .lock ∧ (s.th t).pc ≠ .deq .repairLock := by
          constructor <;> intro hpc <;> exact hwant (by simp [locks, hpc, Pc.acquires])
        simp only [Needs, hlock.1, hbefore.1, false_or]
        by_cases hdeq : ∃ pc, (s.th t).pc = .deq pc
        · obtain ⟨pc, hpc⟩ := hdeq
          have hrepair : pc ≠ .repairLock := fun he => hbefore.2 (by rw [hpc, he])
          simp only [step, hpc] at hstep
          exact willRepair_deq hI.shared (hI.own t) hpc hrepair hstep
        · have hnot := not_willRepair hact (fun pc hpc => hdeq ⟨pc, hpc⟩) hstep
          exact iff_of_false hnot.2 hnot.1

/-- Another thread holds a lock that the call of `t` needs. -/
def Blocked (t : Fin n) (s : State n) : Prop :=
  ∃ u, u ≠ t ∧
    ((s.mem.enqLock = some u ∧ ((s.th t).pc = .enq .lock ∨ WillRepair s.mem (s.th t))) ∨
      (s.mem.deqLock = some u ∧ (s.th t).pc = .deq .lock))

theorem heldUp_iff {s : State n} : (locks n).HeldUp Needs t s ↔ Blocked t s := by
  constructor
  · rintro ⟨k, u, hut, hheld, hneeds⟩
    cases k with
    | enq => exact ⟨u, hut, .inl ⟨hheld, hneeds⟩⟩
    | deq => exact ⟨u, hut, .inr ⟨hheld, hneeds⟩⟩
  · rintro ⟨u, hut, ⟨hheld, hneeds⟩ | ⟨hheld, hneeds⟩⟩
    · exact ⟨.enq, u, hut, hheld, hneeds⟩
    · exact ⟨.deq, u, hut, hheld, hneeds⟩

theorem rank_pos (h : l.pc ≠ .idle) : 0 < l.pc.rank := by
  unfold Pc.rank
  split <;> first | exact absurd ‹_› h | decide

theorem rank_le (l : Local) : l.pc.rank ≤ 20 := by
  unfold Pc.rank
  split <;> decide

/-- Who blocks whom. -/
theorem blocked_by {s : State n} (hI : Inv s g) (h : Blocked t s) :
    ∃ u, u ≠ t ∧
      if (s.th t).isEnq then (s.th u).pc.holdsEnq = true
      else (s.th u).pc.holdsDeq = true ∨
        ((s.th u).pc.holdsEnq = true ∧ WillRepair s.mem (s.th t)) := by
  obtain ⟨u, hut, ⟨hheld, hneeds⟩ | ⟨hheld, hpc⟩⟩ := h
  · have hholds := (hI.own u).status.enqLock.mp hheld
    refine ⟨u, hut, ?_⟩
    split
    · exact hholds
    next hdeq =>
      rcases hneeds with hpc | hrepair
      · have hargs := (hI.own t).status.args
        simp only [Local.argsOk, hpc] at hargs
        exact absurd (by simp [Local.isEnq, hargs]) hdeq
      · exact .inr ⟨hholds, hrepair⟩
  · have hargs := (hI.own t).status.args
    simp only [Local.argsOk, hpc] at hargs
    refine ⟨u, hut, ?_⟩
    rw [if_neg (by simp [Local.isEnq, hargs])]
    exact .inl ((hI.own u).status.deqLock.mp hheld)

end Ex4

/-- **A call that runs alone past stalled threads.**  From every reachable state of Ex2 and of Ex4,
wherever the other threads have stopped and whatever `malloc` returns, a call returns within 21 and 20
steps of its own, unless another thread has stopped with a lock that the call needs; then it never
returns.  In Ex4 an `enq` is blocked by a holder of `enq_lock` only, and a `deq` by a holder of
`deq_lock`, or of `enq_lock` if it takes the last element. -/
theorem alone_returns_unless_heldUp (n : Nat) :
    (∀ sched s (t : Fin n), run Ex2.step (Ex2.init n) sched = some s → (s.th t).pc ≠ .idle →
      ((∀ u, u ≠ t → s.mem.lock = some u → (s.th t).pc.acquires = false) →
        ReturnsWithin Ex2.step (fun _ => True) (fun l => l.pc = .idle) t 21 s) ∧
      ∀ u, u ≠ t → s.mem.lock = some u → (s.th t).pc.acquires = true →
        ∀ es s', (∀ e ∈ es, e.1 = t) → run Ex2.step s es = some s' → (s'.th t).pc ≠ .idle) ∧
    ∀ sched s (t : Fin n), run Ex4.step (Ex4.init n) sched = some s → (s.th t).pc ≠ .idle →
      (¬ Ex4.Blocked t s →
        ReturnsWithin Ex4.step (fun _ => True) (fun l => l.pc = .idle) t 20 s) ∧
      (Ex4.Blocked t s → ∀ es s', (∀ e ∈ es, e.1 = t) → run Ex4.step s es = some s' →
        (s'.th t).pc ≠ .idle) ∧
      (Ex4.Blocked t s → ∃ u, u ≠ t ∧
        if (s.th t).isEnq then (s.th u).pc.holdsEnq = true
        else (s.th u).pc.holdsDeq = true ∨
          ((s.th u).pc.holdsEnq = true ∧ Ex4.WillRepair s.mem (s.th t))) := by
  constructor
  · intro sched s t h hcall
    obtain ⟨g, hI, -⟩ := Ex2.exists_ghost h
    refine ⟨fun hfree => ?_, fun u hut hheld hacq es s' halone hrun => ?_⟩
    · refine LockDiscipline.returnsWithin_of_not_heldUp (Ex2.foresees n) (fun _ => id)
        (fun l => l.pc.rank) (fun l => Ex2.rank_pos) (fun _ _ _ _ _ => Ex2.step_rank) ⟨g, hI⟩ hcall
        ?_ (Ex2.rank_le _)
      rintro ⟨_, u, hut, hheld, hneeds⟩
      rw [hfree u hut hheld] at hneeds
      cases hneeds
    · have hstays := LockDiscipline.heldUp_of_run (Ex2.foresees n) ⟨g, hI⟩
        ⟨(), u, hut, hheld, hacq⟩ hrun halone
      exact hstays.active (Ex2.foresees n)
  · intro sched s t h hcall
    obtain ⟨g, hI⟩ := Ex4.exists_history h
    refine ⟨fun hfree => ?_, fun hblocked es s' halone hrun => ?_, Ex4.blocked_by hI⟩
    · exact LockDiscipline.returnsWithin_of_not_heldUp (Ex4.foresees n) (fun _ => id)
        (fun l => l.pc.rank) (fun l => Ex4.rank_pos) (fun _ _ _ _ _ => Ex4.step_rank) ⟨g, hI⟩ hcall
        (fun hheld => hfree (Ex4.heldUp_iff.mp hheld)) (Ex4.rank_le _)
    · have hstays := LockDiscipline.heldUp_of_run (Ex4.foresees n) ⟨g, hI⟩
        (Ex4.heldUp_iff.mpr hblocked) hrun halone
      exact hstays.active (Ex4.foresees n)

/-- Thread 0 has stopped with the lock of `enq`.  In Ex4 thread 1 returns from a `deq` if the queue
is empty, not if it has one element; in Ex2 it returns in neither case. -/
theorem alone_returns_unless_heldUp_pair :
    (∃ s, run Ex4.step (Ex4.init 2)
        (Ex4.solo 0 (.enq 7) (some ⟨0, none⟩) 2 ++ Ex4.solo 1 (.deq 0) none 1) = some s ∧
      ReturnsWithin Ex4.step (fun _ => True) (fun l => l.pc = .idle) 1 20 s) ∧
    (∃ s, run Ex4.step (Ex4.init 2)
        (Ex4.solo 0 (.enq 7) (some ⟨0, none⟩) 13 ++ Ex4.solo 1 (.deq 0) none 1) = some s ∧
      ∀ es s', (∀ e ∈ es, e.1 = 1) → run Ex4.step s es = some s' → (s'.th 1).pc ≠ .idle) ∧
    ∃ s, run Ex2.step (Ex2.init 2)
        (Ex2.solo 0 (.enq 7) (some ⟨0, none⟩) 2 ++ Ex2.solo 1 (.deq 0) none 1) = some s ∧
      ∀ es s', (∀ e ∈ es, e.1 = 1) → run Ex2.step s es = some s' → (s'.th 1).pc ≠ .idle := by
  refine ⟨?_, ?_, ?_⟩
  · obtain ⟨s, hs⟩ : ∃ s, run Ex4.step (Ex4.init 2)
        (Ex4.solo 0 (.enq 7) (some ⟨0, none⟩) 2 ++ Ex4.solo 1 (.deq 0) none 1) = some s := ⟨_, rfl⟩
    have hpc : (s.th 1).pc = .deq .lock := run_observe hs (fun s => (s.th 1).pc) rfl
    have hfree : s.mem.deqLock = none := run_observe hs (fun s => s.mem.deqLock) rfl
    have hhead : s.mem.store.head = some 0 := run_observe hs (fun s => s.mem.store.head) rfl
    have hnext : (s.mem.store.heap 0).next = none :=
      run_observe hs (fun s => (s.mem.store.heap 0).next) rfl
    have hblocked : ¬ Ex4.Blocked 1 s := by
      simp [Ex4.Blocked, Ex4.WillRepair, Ex4.Mem.Single, hpc, hfree, hhead, hnext]
    exact ⟨s, hs, ((alone_returns_unless_heldUp 2).2 _ s 1 hs (by simp [hpc])).1 hblocked⟩
  · obtain ⟨s, hs⟩ : ∃ s, run Ex4.step (Ex4.init 2)
        (Ex4.solo 0 (.enq 7) (some ⟨0, none⟩) 13 ++ Ex4.solo 1 (.deq 0) none 1) = some s := ⟨_, rfl⟩
    have hpc : (s.th 1).pc = .deq .lock := run_observe hs (fun s => (s.th 1).pc) rfl
    have hheld : s.mem.enqLock = some 0 := run_observe hs (fun s => s.mem.enqLock) rfl
    have hhead : s.mem.store.head = some 0 := run_observe hs (fun s => s.mem.store.head) rfl
    have hnext : (s.mem.store.heap 0).next = some 1 :=
      run_observe hs (fun s => (s.mem.store.heap 0).next) rfl
    have hlast : (s.mem.store.heap 1).next = none :=
      run_observe hs (fun s => (s.mem.store.heap 1).next) rfl
    have hblocked : Ex4.Blocked 1 s := by
      refine ⟨0, by decide, .inl ⟨hheld, .inr ?_⟩⟩
      simp [Ex4.WillRepair, Ex4.Mem.Single, hpc, hhead, hnext, hlast]
    exact ⟨s, hs, ((alone_returns_unless_heldUp 2).2 _ s 1 hs (by simp [hpc])).2.1 hblocked⟩
  · obtain ⟨s, hs⟩ : ∃ s, run Ex2.step (Ex2.init 2)
        (Ex2.solo 0 (.enq 7) (some ⟨0, none⟩) 2 ++ Ex2.solo 1 (.deq 0) none 1) = some s := ⟨_, rfl⟩
    have hpc : (s.th 1).pc = .deq .lock := run_observe hs (fun s => (s.th 1).pc) rfl
    have hheld : s.mem.lock = some 0 := run_observe hs (fun s => s.mem.lock) rfl
    exact ⟨s, hs, ((alone_returns_unless_heldUp 2).1 _ s 1 hs (by simp [hpc])).2 0 (by decide) hheld
      (by simp [hpc, Ex2.Pc.acquires])⟩

end ConcurrentQueues
