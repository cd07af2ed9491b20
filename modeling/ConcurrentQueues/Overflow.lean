import ConcurrentQueues.Histories
import ConcurrentQueues.Versions

/-!
# Overflow — how long a free list can grow

Nothing bounds a free list: who enqueues `k` values and then dequeues them has `k` nodes on it.  Its
`size` field is an `int`, so from `2 ^ 31` nodes on it is not the length of the list.
-/

namespace ConcurrentQueues

open Reasoning

variable {n : Nat}

/-- `k` calls of `enq` and then `j` calls of `deq` by one thread. -/
def fillAndDrain (t : Fin n) (k j : Nat) : List (Request n) :=
  List.replicate k ⟨t, .enq 0, false⟩ ++ List.replicate j ⟨t, .deq 0, false⟩

/-! ## The replay -/

/-- The replay has returned `results` and holds `k` values. -/
structure Holds (x : Replay n) (results : List (Res Value)) (k : Nat) : Prop where
  results : x.results = results
  items : x.nodes.items = List.replicate k 0
  length : x.nodes.main.length = k + 1

theorem Holds.enq {x : Replay n} {results : List (Res Value)} {k : Nat} (h : Holds x results k)
    (t : Fin n) : Holds (x.perform ⟨t, .enq 0, false⟩) (results ++ [.enq 1]) (k + 1) := by
  have htake : (x.nodes.take t).2.items = x.nodes.items ∧
      (x.nodes.take t).2.main = x.nodes.main := by
    cases hfree : x.nodes.free t <;> simp [Nodes.take, hfree]
  constructor
  · simp [Replay.perform, Nodes.call, h.results]
  · simp [Replay.perform, Nodes.call, htake, h.items, List.replicate_succ']
  · simp [Replay.perform, Nodes.call, htake, h.length]

theorem Holds.deq {x : Replay n} {results : List (Res Value)} {k : Nat}
    (h : Holds x results (k + 1)) (t : Fin n) :
    Holds (x.perform ⟨t, .deq 0, false⟩) (results ++ [.deq 1 0]) k := by
  obtain ⟨p, main, hp⟩ : ∃ p main, x.nodes.main = p :: main :=
    List.exists_cons_of_length_eq_add_one h.length
  have hitems := h.items
  have hlength := h.length
  rw [List.replicate_succ] at hitems
  rw [hp, List.length_cons, Nat.add_right_cancel_iff] at hlength
  constructor
  · simp [Replay.perform, Nodes.call, hp, hitems, h.results]
  · simp [Replay.perform, Nodes.call, hp, hitems]
  · simpa [Replay.perform, Nodes.call, hp, hitems] using hlength

theorem holds_fill (t : Fin n) (k : Nat) :
    Holds (replay (fillAndDrain t k 0)) (List.replicate k (.enq 1)) k := by
  induction k with
  | zero => exact ⟨rfl, rfl, rfl⟩
  | succ k ih =>
      have hcalls : fillAndDrain t (k + 1) 0 = fillAndDrain t k 0 ++ [⟨t, .enq 0, false⟩] := by
        simp [fillAndDrain, List.replicate_succ']
      rw [hcalls, replay_concat, List.replicate_succ']
      exact ih.enq t

theorem holds_drain (t : Fin n) (k j : Nat) (hj : j ≤ k) :
    Holds (replay (fillAndDrain t k j))
      (List.replicate k (.enq 1) ++ List.replicate j (.deq 1 0)) (k - j) := by
  induction j with
  | zero => simpa using holds_fill t k
  | succ j ih =>
      have hcalls : fillAndDrain t k (j + 1) = fillAndDrain t k j ++ [⟨t, .deq 0, false⟩] := by
        simp [fillAndDrain, List.replicate_succ']
      have hbefore := ih (by omega)
      rw [show k - j = k - (j + 1) + 1 by omega] at hbefore
      rw [hcalls, replay_concat, List.replicate_succ', ← List.append_assoc]
      exact hbefore.deq t

/-! ## The run -/

/-- Every number of nodes can come to lie on a free list, and its `size` is this number modulo
`2 ^ 32`. -/
theorem Queue.Correct.exists_recycled {Q : Queue n} (C : Q.Correct) (t : Fin n) (k : Nat) :
    ∃ sched s, run Q.step Q.init sched = some s ∧ Q.Quiet s ∧
      returns t (marks Q.step Q.mark Q.init sched) =
        List.replicate k (.enq 1) ++ List.replicate k (.deq 1 0) ∧
      mallocs t (marks Q.step Q.mark Q.init sched) = k ∧
      ((Q.store s.mem).freeLists t).size = .ofNat k ∧
      ∃ ps, Chain (Q.store s.mem).next ((Q.store s.mem).freeLists t).head ps ∧ ps.length = k := by
  obtain ⟨hs, s, hserial, hreq⟩ := C.exists_serial (fillAndDrain t k k)
  obtain ⟨hresults, g, hbetween⟩ := C.serial_replay hserial
  obtain ⟨sched, hrun, hreturns⟩ := C.exists_run_of_serial hserial
  -- every call of the history is one of `t`
  have hall : hs.filter (fun e => e.1.thread = t) = hs := by
    refine List.filter_eq_self.mpr fun e he => ?_
    have hmem : e.1 ∈ fillAndDrain t k k := hreq ▸ List.mem_map_of_mem he
    rcases List.mem_append.mp hmem with hmem | hmem <;>
      simp [List.eq_of_mem_replicate hmem]
  rw [hreq, (holds_drain t k k le_rfl).results] at hresults
  have hreturned := hreturns t
  rw [hall, hresults] at hreturned
  obtain ⟨g', hI, haccounts⟩ := C.exists_accounts hrun
  have hstock := haccounts t
  -- the stock of `t` is what is left of a walk `k` steps up and `k` steps down
  have hwalk : walk (List.replicate k (.enq 1) ++ List.replicate k (.deq 1 0)) =
      List.replicate k .up ++ List.replicate k .down := by
    simp [walk, dir]
  rw [Accounts, (C.idle_iff _).mp (hbetween.quiet t), hreturned, hwalk, Stock.after_up_down]
    at hstock
  have hlen := congrArg Stock.left hstock
  refine ⟨sched, s, hrun, hbetween.quiet, hreturned, congrArg Stock.obtained hstock, ?_,
    _, (C.carries hI hbetween.quiet).free t, hlen⟩
  rw [C.size hI (hbetween.quiet t)]
  exact congrArg Int32.ofNat hlen

theorem toInt_two_pow : (Int32.ofNat (2 ^ 31)).toInt = -2 ^ 31 := by decide

/-- The only thread of Ex4 has `2 ^ 31` nodes on its free list, and `size` is negative. -/
theorem twoLockQueue_size_wraps :
    ∃ sched s, run Ex4.step (Ex4.init 1) sched = some s ∧
      returns 0 (marks Ex4.step Ex4.mark (Ex4.init 1) sched) =
        List.replicate (2 ^ 31) (.enq 1) ++ List.replicate (2 ^ 31) (.deq 1 0) ∧
      (∀ pc, (s.th 0).pc ≠ .upcylce pc) ∧ (∀ pc, (s.th 0).pc ≠ .recycle pc) ∧
      (s.mem.store.freeLists 0).size.toInt = -2 ^ 31 ∧
      ∃ ps, Chain s.mem.store.next (s.mem.store.freeLists 0).head ps ∧ ps.length = 2 ^ 31 := by
  obtain ⟨sched, s, hrun, hquiet, hreturns, -, hsize, hchain⟩ :=
    (Ex4.correct 1).exists_recycled 0 (2 ^ 31)
  have hidle : (s.th 0).pc = .idle := beq_iff_eq.mp (hquiet 0)
  refine ⟨sched, s, hrun, hreturns, by simp [hidle], by simp [hidle], ?_, hchain⟩
  exact (congrArg Int32.toInt hsize).trans toInt_two_pow

/-- The only thread of Ex5 has `2 ^ 31` nodes on its free list, and `size` is negative. -/
theorem lockFreeQueue_size_wraps :
    ∃ sched s, run Ex5.step (Ex5.init 1) sched = some s ∧
      returns 0 (marks Ex5.step Ex5.mark (Ex5.init 1) sched) =
        List.replicate (2 ^ 31) (.enq 1) ++ List.replicate (2 ^ 31) (.deq 1 0) ∧
      (∀ pc, (s.th 0).pc ≠ .upcylce pc) ∧ (∀ pc, (s.th 0).pc ≠ .recycle pc) ∧
      (s.mem.store.freeLists 0).size.toInt = -2 ^ 31 ∧
      ∃ ps, Chain s.mem.store.next (s.mem.store.freeLists 0).head ps ∧ ps.length = 2 ^ 31 := by
  obtain ⟨sched, s, hrun, hquiet, hreturns, -, hsize, hchain⟩ :=
    (Ex5.correct 1).exists_recycled 0 (2 ^ 31)
  have hidle : (s.th 0).pc = .idle := beq_iff_eq.mp (hquiet 0)
  refine ⟨sched, s, hrun, hreturns, by simp [hidle], by simp [hidle], ?_, hchain⟩
  exact (congrArg Int32.toInt hsize).trans toInt_two_pow

end ConcurrentQueues
