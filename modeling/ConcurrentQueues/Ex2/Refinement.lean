import ConcurrentQueues.Ex2.Steps

/-! Ex2 refines Ex1: its calls, in the order of the lock, are a run of the sequential queue. -/

namespace ConcurrentQueues.Ex2

open Reasoning

variable {n : Nat} {t u : Fin n} {m : Mem n} {g : Ghost n} {l : Local} {c : Choice} {s : State n}
  {sched : List (Fin n × Choice)}

theorem finish_calls (g : Ghost n) : g.finish.calls = g.calls := by
  unfold Ghost.finish
  split <;> rfl

theorem finish_returned (g : Ghost n) : g.finish.returned = g.returned := by
  unfold Ghost.finish
  split <;> rfl

theorem serial_append (evs evs' : List (Fin n × Event)) :
    serial (evs ++ evs') = evs'.foldl serialStep (serial evs) :=
  List.foldl_append

theorem returned_append (t : Fin n) (evs evs' : List (Fin n × Event)) :
    returned t (evs ++ evs') = returned t evs ++ returned t evs' :=
  List.filterMap_append

/-- The ghost records the calls of the run. -/
theorem record_calls :
    (record t c m l g).calls = (event t c m l).toList.foldl serialStep g.calls := by
  unfold record event
  cases hpc : l.pc with
  | idle | ret => rfl
  | recycle pc => rfl
  | upcycle pc =>
      cases pc with
      | malloc => cases hraw : c.malloc <;> rfl
      | _ => rfl
  | enq pc =>
      cases pc with
      | data | next => cases l.newNode <;> rfl
      | link => cases l.tail <;> rfl
      | unlock | unlockFail => exact finish_calls g
      | _ => rfl
  | deq pc =>
      cases pc with
      | unlock | unlockEmpty => exact finish_calls g
      | _ => rfl

theorem record_returned :
    (record t c m l g).returned u = g.returned u ++ returned u (event t c m l).toList := by
  unfold record event
  cases hpc : l.pc with
  | idle => simp [returned]
  | ret =>
      by_cases hut : u = t
      · subst hut; simp [returned]
      · simp [returned, Function.update_of_ne hut, Ne.symm hut]
  | recycle pc => simp [returned]
  | upcycle pc =>
      cases pc with
      | malloc => cases hraw : c.malloc <;> simp [returned]
      | _ => simp [returned]
  | enq pc =>
      cases pc with
      | data | next => cases l.newNode <;> simp [returned]
      | link => cases l.tail <;> simp [returned]
      | unlock | unlockFail => simp [returned, finish_returned]
      | _ => simp [returned]
  | deq pc =>
      cases pc with
      | unlock | unlockEmpty => simp [returned, finish_returned]
      | _ => simp [returned]

/-- Every reachable state has a sequential run beside it, which executes the calls in the order of
the lock. -/
theorem exists_ghost (h : run step (init n) sched = some s) :
    ∃ g, Inv s g ∧ g.calls = serial (trace step event (init n) sched) ∧
      ∀ u, g.returned u = returned u (trace step event (init n) sched) := by
  refine run_induction (motive := fun es v => ∃ g, Inv v g ∧
    g.calls = serial (trace step event (init n) es) ∧
    ∀ u, g.returned u = returned u (trace step event (init n) es)) ?_ ?_ sched s h
  · exact ⟨Ghost.init n, inv_init n, rfl, fun _ => rfl⟩
  rintro es e v w hrun ⟨g, hI, hcalls, hreturned⟩ hf
  refine ⟨_, hI.fire hf, ?_, fun u => ?_⟩
  · rw [trace_snoc e hrun, serial_append, ← hcalls, record_calls]
  · rw [trace_snoc e hrun, returned_append, ← hreturned, record_returned]

/-- The sequential queue can execute the open call too. -/
theorem Inv.run_calls (hI : Inv s g) :
    ∃ q rs, Ex1.run (Ex1.State.init n) g.calls = some (q, rs) ∧ g.results <+: rs := by
  cases hlock : s.mem.lock with
  | none =>
      have hcalls := (hI.shared.unlocked hlock).1
      exact ⟨g.base, g.results, hcalls ▸ hI.shared.exec, List.prefix_rfl⟩
  -- the open call is the last of `calls`
  | some t =>
      have hst := (hI.own t).status
      obtain ⟨raw, hcalls⟩ := hst.call (hst.lock.mp hlock)
      obtain ⟨lay, hquiet⟩ := hI.shared.quiet
      obtain ⟨q, res, -, hcall, -⟩ := Ex1.call_ok hquiet ⟨t, (s.th t).op, (s.th t).countIns, raw⟩
      exact ⟨q, _, hcalls ▸ Ex1.run_snoc hI.shared.exec hcall, List.prefix_append _ _⟩

/-- Between calls the sequential state is the state. -/
theorem Inv.base_eq (hI : Inv s g) (hidle : ∀ t, (s.th t).pc = .idle) :
    g.calls = g.done ∧ g.base = state s := by
  -- a thread that held the lock would not be idle
  have hlock : s.mem.lock = none := by
    cases hlock : s.mem.lock with
    | none => rfl
    | some t =>
        have hin := (hI.own t).status.lock.mp hlock
        rw [hidle t] at hin
        cases hin
  obtain ⟨hcalls, hcur⟩ := hI.shared.unlocked hlock
  refine ⟨hcalls, ?_⟩
  -- idle threads owe nothing to their free lists
  have hlists : ∀ t, g.base.store.freeLists t = s.mem.store.freeLists t := by
    intro t
    have hst := (hI.own t).status
    have hhead := hst.freeHead
    have hsize := hst.freeSize
    rw [hidle t, hcur] at hhead hsize
    exact FreeList.ext hhead (by simpa [Pc.owesSize] using hsize)
  have hheap : ∀ p, g.base.store.heap p = s.mem.store.heap p := by
    intro p
    -- free nodes agree by `Status` of their thread, all others by `Shared`
    by_cases hfree : ∃ t, Ex1.Free g.base.store t p
    · obtain ⟨t, hp⟩ := hfree
      have hst := (hI.own t).status
      have hnext := hst.next p hp (by simp [hidle t, Pc.owesNext])
      rw [← hcur]
      exact (Node.ext (hst.data p hp) hnext).symm
    · rw [← hcur]
      exact (hI.shared.heap p (not_exists.mp hfree)).symm
  refine Ex1.State.ext (Store.ext (funext hheap) ?_ ?_ ?_ (funext hlists)) (funext fun t => ?_)
  · rw [← hcur]; exact hI.shared.brk.symm
  · rw [← hcur]; exact hI.shared.head.symm
  · rw [← hcur]; exact hI.shared.tail.symm
  · have hins := (hI.own t).status.insertions
    rw [hidle t] at hins
    simpa [Pc.owesCount, state] using hins

/-- **Refinement.**  The sequential queue can execute the calls of a run in the order in which they
acquired the lock; what every thread has been returned so far it returns there too, and between
calls the whole state is the same. -/
theorem globalLock_refines (h : run step (init n) sched = some s) :
    ∃ q rs, Ex1.run (Ex1.State.init n) (serial (trace step event (init n) sched)) =
        some (q, rs) ∧
      (∀ t, returned t (trace step event (init n) sched) <+: rs.filter (·.thread = t)) ∧
      ((∀ t, (s.th t).pc = .idle) → q = state s ∧
        ∀ t, returned t (trace step event (init n) sched) = rs.filter (·.thread = t)) := by
  obtain ⟨g, hI, hcalls, hreturned⟩ := exists_ghost h
  obtain ⟨q, rs, hrun, hpre⟩ := hI.run_calls
  refine ⟨q, rs, hcalls ▸ hrun, fun t => ?_, fun hidle => ?_⟩
  · have hresults := (hI.own t).status.results
    rw [← hreturned]
    exact (hresults ▸ List.prefix_append _ _).trans (hpre.filter _)
  · obtain ⟨hdone, hbase⟩ := hI.base_eq hidle
    -- no call is open, so all of them are done
    have hexec := hI.shared.exec
    rw [← hdone, hrun] at hexec
    obtain ⟨rfl, rfl⟩ := Prod.mk.inj (Option.some.inj hexec)
    refine ⟨hbase, fun t => ?_⟩
    have hresults := (hI.own t).status.results
    rw [hresults, hreturned]
    simp [Local.pending, hidle t]

/-- `overlap`, in which a call overtakes the recycling of the sentinel, ends in the sequential
state. -/
theorem globalLock_refines_overlap :
    ∃ s rs, run step (init 2) (overlap 0 1) = some s ∧
      Ex1.run (Ex1.State.init 2) (serial (trace step event (init 2) (overlap 0 1))) =
        some (state s, rs) ∧
      ∀ t, returned t (trace step event (init 2) (overlap 0 1)) = rs.filter (·.thread = t) := by
  obtain ⟨s, hs⟩ : ∃ s, run step (init 2) (overlap 0 1) = some s := ⟨_, rfl⟩
  have hidle := run_observe hs (fun s => ((s.th 0).pc, (s.th 1).pc)) rfl
  obtain ⟨h₀, h₁⟩ := Prod.mk.inj hidle
  obtain ⟨q, rs, hrun, -, hquiet⟩ := globalLock_refines hs
  obtain ⟨rfl, hreturned⟩ := hquiet (Fin.forall_fin_two.mpr ⟨h₀, h₁⟩)
  exact ⟨s, rs, hs, hrun, hreturned⟩

end ConcurrentQueues.Ex2
