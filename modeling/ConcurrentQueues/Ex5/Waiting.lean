import ConcurrentQueues.Ex5.Runs
import Mathlib.Logic.Relation

/-!
# Ex5 — the wait before reclamation

A thread waits with an even counter, and only for threads whose counter is odd.  So no thread that
is waited for waits itself, and the operation it is in can go on.
-/

namespace ConcurrentQueues.Ex5

open Reasoning Layout

variable {n : Nat} {t u : Fin n} {m : Mem n} {g : History n} {l : Local} {s : State n}

/-- `t` spins on the counter of `u`, which still has the value `t` captured. -/
structure WaitsFor (s : State n) (t u : Fin n) : Prop where
  spins : (s.th t).pc = .wait .spin
  scan : (s.th t).scan = u.val
  same : s.mem.ctr u = (s.th t).seen

/-- The next access writes through the `NULL` that `malloc` has returned. -/
def NullBlock (l : Local) : Prop :=
  (l.pc = .make .data ∧ l.n = none) ∨ (l.pc = .retire .node ∧ l.r = none)

theorem Inv.ctr_even (h : Inv s g) (hpc : (s.th t).pc.inBody = false) :
    isOdd (s.mem.ctr t) = false := by
  rw [h.shared.parity, (h.own t).status.body, hpc]

theorem WaitsFor.inBody (hw : WaitsFor s t u) (h : Inv s g) : (s.th u).pc.inBody = true := by
  have hout := (h.own t).here
  simp only [outline, hw.spins] at hout
  rw [← (h.own u).status.body, ← h.shared.parity, hw.same]
  exact hout.2.1

/-- Whoever is waited for does not wait. -/
theorem WaitsFor.not_waits {w : Fin n} (hw : WaitsFor s t u) (h : Inv s g) :
    ¬ WaitsFor s u w := by
  intro hw'
  have hbody := hw.inBody h
  rw [hw'.spins] at hbody
  cases hbody

theorem WaitsFor.acyclic (h : Inv s g) : ¬ Relation.TransGen (WaitsFor s) t t := by
  intro hcyc
  obtain ⟨u, hfirst, -⟩ := (Relation.TransGen.head'_iff).mp hcyc
  obtain ⟨w, -, hlast⟩ := (Relation.TransGen.tail'_iff).mp hcyc
  exact hlast.not_waits h hfirst

/-! ## Enabled steps -/

/-- A thread can always take its next step, unless `malloc` has failed it. -/
theorem step_enabled (hO : Own t m g l) (hnull : ¬ NullBlock l) (c : Choice) :
    ∃ m' l', step t c m l = .next m' l' := by
  have hout := hO.here
  unfold outline at hout
  unfold NullBlock at hnull
  cases hpc : l.pc with
  | idle | opBegin | ret =>
      simp only [step, hpc]
      exact ⟨_, _, rfl⟩
  | upcylce pc =>
      simp only [step, hpc] at hout ⊢
      cases pc <;> simp only [upcylceNode] at hout ⊢
      case loadHead => split <;> exact ⟨_, _, rfl⟩
      case loadNext =>
        obtain ⟨p, rest, hn, -⟩ := hout
        simp only [hn]
        exact ⟨_, _, rfl⟩
      all_goals exact ⟨_, _, rfl⟩
  | make pc =>
      simp only [step, hpc] at hout ⊢
      cases pc <;> simp only [makeNode] at hout ⊢
      case malloc => split <;> exact ⟨_, _, rfl⟩
      -- the pointer may be what `malloc` has returned
      case data =>
        split
        · exact ⟨_, _, rfl⟩
        · exact absurd (.inl ⟨hpc, ‹_›⟩) hnull
      case next =>
        obtain ⟨p, hn⟩ := Option.ne_none_iff_exists'.mp hout
        simp only [hn]
        exact ⟨_, _, rfl⟩
  | enq pc =>
      simp only [step, hpc] at hout ⊢
      cases pc <;> simp only [enq] at hout ⊢
      case data =>
        obtain ⟨p, hn⟩ := Option.ne_none_iff_exists'.mp hout
        simp only [hn]
        exact ⟨_, _, rfl⟩
      case next =>
        obtain ⟨p, hn, -⟩ := hout
        simp only [hn]
        exact ⟨_, _, rfl⟩
      case loadNext =>
        simp only [hout.2.eq]
        exact ⟨_, _, rfl⟩
      case link =>
        simp only [hout.2.eq]
        split <;> exact ⟨_, _, rfl⟩
      all_goals repeat' split
      all_goals exact ⟨_, _, rfl⟩
  | deq pc =>
      simp only [step, hpc] at hout ⊢
      cases pc <;> simp only [deq] at hout ⊢
      case loadNext =>
        simp only [hout.1.eq]
        exact ⟨_, _, rfl⟩
      case loadData =>
        simp only [hout.next]
        exact ⟨_, _, rfl⟩
      all_goals repeat' split
      all_goals exact ⟨_, _, rfl⟩
  | retire pc =>
      simp only [step, hpc] at hout ⊢
      cases pc <;> simp only [mmRetire] at hout ⊢
      case malloc => split <;> exact ⟨_, _, rfl⟩
      case node =>
        split
        · exact ⟨_, _, rfl⟩
        · exact absurd (.inr ⟨hpc, ‹_›⟩) hnull
      case next =>
        obtain ⟨-, -, r, hr, -⟩ := hout
        simp only [hr]
        exact ⟨_, _, rfl⟩
      all_goals exact ⟨_, _, rfl⟩
  | opEnd pc =>
      simp only [step, hpc]
      cases pc <;> simp only [mmOpEnd]
      case inc => exact ⟨_, _, rfl⟩
      case check => split <;> exact ⟨_, _, rfl⟩
  | wait pc =>
      simp only [step, hpc] at hout ⊢
      cases pc <;> simp only [mmWaitUntilUnreserved] at hout ⊢
      case load =>
        repeat' split
        all_goals exact ⟨_, _, rfl⟩
      -- looking at the counter again is a step as well
      case spin =>
        obtain ⟨-, -, hlt, -⟩ := hout
        simp only [hlt, dif_pos]
        split <;> exact ⟨_, _, rfl⟩
  | reclaim pc =>
      simp only [step, hpc] at hout ⊢
      cases pc <;> simp only [mmReclaimAll] at hout ⊢
      case loop => split <;> exact ⟨_, _, rfl⟩
      case free =>
        obtain ⟨r, hr⟩ := Option.ne_none_iff_exists'.mp hout.1
        simp only [hr]
        exact ⟨_, _, rfl⟩
      all_goals exact ⟨_, _, rfl⟩
  | recycle pc =>
      simp only [step, hpc] at hout ⊢
      cases pc <;> simp only [recycleNode] at hout ⊢
      -- the node to recycle is the one the dequeue has unlinked
      case next =>
        simp only [hout.2.2.2, hout.1.unlinked.first.eq]
        exact ⟨_, _, rfl⟩
      all_goals exact ⟨_, _, rfl⟩

/-- A step whose allocation succeeds does not lead to a write through `NULL`. -/
theorem step_not_nullBlock {m' : Mem n} {l' : Local} {c : Choice}
    (h : step t c m l = .next m' l') (hmalloc : c.malloc ≠ none) (hrec : c.mallocRec ≠ none) :
    ¬ NullBlock l' := by
  rintro (⟨hpc, hn⟩ | ⟨hpc, hr⟩)
  · have hpre : l.pc = .make .malloc := Pc.flow_make_data (hpc ▸ step_flow h)
    simp only [step, hpre, makeNode] at h
    split at h
    · cases h
      cases hn
    · exact hmalloc ‹_›
  · have hpre : l.pc = .retire .malloc := Pc.flow_retire_node (hpc ▸ step_flow h)
    simp only [step, hpre, mmRetire] at h
    split at h
    · cases h
      cases hr
    · exact hrec ‹_›

theorem fire_not_nullBlock {s' : State n} {c : Choice} (hf : fire step s (t, c) = some s')
    (halloc : c.malloc ≠ none ∧ c.mallocRec ≠ none) {u : Fin n} (hnull : ¬ NullBlock (s.th u)) :
    ¬ NullBlock (s'.th u) := by
  obtain ⟨m', l', hstep, rfl⟩ := fire_eq_some.mp hf
  by_cases hut : u = t
  · subst hut
    simpa only [Function.update_self] using step_not_nullBlock hstep halloc.1 halloc.2
  · simpa only [Function.update_of_ne hut] using hnull

/-- Where every allocation succeeds, nobody is about to write through `NULL`. -/
theorem not_nullBlock {sched : List (Fin n × Choice)} (h : run step (init n) sched = some s)
    (halloc : ∀ e ∈ sched, e.2.malloc ≠ none ∧ e.2.mallocRec ≠ none) (t : Fin n) :
    ¬ NullBlock (s.th t) := by
  refine run_induction
    (motive := fun es v => (∀ e ∈ es, e.2.malloc ≠ none ∧ e.2.mallocRec ≠ none) →
      ¬ NullBlock (v.th t)) ?_ ?_ sched s h halloc
  · exact fun _ => by simp [NullBlock, init, Local.init]
  rintro es ⟨u, c⟩ v v' - ih hf halloc
  have hbefore := ih fun e he => halloc e (List.mem_append_left _ he)
  exact fire_not_nullBlock hf (halloc (u, c) (by simp)) hbefore

/-- **No deadlock.**  In every reachable state a thread in its wait has an even counter, the thread
it spins on is inside its operation, no threads wait for each other in a circle, and when some
operation is unfinished a thread can take a step that is not another look at an unchanged counter;
only a failed `malloc` can be in its way. -/
theorem reclamation_wait_progresses {sched : List (Fin n × Choice)}
    (h : run step (init n) sched = some s) :
    (∀ t pc, (s.th t).pc = .wait pc → isOdd (s.mem.ctr t) = false) ∧
    (∀ t, (s.th t).pc = .wait .spin → ∃ hlt : (s.th t).scan < n,
      (⟨(s.th t).scan, hlt⟩ : Fin n) ≠ t ∧
      (s.mem.ctr ⟨(s.th t).scan, hlt⟩ = (s.th t).seen →
        (s.th ⟨(s.th t).scan, hlt⟩).pc.inBody = true)) ∧
    (∀ t u pc pc', WaitsFor s t u → (s.th u).pc ≠ .wait pc ∧ (s.th u).pc ≠ .reclaim pc') ∧
    (∀ t, ¬ Relation.TransGen (WaitsFor s) t t) ∧
    ((∃ t, (s.th t).pc ≠ .idle) → ∃ t, (s.th t).pc ≠ .idle ∧ (∀ u, ¬ WaitsFor s t u) ∧
      ((∀ c, ∃ s', fire step s (t, c) = some s') ∨ NullBlock (s.th t))) ∧
    ((∀ e ∈ sched, e.2.malloc ≠ none ∧ e.2.mallocRec ≠ none) → ∀ t, ¬ NullBlock (s.th t)) := by
  obtain ⟨g, hI⟩ := exists_history h
  refine ⟨?_, ?_, ?_, fun t => WaitsFor.acyclic hI, ?_, not_nullBlock h⟩
  · intro t pc hpc
    exact hI.ctr_even (by rw [hpc]; rfl)
  · intro t hpc
    have hout := (hI.own t).here
    simp only [outline, hpc] at hout
    obtain ⟨-, -, hlt, hne, -⟩ := hout
    exact ⟨hlt, hne, fun hsame => WaitsFor.inBody ⟨hpc, rfl, hsame⟩ hI⟩
  · intro t u pc pc' hw
    have hbody := hw.inBody hI
    refine ⟨fun hpc => ?_, fun hpc => ?_⟩ <;> rw [hpc] at hbody <;> cases hbody
  · rintro ⟨t, ht⟩
    -- an unfinished operation that does not wait, or else the one it waits for
    obtain ⟨u, hu, hfree⟩ : ∃ u, (s.th u).pc ≠ .idle ∧ ∀ w, ¬ WaitsFor s u w := by
      by_cases hw : ∃ u, WaitsFor s t u
      · obtain ⟨u, hu⟩ := hw
        refine ⟨u, fun hpc => ?_, fun w => hu.not_waits hI⟩
        have hbody := hu.inBody hI
        rw [hpc] at hbody
        cases hbody
      · exact ⟨t, ht, fun u hu => hw ⟨u, hu⟩⟩
    refine ⟨u, hu, hfree, ?_⟩
    by_cases hnull : NullBlock (s.th u)
    · exact .inr hnull
    · refine .inl fun c => ?_
      obtain ⟨m', l', hstep⟩ := step_enabled (hI.own u) hnull c
      exact ⟨_, fire_eq_some.mpr ⟨m', l', hstep, rfl⟩⟩

/-- Thread 1 has unlinked the sentinel and waits for thread 0, which has linked its node and not yet
swung the tail. -/
theorem reclamation_wait_progresses_linked :
    ∃ s, run step (init 2) (solo 0 (.enq 7) 12 ++ solo 1 (.deq 0) 40) = some s ∧
      WaitsFor s 1 0 ∧ isOdd (s.mem.ctr 1) = false ∧ (s.th 0).pc.inBody = true ∧
      ¬ Relation.TransGen (WaitsFor s) 1 1 ∧ (∀ u, ¬ WaitsFor s 0 u) ∧
      ∀ c, ∃ s', fire step s (0, c) = some s' := by
  obtain ⟨s, hs⟩ : ∃ s, run step (init 2) (solo 0 (.enq 7) 12 ++ solo 1 (.deq 0) 40) = some s :=
    ⟨_, rfl⟩
  have hspin : (s.th 1).pc = .wait .spin := run_observe hs (fun s => (s.th 1).pc) rfl
  have hscan : (s.th 1).scan = 0 := run_observe hs (fun s => (s.th 1).scan) rfl
  have hsame : s.mem.ctr 0 = (s.th 1).seen :=
    of_decide_eq_true (run_observe hs (fun s => decide (s.mem.ctr 0 = (s.th 1).seen)) rfl)
  have hwaits : WaitsFor s 1 0 := ⟨hspin, hscan, hsame⟩
  obtain ⟨heven, hspins, -, hacyclic, henabled, hmalloc⟩ := reclamation_wait_progresses hs
  obtain ⟨hlt, -, hbody⟩ := hspins 1 hspin
  have hzero : (⟨(s.th 1).scan, hlt⟩ : Fin 2) = 0 := Fin.ext hscan
  rw [hzero] at hbody
  obtain ⟨t, -, hfree, hmoves⟩ := henabled ⟨1, by simp [hspin]⟩
  -- thread 1 waits, so it is thread 0 that can move
  have ht : t = 0 := by
    by_contra hne
    obtain rfl : t = 1 := by omega
    exact hfree 0 hwaits
  subst ht
  have hnull : ¬ NullBlock (s.th 0) := hmalloc (by decide) 0
  exact ⟨s, hs, hwaits, heven 1 .spin hspin, hbody hsame, hacyclic 1, hfree,
    hmoves.resolve_right hnull⟩

end ConcurrentQueues.Ex5
