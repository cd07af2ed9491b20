import ConcurrentQueues.Ex5.Waiting

/-!
# Ex5 — what a failed `malloc` leads to

Neither `make_node` nor `mm_retire` tests what `malloc` has returned, so the store that follows goes
through `NULL`.  The guard `while (n)` and the final `return 0` of `enq` are never reached with
`n == NULL`.
-/

namespace ConcurrentQueues.Ex5

open Reasoning

variable {n : Nat} {t : Fin n} {g : History n} {l : Local} {s s' : State n} {c : Choice}
  {sched : List (Fin n × Choice)}

/-- `malloc` returns `NULL` in this step. -/
def MallocFails (e : Fin n × Choice) (s _ : State n) : Prop :=
  ((s.th e.1).pc = .make .malloc ∧ e.2.malloc = none) ∨
    ((s.th e.1).pc = .retire .malloc ∧ e.2.mallocRec = none)

/-- The next step of `t` dereferences `NULL`. -/
def Faults (s : State n) (t : Fin n) : Prop := ∀ c, step t c s.mem (s.th t) = .fault

/-- A step of `t` leaves `head`, `tail`, all nodes and all free lists alone. -/
def Untouched (t : Fin n) (e : Fin n × Choice) (s s' : State n) : Prop :=
  e.1 = t → s'.mem.store = s.mem.store

/-- Node `p` can be reached from a retired list or from a free list. -/
def Kept (s : State n) (p : Addr) : Prop :=
  ∃ t, (∃ ps, Chain s.mem.store.next (s.mem.store.freeLists t).head ps ∧ p ∈ ps) ∨
    ∃ rs, Chain (fun r => (s.mem.records r).next) (s.mem.retired t) rs ∧
      ∃ r ∈ rs, (s.mem.records r).node = some p

/-- A run from `s₀` survives its failed allocations: nobody dereferences `NULL`, an `enq` that gets
no memory returns 0, leaves the store alone and closes its operation, and a `deq` that gets none
returns 1 with its value and keeps the node it has unlinked. -/
structure Survives (s₀ : State n) (sched : List (Fin n × Choice)) : Prop where
  noNull : Throughout step s₀ sched fun v => ∀ t, ¬ Faults v t
  enq : ∀ before t c within after v v' w, sched = before ++ (t, c) :: within ++ after →
    run step s₀ before = some v → fire step v (t, c) = some v' → (v.th t).pc = .make .malloc →
    c.malloc = none → run step v' within = some w →
    (Throughout step v' within fun x => (x.th t).pc ≠ .idle) → (w.th t).pc = .ret →
    (w.th t).code = 0 ∧ EveryStep step v' within (Untouched t) ∧ isOdd (w.mem.ctr t) = false
  deq : ∀ before t c within after v v' w, sched = before ++ (t, c) :: within ++ after →
    run step s₀ before = some v → fire step v (t, c) = some v' → (v.th t).pc = .retire .malloc →
    c.mallocRec = none → run step v' within = some w →
    (Throughout step v' within fun x => (x.th t).pc ≠ .idle) → (w.th t).pc = .ret →
    (w.th t).code = 1 ∧ (w.th t).out = (v.th t).out ∧ ∀ p, (v.th t).first = some p → Kept w p

theorem faults_of_nullBlock (h : NullBlock (s.th t)) : Faults s t := by
  intro c
  obtain ⟨hpc, hn⟩ | ⟨hpc, hr⟩ := h
  · simp only [step, hpc, makeNode, hn]
  · simp only [step, hpc, mmRetire, hr]

/-- In a reachable state the only way to `NULL` is through a failed `malloc`. -/
theorem faults_iff (hI : Inv s g) : Faults s t ↔ NullBlock (s.th t) := by
  refine ⟨fun hfault => ?_, faults_of_nullBlock⟩
  by_contra hnull
  obtain ⟨m', l', hstep⟩ := step_enabled (hI.own t) hnull (.plain (.deq 0))
  rw [hfault] at hstep
  cases hstep

theorem nullBlock_of_fails (hfail : MallocFails (t, c) s s') (hf : fire step s (t, c) = some s') :
    NullBlock (s'.th t) := by
  obtain ⟨m', l', hstep, rfl⟩ := fire_eq_some.mp hf
  simp only [Function.update_self]
  obtain ⟨hpc, hnone⟩ | ⟨hpc, hnone⟩ := hfail
  · have hmalloc : c.malloc = none := hnone
    simp only [step, hpc, makeNode, hmalloc] at hstep
    cases hstep
    exact .inl ⟨rfl, rfl⟩
  · have hmalloc : c.mallocRec = none := hnone
    simp only [step, hpc, mmRetire, hmalloc] at hstep
    cases hstep
    exact .inr ⟨rfl, rfl⟩

theorem fails_of_nullBlock (hf : fire step s (t, c) = some s') (hnull : NullBlock (s'.th t)) :
    MallocFails (t, c) s s' := by
  obtain ⟨m', l', hstep, rfl⟩ := fire_eq_some.mp hf
  simp only [Function.update_self] at hnull
  obtain ⟨hpc, hn⟩ | ⟨hpc, hr⟩ := hnull
  · have hpre : (s.th t).pc = .make .malloc := Pc.flow_make_data (hpc ▸ step_flow hstep)
    refine .inl ⟨hpre, ?_⟩
    simp only [step, hpre, makeNode] at hstep
    split at hstep
    · cases hstep
      cases hn
    · assumption
  · have hpre : (s.th t).pc = .retire .malloc := Pc.flow_retire_node (hpc ▸ step_flow hstep)
    refine .inr ⟨hpre, ?_⟩
    simp only [step, hpre, mmRetire] at hstep
    split at hstep
    · cases hstep
      cases hr
    · assumption

/-- A thread is about to write through `NULL` exactly if an allocation of the run has failed. -/
theorem nullBlock_iff (h : run step (init n) sched = some s) :
    (∃ t, NullBlock (s.th t)) ↔ SomeStep step (init n) sched MallocFails := by
  refine run_induction (motive := fun es v =>
    (∃ t, NullBlock (v.th t)) ↔ SomeStep step (init n) es MallocFails) ?_ ?_ sched s h
  · constructor
    · rintro ⟨t, ⟨hpc, -⟩ | ⟨hpc, -⟩⟩ <;> cases hpc
    · exact fun h => absurd everyStep_nil h
  rintro es ⟨u, c⟩ v w hrun ih hf
  rw [someStep_snoc hrun hf, ← ih]
  constructor
  · rintro ⟨t, ht⟩
    by_cases htu : t = u
    · subst htu
      exact .inr (fails_of_nullBlock hf ht)
    · obtain ⟨m', l', -, rfl⟩ := fire_eq_some.mp hf
      exact .inl ⟨t, by simpa only [Function.update_of_ne htu] using ht⟩
  · rintro (⟨t, ht⟩ | hfail)
    · refine ⟨t, ?_⟩
      by_cases htu : t = u
      · -- a thread that would write through `NULL` takes no further step
        subst htu
        obtain ⟨m', l', hstep, -⟩ := fire_eq_some.mp hf
        rw [faults_of_nullBlock ht c] at hstep
        cases hstep
      · obtain ⟨m', l', -, rfl⟩ := fire_eq_some.mp hf
        simpa only [Function.update_of_ne htu] using ht
    · exact ⟨u, nullBlock_of_fails hfail hf⟩

/-- **Ex5 survives no failed allocation.**  A run meets its promises about `malloc` returning `NULL`
exactly if `malloc` never does: whoever gets `NULL` dereferences it in its next step. -/
theorem survives_iff (h : run step (init n) sched = some s) :
    Survives (init n) sched ↔
      EveryStep step (init n) sched fun e u v => ¬ MallocFails e u v := by
  constructor
  · intro hsurvives
    by_contra hfail
    obtain ⟨t, ht⟩ := (nullBlock_iff h).mpr hfail
    exact hsurvives.noNull.last h t (faults_of_nullBlock ht)
  intro hevery
  have hnever : ∀ before t c within after v v',
      sched = before ++ (t, c) :: within ++ after → run step (init n) before = some v →
      fire step v (t, c) = some v' → ¬ MallocFails (t, c) v v' := by
    intro before t c within after v v' hsplit hbefore hf
    exact hevery before (t, c) (within ++ after) v v' (by simp [hsplit]) hbefore hf
  refine ⟨?_, ?_, ?_⟩
  · rintro fs gs v rfl hfs t hfault
    obtain ⟨g, hI⟩ := exists_history hfs
    exact (nullBlock_iff hfs).mp ⟨t, (faults_iff hI).mp hfault⟩ hevery.left
  · intro before t c within after v v' w hsplit hbefore hf hpc hnone
    exact absurd (.inl ⟨hpc, hnone⟩) (hnever before t c within after v v' hsplit hbefore hf)
  · intro before t c within after v v' w hsplit hbefore hf hpc hnone
    exact absurd (.inr ⟨hpc, hnone⟩) (hnever before t c within after v v' hsplit hbefore hf)

/-! ## The schedules of the two failures -/

/-- No memory at all. -/
def Choice.starved (op : Op Value) : Choice := ⟨op, true, true, false, none, none⟩

/-- `t` calls `enq`, and `malloc` returns `NULL` in `make_node`. -/
def noNode (t : Fin n) : List (Fin n × Choice) := List.replicate 4 (t, .starved (.enq 7))

/-- `t` enqueues 7 and `u` dequeues it, and `malloc` returns `NULL` in `mm_retire`. -/
def noRecord (t u : Fin n) : List (Fin n × Choice) :=
  solo t (.enq 7) 16 ++ List.replicate 10 (u, .starved (.deq 0))

/-- An `enq` that gets no memory, and a `deq` that has moved `head` and gets none, dereference
`NULL`. -/
theorem failed_malloc_fatal :
    (∃ s, run step (init 1) (noNode 0) = some s ∧ Faults s 0 ∧ ¬ Survives (init 1) (noNode 0)) ∧
    ∃ s, run step (init 2) (noRecord 0 1) = some s ∧ s.mem.store.head = some 1 ∧ Faults s 1 ∧
      ¬ Survives (init 2) (noRecord 0 1) := by
  refine ⟨?_, ?_⟩
  · obtain ⟨s, hs⟩ : ∃ s, run step (init 1) (noNode 0) = some s := ⟨_, rfl⟩
    have hpc : (s.th 0).pc = .make .data := run_observe hs (fun s => (s.th 0).pc) rfl
    have hn : (s.th 0).n = none := run_observe hs (fun s => (s.th 0).n) rfl
    have hfault : Faults s 0 := faults_of_nullBlock (.inl ⟨hpc, hn⟩)
    exact ⟨s, hs, hfault, fun h => h.noNull.last hs 0 hfault⟩
  · obtain ⟨s, hs⟩ : ∃ s, run step (init 2) (noRecord 0 1) = some s := ⟨_, rfl⟩
    have hpc : (s.th 1).pc = .retire .node := run_observe hs (fun s => (s.th 1).pc) rfl
    have hr : (s.th 1).r = none := run_observe hs (fun s => (s.th 1).r) rfl
    have hhead : s.mem.store.head = some 1 := run_observe hs (fun s => s.mem.store.head) rfl
    have hfault : Faults s 1 := faults_of_nullBlock (.inr ⟨hpc, hr⟩)
    exact ⟨s, hs, hhead, hfault, fun h => h.noNull.last hs 1 hfault⟩

/-- In `handover` no allocation fails. -/
theorem survives_iff_handover : Survives (init 2) (handover 0 1) := by
  obtain ⟨s, hs⟩ : ∃ s, run step (init 2) (handover 0 1) = some s := ⟨_, rfl⟩
  refine (survives_iff hs).mpr ?_
  rintro fs ⟨t, c⟩ gs u v hsplit - - hfail
  have hmem : (t, c) ∈ handover 0 1 := by simp [hsplit]
  have hplain : ∃ op, c = .plain op := by
    simp only [handover, solo, List.mem_append, List.mem_replicate, Prod.mk.injEq] at hmem
    obtain ⟨-, -, rfl⟩ | ⟨-, -, rfl⟩ := hmem <;> exact ⟨_, rfl⟩
  obtain ⟨op, rfl⟩ := hplain
  obtain ⟨-, hnone⟩ | ⟨-, hnone⟩ := hfail <;> cases hnone

end ConcurrentQueues.Ex5
