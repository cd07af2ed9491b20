import ConcurrentQueues.Ex4.Steps

/-!
# Ex4 — linearizability

An `enq` changes the abstract queue at `Q->tail->next = new_node` and a `deq` at `Q->head = next`,
also when these two steps of different threads follow each other while `tail` is not yet moved.
-/

namespace ConcurrentQueues.Ex4

open Reasoning Layout

variable {n : Nat} {t u : Fin n} {m m' : Mem n} {g : Layout n} {l l' : Local} {c : Choice}
  {s s' : State n} {es : List (Fin n × Choice)}

/-- How far the operation of a thread is, seen from the abstract queue. -/
def Local.phase (l : Local) : Phase Value :=
  match l.pc with
  | .idle => .idle
  | .enq .storeTail | .enq .unlock => .done (.enq 1)
  | .enq .unlockFail => .done (.enq 0)
  | .deq .lock | .deq .loadHead | .deq .loadNext | .deq .loadData | .deq .writeOut
  | .deq .storeHead => .called l.op
  | .deq .unlockEmpty => .done (.deq 0 l.out)
  | .deq _ | .recycle _ => .done (.deq 1 l.out)
  | .ret =>
      match l.op with
      | .enq _ => .done (.enq l.code)
      | .deq _ => .done (.deq l.code l.out)
  | _ => .called l.op

/-! ## Each step does what its label says -/

abbrev StepLabelOk (t : Fin n) (c : Choice) (m : Mem n) (g : Layout n) (l : Local) (m' : Mem n)
    (l' : Local) : Prop :=
  LabelOk (fun mg : Mem n × Layout n => mg.2.items) Local.phase (fun _ => False) (m, g) l
    (m', record t c m l g) l' (label t c m l)

attribute [local simp] Local.phase label

theorem record_items (hlink : l.pc ≠ .enq .link) (hhead : l.pc ≠ .deq .storeHead) :
    (record t c m l g).items = g.items := by
  unfold record
  split
  all_goals try split
  all_goals first
    | rfl
    | exact absurd ‹l.pc = .enq .link› hlink
    | exact absurd ‹l.pc = .deq .storeHead› hhead

/-- Steps without a label. -/
theorem StepLabelOk.silent (hlab : label t c m l = none) (hlink : l.pc ≠ .enq .link)
    (hhead : l.pc ≠ .deq .storeHead) (hphase : l'.phase = l.phase) :
    StepLabelOk t c m g l m' l' := by
  rw [StepLabelOk, hlab]
  exact ⟨record_items hlink hhead, hphase, id⟩

/-- Steps whose action keeps the content. -/
theorem StepLabelOk.act {a : Act Value} (hlab : label t c m l = some (.act a))
    (hlink : l.pc ≠ .enq .link) (hhead : l.pc ≠ .deq .storeHead)
    (happ : a.apply g.items l.phase = some (g.items, l'.phase)) :
    StepLabelOk t c m g l m' l' := by
  have hitems : (record t c m l g).items = g.items := record_items hlink hhead
  rw [StepLabelOk, hlab]
  exact ⟨by simpa [hitems] using happ, id⟩

theorem upcylceNode_label {pc : UpcylcePc} (hO : Own t m g l) (hpc : l.pc = .upcylce pc)
    (h : upcylceNode t c m l pc = .next m' l') : StepLabelOk t c m g l m' l' := by
  have hargs : l.op = .enq l.v := by simpa [Local.argsOk, hpc] using hO.status.args
  cases pc <;> simp only [upcylceNode] at h
  case loadHead | loadNext =>
    split at h <;> cases h <;>
      exact StepLabelOk.silent (by simp [hpc]) (by simp [hpc]) (by simp [hpc]) (by simp [hpc])
  case storeHead | size =>
    cases h
    exact StepLabelOk.silent (by simp [hpc]) (by simp [hpc]) (by simp [hpc]) (by simp [hpc])
  case malloc =>
    split at h
    next hraw =>
      cases h
      exact StepLabelOk.silent (by simp [hpc, hraw]) (by simp [hpc]) (by simp [hpc])
        (by simp [hpc])
    next hraw =>
      cases h
      exact StepLabelOk.act (a := .enqueueFail) (by simp [hpc, hraw]) (by simp [hpc])
        (by simp [hpc]) (by simp [hpc, hargs, Act.apply])

theorem enq_label {pc : EnqPc} (hS : Shared m g) (hO : Own t m g l) (hpc : l.pc = .enq pc)
    (h : enq t m l pc = .next m' l') : StepLabelOk t c m g l m' l' := by
  have hargs : l.op = .enq l.v := by simpa [Local.argsOk, hpc] using hO.status.args
  cases pc <;> simp only [enq] at h
  case link =>
    obtain ⟨⟨p, hn, hheap⟩, htail⟩ : Ready m l ∧ l.tail = some (g.node g.tl) := by
      simpa [outline, hpc] using hO.here
    simp only [htail] at h
    cases h
    have hrec : record t c m l g = g.link t p l.v := by simp [record, hpc, hn, hheap]
    have hitems := g.items_link hS.valid.hd_lt t p l.v
    rw [StepLabelOk, show label t c m l = some (.act (.enqueue l.v)) by simp [hpc]]
    exact ⟨by simp [hrec, hitems, Act.apply, hpc, hargs], id⟩
  case lock | data | next =>
    split at h <;> cases h
    exact StepLabelOk.silent (by simp [hpc]) (by simp [hpc]) (by simp [hpc]) (by simp [hpc])
  case loadTail | storeTail =>
    cases h
    exact StepLabelOk.silent (by simp [hpc]) (by simp [hpc]) (by simp [hpc]) (by simp [hpc])
  case unlock | unlockFail =>
    cases h
    exact StepLabelOk.silent (by simp [hpc]) (by simp [hpc]) (by simp [hpc])
      (by simp [hpc, hargs])

theorem deq_label {pc : DeqPc} (hS : Shared m g) (hO : Own t m g l) (hpc : l.pc = .deq pc)
    (h : deq t m l pc = .next m' l') : StepLabelOk t c m g l m' l' := by
  have hargs := hO.status.args
  have hout := hO.here
  simp only [Local.argsOk, hpc] at hargs
  simp only [outline, hpc] at hout
  cases pc <;> simp only [deq] at h hargs hout
  case loadNext =>
    simp only [hout] at h
    split at h
    next a hnext =>
      cases h
      exact StepLabelOk.silent (by simp [hpc, hout, hnext]) (by simp [hpc]) (by simp [hpc])
        (by simp [hpc])
    next hnull =>
      -- the sentinel has no successor, so the abstract queue is empty
      cases h
      have hlen := (hS.valid.next_eq_none_iff hS.valid.live_hd).mp hnull
      have hitems := g.items_eq_nil_iff.mpr hlen.ge
      exact StepLabelOk.act (a := .dequeueEmpty) (by simp [hpc, hout, hnull]) (by simp [hpc])
        (by simp [hpc]) (by simp [hpc, hargs, Act.apply, hitems])
  case storeHead =>
    cases h
    obtain ⟨hfront, hval, hcopy⟩ := hout
    have hrec : record t c m l g = g.moveHead t := by simp [record, hpc]
    have hitems := g.items_moveHead hfront.succ_lt t
    -- `*v` has been overwritten, so the call is a dequeue with some other argument
    obtain ⟨out, hop⟩ : ∃ out, l.op = .deq out := by
      cases hl : l.op with
      | enq v => simp [Local.isEnq, hl] at hargs
      | deq out => exact ⟨out, rfl⟩
    rw [StepLabelOk, show label t c m l = some (.act (.dequeue l.val)) by simp [hpc]]
    exact ⟨by simp [hrec, hitems, Act.apply, hpc, hop, hval, hcopy], id⟩
  case unlock =>
    cases h
    refine StepLabelOk.silent (by simp [hpc]) (by simp [hpc]) (by simp [hpc]) ?_
    cases hop : l.op with
    | enq v => simp [Local.isEnq, hop] at hargs
    | deq out => simp [hpc]
  case unlockEmpty =>
    cases h
    exact StepLabelOk.silent (by simp [hpc]) (by simp [hpc]) (by simp [hpc])
      (by simp [hpc, hargs])
  case lock | loadData | repairLock =>
    split at h <;> cases h
    exact StepLabelOk.silent (by simp [hpc]) (by simp [hpc]) (by simp [hpc]) (by simp [hpc])
  case reloadNext | repairNext =>
    split at h
    · split at h <;> cases h <;>
        exact StepLabelOk.silent (by simp [hpc]) (by simp [hpc]) (by simp [hpc]) (by simp [hpc])
    · cases h
  case loadHead | writeOut | reloadHead | repairHead | repairLoad | repairStore | repairUnlock =>
    cases h
    exact StepLabelOk.silent (by simp [hpc]) (by simp [hpc]) (by simp [hpc]) (by simp [hpc])

theorem recycleNode_label {pc : RecyclePc} (hpc : l.pc = .recycle pc)
    (h : recycleNode t m l pc = .next m' l') : StepLabelOk t c m g l m' l' := by
  cases pc <;> simp only [recycleNode] at h
  case next =>
    split at h <;> cases h
    exact StepLabelOk.silent (by simp [hpc]) (by simp [hpc]) (by simp [hpc]) (by simp [hpc])
  case head | size | count =>
    cases h
    exact StepLabelOk.silent (by simp [hpc]) (by simp [hpc]) (by simp [hpc]) (by simp [hpc])

theorem step_label (hS : Shared m g) (hO : Own t m g l) (h : step t c m l = .next m' l') :
    StepLabelOk t c m g l m' l' := by
  cases hpc : l.pc with
  | idle =>
      simp only [step, hpc] at h
      cases h
      cases hop : c.op <;>
        exact StepLabelOk.act (a := .call c.op) (by simp [hpc]) (by simp [hpc]) (by simp [hpc])
          (by simp [Act.apply, hpc, Local.call, hop])
  | upcylce pc => exact upcylceNode_label hO hpc (by simpa only [step, hpc] using h)
  | enq pc => exact enq_label hS hO hpc (by simpa only [step, hpc] using h)
  | deq pc => exact deq_label hS hO hpc (by simpa only [step, hpc] using h)
  | recycle pc => exact recycleNode_label hpc (by simpa only [step, hpc] using h)
  | ret =>
      simp only [step, hpc] at h
      cases h
      cases hop : l.op with
      | enq v =>
          exact StepLabelOk.act (a := .ret (.enq l.code)) (by simp [hpc, hop]) (by simp [hpc])
            (by simp [hpc]) (by simp [Act.apply, hpc, hop])
      | deq out =>
          exact StepLabelOk.act (a := .ret (.deq l.code l.out)) (by simp [hpc, hop])
            (by simp [hpc]) (by simp [hpc]) (by simp [Act.apply, hpc, hop])

/-! ## The simulation -/

/-- Ex4 with its history simulates the atomic queue. -/
def simulation (n : Nat) :
    Linearizes (withHistory (step (n := n)) record) (fun t c mg l => label t c mg.1 l)
      (guarantee n).Inv where
  items mg := mg.2.items
  phase := Local.phase
  emptied := fun _ => False
  emptied_deq _ := False.elim
  inv h hf := h.fire hf
  step := by
    intro s t c mg' l' hI h
    obtain ⟨hstep, hg⟩ := withHistory_next.mp h
    have hok := step_label hI.shared (hI.own t) hstep
    rw [StepLabelOk, ← hg] at hok
    exact hok

/-! ## An `enq` that fails -/

/-- `malloc` returns `NULL` to `t`, whose free list is empty. -/
def OutOfMemory (t : Fin n) (e : Fin n × Choice) (s _ : State n) : Prop :=
  e.1 = t ∧ (s.th t).pc = .upcylce .malloc ∧ (s.mem.store.freeLists t).head = none ∧
    e.2.malloc = none

/-- A step of `t` leaves head, tail, all nodes and all free lists alone. -/
def Untouched (t : Fin n) (e : Fin n × Choice) (s s' : State n) : Prop :=
  e.1 = t → s'.mem.store = s.mem.store

/-- What the steps `es` since `s` say about the `enq` that `t` is in. -/
def EnqSoFar (t : Fin n) (s : State n) (es : List (Fin n × Choice)) (l : Local) : Prop :=
  match l.pc with
  | .enq .lock | .upcylce .loadHead | .upcylce .malloc =>
      ¬ SomeStep step s es (OutOfMemory t) ∧ EveryStep step s es (Untouched t)
  | .enq .unlockFail => SomeStep step s es (OutOfMemory t) ∧ EveryStep step s es (Untouched t)
  | .ret =>
      (l.code = 0 ∧ SomeStep step s es (OutOfMemory t) ∧ EveryStep step s es (Untouched t)) ∨
        (l.code = 1 ∧ ¬ SomeStep step s es (OutOfMemory t))
  | .enq _ | .upcylce _ => ¬ SomeStep step s es (OutOfMemory t)
  | _ => False

theorem EnqSoFar.other (h : EnqSoFar t s es l) (hut : u ≠ t) (hrun : run step s es = some s')
    {v : State n} (hf : fire step s' (u, c) = some v) : EnqSoFar t s (es ++ [(u, c)]) l := by
  have hsome : SomeStep step s (es ++ [(u, c)]) (OutOfMemory t) ↔
      SomeStep step s es (OutOfMemory t) := by
    rw [someStep_snoc hrun hf]
    simp [OutOfMemory, hut]
  have hevery : EveryStep step s (es ++ [(u, c)]) (Untouched t) ↔
      EveryStep step s es (Untouched t) := by
    rw [everyStep_snoc hrun hf]
    simp [Untouched, hut]
  simpa only [EnqSoFar, hsome, hevery] using h

theorem EnqSoFar.own (h : EnqSoFar t s es (s'.th t)) (hI : Inv s' g)
    (hrun : run step s es = some s') (hstep : step t c s'.mem (s'.th t) = .next m' l')
    (hidle : l'.pc ≠ .idle) : EnqSoFar t s (es ++ [(t, c)]) l' := by
  have hf : fire step s' (t, c) = some ⟨m', Function.update s'.th t l'⟩ :=
    fire_eq_some.mpr ⟨m', l', hstep, rfl⟩
  -- both properties of the run change with its last step only
  have hsome := someStep_snoc (Q := OutOfMemory t) hrun hf
  have hevery := everyStep_snoc (Q := Untouched t) hrun hf
  have hout := (hI.own t).here
  unfold EnqSoFar at h
  cases hpc : (s'.th t).pc with
  -- an `enq` is at none of these points
  | idle | deq pc | recycle pc => simp only [hpc] at h
  | ret =>
      simp only [step, hpc] at hstep
      cases hstep
      exact absurd rfl hidle
  | upcylce pc =>
      simp only [outline, hpc] at h hout
      simp only [OutOfMemory, Untouched, hpc] at hsome hevery
      simp only [step, hpc] at hstep
      cases pc <;> simp only [upcylceNode] at hstep h hout hsome
      case loadHead =>
        split at hstep <;> cases hstep
        · simpa [EnqSoFar, hsome] using h.1
        · simpa [EnqSoFar, hsome, hevery] using h
      case malloc =>
        split at hstep
        next hraw =>
          cases hstep
          simpa [EnqSoFar, hsome, hraw] using h.1
        next hraw =>
          cases hstep
          simpa [EnqSoFar, hsome, hevery, hraw, hout] using h.2
      case loadNext =>
        split at hstep <;> cases hstep
        simpa [EnqSoFar, hsome] using h
      case storeHead | size =>
        cases hstep
        simpa [EnqSoFar, hsome] using h
  | enq pc =>
      simp only [hpc] at h
      simp only [OutOfMemory, Untouched, hpc] at hsome hevery
      simp only [step, hpc] at hstep
      cases pc <;> simp only [enq] at hstep h
      case lock =>
        split at hstep <;> cases hstep
        simpa [EnqSoFar, hsome, hevery] using h
      case data | next | link =>
        split at hstep <;> cases hstep
        simpa [EnqSoFar, hsome] using h
      case loadTail | storeTail | unlock =>
        cases hstep
        simpa [EnqSoFar, hsome] using h
      case unlockFail =>
        cases hstep
        simpa [EnqSoFar, hsome, hevery] using h

/-- An `enq` returns 0 exactly if its free list was empty and `malloc` failed, and then it has left
the store alone. -/
theorem enq_fails_iff (hI : Inv s g) (hpc : (s.th t).pc = .enq .lock)
    (hrun : run step s es = some s')
    (hcall : Throughout step s es fun v => (v.th t).pc ≠ .idle) (hret : (s'.th t).pc = .ret) :
    ((s'.th t).code = 0 ↔ SomeStep step s es (OutOfMemory t)) ∧
      ((s'.th t).code = 0 → EveryStep step s es (Untouched t)) := by
  have hall : ∀ es v, run step s es = some v →
      (Throughout step s es fun w => (w.th t).pc ≠ .idle) →
      (∃ g, Inv v g) ∧ EnqSoFar t s es (v.th t) := by
    refine run_induction (fun _ => ⟨⟨g, hI⟩, ?_⟩) ?_
    · simp only [EnqSoFar, hpc]
      exact ⟨fun h => h everyStep_nil, everyStep_nil⟩
    rintro es ⟨u, c⟩ v v' hes ih hf hthr
    obtain ⟨⟨g', hI'⟩, hsofar⟩ := ih hthr.left
    refine ⟨⟨_, hI'.fire hf⟩, ?_⟩
    have hidle := hthr.last (run_snoc.mpr ⟨v, hes, hf⟩)
    by_cases hut : u = t
    · subst hut
      obtain ⟨m', l', hstep, rfl⟩ := fire_eq_some.mp hf
      simp only [Function.update_self] at hidle ⊢
      exact hsofar.own hI' hes hstep hidle
    · have hother := hsofar.other hut hes hf
      obtain ⟨m', l', -, rfl⟩ := fire_eq_some.mp hf
      simpa only [Function.update_of_ne (Ne.symm hut)] using hother
  -- at the return the code tells which of the two cases the run was in
  have hend := (hall es s' hrun hcall).2
  simp only [EnqSoFar, hret] at hend
  rcases hend with ⟨hcode, hsome, hevery⟩ | ⟨hcode, hsome⟩
  · exact ⟨⟨fun _ => hsome, fun _ => hcode⟩, fun _ => hevery⟩
  · exact ⟨⟨fun h => by omega, fun h => absurd h hsome⟩, fun h => by omega⟩

/-- **Linearizability of the two-lock queue.**  Every run, with its operations placed where their
labels are, is a run of the atomic queue, and an `enq` that returns 0 was out of memory and has left
the queue and all lists alone. -/
theorem twoLockQueue_linearizable {sched : List (Fin n × Choice)}
    (h : run step (init n) sched = some s) :
    (∃ q : Fifo (Fin n) Value,
      Fifo.empty.run (linearize (labels step label (init n) sched)) = some q ∧
      (∃ ps, Chain s.mem.store.next s.mem.store.head ps ∧
        q.items = ps.tail.map fun p => (s.mem.store.heap p).data) ∧
      (∀ t, q.phase t = (s.th t).phase) ∧
      history (linearize (labels step label (init n) sched)) =
        interface (labels step label (init n) sched) ∧
      enqueued (linearize (labels step label (init n) sched)) =
        dequeued (linearize (labels step label (init n) sched)) ++ q.items) ∧
    ∀ before within after t s₀ s₁, sched = before ++ within ++ after →
      run step (init n) before = some s₀ → (s₀.th t).pc = .enq .lock →
      run step s₀ within = some s₁ → (Throughout step s₀ within fun v => (v.th t).pc ≠ .idle) →
      (s₁.th t).pc = .ret →
      ((s₁.th t).code = 0 ↔ SomeStep step s₀ within (OutOfMemory t)) ∧
        ((s₁.th t).code = 0 → EveryStep step s₀ within (Untouched t)) := by
  refine ⟨?_, ?_⟩
  · obtain ⟨g, hI, hsim⟩ :=
      (simulation n).run_linearize_history (inv_iff.mp (inv_init n)) (fun _ => rfl) h
    have hinv : Inv s g := inv_iff.mpr hI
    exact ⟨_, hsim, ⟨_, hinv.shared.valid.main_chain, hinv.shared.valid.items_eq⟩, fun _ => rfl,
      history_linearize _, Fifo.fifo hsim⟩
  · rintro before within after t s₀ s₁ - hbefore hpc hwithin hcall hret
    obtain ⟨g, hI⟩ := exists_history hbefore
    exact enq_fails_iff hI hpc hwithin hcall hret

/-- The call of `outOfMemory` after `handover` returns 0 and has left the lists alone. -/
theorem twoLockQueue_linearizable_outOfMemory :
    ∃ s₀ s₁, run step (init 2) (handover 0 1) = some s₀ ∧ run step s₀ (outOfMemory 0) = some s₁ ∧
      (s₁.th 0).code = 0 ∧ SomeStep step s₀ (outOfMemory 0) (OutOfMemory 0) ∧
      EveryStep step s₀ (outOfMemory 0) (Untouched 0) := by
  obtain ⟨s₀, h₀⟩ : ∃ s₀, run step (init 2) (handover 0 1) = some s₀ := ⟨_, rfl⟩
  obtain ⟨s₁, h⟩ : ∃ s₁, run step (init 2) (handover 0 1 ++ outOfMemory 0) = some s₁ := ⟨_, rfl⟩
  obtain ⟨u, hu, h₁⟩ := run_append.mp h
  obtain rfl : s₀ = u := Option.some.inj (h₀.symm.trans hu)
  have hpc := run_observe h₀ (fun s => (s.th 0).pc) rfl
  have hret := run_observe h (fun s => (s.th 0).pc) rfl
  have hcode := run_observe h (fun s => (s.th 0).code) rfl
  have hcall : Throughout step s₀ (outOfMemory 0) fun v => (v.th 0).pc ≠ .idle :=
    (Throughout.of_all (fun v => decide ((v.th 0).pc ≠ .idle)) h₀ (outOfMemory 0)
      (by decide)).mono fun _ => of_decide_eq_true
  obtain ⟨-, hcalls⟩ := twoLockQueue_linearizable h
  obtain ⟨hiff, hevery⟩ :=
    hcalls (handover 0 1) (outOfMemory 0) [] 0 s₀ s₁ (by simp) h₀ hpc h₁ hcall hret
  exact ⟨s₀, s₁, h₀, h₁, hcode, hiff.mp hcode, hevery hcode⟩

end ConcurrentQueues.Ex4
