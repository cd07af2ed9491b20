import ConcurrentQueues.Ex5.Runs

/-!
# Ex5 — linearizability

The abstract queue holds the values of the numbers behind `hd`.  An operation changes it at the
step its label announces, and every other step leaves the abstract state alone.
-/

namespace ConcurrentQueues.Ex5

open Reasoning Layout

variable {n : Nat} {t : Fin n} {m m' : Mem n} {g : History n} {l l' : Local} {c : Choice}

namespace Local

/-- An operation behind its last access of the main list; a dequeue that will return 0 is settled
only when it returns. -/
def finished (l : Local) : Phase Value :=
  match l.op with
  | .enq _ => .done (.enq l.code)
  | .deq _ => if l.code = 0 then .called l.op else .done (.deq l.code l.out)

/-- How far the operation of a thread is, seen from the abstract queue. -/
def phase (l : Local) : Phase Value :=
  match l.pc with
  | .idle => .idle
  | .enq .swing => .done (.enq 1)
  | .deq .writeOut => .done (.deq 1 l.val)
  | .retire _ => .done (.deq 1 l.out)
  | .opEnd _ | .wait _ | .reclaim _ | .recycle _ | .ret => l.finished
  | _ => .called l.op

/-- The dequeue has loaded the `NULL` for which it will return 0. -/
def emptied (l : Local) : Prop :=
  match l.pc with
  | .deq .reload => l.isEnq = false ∧ l.first = l.last ∧ l.next = none
  | .opEnd _ | .wait _ | .reclaim _ | .recycle _ | .ret => l.isEnq = false ∧ l.code = 0
  | _ => False

theorem emptied_deq (h : l.emptied) : ∃ out, l.phase = .called (.deq out) := by
  unfold emptied at h
  unfold phase finished
  split at h
  all_goals
    cases hop : l.op with
    | enq v => simp [isEnq, hop] at h
    | deq out => exact ⟨out, by simp_all⟩

end Local

/-! ## The abstract content -/

theorem record_items (hlink : l.pc ≠ .enq .link) (hcas : l.pc ≠ .deq .cas) :
    (record t c m l g).lay.items = g.lay.items := by
  unfold record
  split
  all_goals try split
  all_goals first
    | rfl
    | exact absurd ‹l.pc = .enq .link› hlink
    | exact absurd ‹l.pc = .deq .cas› hcas

/-! ## Each step does what its label says -/

abbrev StepLabelOk (t : Fin n) (c : Choice) (m : Mem n) (g : History n) (l : Local)
    (m' : Mem n) (l' : Local) : Prop :=
  LabelOk (fun mg : Mem n × History n => mg.2.lay.items) Local.phase Local.emptied (m, g) l
    (m', record t c m l g) l' (label t c m l)

attribute [local simp] Local.phase Local.emptied Local.finished label

/-- Steps without a label. -/
theorem StepLabelOk.silent (hlab : label t c m l = none) (hlink : l.pc ≠ .enq .link)
    (hcas : l.pc ≠ .deq .cas) (hphase : l'.phase = l.phase) (hback : l'.emptied → l.emptied) :
    StepLabelOk t c m g l m' l' := by
  rw [StepLabelOk, hlab]
  exact ⟨record_items hlink hcas, hphase, hback⟩

theorem enqLink_label (hS : Shared m g) (hO : Own t m g l) (hpc : l.pc = .enq .link)
    (h : enq c m l .link = .next m' l') : StepLabelOk t c m g l m' l' := by
  have hargs : l.op = .enq l.v := by simpa [Local.argsOk, hpc] using hO.status.args
  obtain ⟨⟨p, hn, hheap⟩, hlast⟩ : Ready m l ∧ Last t g l := by
    simpa [outline, hpc] using hO.here
  simp only [enq, hlast.eq] at h
  split at h
  next hcas =>
    cases h
    rw [StepLabelOk, show label t c m l = some (.act (.enqueue l.v)) by
      simp [hpc, hlast.eq, hcas]]
    refine ⟨?_, by simp⟩
    have hrec : record t c m l g = g.setLay (g.lay.link t p l.v) := by
      simp [record, hpc, hlast.eq, hn, hcas, hheap]
    have hitems := g.lay.items_link hS.valid.hd_lt t p l.v
    simp [hrec, hitems, Act.apply, hpc, hargs]
  next hcas =>
    cases h
    rw [StepLabelOk, show label t c m l = none by simp [hpc, hlast.eq, hcas]]
    have hrec : record t c m l g = g := by simp [record, hpc, hlast.eq, hn, hcas]
    exact ⟨by rw [hrec], by simp [hpc], by simp⟩

theorem deqCas_label (hS : Shared m g) (hO : Own t m g l) (hpc : l.pc = .deq .cas)
    (h : deq c m l .cas = .next m' l') : StepLabelOk t c m g l m' l' := by
  have hst := hO.status
  have hargs : l.op = .deq l.out := by simpa [Local.argsOk, hpc] using hst.args
  have hbody : g.body t = true := by simpa [hpc, Pc.inBody] using hst.body
  obtain ⟨hsucc, hval⟩ : Successor t g l ∧ l.val = g.lay.val (g.iFirst t + 1) := by
    simpa [outline, hpc] using hO.here
  simp only [deq] at h
  split at h
  next hcas =>
    cases h
    -- the value was loaded from the successor of `first`, which is the front of the queue
    have hhd := hsucc.first.head_eq hS hbody hcas.1
    rw [StepLabelOk, show label t c m l = some (.act (.dequeue l.val)) by simp [hpc, hcas]]
    refine ⟨?_, by simp⟩
    have hrec : record t c m l g = g.setLay (g.lay.moveHead t) := by simp [record, hpc, hcas]
    have hitems := g.lay.items_moveHead (hhd ▸ hsucc.succ_lt) t
    simp [hrec, hitems, Act.apply, hpc, hargs, hval, hhd]
  next hcas =>
    cases h
    rw [StepLabelOk, show label t c m l = none by simp [hpc, hcas]]
    have hrec : record t c m l g = g := by simp [record, hpc, hcas]
    exact ⟨by rw [hrec], by simp [hpc], by simp⟩

/-- A `NULL` loaded from `first->next` shows the abstract queue empty. -/
theorem deqLoadNext_label (hS : Shared m g) (hO : Own t m g l) (hpc : l.pc = .deq .loadNext)
    (h : deq c m l .loadNext = .next m' l') : StepLabelOk t c m g l m' l' := by
  have hbody : g.body t = true := by simpa [hpc, Pc.inBody] using hO.status.body
  obtain ⟨hfirst, -, -⟩ : First t g l ∧ Last t g l ∧ g.iFirst t ≤ g.iLast t := by
    simpa [outline, hpc] using hO.here
  simp only [deq, hfirst.eq] at h
  cases h
  rw [StepLabelOk, show label t c m l = some .peek by simp [hpc]]
  refine ⟨record_items (by simp [hpc]) (by simp [hpc]), by simp [hpc], fun hempty => ?_⟩
  have hnull : (m.store.heap (g.lay.node (g.iFirst t))).next = none := by
    simpa using hempty.2.2
  have hlive := hS.live hbody hfirst.start_le hfirst.lt_len
  -- `first` is the last node and `head` is not before it, so nothing is behind `head`
  have hlen := (hS.valid.next_eq_none_iff hlive).mp hnull
  have hhd := hfirst.le_hd
  exact g.lay.items_eq_nil_iff.mpr (by omega)

theorem ret_label (hO : Own t m g l) (hpc : l.pc = .ret) :
    StepLabelOk t c m g l m (l.goto .idle) := by
  have hargs := hO.status.args
  simp only [Local.argsOk, hpc] at hargs
  have hitems : (record t c m l g).lay.items = g.lay.items :=
    record_items (by simp [hpc]) (by simp [hpc])
  rcases hargs with ⟨hop, hcode⟩ | ⟨hop, hcode⟩ | ⟨hop, hcode⟩
  · rw [StepLabelOk, show label t c m l = some (.act (.ret (.enq l.code))) by simp [hpc, hop]]
    exact ⟨by simp [Act.apply, hitems, hpc, hop], by simp⟩
  · rw [StepLabelOk, show label t c m l = some (.retEmpty l.out) by simp [hpc, hop, hcode]]
    exact ⟨hitems, by simp [hpc, Local.isEnq, hop, hcode], by simp [hpc, hop, hcode], by simp,
      by simp⟩
  · obtain ⟨out, hout⟩ : ∃ out, l.op = .deq out := by
      cases hl : l.op with
      | enq v => simp [Local.isEnq, hl] at hop
      | deq out => exact ⟨out, rfl⟩
    rw [StepLabelOk, show label t c m l = some (.act (.ret (.deq l.code l.out))) by
      simp [hpc, hout, hcode]]
    exact ⟨by simp [Act.apply, hitems, hpc, hout, hcode], by simp⟩

theorem mmOpBegin_label (hpc : l.pc = .opBegin) (h : mmOpBegin t m l = .next m' l') :
    StepLabelOk t c m g l m' l' := by
  cases h
  refine StepLabelOk.silent (by simp [hpc]) (by simp [hpc]) (by simp [hpc]) ?_ ?_
  all_goals cases l.isEnq <;> simp [hpc]

theorem upcylceNode_label {pc : UpcylcePc} (hpc : l.pc = .upcylce pc)
    (h : upcylceNode t m l pc = .next m' l') : StepLabelOk t c m g l m' l' := by
  cases pc <;> simp only [upcylceNode] at h
  case loadHead | loadNext =>
    split at h <;> cases h <;>
      exact StepLabelOk.silent (by simp [hpc]) (by simp [hpc]) (by simp [hpc]) (by simp [hpc])
        (by simp)
  case storeHead | size =>
    cases h
    exact StepLabelOk.silent (by simp [hpc]) (by simp [hpc]) (by simp [hpc]) (by simp [hpc])
      (by simp)

theorem makeNode_label {pc : MakePc} (hpc : l.pc = .make pc)
    (h : makeNode c m l pc = .next m' l') : StepLabelOk t c m g l m' l' := by
  cases pc <;> simp only [makeNode] at h <;> split at h <;> cases h <;>
    exact StepLabelOk.silent (by simp [hpc]) (by simp [hpc]) (by simp [hpc]) (by simp [hpc])
      (by simp)

theorem enq_label {pc : EnqPc} (hS : Shared m g) (hO : Own t m g l) (hpc : l.pc = .enq pc)
    (h : enq c m l pc = .next m' l') : StepLabelOk t c m g l m' l' := by
  have hargs : l.op = .enq l.v := by simpa [Local.argsOk, hpc] using hO.status.args
  cases pc with
  | link => exact enqLink_label hS hO hpc h
  | loadTail =>
      obtain ⟨p, hn, -⟩ : Ready m l := by simpa [outline, hpc] using hO.here
      simp only [enq, hn] at h
      cases h
      exact StepLabelOk.silent (by simp [hpc]) (by simp [hpc]) (by simp [hpc]) (by simp [hpc])
        (by simp)
  -- the value is in the queue since the link CAS, whoever moves `tail`
  | swing =>
      simp only [enq] at h
      split at h <;> cases h <;>
        exact StepLabelOk.silent (by simp [hpc]) (by simp [hpc]) (by simp [hpc])
          (by simp [hpc, hargs]) (by simp [Local.isEnq, hargs])
  | reload =>
      simp only [enq] at h
      split at h
      · split at h <;> cases h <;>
          exact StepLabelOk.silent (by simp [hpc]) (by simp [hpc]) (by simp [hpc]) (by simp [hpc])
            (by simp)
      · cases h
        exact StepLabelOk.silent (by simp [hpc]) (by simp [hpc]) (by simp [hpc]) (by simp [hpc])
          (by simp)
  | data | next | loadNext | help =>
      simp only [enq] at h
      split at h <;> cases h <;>
        exact StepLabelOk.silent (by simp [hpc]) (by simp [hpc]) (by simp [hpc]) (by simp [hpc])
          (by simp)

theorem deq_label {pc : DeqPc} (hS : Shared m g) (hO : Own t m g l) (hpc : l.pc = .deq pc)
    (h : deq c m l pc = .next m' l') : StepLabelOk t c m g l m' l' := by
  have hargs : l.op = .deq l.out := by simpa [Local.argsOk, hpc] using hO.status.args
  cases pc with
  | loadNext => exact deqLoadNext_label hS hO hpc h
  | cas => exact deqCas_label hS hO hpc h
  | reload =>
      -- a dequeue that leaves the loop here returns 0 for the `next` it loaded last
      simp only [deq] at h
      split at h
      · split at h
        next heq =>
          split at h
          next hnull =>
            cases h
            exact StepLabelOk.silent (by simp [hpc]) (by simp [hpc]) (by simp [hpc])
              (by simp [hpc, hargs]) fun he => by
                simpa [hpc, heq, hnull, Local.isEnq] using he
          next =>
            cases h
            exact StepLabelOk.silent (by simp [hpc]) (by simp [hpc]) (by simp [hpc])
              (by simp [hpc]) (by simp)
        next =>
          cases h
          exact StepLabelOk.silent (by simp [hpc]) (by simp [hpc]) (by simp [hpc]) (by simp [hpc])
            (by simp)
      · cases h
        exact StepLabelOk.silent (by simp [hpc]) (by simp [hpc]) (by simp [hpc]) (by simp [hpc])
          (by simp)
  | help | loadData =>
      simp only [deq] at h
      split at h <;> cases h <;>
        exact StepLabelOk.silent (by simp [hpc]) (by simp [hpc]) (by simp [hpc]) (by simp [hpc])
          (by simp)
  | loadHead | loadTail | writeOut =>
      cases h
      exact StepLabelOk.silent (by simp [hpc]) (by simp [hpc]) (by simp [hpc]) (by simp [hpc])
        (by simp)

theorem mmRetire_label {pc : RetirePc} (hO : Own t m g l) (hpc : l.pc = .retire pc)
    (h : mmRetire t c m l pc = .next m' l') : StepLabelOk t c m g l m' l' := by
  have hargs : l.isEnq = false := by simpa only [Local.argsOk, hpc] using hO.status.args
  cases pc with
  | malloc | node | next =>
      simp only [mmRetire] at h
      split at h <;> cases h <;>
        exact StepLabelOk.silent (by simp [hpc]) (by simp [hpc]) (by simp [hpc]) (by simp [hpc])
          (by simp)
  | push =>
      cases h
      exact StepLabelOk.silent (by simp [hpc]) (by simp [hpc]) (by simp [hpc]) (by simp [hpc])
        (by simp)
  | count =>
      cases h
      refine StepLabelOk.silent (by simp [hpc]) (by simp [hpc]) (by simp [hpc]) ?_ (by simp)
      cases hop : l.op with
      | enq v => simp [Local.isEnq, hop] at hargs
      | deq out => simp [hpc]

/-- Behind its body an operation keeps its result. -/
theorem StepLabelOk.finished (hpc : (∃ pc, l.pc = .opEnd pc) ∨ (∃ pc, l.pc = .wait pc) ∨
      (∃ pc, l.pc = .reclaim pc) ∨ ∃ pc, l.pc = .recycle pc)
    (hpc' : (∃ pc, l'.pc = .opEnd pc) ∨ (∃ pc, l'.pc = .wait pc) ∨ (∃ pc, l'.pc = .reclaim pc) ∨
      (∃ pc, l'.pc = .recycle pc) ∨ l'.pc = .ret)
    (hop : l'.op = l.op) (hcode : l'.code = l.code) (hout : l'.out = l.out) :
    StepLabelOk t c m g l m' l' := by
  have hphase : l'.phase = l'.finished := by
    rcases hpc' with ⟨pc, h⟩ | ⟨pc, h⟩ | ⟨pc, h⟩ | ⟨pc, h⟩ | h <;> simp [h]
  have hemptied : l'.emptied → l.isEnq = false ∧ l.code = 0 := by
    rcases hpc' with ⟨pc, h⟩ | ⟨pc, h⟩ | ⟨pc, h⟩ | ⟨pc, h⟩ | h <;>
      simp [h, Local.isEnq, hop, hcode]
  have hfin : l'.finished = l.finished := by simp only [Local.finished, hop, hcode, hout]
  rcases hpc with ⟨pc, h⟩ | ⟨pc, h⟩ | ⟨pc, h⟩ | ⟨pc, h⟩
  all_goals
    refine StepLabelOk.silent (by simp [h]) (by simp [h]) (by simp [h]) ?_ ?_
    · rw [hphase, hfin]
      simp only [Local.phase, h]
    · simpa only [Local.emptied, h] using hemptied

theorem finished_label (hpc : (∃ pc, l.pc = .opEnd pc) ∨ (∃ pc, l.pc = .wait pc) ∨
      (∃ pc, l.pc = .reclaim pc) ∨ ∃ pc, l.pc = .recycle pc)
    (h : step t c m l = .next m' l') : StepLabelOk t c m g l m' l' := by
  rcases hpc with ⟨pc, hpc⟩ | ⟨pc, hpc⟩ | ⟨pc, hpc⟩ | ⟨pc, hpc⟩ <;> simp only [step, hpc] at h
  · cases pc <;> simp only [mmOpEnd] at h
    case inc =>
      cases h
      exact StepLabelOk.finished (by simp [hpc]) (by simp) rfl rfl rfl
    case check =>
      split at h <;> cases h <;>
        exact StepLabelOk.finished (by simp [hpc]) (by simp) rfl rfl rfl
  · cases pc <;> simp only [mmWaitUntilUnreserved] at h
    case load =>
      split at h
      · split at h
        · cases h
          exact StepLabelOk.finished (by simp [hpc]) (by simp [hpc]) rfl rfl rfl
        · split at h <;> cases h <;>
            exact StepLabelOk.finished (by simp [hpc]) (by simp [hpc]) rfl rfl rfl
      · cases h
        exact StepLabelOk.finished (by simp [hpc]) (by simp) rfl rfl rfl
    case spin =>
      split at h
      · split at h <;> cases h <;>
          exact StepLabelOk.finished (by simp [hpc]) (by simp [hpc]) rfl rfl rfl
      · cases h
  · cases pc <;> simp only [mmReclaimAll] at h
    case loop | free =>
      split at h <;> cases h <;>
        exact StepLabelOk.finished (by simp [hpc]) (by simp) rfl rfl rfl
    case load | clear | count =>
      cases h
      exact StepLabelOk.finished (by simp [hpc]) (by simp) rfl rfl rfl
  · cases pc <;> simp only [recycleNode] at h
    case next =>
      split at h <;> cases h
      exact StepLabelOk.finished (by simp [hpc]) (by simp) rfl rfl rfl
    case head | size | count =>
      cases h
      exact StepLabelOk.finished (by simp [hpc]) (by simp) rfl rfl rfl

theorem step_label (hS : Shared m g) (hO : Own t m g l) (h : step t c m l = .next m' l') :
    StepLabelOk t c m g l m' l' := by
  cases hpc : l.pc with
  | idle =>
      simp only [step, hpc] at h
      cases h
      have hitems : (record t c m l g).lay.items = g.lay.items :=
        record_items (by simp [hpc]) (by simp [hpc])
      rw [StepLabelOk, show label t c m l = some (.act (.call c.op)) by simp [hpc]]
      cases hop : c.op <;>
        exact ⟨by simp [Act.apply, hitems, hpc, Local.call, hop], by simp [Local.call, hop]⟩
  | opBegin => exact mmOpBegin_label hpc (by simpa only [step, hpc] using h)
  | upcylce pc => exact upcylceNode_label hpc (by simpa only [step, hpc] using h)
  | make pc => exact makeNode_label hpc (by simpa only [step, hpc] using h)
  | enq pc => exact enq_label hS hO hpc (by simpa only [step, hpc] using h)
  | deq pc => exact deq_label hS hO hpc (by simpa only [step, hpc] using h)
  | retire pc => exact mmRetire_label hO hpc (by simpa only [step, hpc] using h)
  | opEnd pc => exact finished_label (.inl ⟨pc, hpc⟩) h
  | wait pc => exact finished_label (.inr (.inl ⟨pc, hpc⟩)) h
  | reclaim pc => exact finished_label (.inr (.inr (.inl ⟨pc, hpc⟩))) h
  | recycle pc => exact finished_label (.inr (.inr (.inr ⟨pc, hpc⟩))) h
  | ret =>
      simp only [step, hpc] at h
      cases h
      exact ret_label hO hpc

/-! ## The simulation -/

/-- Ex5 with its history simulates the atomic queue. -/
def simulation (n : Nat) :
    Linearizes (withHistory (step (n := n)) record) (fun t c mg l => label t c mg.1 l)
      (guarantee n).Inv where
  items mg := mg.2.lay.items
  phase := Local.phase
  emptied := Local.emptied
  emptied_deq _ := Local.emptied_deq
  inv h hf := h.fire hf
  step := by
    intro s t c mg' l' hI h
    obtain ⟨hstep, hg⟩ := withHistory_next.mp h
    have hok := step_label hI.shared (hI.own t) hstep
    rw [StepLabelOk, ← hg] at hok
    exact hok

theorem lockFreeQueue_linearizable {sched : List (Fin n × Choice)} {s : State n}
    (h : run step (init n) sched = some s) :
    ∃ q : Fifo (Fin n) Value,
      Fifo.empty.run (linearize (labels step label (init n) sched)) = some q ∧
      (∃ ps, Chain (fun p => (s.mem.store.heap p).next) s.mem.store.head ps ∧
        q.items = ps.tail.map fun p => (s.mem.store.heap p).data) ∧
      (∀ t, q.phase t = (s.th t).phase) ∧
      history (linearize (labels step label (init n) sched)) =
        interface (labels step label (init n) sched) ∧
      enqueued (linearize (labels step label (init n) sched)) =
        dequeued (linearize (labels step label (init n) sched)) ++ q.items := by
  obtain ⟨g, hI, hsim⟩ :=
    (simulation n).run_linearize_history (inv_iff.mp (inv_init n)) (fun _ => rfl) h
  have hinv : Inv s g := inv_iff.mpr hI
  have hfifo := Fifo.fifo hsim
  exact ⟨_, hsim, ⟨_, hinv.shared.valid.main_chain, hinv.shared.valid.items_eq⟩, fun _ => rfl,
    history_linearize _, hfifo⟩

/-- The abstract run that explains `handover`. -/
theorem lockFreeQueue_linearizable_handover :
    ∃ s q, run step (init 2) (handover 0 1) = some s ∧
      Fifo.empty.run (linearize (labels step label (init 2) (handover 0 1))) = some q ∧
      (∀ t, q.phase t = (s.th t).phase) ∧
      enqueued (linearize (labels step label (init 2) (handover 0 1))) =
        dequeued (linearize (labels step label (init 2) (handover 0 1))) ++ q.items := by
  obtain ⟨s, hs⟩ : ∃ s, run step (init 2) (handover 0 1) = some s := ⟨_, rfl⟩
  obtain ⟨q, hrun, -, hphase, -, hfifo⟩ := lockFreeQueue_linearizable hs
  exact ⟨s, q, hs, hrun, hphase, hfifo⟩

end ConcurrentQueues.Ex5
