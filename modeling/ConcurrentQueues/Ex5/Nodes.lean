import ConcurrentQueues.Ex5.Records

/-!
# Ex5 — what each step moves between the lists of nodes

A dequeue unlinks the sentinel at its head CAS and puts it on its free list only when it reclaims;
in between the node is in neither list.
-/

namespace ConcurrentQueues.Ex5

open Reasoning Layout

variable {n : Nat} {t : Fin n} {m m' : Mem n} {g : History n} {l l' : Local} {c : Choice}

namespace Local

/-- What the call returns. -/
def res (l : Local) : Res Value :=
  match l.op with
  | .enq _ => .enq l.code
  | .deq _ => .deq l.code l.out

/-- What the call has moved so far. -/
def stage (l : Local) : Stage :=
  match l.pc with
  | .idle => .idle
  | .opBegin => .called l.op
  | .upcylce .size | .make .next => .taken l.v l.n
  -- without memory there is no node
  | .make .data => if l.n = none then .called l.op else .taken l.v l.n
  | .upcylce _ | .make .malloc => .called l.op
  | .enq .swing => .done (.enq 1)
  | .enq _ => .taken l.v l.n
  | .deq .reload => if l.first = l.last ∧ l.next = none then .emptied l.out else .called l.op
  | .deq .writeOut => .unlinked l.val l.first
  | .deq _ => .called l.op
  | .retire _ => .unlinked l.out l.first
  | .opEnd _ => if l.took then .unlinked l.out l.first else .done l.res
  | .wait _ => .unlinked l.out l.first
  | .reclaim .loop => if l.r = none then .done l.res else .unlinked l.out l.first
  | .reclaim .free => .done l.res
  | .reclaim _ => .unlinked l.out l.first
  | .recycle .next | .recycle .head => .unlinked l.out l.node
  | .recycle _ => .done l.res
  | .ret => .done l.res

end Local

def mark (_ : Fin n) (c : Choice) (_ : Mem n) (l : Local) : Option Mark :=
  match l.pc with
  | .idle => some (.call c.op)
  | .make .malloc => if c.malloc = none then none else some .malloc
  | .ret => some (.ret l.res)
  | _ => none

/-- A step moves nodes between the lists as its stage allows. -/
abbrev StepNodes (t : Fin n) (c : Choice) (m : Mem n) (g : History n) (l : Local) (m' : Mem n)
    (l' : Local) : Prop :=
  Nodes.Step t c.malloc.isSome (mark t c m l) (g.lay.nodes m.store.brk) l.stage
    ((record t c m l g).lay.nodes m'.store.brk) l'.stage

/-- The program points at which a step moves a node. -/
def Pc.moves : Pc → Bool
  | .upcylce .storeHead | .make .malloc | .enq .link | .deq .cas | .recycle .head => true
  | _ => false

theorem record_nodes (hpc : l.pc.moves = false) (brk : Addr) :
    (record t c m l g).lay.nodes brk = g.lay.nodes brk := by
  unfold Pc.moves at hpc
  unfold record
  split
  all_goals try split
  all_goals try split
  all_goals first
    | rfl
    | simp_all

theorem StepNodes.silent (hmark : mark t c m l = none) (hpc : l.pc.moves = false)
    (hbrk : m'.store.brk = m.store.brk) (hstage : l'.stage = l.stage) :
    StepNodes t c m g l m' l' := by
  rw [StepNodes, hmark, record_nodes hpc, hbrk, hstage]
  exact .silent _ _

attribute [local simp] StepNodes Local.stage mark record Pc.moves

theorem upcylceNode_nodes {pc : UpcylcePc} (hO : Own t m g l) (hpc : l.pc = .upcylce pc)
    (h : upcylceNode t m l pc = .next m' l') : StepNodes t c m g l m' l' := by
  have hargs : l.op = .enq l.v := by simpa [Local.argsOk, hpc] using hO.status.args
  have hout := hO.here
  simp only [outline, hpc] at hout
  cases pc <;> simp only [upcylceNode] at h hout
  case loadHead | loadNext =>
    split at h <;> cases h <;>
      exact StepNodes.silent (by simp [hpc]) (by simp [hpc]) rfl (by simp [hpc])
  case storeHead =>
    cases h
    obtain ⟨p, rest, hn, hfree, -⟩ := hout
    have hstep : Nodes.Step t c.malloc.isSome _ _ _ _ _ :=
      .pop (g.lay.nodes m.store.brk) l.v p rest hfree
    simpa [hpc, hn, hargs, nodes_pop, hfree] using hstep
  case size =>
    cases h
    exact StepNodes.silent (by simp [hpc]) (by simp [hpc]) rfl (by simp [hpc])

theorem makeNode_nodes {pc : MakePc} (hS : Shared m g) (hO : Own t m g l) (hpc : l.pc = .make pc)
    (hfree : pc = .malloc → (m.store.freeLists t).head = none)
    (h : makeNode c m l pc = .next m' l') : StepNodes t c m g l m' l' := by
  have hargs : l.op = .enq l.v := by simpa [Local.argsOk, hpc] using hO.status.args
  cases pc <;> simp only [makeNode] at h
  case malloc =>
    have hnil : (g.lay.nodes m.store.brk).free t = [] :=
      (hS.valid.chain t).eq_none_iff.mp (hfree rfl)
    split at h
    next raw hraw =>
      cases h
      have hstep : Nodes.Step t c.malloc.isSome _ _ _ _ _ :=
        .malloc (g.lay.nodes m.store.brk) l.v hnil
      simpa [hpc, hraw, hargs, nodes_take] using hstep
    next hraw =>
      cases h
      have hstep : Nodes.Step t c.malloc.isSome _ _ _ _ _ :=
        .silent (g.lay.nodes m.store.brk) (.called (.enq l.v))
      simpa [hpc, hraw, hargs] using hstep
  case data | next =>
    split at h
    · cases h
      exact StepNodes.silent (by simp [hpc]) (by simp [hpc]) rfl (by simp [*])
    · cases h

theorem enq_nodes {pc : EnqPc} (hS : Shared m g) (hO : Own t m g l) (hpc : l.pc = .enq pc)
    (h : enq c m l pc = .next m' l') : StepNodes t c m g l m' l' := by
  have hargs : l.op = .enq l.v := by simpa [Local.argsOk, hpc] using hO.status.args
  cases pc <;> simp only [enq] at h
  case link =>
    obtain ⟨⟨p, hn, hheap⟩, hlast⟩ : Ready m l ∧ Last t g l := by
      simpa [outline, hpc] using hO.here
    simp only [hlast.eq] at h
    split at h
    next hcas =>
      cases h
      have hstep : Nodes.Step t c.malloc.isSome _ _ _ _ _ :=
        .append (g.lay.nodes m.store.brk) l.v p
      rw [← g.lay.nodes_link hS.valid.hd_lt t p l.v] at hstep
      simpa [hpc, hn, hheap, hlast.eq, hcas] using hstep
    next hcas =>
      cases h
      have hstep : Nodes.Step t c.malloc.isSome _ _ _ _ _ :=
        .silent (g.lay.nodes m.store.brk) (.taken l.v l.n)
      simpa [hpc, hn, hlast.eq, hcas] using hstep
  case loadTail =>
    obtain ⟨p, hn, -⟩ : Ready m l := by simpa [outline, hpc] using hO.here
    simp only [hn] at h
    cases h
    exact StepNodes.silent (by simp [hpc]) (by simp [hpc]) rfl (by simp [hpc, hn])
  case swing =>
    split at h <;> cases h <;>
      exact StepNodes.silent (by simp [hpc]) (by simp [hpc]) rfl
        (by simp [hpc, hargs, Local.took, Local.isEnq, Local.res])
  case reload =>
    split at h
    · split at h <;> cases h <;>
        exact StepNodes.silent (by simp [hpc]) (by simp [hpc]) rfl (by simp [hpc])
    · cases h
      exact StepNodes.silent (by simp [hpc]) (by simp [hpc]) rfl (by simp [hpc])
  case data | next | loadNext | help =>
    split at h <;> cases h <;>
      exact StepNodes.silent (by simp [hpc]) (by simp [hpc]) rfl (by simp [hpc])

/-- A `NULL` loaded from `first->next`, with `last` equal to `first`, shows the queue empty. -/
theorem deqLoadNext_nodes (hS : Shared m g) (hO : Own t m g l) (hpc : l.pc = .deq .loadNext)
    (h : deq c m l .loadNext = .next m' l') : StepNodes t c m g l m' l' := by
  have hargs : l.op = .deq l.out := by simpa [Local.argsOk, hpc] using hO.status.args
  have hbody : g.body t = true := by simpa [hpc, Pc.inBody] using hO.status.body
  obtain ⟨hfirst, -, -⟩ : First t g l ∧ Last t g l ∧ g.iFirst t ≤ g.iLast t := by
    simpa [outline, hpc] using hO.here
  simp only [deq, hfirst.eq] at h
  cases h
  by_cases hempty : some (g.lay.node (g.iFirst t)) = l.last ∧
      (m.store.heap (g.lay.node (g.iFirst t))).next = none
  · have hlive := hS.live hbody hfirst.start_le hfirst.lt_len
    have hlen := (hS.valid.next_eq_none_iff hlive).mp hempty.2
    have hhd := hfirst.le_hd
    have hitems : (g.lay.nodes m.store.brk).items = [] := g.lay.items_eq_nil_iff.mpr (by omega)
    have hstep : Nodes.Step t c.malloc.isSome _ _ _ _ _ :=
      .peek (g.lay.nodes m.store.brk) l.out hitems
    simpa [hpc, hargs, hfirst.eq, hempty] using hstep
  · have hstep : Nodes.Step t c.malloc.isSome _ _ _ _ _ :=
      .silent (g.lay.nodes m.store.brk) (.called (.deq l.out))
    simpa [hpc, hargs, hfirst.eq, hempty] using hstep

theorem deq_nodes {pc : DeqPc} (hS : Shared m g) (hO : Own t m g l) (hpc : l.pc = .deq pc)
    (h : deq c m l pc = .next m' l') : StepNodes t c m g l m' l' := by
  have hargs : l.op = .deq l.out := by simpa [Local.argsOk, hpc] using hO.status.args
  cases pc with
  | loadNext => exact deqLoadNext_nodes hS hO hpc h
  | reload =>
      have hitem : Nodes.Step t c.malloc.isSome _ _ _ _ _ :=
        .retry (g.lay.nodes m.store.brk) l.out
      simp only [deq] at h
      split at h
      · split at h
        next heq =>
          split at h
          next hnull =>
            -- the dequeue leaves the loop and returns 0
            cases h
            have hstep : Nodes.Step t c.malloc.isSome _ _ _ _ _ :=
              .settle (g.lay.nodes m.store.brk) l.out
            simpa [hpc, heq, hnull, hargs, Local.took, Local.res] using hstep
          next hnull =>
            cases h
            exact StepNodes.silent (by simp [hpc]) (by simp [hpc]) rfl (by simp [hpc, hnull])
        next hne =>
          cases h
          exact StepNodes.silent (by simp [hpc]) (by simp [hpc]) rfl (by simp [hpc, hne])
      · -- `head` has moved: whatever was seen, the loop starts again
        cases h
        by_cases hempty : l.first = l.last ∧ l.next = none
        · simpa [hpc, hempty, hargs] using hitem
        · exact StepNodes.silent (by simp [hpc]) (by simp [hpc]) rfl (by simp [hpc, hempty])
  | cas =>
      have hbody : g.body t = true := by simpa [hpc, Pc.inBody] using hO.status.body
      obtain ⟨hsucc, hval⟩ : Successor t g l ∧ l.val = g.lay.val (g.iFirst t + 1) := by
        simpa [outline, hpc] using hO.here
      simp only [deq] at h
      split at h
      next hcas =>
        cases h
        have hhd := hsucc.first.head_eq hS hbody hcas.1
        have hlt : g.lay.hd + 1 < g.lay.len := hhd ▸ hsucc.succ_lt
        have hfirst : l.first = some (g.lay.node g.lay.hd) := hhd ▸ hsucc.first.eq
        have hstep : Nodes.Step t c.malloc.isSome _ _ _ _ _ :=
          .unlink (g.lay.nodes m.store.brk) l.out l.val
          (g.lay.node g.lay.hd) _ _ (g.lay.main_moveHead hS.valid.hd_lt t)
          ((g.lay.items_moveHead hlt t).trans (by rw [hval, hhd]))
        rw [← g.lay.nodes_moveHead hlt t] at hstep
        simpa [hpc, hcas, hargs, ← hfirst] using hstep
      next hcas =>
        cases h
        have hstep : Nodes.Step t c.malloc.isSome _ _ _ _ _ :=
          .silent (g.lay.nodes m.store.brk) (.called (.deq l.out))
        simpa [hpc, hcas, hargs] using hstep
  | help | loadData =>
      simp only [deq] at h
      split at h <;> cases h <;>
        exact StepNodes.silent (by simp [hpc]) (by simp [hpc]) rfl (by simp [hpc])
  | loadHead | loadTail | writeOut =>
      cases h
      exact StepNodes.silent (by simp [hpc]) (by simp [hpc]) rfl (by simp [hpc])

theorem mmRetire_nodes {pc : RetirePc} (hO : Own t m g l) (hpc : l.pc = .retire pc)
    (h : mmRetire t c m l pc = .next m' l') : StepNodes t c m g l m' l' := by
  have hargs : l.isEnq = false := by simpa only [Local.argsOk, hpc] using hO.status.args
  cases pc <;> simp only [mmRetire] at h
  case malloc | node | next =>
    split at h <;> cases h <;>
      exact StepNodes.silent (by simp [hpc]) (by simp [hpc]) rfl (by simp [hpc])
  case push =>
    cases h
    exact StepNodes.silent (by simp [hpc]) (by simp [hpc]) rfl (by simp [hpc])
  case count =>
    cases h
    refine StepNodes.silent (by simp [hpc]) (by simp [hpc]) rfl ?_
    have htook : ({ l with code := 1, pc := .opEnd .inc } : Local).took = true := by
      simpa [Local.took, Local.isEnq] using hargs
    simp [hpc, htook]

theorem mmOpEnd_nodes {pc : OpEndPc} (hO : Own t m g l) (hpc : l.pc = .opEnd pc)
    (h : mmOpEnd t m l pc = .next m' l') : StepNodes t c m g l m' l' := by
  have hcount := took_of_count hO
  cases pc <;> simp only [mmOpEnd] at h
  case inc =>
    cases h
    exact StepNodes.silent (by simp [hpc]) (by simp [hpc]) rfl
      (by simp [hpc, Local.took, Local.isEnq, Local.res])
  case check =>
    -- something is retired exactly if the operation was a dequeue that returns 1
    split at h <;> cases h
    next hzero =>
      have htook : l.took = false := Bool.eq_false_iff.mpr fun h => (hcount hpc).mp h hzero
      exact StepNodes.silent (by simp [hpc]) (by simp [hpc]) rfl
        (by simp [hpc, htook, Local.res])
    next hne =>
      have htook : l.took = true := (hcount hpc).mpr hne
      exact StepNodes.silent (by simp [hpc]) (by simp [hpc]) rfl (by simp [hpc, htook])

theorem mmWait_nodes {pc : WaitPc} (hpc : l.pc = .wait pc)
    (h : mmWaitUntilUnreserved t m l pc = .next m' l') : StepNodes t c m g l m' l' := by
  cases pc <;> simp only [mmWaitUntilUnreserved] at h
  case load =>
    split at h
    · split at h
      · cases h
        exact StepNodes.silent (by simp [hpc]) (by simp [hpc]) rfl (by simp [hpc])
      · split at h <;> cases h <;>
          exact StepNodes.silent (by simp [hpc]) (by simp [hpc]) rfl (by simp [hpc])
    · cases h
      exact StepNodes.silent (by simp [hpc]) (by simp [hpc]) rfl (by simp [hpc])
  case spin =>
    split at h
    · split at h <;> cases h <;>
        exact StepNodes.silent (by simp [hpc]) (by simp [hpc]) rfl (by simp [hpc])
    · cases h

theorem mmReclaimAll_nodes {pc : ReclaimPc} (hO : Own t m g l) (hpc : l.pc = .reclaim pc)
    (h : mmReclaimAll t m l pc = .next m' l') : StepNodes t c m g l m' l' := by
  have hout := hO.here
  simp only [outline, hpc] at hout
  cases pc <;> simp only [mmReclaimAll] at h hout
  case load | clear =>
    cases h
    exact StepNodes.silent (by simp [hpc]) (by simp [hpc]) rfl (by simp [hpc])
  case count =>
    cases h
    obtain ⟨hsafe, hr⟩ := hout
    obtain ⟨r, hrec, -⟩ := hsafe.unlinked.record
    exact StepNodes.silent (by simp [hpc]) (by simp [hpc]) rfl (by simp [hpc, hr, hrec])
  case loop =>
    split at h
    next r hr =>
      cases h
      -- the record holds the node the dequeue has unlinked
      obtain ⟨hsafe, hrec⟩ := hout.resolve_left (by simp [hr])
      obtain ⟨r', hrec', hheap⟩ := hsafe.unlinked.record
      obtain rfl : r = r' := Option.some.inj (hr.symm.trans (hrec.trans hrec'))
      exact StepNodes.silent (by simp [hpc]) (by simp [hpc]) rfl (by simp [hpc, hr, hheap])
    next hr =>
      cases h
      exact StepNodes.silent (by simp [hpc]) (by simp [hpc]) rfl (by simp [hpc, hr, Local.res])
  case free =>
    split at h <;> cases h
    exact StepNodes.silent (by simp [hpc]) (by simp [hpc]) rfl (by simp [hpc, hout.2, Local.res])

theorem recycleNode_nodes {pc : RecyclePc} (hO : Own t m g l) (hpc : l.pc = .recycle pc)
    (h : recycleNode t m l pc = .next m' l') : StepNodes t c m g l m' l' := by
  have hargs := hO.status.args
  have hout := hO.here
  simp only [Local.argsOk, hpc] at hargs
  simp only [outline, hpc] at hout
  cases pc <;> simp only [recycleNode] at h hout
  case next =>
    split at h <;> cases h
    exact StepNodes.silent (by simp [hpc]) (by simp [hpc]) rfl (by simp [hpc])
  case head =>
    cases h
    obtain ⟨-, -, p, hp, -⟩ := hout
    obtain ⟨out, hop⟩ : ∃ out, l.op = .deq out := by
      cases hl : l.op with
      | enq v => simp [Local.isEnq, hl] at hargs
      | deq out => exact ⟨out, rfl⟩
    have hstep : Nodes.Step t c.malloc.isSome _ _ _ _ _ :=
      .push (g.lay.nodes m.store.brk) l.out p
    simpa [hpc, hp, nodes_push, Local.res, hop, hargs.2] using hstep
  case size | count =>
    cases h
    exact StepNodes.silent (by simp [hpc]) (by simp [hpc]) rfl (by simp [hpc, Local.res])

theorem step_nodes (hS : Shared m g) (hO : Own t m g l)
    (hfree : l.pc = .make .malloc → (m.store.freeLists t).head = none)
    (h : step t c m l = .next m' l') : StepNodes t c m g l m' l' := by
  cases hpc : l.pc with
  | idle =>
      simp only [step, hpc] at h
      cases h
      have hstep : Nodes.Step t c.malloc.isSome _ _ _ _ _ :=
        .call (g.lay.nodes m.store.brk) c.op
      cases hop : c.op <;> simpa [hpc, Local.call, hop] using hstep
  | opBegin =>
      simp only [step, hpc, mmOpBegin] at h
      cases h
      cases henq : l.isEnq with
      | true => exact StepNodes.silent (by simp [hpc]) (by simp [hpc]) rfl (by simp [hpc])
      | false => exact StepNodes.silent (by simp [hpc]) (by simp [hpc]) rfl (by simp [hpc])
  | upcylce pc => exact upcylceNode_nodes hO hpc (by simpa only [step, hpc] using h)
  | make pc =>
      exact makeNode_nodes hS hO hpc (fun hm => hfree (by rw [hpc, hm]))
        (by simpa only [step, hpc] using h)
  | enq pc => exact enq_nodes hS hO hpc (by simpa only [step, hpc] using h)
  | deq pc => exact deq_nodes hS hO hpc (by simpa only [step, hpc] using h)
  | retire pc => exact mmRetire_nodes hO hpc (by simpa only [step, hpc] using h)
  | opEnd pc => exact mmOpEnd_nodes hO hpc (by simpa only [step, hpc] using h)
  | wait pc => exact mmWait_nodes hpc (by simpa only [step, hpc] using h)
  | reclaim pc => exact mmReclaimAll_nodes hO hpc (by simpa only [step, hpc] using h)
  | recycle pc => exact recycleNode_nodes hO hpc (by simpa only [step, hpc] using h)
  | ret =>
      simp only [step, hpc] at h
      cases h
      have hstep : Nodes.Step t c.malloc.isSome _ _ _ _ _ :=
        .ret (g.lay.nodes m.store.brk) l.res
      simpa [hpc] using hstep

/-! ## The free list at `make_node` -/

/-- A thread calls `make_node` only if its free list is empty. -/
def Drained (s : State n) : Prop :=
  ∀ t, (s.th t).pc = .make .malloc → (s.mem.store.freeLists t).head = none

theorem Pc.flow_make_malloc {pc : Pc} (h : .make .malloc ∈ pc.flow) : pc = .upcylce .loadHead := by
  rcases pc with _ | _ | pc | pc | pc | pc | pc | pc | pc | pc | pc | _ <;> try cases pc
  all_goals simp_all [Pc.flow]

theorem Drained.fire {s s' : State n} {e : Fin n × Choice} (h : Drained s) (hI : Inv s g)
    (hf : fire step s e = some s') : Drained s' := by
  obtain ⟨m', l', hstep, rfl⟩ := fire_eq_some.mp hf
  intro u hpc
  by_cases hu : u = e.1
  · subst hu
    simp only [Function.update_self] at hpc
    have hpre : (s.th e.1).pc = .upcylce .loadHead := Pc.flow_make_malloc (hpc ▸ step_flow hstep)
    simp only [step, hpre, upcylceNode] at hstep
    split at hstep
    · cases hstep
      cases hpc
    · cases hstep
      assumption
  · simp only [Function.update_of_ne hu] at hpc
    rw [((step_ok hI.shared (hI.own e.1) hstep).rely u hu).frame.freeList]
    exact h u hpc

theorem drained_init (n : Nat) : Drained (init n) := fun _ hpc => by cases hpc

/-- Ex5 with its history moves nodes as the calls allow. -/
def movesNodes (n : Nat) :
    MovesNodes (step (n := n)) mark fun s g => Inv s g ∧ Drained s ∧ Released s g where
  nodes m g := g.lay.nodes m.store.brk
  stage := Local.stage
  mem c := c.malloc.isSome
  step := by
    rintro s e s' g ⟨hI, hfree, hrel⟩ hf
    refine ⟨_, ⟨hI.fire hf, hfree.fire hI hf, hrel.fire hI hf⟩, ?_⟩
    obtain ⟨m', l', hstep, rfl⟩ := fire_eq_some.mp hf
    simpa only [Function.update_self] using
      step_nodes hI.shared (hI.own e.1) (hfree e.1) hstep

theorem size_eq {s : State n} (hI : Inv s g) (hpc : (s.th t).pc = .idle ∨ (s.th t).pc = .ret) :
    (s.mem.store.freeLists t).size = .ofNat (g.lay.free t).length := by
  have hslack : (s.th t).pc.slack = 0 := by rcases hpc with h | h <;> rw [h] <;> rfl
  rw [(hI.own t).status.size, hslack, Int32.add_zero]

end ConcurrentQueues.Ex5
