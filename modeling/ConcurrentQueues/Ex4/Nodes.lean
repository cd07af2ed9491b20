import ConcurrentQueues.Ex4.Steps
import ConcurrentQueues.Nodes

/-! Ex4 — what each step moves between the lists of nodes. -/

namespace ConcurrentQueues.Ex4

open Reasoning Layout

variable {n : Nat} {t : Fin n} {m m' : Mem n} {g : Layout n} {l l' : Local} {c : Choice}

namespace Local

/-- What the call returns. -/
def res (l : Local) : Res Value :=
  match l.op with
  | .enq _ => .enq l.code
  | .deq _ => .deq l.code l.out

/-- What the call has moved so far. -/
def stage (l : Local) : Stage :=
  match l.pc with
  | .idle => .idle
  | .upcylce .size | .enq .data | .enq .next | .enq .loadTail | .enq .link => .taken l.v l.newNode
  | .enq .storeTail | .enq .unlock => .done (.enq 1)
  | .enq .unlockFail => .done (.enq 0)
  | .upcylce _ | .enq .lock => .called l.op
  | .deq .lock | .deq .loadHead | .deq .loadNext | .deq .loadData | .deq .writeOut
  | .deq .storeHead => .called l.op
  | .deq .unlockEmpty => .emptied l.out
  | .deq .unlock | .recycle .size | .recycle .count => .done (.deq 1 l.out)
  | .deq _ | .recycle _ => .unlinked l.out l.sentinel
  | .ret => .done l.res

end Local

def mark (_ : Fin n) (c : Choice) (_ : Mem n) (l : Local) : Option Mark :=
  match l.pc with
  | .idle => some (.call c.op)
  | .upcylce .malloc => if c.malloc = none then none else some .malloc
  | .ret => some (.ret l.res)
  | _ => none

/-- A step moves nodes between the lists as its stage allows. -/
abbrev StepNodes (t : Fin n) (c : Choice) (m : Mem n) (g : Layout n) (l : Local) (m' : Mem n)
    (l' : Local) : Prop :=
  Nodes.Step t c.malloc.isSome (mark t c m l) (g.nodes m.store.brk) l.stage
    ((record t c m l g).nodes m'.store.brk) l'.stage

theorem StepNodes.silent (hmark : mark t c m l = none) (hrec : record t c m l g = g)
    (hbrk : m'.store.brk = m.store.brk) (hstage : l'.stage = l.stage) :
    StepNodes t c m g l m' l' := by
  rw [StepNodes, hmark, hrec, hbrk, hstage]
  exact .silent _ _

attribute [local simp] StepNodes Local.stage mark record

theorem upcylceNode_nodes {pc : UpcylcePc} (hS : Shared m g) (hO : Own t m g l)
    (hpc : l.pc = .upcylce pc) (h : upcylceNode t c m l pc = .next m' l') :
    StepNodes t c m g l m' l' := by
  have hargs : l.op = .enq l.v := by simpa [Local.argsOk, hpc] using hO.status.args
  have hout := hO.here
  simp only [outline, hpc] at hout
  cases pc <;> simp only [upcylceNode] at h hout
  case loadHead | loadNext =>
    split at h <;> cases h <;>
      exact StepNodes.silent (by simp [hpc]) (by simp [hpc]) rfl (by simp [hpc])
  case storeHead =>
    cases h
    obtain ⟨p, rest, hn, hfree, -⟩ := hout
    have hstep : Nodes.Step t c.malloc.isSome _ _ _ _ _ :=
      .pop (g.nodes m.store.brk) l.v p rest hfree
    simpa [hpc, hn, hargs, nodes_pop, hfree] using hstep
  case size =>
    cases h
    exact StepNodes.silent (by simp [hpc]) (by simp [hpc]) rfl (by simp [hpc])
  case malloc =>
    -- an empty free list is one without a head
    have hfree : (g.nodes m.store.brk).free t = [] := (hS.valid.chain t).eq_none_iff.mp hout
    split at h
    next raw hraw =>
      cases h
      have hstep : Nodes.Step t c.malloc.isSome _ _ _ _ _ :=
        .malloc (g.nodes m.store.brk) l.v hfree
      simpa [hpc, hraw, hargs, nodes_take] using hstep
    next hraw =>
      cases h
      have hstep : Nodes.Step t c.malloc.isSome _ _ _ _ _ :=
        .outOfMemory (g.nodes m.store.brk) l.v hfree (by simp [hraw])
      simpa [hpc, hraw, hargs] using hstep

theorem enq_nodes {pc : EnqPc} (hS : Shared m g) (hO : Own t m g l) (hpc : l.pc = .enq pc)
    (h : enq t m l pc = .next m' l') : StepNodes t c m g l m' l' := by
  have hargs : l.op = .enq l.v := by simpa [Local.argsOk, hpc] using hO.status.args
  cases pc <;> simp only [enq] at h
  case link =>
    obtain ⟨⟨p, hn, hheap⟩, htail⟩ : Ready m l ∧ l.tail = some (g.node g.tl) := by
      simpa [outline, hpc] using hO.here
    simp only [htail] at h
    cases h
    have hstep : Nodes.Step t c.malloc.isSome _ _ _ _ _ :=
      .append (g.nodes m.store.brk) l.v p
    rw [← g.nodes_link hS.valid.hd_lt t p l.v] at hstep
    simpa [hpc, hn, hheap] using hstep
  case storeTail =>
    cases h
    have hstep : Nodes.Step t c.malloc.isSome _ _ _ _ _ :=
      .silent (g.nodes m.store.brk) (.done (.enq 1))
    simpa [hpc, nodes_moveTail] using hstep
  case lock | data | next =>
    split at h <;> cases h
    exact StepNodes.silent (by simp [hpc]) (by simp [hpc]) rfl (by simp [hpc])
  case loadTail =>
    cases h
    exact StepNodes.silent (by simp [hpc]) (by simp [hpc]) rfl (by simp [hpc])
  case unlock | unlockFail =>
    cases h
    exact StepNodes.silent (by simp [hpc]) (by simp [hpc]) rfl (by simp [hpc, Local.res, hargs])

theorem exists_deq (h : l.isEnq = false) : ∃ out, l.op = .deq out := by
  cases hop : l.op with
  | enq v => simp [Local.isEnq, hop] at h
  | deq out => exact ⟨out, rfl⟩

theorem deq_nodes {pc : DeqPc} (hS : Shared m g) (hO : Own t m g l) (hpc : l.pc = .deq pc)
    (h : deq t m l pc = .next m' l') : StepNodes t c m g l m' l' := by
  have hargs := hO.status.args
  have hout := hO.here
  simp only [Local.argsOk, hpc] at hargs
  simp only [outline, hpc] at hout
  cases pc <;> simp only [deq] at h hargs hout
  case loadNext =>
    simp only [hout] at h
    split at h
    next a hnext =>
      cases h
      exact StepNodes.silent (by simp [hpc]) (by simp [hpc]) rfl (by simp [hpc])
    next hnull =>
      -- the sentinel is the last node, so there are no items
      cases h
      have hlen := (hS.valid.next_eq_none_iff hS.valid.live_hd).mp hnull
      have hitems : (g.nodes m.store.brk).items = [] := g.items_eq_nil_iff.mpr hlen.ge
      have hstep : Nodes.Step t c.malloc.isSome _ _ _ _ _ :=
        .peek (g.nodes m.store.brk) l.out hitems
      simpa [hpc, hargs] using hstep
  case storeHead =>
    cases h
    obtain ⟨hfront, hval, hcopy⟩ := hout
    obtain ⟨out, hop⟩ := exists_deq hargs
    have hlt := hfront.succ_lt
    have hstep : Nodes.Step t c.malloc.isSome _ _ _ _ _ :=
      .unlink (g.nodes m.store.brk) out l.out (g.node g.hd) _ _
      (g.main_moveHead hS.valid.hd_lt t)
      ((g.items_moveHead hlt t).trans (by rw [hcopy, hval]))
    rw [← g.nodes_moveHead hlt t] at hstep
    simpa [hpc, hop, hfront.sentinel] using hstep
  case repairStore =>
    cases h
    exact StepNodes.silent (by simp [hpc]) (by simp [hpc]) rfl (by simp [hpc])
  case unlock =>
    cases h
    obtain ⟨out, hop⟩ := exists_deq hargs
    exact StepNodes.silent (by simp [hpc]) (by simp [hpc]) rfl (by simp [hpc, Local.res, hop])
  case unlockEmpty =>
    cases h
    have hstep : Nodes.Step t c.malloc.isSome _ _ _ _ _ :=
      .settle (g.nodes m.store.brk) l.out
    simpa [hpc, Local.res, hargs] using hstep
  case lock | loadData | repairLock =>
    split at h <;> cases h
    exact StepNodes.silent (by simp [hpc]) (by simp [hpc]) rfl (by simp [hpc])
  case reloadNext | repairNext =>
    split at h
    · split at h <;> cases h <;>
        exact StepNodes.silent (by simp [hpc]) (by simp [hpc]) rfl (by simp [hpc])
    · cases h
  case loadHead | writeOut | reloadHead | repairHead | repairLoad | repairUnlock =>
    cases h
    exact StepNodes.silent (by simp [hpc]) (by simp [hpc]) rfl (by simp [hpc])

theorem recycleNode_nodes {pc : RecyclePc} (hO : Own t m g l) (hpc : l.pc = .recycle pc)
    (h : recycleNode t m l pc = .next m' l') : StepNodes t c m g l m' l' := by
  have hout := hO.here
  simp only [outline, hpc] at hout
  cases pc <;> simp only [recycleNode] at h hout
  case next =>
    simp only [hout.sentinel] at h
    cases h
    have hstep : Nodes.Step t c.malloc.isSome _ _ _ _ _ :=
      .silent (g.nodes m.store.brk) (.unlinked l.out l.sentinel)
    simpa [hpc, hout.sentinel, nodes_detach] using hstep
  case head =>
    cases h
    obtain ⟨p, hp, -⟩ := hout
    have hstep : Nodes.Step t c.malloc.isSome _ _ _ _ _ :=
      .push (g.nodes m.store.brk) l.out p
    simpa [hpc, hp, nodes_push] using hstep
  case size | count =>
    cases h
    exact StepNodes.silent (by simp [hpc]) (by simp [hpc]) rfl (by simp [hpc])

theorem step_nodes (hS : Shared m g) (hO : Own t m g l) (h : step t c m l = .next m' l') :
    StepNodes t c m g l m' l' := by
  cases hpc : l.pc with
  | idle =>
      simp only [step, hpc] at h
      cases h
      have hstep : Nodes.Step t c.malloc.isSome _ _ _ _ _ :=
        .call (g.nodes m.store.brk) c.op
      cases hop : c.op <;> simpa [hpc, Local.call, hop] using hstep
  | upcylce pc => exact upcylceNode_nodes hS hO hpc (by simpa only [step, hpc] using h)
  | enq pc => exact enq_nodes hS hO hpc (by simpa only [step, hpc] using h)
  | deq pc => exact deq_nodes hS hO hpc (by simpa only [step, hpc] using h)
  | recycle pc => exact recycleNode_nodes hO hpc (by simpa only [step, hpc] using h)
  | ret =>
      simp only [step, hpc] at h
      cases h
      have hstep : Nodes.Step t c.malloc.isSome _ _ _ _ _ :=
        .ret (g.nodes m.store.brk) l.res
      simpa [hpc] using hstep

/-- Ex4 with its history moves nodes as the calls allow. -/
def movesNodes (n : Nat) : MovesNodes (step (n := n)) mark Inv where
  nodes m g := g.nodes m.store.brk
  stage := Local.stage
  mem c := c.malloc.isSome
  step := by
    intro s e s' g hI hf
    refine ⟨_, hI.fire hf, ?_⟩
    obtain ⟨m', l', hstep, rfl⟩ := fire_eq_some.mp hf
    simpa only [Function.update_self] using step_nodes hI.shared (hI.own e.1) hstep

theorem size_eq {s : State n} (hI : Inv s g) (hpc : (s.th t).pc = .idle ∨ (s.th t).pc = .ret) :
    (s.mem.store.freeLists t).size = .ofNat (g.free t).length := by
  have hslack : (s.th t).pc.slack = 0 := by rcases hpc with h | h <;> rw [h] <;> rfl
  rw [(hI.own t).status.size, hslack, Int32.add_zero]

end ConcurrentQueues.Ex4
