import ConcurrentQueues.Ex5.Nodes
import Mathlib.Algebra.Order.BigOperators.Group.Finset
import Mathlib.Data.Fintype.BigOperators
import Mathlib.Tactic.Abel

/-!
# Ex5 — bounded retirement

A dequeue retires the one node it has unlinked, and the same call waits and recycles it.  So a
retired list never holds more than one record, and a call that unlinks nothing never waits.
-/

namespace ConcurrentQueues.Ex5

open Reasoning

variable {n : Nat} {t u : Fin n} {m m' : Mem n} {g : History n} {l l' : Local} {c : Choice}
  {s s' : State n}

/-! ## What a call does, seen from outside -/

inductive Event where
  | call (op : Op Value)
  /-- the head CAS takes the sentinel out of the queue -/
  | unlink (p : Ptr)
  /-- a step of `mm_wait_until_unreserved` -/
  | wait
  /-- `recycle_node` makes the node the head of the free list -/
  | push (p : Ptr)
  /-- `if (free_list_insertion_count) (*free_list_insertion_count)++;` -/
  | insert
  | ret (res : Res Value)
  deriving DecidableEq

def event (c : Choice) (m : Mem n) (l : Local) : Option Event :=
  match l.pc with
  | .idle => some (.call c.op)
  | .deq .cas =>
      if m.store.head = l.first ∧ c.spurious = false then some (.unlink m.store.head) else none
  | .wait _ => some .wait
  | .recycle .head => some (.push l.node)
  | .recycle .count => some .insert
  | .ret => some (.ret l.res)
  | _ => none

/-- The events of a run, each with its thread. -/
def events (s : State n) (es : List (Fin n × Choice)) : List (Fin n × Event) :=
  trace step (fun t c m l => (event c m l).map (t, ·)) s es

/-- The events of one thread. -/
def eventsOf (t : Fin n) (tr : List (Fin n × Event)) : List Event :=
  tr.filterMap fun e => if e.1 = t then some e.2 else none

/-- The nodes that are unlinked and not yet pushed on a free list. -/
def limbo (tr : List (Fin n × Event)) : List Ptr :=
  tr.foldl (fun ps e =>
    match e.2 with
    | .unlink p => p :: ps
    | .push p => ps.erase p
    | _ => ps) []

/-- A dequeue that has unlinked `p` and looked at the counters of other threads `k` times. -/
def retiring (out : Value) (p : Addr) (k : Nat) : List Event :=
  .call (.deq out) :: .unlink (some p) :: List.replicate k .wait

/-- The events of a call that has returned: only a `deq` that returns 1 waits, and it pushes the
node it has unlinked. -/
inductive Complete : List Event → Prop
  | enq (v : Value) (code : Int) : Complete [.call (.enq v), .ret (.enq code)]
  | empty (out out' : Value) : Complete [.call (.deq out), .ret (.deq 0 out')]
  | deq (out : Value) (p : Addr) (k : Nat) (v : Value) :
      Complete (retiring out p k ++ [.push (some p), .insert, .ret (.deq 1 v)])

/-! ## How far a call is -/

inductive Reached where
  | outside | entered | unlinked | pushed | inserted
  deriving DecidableEq

namespace Local

def reached (l : Local) : Reached :=
  match l.pc with
  | .idle => .outside
  | .deq .writeOut | .retire _ | .wait _ => .unlinked
  | .opEnd _ => if l.took then .unlinked else .entered
  -- the second visit to the loop has no record left
  | .reclaim .loop => if l.r = none then .inserted else .unlinked
  | .reclaim .free => .inserted
  | .reclaim _ => .unlinked
  | .recycle .next | .recycle .head => .unlinked
  | .recycle _ => .pushed
  | .ret => if l.took then .inserted else .entered
  | _ => .entered

/-- The node the call has unlinked, while it is in no list. -/
def unlinkedNode (l : Local) : Ptr :=
  match l.pc with
  | .recycle .head => l.node
  | _ => l.first

end Local

/-- The events of an open call. -/
def Reached.Trace (op : Op Value) (p : Ptr) : Reached → List Event → Prop
  | .outside, w => w = []
  | .entered, w => w = [.call op]
  | .unlinked, w => ∃ out q k, op = .deq out ∧ p = some q ∧ w = retiring out q k
  | .pushed, w => ∃ out q k, op = .deq out ∧ w = retiring out q k ++ [.push (some q)]
  | .inserted, w => ∃ out q k, op = .deq out ∧ w = retiring out q k ++ [.push (some q), .insert]

/-- Whether a call with these arguments can end like this without having unlinked a node. -/
def NoNode : Op Value → Res Value → Prop
  | .enq _, .enq _ => True
  | .deq _, .deq code _ => code = 0
  | _, _ => False

/-- How a step moves its call on, with the event it announces. -/
inductive Announces (l : Local) : Option Event → Local → Prop
  | silent {l' : Local} (hreached : l'.reached = l.reached) (hop : l'.op = l.op)
      (hnode : l.reached = .unlinked → l'.unlinkedNode = l.unlinkedNode) : Announces l none l'
  | call {l' : Local} (h : l.reached = .outside) (h' : l'.reached = .entered) :
      Announces l (some (.call l'.op)) l'
  | unlink {l' : Local} (out : Value) (p : Addr) (h : l.reached = .entered)
      (h' : l'.reached = .unlinked) (hdeq : l.op = .deq out) (hop : l'.op = l.op)
      (hp : l'.unlinkedNode = some p) :
      Announces l (some (.unlink (some p))) l'
  | wait {l' : Local} (h : l.reached = .unlinked) (h' : l'.reached = .unlinked) (hop : l'.op = l.op)
      (hnode : l'.unlinkedNode = l.unlinkedNode) : Announces l (some .wait) l'
  | push {l' : Local} (p : Addr) (h : l.reached = .unlinked) (h' : l'.reached = .pushed)
      (hop : l'.op = l.op) (hp : l.unlinkedNode = some p) : Announces l (some (.push (some p))) l'
  | insert {l' : Local} (h : l.reached = .pushed) (h' : l'.reached = .inserted)
      (hop : l'.op = l.op) : Announces l (some .insert) l'
  | leave {l' : Local} (res : Res Value) (h : l.reached = .entered) (h' : l'.reached = .outside)
      (hres : NoNode l.op res) : Announces l (some (.ret res)) l'
  | finish {l' : Local} (v : Value) (h : l.reached = .inserted) (h' : l'.reached = .outside) :
      Announces l (some (.ret (.deq 1 v))) l'

section Steps

attribute [local simp] Local.reached Local.unlinkedNode event

theorem Announces.of_silent (hevent : event c m l = none) (hreached : l'.reached = l.reached)
    (hop : l'.op = l.op) (hnode : l.reached = .unlinked → l'.unlinkedNode = l.unlinkedNode) :
    Announces l (event c m l) l' := by
  rw [hevent]
  exact .silent hreached hop hnode

theorem Local.exists_deq (h : l.isEnq = false) : ∃ out, l.op = .deq out := by
  cases hop : l.op with
  | enq v => simp [Local.isEnq, hop] at h
  | deq out => exact ⟨out, rfl⟩

theorem upcylceNode_announces {pc : UpcylcePc} (hpc : l.pc = .upcylce pc)
    (h : upcylceNode t m l pc = .next m' l') : Announces l (event c m l) l' := by
  cases pc <;> simp only [upcylceNode] at h <;> (try split at h) <;> cases h <;>
    exact .of_silent (by simp [hpc]) (by simp [hpc]) rfl (by simp [hpc])

theorem makeNode_announces {pc : MakePc} (hpc : l.pc = .make pc)
    (h : makeNode c m l pc = .next m' l') : Announces l (event c m l) l' := by
  cases pc <;> simp only [makeNode] at h <;> (try split at h) <;> cases h <;>
    exact .of_silent (by simp [hpc]) (by simp [hpc]) rfl (by simp [hpc])

theorem enq_announces {pc : EnqPc} (hO : Own t m g l) (hpc : l.pc = .enq pc)
    (h : enq c m l pc = .next m' l') : Announces l (event c m l) l' := by
  have hop : l.op = .enq l.v := by simpa [Local.argsOk, hpc] using hO.status.args
  cases pc <;> simp only [enq] at h <;> (try split at h) <;> (try split at h) <;> cases h <;>
    exact .of_silent (by simp [hpc]) (by simp [hpc, hop, Local.took, Local.isEnq]) rfl
      (by simp [hpc])

theorem deq_announces {pc : DeqPc} (hO : Own t m g l) (hpc : l.pc = .deq pc)
    (h : deq c m l pc = .next m' l') : Announces l (event c m l) l' := by
  have hop : l.op = .deq l.out := by simpa [Local.argsOk, hpc] using hO.status.args
  cases pc <;> simp only [deq] at h
  case cas =>
    obtain ⟨hsucc, -⟩ : Successor t g l ∧ l.val = g.lay.val (g.iFirst t + 1) := by
      simpa [outline, hpc] using hO.here
    split at h
    next hcas =>
      cases h
      have hstep : Announces l _ (l.goto (.deq .writeOut)) :=
        .unlink l.out (g.lay.node (g.iFirst t)) (by simp [hpc]) (by simp) hop rfl hsucc.first.eq
      simpa [hpc, hcas, ← hsucc.first.eq] using hstep
    next hcas =>
      cases h
      exact .of_silent (by simp [hpc, hcas]) (by simp [hpc]) rfl (by simp [hpc])
  all_goals
    (try split at h) <;> (try split at h) <;> (try split at h) <;> cases h <;>
      exact .of_silent (by simp [hpc]) (by simp [hpc, Local.took]) rfl (by simp [hpc])

theorem mmRetire_announces {pc : RetirePc} (hO : Own t m g l) (hpc : l.pc = .retire pc)
    (h : mmRetire t c m l pc = .next m' l') : Announces l (event c m l) l' := by
  have hargs : l.isEnq = false := by simpa [Local.argsOk, hpc] using hO.status.args
  cases pc <;> simp only [mmRetire] at h <;> (try split at h) <;> cases h
  case count =>
    have htook : ({ l with code := 1, pc := .opEnd .inc } : Local).took = true := by
      simpa [Local.took, Local.isEnq] using hargs
    exact .of_silent (by simp [hpc]) (by simp [hpc, htook]) rfl (by simp [hpc])
  all_goals exact .of_silent (by simp [hpc]) (by simp [hpc]) rfl (by simp [hpc])

theorem mmOpEnd_announces {pc : OpEndPc} (hO : Own t m g l) (hpc : l.pc = .opEnd pc)
    (h : mmOpEnd t m l pc = .next m' l') : Announces l (event c m l) l' := by
  cases pc <;> simp only [mmOpEnd] at h
  case inc =>
    cases h
    exact .of_silent (by simp [hpc]) (by simp [hpc, Local.took, Local.isEnq]) rfl (by simp [hpc])
  case check =>
    -- something is retired exactly if the call has taken a value
    have htook := took_of_count hO hpc
    split at h <;> cases h
    next hzero =>
      have hno : l.took = false := Bool.eq_false_iff.mpr fun h => htook.mp h hzero
      have hno' : (l.goto .ret).took = false := hno
      exact .of_silent (by simp [hpc]) (by simp [hpc, hno, hno']) rfl (by simp [hpc])
    next hne =>
      exact .of_silent (by simp [hpc]) (by simp [hpc, htook.mpr hne]) rfl (by simp [hpc])

theorem mmWait_announces {pc : WaitPc} (hpc : l.pc = .wait pc)
    (h : mmWaitUntilUnreserved t m l pc = .next m' l') : Announces l (event c m l) l' := by
  have hevent : event c m l = some .wait := by simp [hpc]
  rw [hevent]
  cases pc <;> simp only [mmWaitUntilUnreserved] at h
  case load =>
    split at h
    · split at h
      · cases h
        exact .wait (by simp [hpc]) (by simp [hpc]) rfl (by simp [hpc])
      · split at h <;> cases h <;> exact .wait (by simp [hpc]) (by simp [hpc]) rfl (by simp [hpc])
    · cases h
      exact .wait (by simp [hpc]) (by simp) rfl (by simp [hpc])
  case spin =>
    split at h
    · split at h <;> cases h <;> exact .wait (by simp [hpc]) (by simp [hpc]) rfl (by simp [hpc])
    · cases h

theorem mmReclaimAll_announces {pc : ReclaimPc} (hO : Own t m g l) (hpc : l.pc = .reclaim pc)
    (h : mmReclaimAll t m l pc = .next m' l') : Announces l (event c m l) l' := by
  have hout := hO.here
  have hargs := hO.status.args
  simp only [outline, hpc] at hout
  simp only [Local.argsOk, hpc] at hargs
  cases pc <;> simp only [mmReclaimAll] at h hout
  case load | clear =>
    cases h
    exact .of_silent (by simp [hpc]) (by simp [hpc]) rfl (by simp [hpc])
  case count =>
    cases h
    obtain ⟨hsafe, hr⟩ := hout
    obtain ⟨r, hrec, -⟩ := hsafe.unlinked.record
    exact .of_silent (by simp [hpc]) (by simp [hpc, hr, hrec]) rfl (by simp [hpc])
  case loop =>
    split at h <;> cases h
    next r hr => exact .of_silent (by simp [hpc]) (by simp [hpc, hr]) rfl (by simp [hpc])
    next hr =>
      have htook : (l.goto .ret).took = true := by
        simpa [Local.took, Local.isEnq, hargs.2] using hargs.1
      exact .of_silent (by simp [hpc]) (by simp [hpc, hr, htook]) rfl (by simp [hpc])
  case free =>
    split at h <;> cases h
    exact .of_silent (by simp [hpc]) (by simp [hpc, hout.2]) rfl (by simp [hpc])

theorem recycleNode_announces {pc : RecyclePc} (hO : Own t m g l) (hpc : l.pc = .recycle pc)
    (h : recycleNode t m l pc = .next m' l') : Announces l (event c m l) l' := by
  have hout := hO.here
  simp only [outline, hpc] at hout
  cases pc <;> simp only [recycleNode] at h hout
  case next =>
    split at h <;> cases h
    exact .of_silent (by simp [hpc]) (by simp [hpc]) rfl (by simp [hpc, hout.2.2.2])
  case head =>
    cases h
    obtain ⟨-, -, p, hp, -⟩ := hout
    have hstep : Announces l _ (l.goto (.recycle .size)) :=
      .push p (by simp [hpc]) (by simp) rfl (by simpa [hpc] using hp)
    simpa [hpc, hp] using hstep
  case size =>
    cases h
    exact .of_silent (by simp [hpc]) (by simp [hpc]) rfl (by simp [hpc])
  case count =>
    cases h
    have hstep : Announces l _ (l.countInsertion.goto (.reclaim .free)) :=
      .insert (by simp [hpc]) (by simp) rfl
    simpa [hpc] using hstep

theorem ret_announces (hO : Own t m g l) (hpc : l.pc = .ret) :
    Announces l (event c m l) (l.goto .idle) := by
  have hevent : event c m l = some (.ret l.res) := by simp [hpc]
  have hargs := hO.status.args
  simp only [Local.argsOk, hpc] at hargs
  rw [hevent]
  obtain ⟨hop, hcode⟩ | ⟨hop, hcode⟩ | ⟨hdeq, hcode⟩ := hargs
  · refine .leave l.res ?_ (by simp) ?_
    · simp [hpc, Local.took, Local.isEnq, hop]
    · simp [NoNode, Local.res, hop]
  · refine .leave l.res ?_ (by simp) ?_
    · simp [hpc, Local.took, hcode]
    · simp [NoNode, Local.res, hop, hcode]
  · obtain ⟨out, hop⟩ := Local.exists_deq hdeq
    have hres : l.res = .deq 1 l.out := by simp [Local.res, hop, hcode]
    rw [hres]
    exact .finish l.out (by simp [hpc, Local.took, hdeq, hcode]) (by simp)

/-- Every step is in step with its call. -/
theorem step_announces (hO : Own t m g l) (h : step t c m l = .next m' l') :
    Announces l (event c m l) l' := by
  cases hpc : l.pc with
  | idle =>
      simp only [step, hpc] at h
      cases h
      have hop : (l.call c).op = c.op := by cases hop : c.op <;> simp [Local.call, hop]
      have hreached : (l.call c).reached = .entered := by
        cases hop : c.op <;> simp [Local.call, hop]
      have hstep : Announces l _ (l.call c) := .call (by simp [hpc]) hreached
      simpa [hpc, hop] using hstep
  | opBegin =>
      simp only [step, hpc, mmOpBegin] at h
      cases h
      refine .of_silent (by simp [hpc]) ?_ rfl (by simp [hpc])
      cases henq : l.isEnq <;> simp [hpc]
  | upcylce pc => exact upcylceNode_announces hpc (by simpa only [step, hpc] using h)
  | make pc => exact makeNode_announces hpc (by simpa only [step, hpc] using h)
  | enq pc => exact enq_announces hO hpc (by simpa only [step, hpc] using h)
  | deq pc => exact deq_announces hO hpc (by simpa only [step, hpc] using h)
  | retire pc => exact mmRetire_announces hO hpc (by simpa only [step, hpc] using h)
  | opEnd pc => exact mmOpEnd_announces hO hpc (by simpa only [step, hpc] using h)
  | wait pc => exact mmWait_announces hpc (by simpa only [step, hpc] using h)
  | reclaim pc => exact mmReclaimAll_announces hO hpc (by simpa only [step, hpc] using h)
  | recycle pc => exact recycleNode_announces hO hpc (by simpa only [step, hpc] using h)
  | ret =>
      simp only [step, hpc] at h
      cases h
      exact ret_announces hO hpc

/-! ## What the events stand for -/

/-- The effects of a step of `t` on what the events speak of: only `unlink` moves `head`, a free
list changes only when its own thread pops its head or pushes a node, and only `insert` counts. -/
structure Effects (t : Fin n) (c : Choice) (m m' : Mem n) (l l' : Local) : Prop where
  head : m'.store.head ≠ m.store.head → event c m l = some (.unlink m.store.head)
  free : (m'.store.freeLists t).head ≠ (m.store.freeLists t).head →
    (∃ p, (m.store.freeLists t).head = some p ∧
      (m'.store.freeLists t).head = (m.store.heap p).next) ∨
    ∃ p, event c m l = some (.push (some p))
  push : ∀ p, event c m l = some (.push p) → (m'.store.freeLists t).head = p ∧
    ∃ a, p = some a ∧ (m'.store.heap a).next = (m.store.freeLists t).head
  other : ∀ u, u ≠ t → m'.store.freeLists u = m.store.freeLists u
  insert : l'.insertions =
    l.insertions + if event c m l = some .insert ∧ l.countIns = true then 1 else 0

/-- The steps that neither move `head` nor change a free list nor count. -/
theorem Effects.of_same (hhead : m'.store.head = m.store.head)
    (hfree : ∀ u, (m'.store.freeLists u).head = (m.store.freeLists u).head)
    (hother : ∀ u, u ≠ t → m'.store.freeLists u = m.store.freeLists u)
    (hpush : ∀ p, event c m l ≠ some (.push p)) (hinsert : event c m l ≠ some .insert)
    (hcount : l'.insertions = l.insertions) : Effects t c m m' l l' where
  head := fun h => absurd hhead h
  free := fun h => absurd (hfree t) h
  push := fun p h => absurd h (hpush p)
  other := hother
  insert := by rw [hcount, if_neg fun h => hinsert h.1, Nat.add_zero]

theorem upcylceNode_effects {pc : UpcylcePc} (hS : Shared m g) (hO : Own t m g l)
    (hpc : l.pc = .upcylce pc) (h : upcylceNode t m l pc = .next m' l') :
    Effects t c m m' l l' := by
  have hout := hO.here
  simp only [outline, hpc] at hout
  cases pc <;> simp only [upcylceNode] at h hout
  case loadHead | loadNext =>
    split at h <;> cases h <;>
      exact .of_same rfl (fun _ => rfl) (fun _ _ => rfl) (by simp [hpc]) (by simp [hpc]) rfl
  case storeHead =>
    cases h
    obtain ⟨p, rest, hn, hfree, htmp⟩ := hout
    have hhead : (m.store.freeLists t).head = some p := (hfree ▸ hS.valid.chain t).1
    constructor
    case free => exact fun _ => .inl ⟨p, hhead, by simpa using htmp⟩
    case other => exact fun u hu => by simp [hu]
    all_goals simp [hpc]
  case size =>
    cases h
    refine .of_same rfl (fun u => ?_) (fun u hu => ?_) (by simp [hpc]) (by simp [hpc]) rfl
    · by_cases hu : u = t
      · subst hu
        simp
      · simp [hu]
    · simp [hu]

theorem deq_effects {pc : DeqPc} (hpc : l.pc = .deq pc) (h : deq c m l pc = .next m' l') :
    Effects t c m m' l l' := by
  cases pc <;> simp only [deq] at h
  case cas =>
    split at h <;> cases h
    next hcas =>
      constructor
      case head => exact fun _ => by simp [hpc, hcas]
      all_goals simp [hpc, hcas]
    next hcas =>
      exact .of_same rfl (fun _ => rfl) (fun _ _ => rfl) (by simp [hpc, hcas])
        (by simp [hpc, hcas]) rfl
  all_goals
    (try split at h) <;> (try split at h) <;> (try split at h) <;> cases h <;>
      exact .of_same rfl (fun _ => rfl) (fun _ _ => rfl) (by simp [hpc]) (by simp [hpc]) rfl

theorem recycleNode_effects {pc : RecyclePc} (hO : Own t m g l) (hpc : l.pc = .recycle pc)
    (h : recycleNode t m l pc = .next m' l') : Effects t c m m' l l' := by
  have hout := hO.here
  simp only [outline, hpc] at hout
  cases pc <;> simp only [recycleNode] at h hout
  case next =>
    split at h <;> cases h
    exact .of_same rfl (fun _ => rfl) (fun _ _ => rfl) (by simp [hpc]) (by simp [hpc]) rfl
  case head =>
    cases h
    obtain ⟨-, -, p, hp, hnext⟩ := hout
    constructor
    case free => exact fun _ => .inr ⟨p, by simp [hpc, hp]⟩
    case push =>
      intro q hq
      obtain rfl : l.node = q := by simpa [hpc] using hq
      exact ⟨by simp, p, hp, hnext⟩
    case other => exact fun u hu => by simp [hu]
    all_goals simp [hpc]
  case size =>
    cases h
    refine .of_same rfl (fun u => ?_) (fun u hu => ?_) (by simp [hpc]) (by simp [hpc]) rfl
    · by_cases hu : u = t
      · subst hu
        simp
      · simp [hu]
    · simp [hu]
  case count =>
    cases h
    constructor
    all_goals simp [hpc]

theorem step_effects (hS : Shared m g) (hO : Own t m g l) (h : step t c m l = .next m' l') :
    Effects t c m m' l l' := by
  cases hpc : l.pc with
  | idle =>
      simp only [step, hpc] at h
      cases h
      refine .of_same rfl (fun _ => rfl) (fun _ _ => rfl) (by simp [hpc]) (by simp [hpc]) ?_
      cases hop : c.op <;> simp [Local.call, hop]
  | upcylce pc => exact upcylceNode_effects hS hO hpc (by simpa only [step, hpc] using h)
  | deq pc => exact deq_effects hpc (by simpa only [step, hpc] using h)
  | recycle pc => exact recycleNode_effects hO hpc (by simpa only [step, hpc] using h)
  | opBegin | ret =>
      simp only [step, hpc, mmOpBegin] at h
      cases h
      exact .of_same rfl (fun _ => rfl) (fun _ _ => rfl) (by simp [hpc]) (by simp [hpc]) rfl
  | make pc | enq pc | retire pc | opEnd pc | wait pc | reclaim pc =>
      simp only [step, hpc] at h
      cases pc <;> simp only [makeNode, enq, mmRetire, mmOpEnd, mmWaitUntilUnreserved,
          mmReclaimAll] at h <;>
        (try split at h) <;> (try split at h) <;> (try split at h) <;> cases h <;>
        exact .of_same rfl (fun _ => rfl) (fun _ _ => rfl) (by simp [hpc]) (by simp [hpc]) rfl

end Steps

/-! ## Along a run -/

theorem eventsOf_snoc_self (tr : List (Fin n × Event)) (ev : Option Event) :
    eventsOf t (tr ++ (ev.map (t, ·)).toList) = eventsOf t tr ++ ev.toList := by
  cases ev <;> simp [eventsOf]

theorem eventsOf_snoc_other (tr : List (Fin n × Event)) (ev : Option Event) (hu : u ≠ t) :
    eventsOf u (tr ++ (ev.map (t, ·)).toList) = eventsOf u tr := by
  cases ev <;> simp [eventsOf, hu.symm]

/-- The events of a thread are those of its finished calls and of the open one. -/
def Follows (t : Fin n) (l : Local) (tr : List (Fin n × Event)) : Prop :=
  ∃ (calls : List (List Event)) (w : List Event), eventsOf t tr = calls.flatten ++ w ∧
    (∀ call ∈ calls, Complete call) ∧ l.reached.Trace l.op l.unlinkedNode w

/-- An open call goes on, or it is complete. -/
theorem Announces.trace {ev : Option Event} (h : Announces l ev l') {w : List Event}
    (hw : l.reached.Trace l.op l.unlinkedNode w) :
    l'.reached.Trace l'.op l'.unlinkedNode (w ++ ev.toList) ∨
      (Complete (w ++ ev.toList) ∧ l'.reached = .outside) := by
  cases h with
  | silent hreached hop hnode =>
      left
      rw [hreached, hop, Option.toList_none, List.append_nil]
      -- the node matters only while it is unlinked
      cases hl : l.reached with
      | unlinked =>
          rw [hnode hl]
          rwa [hl] at hw
      | outside | entered | pushed | inserted =>
          rw [hl] at hw
          exact hw
  | call h h' =>
      rw [h] at hw
      obtain rfl : w = [] := hw
      rw [h']
      exact .inl rfl
  | unlink out p h h' hdeq hop hp =>
      rw [h] at hw
      obtain rfl : w = [.call l.op] := hw
      rw [h', hop, hp]
      exact .inl ⟨out, p, 0, hdeq, rfl, by rw [hdeq]; rfl⟩
  | wait h h' hop hnode =>
      rw [h] at hw
      obtain ⟨out, p, k, hdeq, hp, rfl⟩ := hw
      rw [h', hop, hnode]
      refine .inl ⟨out, p, k + 1, hdeq, hp, ?_⟩
      simp [retiring, List.replicate_succ']
  | push p h h' hop hp =>
      rw [h] at hw
      obtain ⟨out, q, k, hdeq, hq, rfl⟩ := hw
      obtain rfl : p = q := Option.some.inj (hp.symm.trans hq)
      rw [h', hop]
      exact .inl ⟨out, p, k, hdeq, rfl⟩
  | insert h h' hop =>
      rw [h] at hw
      obtain ⟨out, p, k, hdeq, rfl⟩ := hw
      rw [h', hop]
      exact .inl ⟨out, p, k, hdeq, by simp⟩
  | leave res h h' hres =>
      rw [h] at hw
      obtain rfl : w = [.call l.op] := hw
      refine .inr ⟨?_, h'⟩
      unfold NoNode at hres
      split at hres
      next v code hop => rw [hop]; exact .enq v code
      next out code out' hop => rw [hop, hres]; exact .empty out out'
      next => exact hres.elim
  | finish v h h' =>
      rw [h] at hw
      obtain ⟨out, p, k, -, rfl⟩ := hw
      refine .inr ⟨?_, h'⟩
      simpa using Complete.deq out p k v

theorem Follows.step {ev : Option Event} {tr : List (Fin n × Event)} (h : Follows t l tr)
    (hev : Announces l ev l') : Follows t l' (tr ++ (ev.map (t, ·)).toList) := by
  obtain ⟨calls, w, heq, hcalls, hw⟩ := h
  have hsnoc : eventsOf t (tr ++ (ev.map (t, ·)).toList) = calls.flatten ++ (w ++ ev.toList) := by
    rw [eventsOf_snoc_self, heq, List.append_assoc]
  rcases hev.trace hw with hopen | ⟨hdone, hout⟩
  · exact ⟨calls, _, hsnoc, hcalls, hopen⟩
  · refine ⟨calls ++ [w ++ ev.toList], [], by simpa using hsnoc, ?_, by rw [hout]; rfl⟩
    intro call hmem
    rcases List.mem_append.mp hmem with hold | hnew
    · exact hcalls call hold
    · rwa [List.mem_singleton.mp hnew]

/-- The node `t` has unlinked and not yet pushed. -/
def Local.inLimbo (l : Local) : Multiset Ptr :=
  if l.reached = .unlinked then {l.unlinkedNode} else 0

theorem Local.card_inLimbo (l : Local) : l.inLimbo.card ≤ 1 := by
  unfold Local.inLimbo
  split <;> simp

theorem limbo_snoc (tr : List (Fin n × Event)) (ev : Fin n × Event) :
    limbo (tr ++ [ev]) =
      match ev.2 with
      | .unlink p => p :: limbo tr
      | .push p => (limbo tr).erase p
      | _ => limbo tr := by
  simp [limbo, List.foldl_append]

theorem Announces.limbo_eq {ev : Option Event} {th : Fin n → Local}
    (hev : Announces (th t) ev l') {tr : List (Fin n × Event)}
    (h : (limbo tr : Multiset Ptr) = ∑ u, (th u).inLimbo) :
    (limbo (tr ++ (ev.map (t, ·)).toList) : Multiset Ptr) =
      ∑ u, (Function.update th t l' u).inLimbo := by
  have hsum := sum_update_add th t l' Local.inLimbo
  rw [← h] at hsum
  have hsame (heq : l'.inLimbo = (th t).inLimbo) :
      (limbo tr : Multiset Ptr) = ∑ u, (Function.update th t l' u).inLimbo := by
    rw [heq] at hsum
    exact (add_right_cancel hsum).symm
  cases hev with
  | silent hreached hop hnode =>
      rw [Option.map_none, Option.toList_none, List.append_nil, hsame]
      simp only [Local.inLimbo, hreached]
      split
      next hl => rw [hnode hl]
      next => rfl
  | unlink out p hl hl' hdeq hop hp =>
      have hpre : (th t).inLimbo = 0 := by simp [Local.inLimbo, hl]
      have hpost : l'.inLimbo = {some p} := by simp [Local.inLimbo, hl', hp]
      rw [hpre, hpost, add_zero] at hsum
      rw [Option.map_some, Option.toList_some, limbo_snoc, hsum, add_comm, Multiset.singleton_add]
      rfl
  | push p hl hl' hop hp =>
      have hpre : (th t).inLimbo = {some p} := by simp [Local.inLimbo, hl, hp]
      have hpost : l'.inLimbo = 0 := by simp [Local.inLimbo, hl']
      rw [hpre, hpost, add_zero, add_comm, Multiset.singleton_add] at hsum
      have hmem : some p ∈ limbo tr := by
        rw [← Multiset.mem_coe, ← hsum]
        exact Multiset.mem_cons_self _ _
      have hperm : (limbo tr : Multiset Ptr) = some p ::ₘ ((limbo tr).erase (some p) : List Ptr) :=
        Multiset.coe_eq_coe.mpr (List.perm_cons_erase hmem)
      rw [Option.map_some, Option.toList_some, limbo_snoc]
      exact (Multiset.cons_inj_right _).mp (hsum.trans hperm).symm
  | wait hl hl' hop hnode =>
      rw [Option.map_some, Option.toList_some, limbo_snoc]
      exact hsame (by simp [Local.inLimbo, hl, hl', hnode])
  | call hl hl' | insert hl hl' | leave _ hl hl' | finish _ hl hl' =>
      rw [Option.map_some, Option.toList_some, limbo_snoc]
      exact hsame (by simp [Local.inLimbo, hl, hl'])

theorem events_snoc {es : List (Fin n × Choice)} (e : Fin n × Choice)
    (h : run step s es = some s') :
    events s (es ++ [e]) =
      events s es ++ ((event e.2 s'.mem (s'.th e.1)).map (e.1, ·)).toList := trace_snoc e h

/-- What the events of a run say about its last state. -/
structure Reported (s : State n) (tr : List (Fin n × Event)) : Prop where
  follows : ∀ t, Follows t (s.th t) tr
  limbo : (limbo tr : Multiset Ptr) = ∑ t, (s.th t).inLimbo

theorem Reported.fire {tr : List (Fin n × Event)} {e : Fin n × Choice} (h : Reported s tr)
    (hI : Inv s g) (hf : fire step s e = some s') :
    Reported s' (tr ++ ((event e.2 s.mem (s.th e.1)).map (e.1, ·)).toList) := by
  obtain ⟨m', l', hs, rfl⟩ := fire_eq_some.mp hf
  have hann := step_announces (hI.own e.1) hs
  refine ⟨fun t => ?_, hann.limbo_eq h.limbo⟩
  by_cases ht : t = e.1
  · subst ht
    simpa using (h.follows e.1).step hann
  · obtain ⟨calls, w, heq, hcalls, hw⟩ := h.follows t
    simp only [Function.update_of_ne ht]
    exact ⟨calls, w, by rw [eventsOf_snoc_other _ _ ht, heq], hcalls, hw⟩

theorem exists_reported {sched : List (Fin n × Choice)} (h : run step (init n) sched = some s) :
    ∃ g, Inv s g ∧ Reported s (events (init n) sched) := by
  refine run_induction
    (motive := fun es v => ∃ g, Inv v g ∧ Reported v (events (init n) es)) ?_ ?_ sched s h
  · refine ⟨History.init n, inv_init n, fun t => ⟨[], [], rfl, by simp, rfl⟩, ?_⟩
    simp [events, trace, limbo, init, Local.inLimbo, Local.reached, Local.init]
  · rintro es e u v hrun ⟨g, hI, hrep⟩ hf
    refine ⟨_, hI.fire hf, ?_⟩
    rw [events_snoc e hrun]
    exact hrep.fire hI hf

/-! ## The bound -/

/-- The retired list of `t` holds at most one record, and `retired_count[t]` is its length except
between the two updates of `mm_retire` and of `mm_reclaim_all`. -/
structure RetiredOk (s : State n) (t : Fin n) : Prop where
  list : ∃ rs : List RecAddr, Chain (fun r => (s.mem.records r).next) (s.mem.retired t) rs ∧
    rs.length ≤ 1 ∧ ((s.th t).pc ≠ .retire .count → (s.th t).pc ≠ .reclaim .count →
      (s.mem.retiredCount t).toNat = rs.length)
  count : s.mem.retiredCount t = 0 ∨ s.mem.retiredCount t = 1
  idle : (s.th t).pc = .idle → s.mem.retired t = none ∧ s.mem.retiredCount t = 0

theorem hasRecord_of_listed (hO : Own t m g l) (h : l.listed = true) : HasRecord t m g l := by
  have hout := hO.here
  unfold Local.listed at h
  split at h
  next hpc =>
    simp only [outline, hpc] at hout
    exact hout.record
  next pc hpc =>
    simp only [outline, hpc] at hout
    cases pc with
    | load => exact hout.unlinked.record
    | spin => exact hout.1.unlinked.record
  next hpc =>
    simp only [outline, hpc] at hout
    exact hout.unlinked.record
  next hpc =>
    simp only [outline, hpc] at hout
    exact hout.1.unlinked.record
  next pc hpc =>
    simp only [outline, hpc] at hout
    exact (hout h).record
  next => cases h

theorem Local.listed_eq_counted (l : Local) (hretire : l.pc ≠ .retire .count)
    (hreclaim : l.pc ≠ .reclaim .count) : l.listed = l.counted := by
  unfold Local.listed Local.counted
  split <;> simp_all

theorem Local.reached_of_counted (h : l.counted = true) : l.reached = .unlinked := by
  unfold Local.counted at h
  unfold Local.reached
  split at h <;> simp_all

theorem retiredOk (hI : Inv s g) (t : Fin n) : RetiredOk s t := by
  have hst := (hI.own t).status
  have hretired := hst.retired
  have hcount := hst.count
  refine ⟨?_, ?_, fun hpc => ?_⟩
  · cases hl : (s.th t).listed with
    | true =>
        obtain ⟨r, hrec, hheap⟩ := hasRecord_of_listed (hI.own t) hl
        rw [hl, if_pos rfl, hrec] at hretired
        refine ⟨[r], by simp [hretired, hheap], by simp, fun h h' => ?_⟩
        rw [hcount, ← Local.listed_eq_counted _ h h', hl]
        rfl
    | false =>
        rw [hl, if_neg (by decide)] at hretired
        refine ⟨[], hretired, by simp, fun h h' => ?_⟩
        rw [hcount, ← Local.listed_eq_counted _ h h', hl]
        rfl
  · rw [hcount]
    cases (s.th t).counted <;> simp
  · refine ⟨retired_idle hI hpc, ?_⟩
    rw [hcount]
    simp [Local.counted, hpc]

/-- The beginning of a call can be completed. -/
theorem Reached.Trace.completes {ph : Reached} {op : Op Value} {p : Ptr} {w : List Event}
    (h : ph.Trace op p w) : ∃ rest, rest ≠ [] ∧ Complete (w ++ rest) := by
  cases ph with
  | outside =>
      obtain rfl : w = [] := h
      exact ⟨_, by simp, .empty 0 0⟩
  | entered =>
      obtain rfl : w = [.call op] := h
      cases op with
      | enq v => exact ⟨[.ret (.enq 0)], by simp, .enq v 0⟩
      | deq out => exact ⟨[.ret (.deq 0 0)], by simp, .empty out 0⟩
  | unlinked =>
      obtain ⟨out, q, k, -, -, rfl⟩ := h
      exact ⟨_, by simp, .deq out q k 0⟩
  | pushed =>
      obtain ⟨out, q, k, -, rfl⟩ := h
      exact ⟨[.insert, .ret (.deq 1 0)], by simp, by simpa using Complete.deq out q k 0⟩
  | inserted =>
      obtain ⟨out, q, k, -, rfl⟩ := h
      exact ⟨[.ret (.deq 1 0)], by simp, by simpa using Complete.deq out q k 0⟩

theorem Local.reached_eq_outside : l.reached = .outside ↔ l.pc = .idle := by
  unfold Local.reached
  split <;> (try split) <;> simp_all

theorem Reached.Trace.eq_nil_iff {ph : Reached} {op : Op Value} {p : Ptr} {w : List Event}
    (h : ph.Trace op p w) : w = [] ↔ ph = .outside := by
  cases ph with
  | outside => exact iff_of_true h rfl
  | entered =>
      obtain rfl : w = [.call op] := h
      simp
  | unlinked =>
      obtain ⟨out, q, k, -, -, rfl⟩ := h
      simp [retiring]
  | pushed | inserted =>
      obtain ⟨out, q, k, -, rfl⟩ := h
      simp [retiring]

/-- **Bounded retirement.**  In every reachable state every retired list has at most one record and
its count is right, and at most `n` nodes are unlinked and not yet on a free list.  The events of a
thread are those of finished calls, as `Complete` has them, and the beginning of one more, and a
count of 1 is found only between the unlinking and the push of such a call. -/
theorem retirement_bounded {sched : List (Fin n × Choice)}
    (h : run step (init n) sched = some s) :
    (∀ t, RetiredOk s t) ∧ (limbo (events (init n) sched)).length ≤ n ∧
    (∀ t, ∃ (calls : List (List Event)) (w : List Event),
      eventsOf t (events (init n) sched) = calls.flatten ++ w ∧
      (∀ call ∈ calls, Complete call) ∧ (∃ rest, rest ≠ [] ∧ Complete (w ++ rest)) ∧
      (w = [] ↔ (s.th t).pc = .idle) ∧
      (s.mem.retiredCount t = 1 → ∃ out p k, w = retiring out p k)) ∧
    EveryStep step (init n) sched fun e u v =>
      Effects e.1 e.2 u.mem v.mem (u.th e.1) (v.th e.1) := by
  obtain ⟨g, hI, hrep⟩ := exists_reported h
  refine ⟨retiredOk hI, ?_, fun t => ?_, ?_⟩
  · calc (limbo (events (init n) sched)).length = (∑ t, (s.th t).inLimbo).card := by
          rw [← hrep.limbo, Multiset.coe_card]
      _ = ∑ t, (s.th t).inLimbo.card := Multiset.card_sum _ _
      _ ≤ ∑ _t : Fin n, 1 := Finset.sum_le_sum fun t _ => (s.th t).card_inLimbo
      _ = n := by simp
  · obtain ⟨calls, w, heq, hcalls, hw⟩ := hrep.follows t
    refine ⟨calls, w, heq, hcalls, hw.completes, ?_, fun hone => ?_⟩
    · rw [hw.eq_nil_iff, Local.reached_eq_outside]
    · have hcount := (hI.own t).status.count
      have hc : (s.th t).counted = true := by
        by_contra hc
        rw [hone, if_neg hc] at hcount
        cases hcount
      rw [Local.reached_of_counted hc] at hw
      obtain ⟨out, p, k, -, -, rfl⟩ := hw
      exact ⟨out, p, k, rfl⟩
  · rintro fs e gs u v rfl hrun hf
    obtain ⟨g', hI'⟩ := exists_history hrun
    obtain ⟨m', l', hs, rfl⟩ := fire_eq_some.mp hf
    simpa only [Function.update_self] using step_effects hI'.shared (hI'.own e.1) hs

/-- Thread 1 of `handover` has retired the old sentinel and begins to wait. -/
theorem retirement_bounded_handover :
    ∃ s, run step (init 2) ((handover 0 1).take 32) = some s ∧ RetiredOk s 1 ∧
      s.mem.retiredCount 1 = 1 ∧
      (limbo (events (init 2) ((handover 0 1).take 32))).length ≤ 2 := by
  obtain ⟨s, hs⟩ : ∃ s, run step (init 2) ((handover 0 1).take 32) = some s := ⟨_, rfl⟩
  have hcount := run_observe hs (fun s => s.mem.retiredCount 1) rfl
  obtain ⟨hlists, hlimbo, -⟩ := retirement_bounded hs
  exact ⟨s, hs, hlists 1, hcount, hlimbo⟩

end ConcurrentQueues.Ex5
