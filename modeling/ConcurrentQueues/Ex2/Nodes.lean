import ConcurrentQueues.Ex2.Locks
import ConcurrentQueues.Ex1.Nodes

/-!
# Ex2 — what each step moves between the lists of nodes

The lists are those of the sequential run, with the node that the open `enq` has taken.  A dequeue
recycles the sentinel in the sequential run when it releases the lock, so its nodes move there.
-/

namespace ConcurrentQueues.Ex2

open Reasoning

variable {n : Nat} {t u : Fin n} {m m' : Mem n} {g : Ghost n} {l l' : Local} {c : Choice}
  {s s' : State n} {b k : Nodes n}

/-- What the call has moved so far. -/
def Local.stage (l : Local) : Stage :=
  match l.pc with
  | .idle => .idle
  | .upcycle .loadSize | .upcycle .storeSize => .taken l.v l.newNode
  | .enq .lock | .upcycle _ => .called l.op
  | .enq .unlockFail => .done (.enq 0)
  | .enq _ => .taken l.v l.newNode
  | .deq .unlockEmpty => .emptied l.out
  | .deq _ => .called l.op
  | .recycle _ => .done (.deq 1 l.out)
  | .ret => .done l.res

def mark (_ : Fin n) (c : Choice) (_ : Mem n) (l : Local) : Option Mark :=
  match l.pc with
  | .idle => some (.call c.op)
  | .upcycle .malloc => if c.malloc = none then none else some .malloc
  | .ret => some (.ret l.res)
  | _ => none

/-- What the open call has moved, from the lists `b` before it to `k`. -/
def Moved (t : Fin n) (b k : Nodes n) : Stage → Prop
  | .taken _ p => ∃ a, p = some a ∧ (a, k) = b.take t
  | _ => k = b

/-- The lists `k` beside a state: those of the sequential run if the lock is free, and those its
holder has made of them otherwise. -/
structure Beside (s : State n) (g : Ghost n) (b k : Nodes n) : Prop where
  inv : Inv s g
  base : ∃ lay, Ex1.Rep g.base.store lay ∧ b = lay.nodes g.base.store.brk
  free : s.mem.lock = none → k = b
  held : ∀ t, s.mem.lock = some t → Moved t b k (s.th t).stage
  lists : ∀ t, s.mem.lock ≠ some t → g.cur.freeLists t = g.base.store.freeLists t

theorem Moved.free_of_ne {st : Stage} (h : Moved t b k st) (hu : u ≠ t) : k.free u = b.free u := by
  cases st with
  | taken v p =>
      obtain ⟨a, -, htake⟩ := h
      have hk : k = (b.take t).2 := congrArg Prod.snd htake
      rw [hk, b.take_free_of_ne hu]
  | _ =>
      obtain rfl : k = b := h
      rfl

/-- Only the holder of the lock has its list out of step with the sequential run. -/
theorem Beside.free_eq (h : Beside s g b k) (ht : s.mem.lock ≠ some t) : k.free t = b.free t := by
  cases hlock : s.mem.lock with
  | none => rw [h.free hlock]
  | some u =>
      have hu : t ≠ u := fun he => ht (by rw [hlock, he])
      exact (h.held u hlock).free_of_ne hu

theorem Beside.size_eq (h : Beside s g b k) (hpc : (s.th t).pc = .idle) :
    (s.mem.store.freeLists t).size = .ofNat (k.free t).length := by
  obtain ⟨lay, hrep, rfl⟩ := h.base
  have hst := (h.inv.own t).status
  have hlock : s.mem.lock ≠ some t := by
    rw [ne_eq, hst.lock, hpc]
    simp [Pc.inside]
  have hsize := hst.freeSize
  rw [hpc, h.lists t hlock, hrep.size] at hsize
  rw [h.free_eq hlock]
  simpa [Pc.owesSize] using hsize.symm

/-! ## The call that a release ends -/

/-- The call executed when the lock is released. -/
theorem exists_call (hO : Own t m g l) {res : Res Value}
    (h : (l.pc = .enq .unlock ∧ res = .enq 1) ∨ (l.pc = .enq .unlockFail ∧ res = .enq 0) ∨
      (l.pc = .deq .unlock ∧ res = .deq 1 l.out) ∨
      (l.pc = .deq .unlockEmpty ∧ res = .deq 0 l.out)) :
    ∃ raw r, g.calls = g.done ++ [⟨t, l.op, l.countIns, raw⟩] ∧
      Ex1.call g.base ⟨t, l.op, l.countIns, raw⟩ = some (r, res) := by
  have hinner := hO.inner
  have hargs := hO.status.args
  have hcall := hO.status.call
  obtain ⟨hpc, rfl⟩ | ⟨hpc, rfl⟩ | ⟨hpc, rfl⟩ | ⟨hpc, rfl⟩ := h <;>
    simp only [inner, hpc] at hinner <;> simp only [Local.argsOk, hpc] at hargs
  · obtain ⟨p, q, ⟨-, raw, hcalls, hup⟩, happend⟩ := hinner
    exact ⟨raw, _, hcalls, by simp [Ex1.call, hargs, Ex1.enq, hup, happend]; rfl⟩
  · obtain ⟨-, raw, hcalls, hup⟩ := hinner
    exact ⟨raw, _, hcalls, by simp [Ex1.call, hargs, Ex1.enq, hup]; rfl⟩
  · obtain ⟨p, a, ⟨hhead, hnext, -⟩, hout, -⟩ := hinner
    obtain ⟨out, hop⟩ := hargs
    obtain ⟨raw, hcalls⟩ := hcall (by simp [hpc, Pc.inside])
    exact ⟨raw, _, hcalls, by simp [Ex1.call, hop, Ex1.deq, hhead, hnext, hout]; rfl⟩
  · obtain ⟨-, p, hhead, hnext⟩ := hinner
    obtain ⟨raw, hcalls⟩ := hcall (by simp [hpc, Pc.inside])
    exact ⟨raw, _, hcalls, by simp [Ex1.call, hargs, Ex1.deq_none hhead hnext]; rfl⟩

/-! ## The sequential run under a step -/

theorem step_lock (h : step t c m l = .next m' l') :
    m'.lock = if l.pc.acquires then some t else if l.pc.releases then none else m.lock := by
  cases hpc : l.pc with
  | idle | ret =>
      simp only [step, hpc] at h
      cases h
      rfl
  | upcycle pc =>
      simp only [step, hpc] at h
      cases pc <;> simp only [upcycleNode] at h <;> (try split at h) <;> cases h <;> rfl
  | enq pc =>
      simp only [step, hpc] at h
      cases pc <;> simp only [enq] at h <;> (try split at h) <;> cases h <;> rfl
  | deq pc =>
      simp only [step, hpc] at h
      cases pc <;> simp only [deq] at h
      case testNext | testTail =>
        split at h
        · split at h <;> cases h <;> rfl
        · cases h
      case lock | loadFirst | loadData | loadNext =>
        split at h <;> cases h
        rfl
      all_goals
        cases h
        rfl
  | recycle pc =>
      simp only [step, hpc] at h
      cases pc <;> simp only [recycleNode] at h <;> (try split at h) <;> cases h <;> rfl

theorem record_base (h : l.pc.releases = false) : (record t c m l g).base = g.base := by
  unfold record
  split <;> (try split) <;> first | rfl | simp_all [Pc.releases]

theorem record_outside (h : l.pc.inside = false) : (record t c m l g).cur = g.cur := by
  unfold record
  split <;> (try split) <;> first | rfl | simp_all [Pc.inside]

theorem record_lists (h : l.pc.releases = false) (hu : u ≠ t) :
    (record t c m l g).cur.freeLists u = g.cur.freeLists u := by
  unfold record
  split <;> (try split) <;> first
    | rfl
    | exact Function.update_of_ne hu _ _
    | simp_all [Pc.releases]

theorem record_release (h : l.pc.releases = true) : record t c m l g = g.finish := by
  unfold record
  split <;> first | rfl | simp_all [Pc.releases]

section Step

variable (h : Beside s g b k) (hs : step t c s.mem (s.th t) = .next m' l')

include h hs

theorem Beside.inv_next : Inv ⟨m', Function.update s.th t l'⟩ (record t c s.mem (s.th t) g) :=
  h.inv.fire (e := (t, c)) (fire_eq_some.mpr ⟨m', l', hs, rfl⟩)

/-- A step outside the lock. -/
theorem Beside.outside (hin : (s.th t).pc.inside = false) (hacq : (s.th t).pc.acquires = false) :
    Beside ⟨m', Function.update s.th t l'⟩ (record t c s.mem (s.th t) g) b k := by
  have hrel : (s.th t).pc.releases = false := by
    cases hpc : (s.th t).pc with
    | idle | ret | upcycle pc | recycle pc => rfl
    | enq pc | deq pc =>
        rw [hpc] at hin
        cases pc <;> simp_all [Pc.inside, Pc.releases]
  have hlock : m'.lock = s.mem.lock := by simpa [hacq, hrel] using step_lock hs
  have hne : s.mem.lock ≠ some t := by simp [(h.inv.own t).status.lock, hin]
  refine ⟨h.inv_next hs, ?_, fun hfree => h.free (hlock ▸ hfree), fun u hu => ?_, fun u hu => ?_⟩
  · rw [record_base hrel]
    exact h.base
  · rw [show m'.lock = _ from hlock] at hu
    have hut : u ≠ t := fun he => hne (by rw [← he, hu])
    simpa [Function.update_of_ne hut] using h.held u hu
  · rw [record_base hrel, record_outside hin]
    exact h.lists u (hlock ▸ hu)

/-- A step under the lock that does not release it. -/
theorem Beside.inside {k' : Nodes n} (hin : (s.th t).pc.inside = true)
    (hrel : (s.th t).pc.releases = false) (hmoved : Moved t b k' l'.stage) :
    Beside ⟨m', Function.update s.th t l'⟩ (record t c s.mem (s.th t) g) b k' := by
  have hacq : (s.th t).pc.acquires = false := by
    cases hpc : (s.th t).pc with
    | idle | ret | upcycle pc | recycle pc => rfl
    | enq pc | deq pc =>
        rw [hpc] at hin
        cases pc <;> simp_all [Pc.inside, Pc.acquires]
  have hlock : m'.lock = some t := by
    rw [step_lock hs, hacq, hrel]
    simpa using (h.inv.own t).status.lock.mpr hin
  refine ⟨h.inv_next hs, ?_, fun hfree => ?_, fun u hu => ?_, fun u hu => ?_⟩
  · rw [record_base hrel]
    exact h.base
  · rw [show m'.lock = none from hfree] at hlock
    cases hlock
  · obtain rfl : t = u := Option.some.inj (hlock.symm.trans hu)
    simpa using hmoved
  · have hut : u ≠ t := fun he => hu (he ▸ hlock)
    have hold : s.mem.lock ≠ some u := by
      rw [(h.inv.own t).status.lock.mpr hin]
      exact fun he => hut (Option.some.inj he).symm
    rw [record_base hrel, record_lists hrel hut]
    exact h.lists u hold

/-- A step that acquires the lock. -/
theorem Beside.acquire (hacq : (s.th t).pc.acquires = true) (hfree : s.mem.lock = none)
    (hstage : ∃ op, l'.stage = .called op) :
    Beside ⟨m', Function.update s.th t l'⟩ (record t c s.mem (s.th t) g) b k := by
  have hin : (s.th t).pc.inside = false ∧ (s.th t).pc.releases = false := by
    cases hpc : (s.th t).pc with
    | idle | ret | upcycle pc | recycle pc =>
        rw [hpc] at hacq
        cases hacq
    | enq pc | deq pc =>
        rw [hpc] at hacq
        cases pc <;> simp_all [Pc.inside, Pc.acquires, Pc.releases]
  have hlock : m'.lock = some t := by simpa [hacq] using step_lock hs
  refine ⟨h.inv_next hs, ?_, fun hnone => ?_, fun u hu => ?_, fun u hu => ?_⟩
  · rw [record_base hin.2]
    exact h.base
  · rw [show m'.lock = none from hnone] at hlock
    cases hlock
  · obtain rfl : t = u := Option.some.inj (hlock.symm.trans hu)
    obtain ⟨op, hop⟩ := hstage
    simpa [hop, Moved] using h.free hfree
  · rw [record_base hin.2, record_outside hin.1]
    exact h.lists u (by simp [hfree])

/-- A step that releases the lock: the sequential queue has executed the call. -/
theorem Beside.release (hrel : (s.th t).pc.releases = true) {raw : Option Node} {r : Ex1.State n}
    {res : Res Value} (hcalls : g.calls = g.done ++ [⟨t, (s.th t).op, (s.th t).countIns, raw⟩])
    (hcall : Ex1.call g.base ⟨t, (s.th t).op, (s.th t).countIns, raw⟩ = some (r, res)) :
    ∃ b', (b', res) = b.call t raw.isSome (s.th t).op ∧
      Beside ⟨m', Function.update s.th t l'⟩ (record t c s.mem (s.th t) g) b' b' := by
  obtain ⟨lay, hrep, hb⟩ := h.base
  obtain ⟨r', res', lay', hcall', hrep', hnodes, -⟩ :=
    Ex1.call_nodes hrep ⟨t, (s.th t).op, (s.th t).countIns, raw⟩
  obtain ⟨rfl, rfl⟩ := Prod.mk.inj (Option.some.inj (hcall.symm.trans hcall'))
  have hfinish := (finish_eq h.inv.shared hcalls hcall).1
  have hlock : m'.lock = none := by
    have hacq : (s.th t).pc.acquires = false := by
      cases hpc : (s.th t).pc with
      | idle | ret | upcycle pc | recycle pc => rfl
      | enq pc | deq pc =>
          rw [hpc] at hrel
          cases pc <;> simp_all [Pc.releases, Pc.acquires]
    simpa [hacq, hrel] using step_lock hs
  have hinv := h.inv_next hs
  rw [record_release hrel, hfinish] at hinv ⊢
  refine ⟨_, hb ▸ hnodes, hinv, ⟨lay', hrep', rfl⟩, fun _ => rfl, fun u hu => ?_, fun _ _ => rfl⟩
  rw [show m'.lock = some u from hu] at hlock
  cases hlock

end Step

/-! ## The moves -/

/-- A step of `t` moves nodes as its stage allows, and the sequential run stays beside it. -/
def StepNodes (t : Fin n) (c : Choice) (s : State n) (g : Ghost n) (k : Nodes n) (m' : Mem n)
    (l' : Local) : Prop :=
  ∃ b' k', Beside ⟨m', Function.update s.th t l'⟩ (record t c s.mem (s.th t) g) b' k' ∧
    Nodes.Step t c.malloc.isSome (mark t c s.mem (s.th t)) k (s.th t).stage k' l'.stage

attribute [local simp] Local.stage mark Pc.inside Pc.acquires Pc.releases

theorem StepNodes.outside (h : Beside s g b k) (hs : step t c s.mem (s.th t) = .next m' l')
    (hin : (s.th t).pc.inside = false) (hacq : (s.th t).pc.acquires = false)
    (hstep : Nodes.Step t c.malloc.isSome (mark t c s.mem (s.th t)) k (s.th t).stage k l'.stage) :
    StepNodes t c s g k m' l' := ⟨b, k, h.outside hs hin hacq, hstep⟩

theorem StepNodes.silent (h : Beside s g b k) (hs : step t c s.mem (s.th t) = .next m' l')
    (hin : (s.th t).pc.inside = true) (hrel : (s.th t).pc.releases = false)
    (hmark : mark t c s.mem (s.th t) = none) (hstage : l'.stage = (s.th t).stage) :
    StepNodes t c s g k m' l' := by
  have hlock := (h.inv.own t).status.lock.mpr hin
  have hmoved := h.held t hlock
  rw [← hstage] at hmoved
  refine ⟨b, k, h.inside hs hin hrel hmoved, ?_⟩
  rw [hmark, hstage]
  exact .silent _ _

theorem StepNodes.acquire (h : Beside s g b k) (hs : step t c s.mem (s.th t) = .next m' l')
    (hacq : (s.th t).pc.acquires = true) (hfree : s.mem.lock = none)
    (hstage : (s.th t).stage = .called (s.th t).op) (hstage' : l'.stage = .called (s.th t).op)
    (hmark : mark t c s.mem (s.th t) = none) : StepNodes t c s g k m' l' := by
  refine ⟨b, k, h.acquire hs hacq hfree ⟨_, hstage'⟩, ?_⟩
  rw [hmark, hstage, hstage']
  exact .silent _ _

theorem upcycleNode_nodes {pc : UpcyclePc} (h : Beside s g b k)
    (hs : step t c s.mem (s.th t) = .next m' l') (hpc : (s.th t).pc = .upcycle pc) :
    StepNodes t c s g k m' l' := by
  have hin : (s.th t).pc.inside = true := by simp [hpc]
  have hrel : (s.th t).pc.releases = false := by simp [hpc]
  have hinner := (h.inv.own t).inner
  have hop : (s.th t).op = .enq (s.th t).v := by
    simpa [Local.argsOk, hpc] using (h.inv.own t).status.args
  have hmoved := h.held t ((h.inv.own t).status.lock.mpr hin)
  obtain ⟨lay, hrep, hb⟩ := h.base
  have hup := hs
  simp only [step, hpc] at hup
  cases pc <;> simp only [upcycleNode] at hup
  case loadHead | loadNext =>
    split at hup <;> cases hup <;>
      exact StepNodes.silent h hs hin hrel (by simp [hpc]) (by simp [hpc])
  case loadSize | storeSize =>
    cases hup
    exact StepNodes.silent h hs hin hrel (by simp [hpc]) (by simp [hpc])
  case storeHead =>
    cases hup
    obtain ⟨-, p, hn, hhead, -⟩ : g.cur = g.base.store ∧ ∃ p, (s.th t).newNode = some p ∧
        (g.base.store.freeLists t).head = some p ∧
        (s.th t).next = (g.base.store.heap p).next := by
      simpa [inner, hpc] using hinner
    obtain rfl : k = b := by simpa [Moved, hpc] using hmoved
    have hchain := hrep.quiet.valid.chain t
    rw [hhead] at hchain
    obtain ⟨rest, hfree, -⟩ := hchain.of_some
    have hkfree : k.free t = p :: rest := by simp [hb, hfree]
    refine ⟨k, k.setFree t rest, h.inside hs hin hrel ⟨p, hn, by simp [Nodes.take, hkfree]⟩, ?_⟩
    have hstep : Nodes.Step t c.malloc.isSome _ _ _ _ _ :=
      .pop k (s.th t).v p rest hkfree
    simpa [hpc, hn, hop] using hstep
  case malloc =>
    obtain ⟨hcur, hhead⟩ : g.cur = g.base.store ∧ (g.base.store.freeLists t).head = none := by
      simpa [inner, hpc] using hinner
    obtain rfl : k = b := by simpa [Moved, hpc] using hmoved
    have hkfree : k.free t = [] := by simpa [hb] using hrep.free_eq_nil_iff.mpr hhead
    split at hup
    next raw hraw =>
      cases hup
      have hbrk : k.brk = s.mem.store.brk := by simp [hb, h.inv.shared.brk, hcur]
      refine ⟨k, k.grow, h.inside hs hin hrel ⟨s.mem.store.brk, rfl, ?_⟩, ?_⟩
      · simp [Nodes.take, hkfree, hbrk]
      · have hstep : Nodes.Step t c.malloc.isSome _ _ _ _ _ := .malloc k (s.th t).v hkfree
        simpa [hpc, hraw, hop, hbrk] using hstep
    next hraw =>
      cases hup
      refine ⟨k, k, h.inside hs hin hrel rfl, ?_⟩
      have hstep : Nodes.Step t c.malloc.isSome _ _ _ _ _ :=
        .outOfMemory k (s.th t).v hkfree (by simp [hraw])
      simpa [hpc, hraw, hop] using hstep

theorem enq_nodes {pc : EnqPc} (h : Beside s g b k)
    (hs : step t c s.mem (s.th t) = .next m' l') (hpc : (s.th t).pc = .enq pc) :
    StepNodes t c s g k m' l' := by
  have hop : (s.th t).op = .enq (s.th t).v := by
    simpa [Local.argsOk, hpc] using (h.inv.own t).status.args
  have hmoved := fun hin => h.held t ((h.inv.own t).status.lock.mpr hin)
  have henq := hs
  simp only [step, hpc] at henq
  cases pc <;> simp only [enq] at henq
  case lock =>
    split at henq
    next hfree =>
      cases henq
      exact StepNodes.acquire h hs (by simp [hpc]) hfree (by simp [hpc]) (by simp)
        (by simp [hpc])
    next => cases henq
  case data | next | link =>
    split at henq <;> cases henq
    exact StepNodes.silent h hs (by simp [hpc]) (by simp [hpc]) (by simp [hpc]) (by simp [hpc])
  case loadTail | storeTail =>
    cases henq
    exact StepNodes.silent h hs (by simp [hpc]) (by simp [hpc]) (by simp [hpc]) (by simp [hpc])
  case unlock =>
    cases henq
    obtain ⟨raw, r, hcalls, hcall⟩ := exists_call (h.inv.own t) (.inl ⟨hpc, rfl⟩)
    obtain ⟨b', hb', hbeside⟩ := h.release hs (by simp [hpc]) hcalls hcall
    obtain ⟨p, hn, htake⟩ : ∃ p, (s.th t).newNode = some p ∧ (p, k) = b.take t := by
      simpa [Moved, hpc] using hmoved (by simp [hpc])
    -- the sequential call has appended the node that is taken
    have happend : b' = k.append p (s.th t).v := by
      rw [hop, Nodes.call] at hb'
      split at hb'
      · cases hb'
      · rw [← htake] at hb'
        exact congrArg Prod.fst hb'
    refine ⟨b', b', hbeside, ?_⟩
    have hstep : Nodes.Step t c.malloc.isSome _ _ _ _ _ := .append k (s.th t).v p
    rw [← happend] at hstep
    simpa [hpc, hn, hop, Local.res] using hstep
  case unlockFail =>
    cases henq
    obtain ⟨raw, r, hcalls, hcall⟩ := exists_call (h.inv.own t) (.inr (.inl ⟨hpc, rfl⟩))
    obtain ⟨b', hb', hbeside⟩ := h.release hs (by simp [hpc]) hcalls hcall
    obtain rfl : k = b := by simpa [Moved, hpc] using hmoved (by simp [hpc])
    have hsame : b' = k := by
      rw [hop, Nodes.call] at hb'
      split at hb'
      · exact congrArg Prod.fst hb'
      · cases hb'
    refine ⟨b', b', hbeside, ?_⟩
    rw [hsame]
    have hstep : Nodes.Step t c.malloc.isSome _ _ _ _ _ := .silent k (.done (.enq 0))
    simpa [hpc, hop, Local.res] using hstep

theorem deq_nodes {pc : DeqPc} (h : Beside s g b k)
    (hs : step t c s.mem (s.th t) = .next m' l') (hpc : (s.th t).pc = .deq pc) :
    StepNodes t c s g k m' l' := by
  have hargs := (h.inv.own t).status.args
  simp only [Local.argsOk, hpc] at hargs
  have hinner := (h.inv.own t).inner
  have hmoved := fun hin => h.held t ((h.inv.own t).status.lock.mpr hin)
  have hdeq := hs
  simp only [step, hpc] at hdeq
  cases pc <;> simp only [deq] at hdeq hargs
  case lock =>
    split at hdeq
    next hfree =>
      cases hdeq
      exact StepNodes.acquire h hs (by simp [hpc]) hfree (by simp [hpc]) (by simp)
        (by simp [hpc])
    next => cases hdeq
  case testNext =>
    obtain ⟨hcur, hhead⟩ : g.cur = g.base.store ∧ (s.th t).head = g.base.store.head := by
      simpa [inner, hpc] using hinner
    obtain rfl : k = b := by simpa [Moved, hpc] using hmoved (by simp [hpc])
    obtain ⟨lay, hrep, hb⟩ := h.base
    split at hdeq
    next p hp =>
      split at hdeq
      next hnext =>
        cases hdeq
        -- the sentinel is the last node, and the memory shows it
        have hempty : k.items = [] := by
          rw [hp, hrep.quiet.valid.head] at hhead
          obtain rfl := Option.some.inj hhead
          have hheap : s.mem.store.heap (lay.node lay.hd) = g.cur.heap (lay.node lay.hd) :=
            h.inv.shared.heap _ fun u hu =>
              hrep.quiet.not_free_head hrep.quiet.valid.head hu
          rw [hheap, hcur] at hnext
          have hlen := (hrep.quiet.valid.next_eq_none_iff hrep.quiet.valid.live_hd).mp hnext
          rw [hb]
          exact lay.items_eq_nil_iff.mpr hlen.ge
        refine ⟨k, k, h.inside hs (by simp [hpc]) (by simp [hpc]) rfl, ?_⟩
        have hstep : Nodes.Step t c.malloc.isSome _ _ _ _ _ := .peek k (s.th t).out hempty
        simpa [hpc, hargs] using hstep
      next =>
        cases hdeq
        exact StepNodes.silent h hs (by simp [hpc]) (by simp [hpc]) (by simp [hpc]) (by simp [hpc])
    next => cases hdeq
  case testTail =>
    split at hdeq
    · split at hdeq <;> cases hdeq <;>
        exact StepNodes.silent h hs (by simp [hpc]) (by simp [hpc]) (by simp [hpc]) (by simp [hpc])
    · cases hdeq
  case unlock =>
    cases hdeq
    obtain ⟨raw, r, hcalls, hcall⟩ :=
      exists_call (h.inv.own t) (.inr (.inr (.inl ⟨hpc, rfl⟩)))
    obtain ⟨b', hb', hbeside⟩ := h.release hs (by simp [hpc]) hcalls hcall
    obtain rfl : k = b := by simpa [Moved, hpc] using hmoved (by simp [hpc])
    obtain ⟨out, hop⟩ := hargs
    refine ⟨b', b', hbeside, ?_⟩
    have hstep : Nodes.Step t c.malloc.isSome _ _ _ _ _ := .atomic k (.deq out)
    rw [show k.call t c.malloc.isSome (.deq out) = (b', .deq 1 (s.th t).out) from
      (hop ▸ hb').symm] at hstep
    simpa [hpc, hop, Nodes.allocates] using hstep
  case unlockEmpty =>
    cases hdeq
    obtain ⟨raw, r, hcalls, hcall⟩ :=
      exists_call (h.inv.own t) (.inr (.inr (.inr ⟨hpc, rfl⟩)))
    obtain ⟨b', hb', hbeside⟩ := h.release hs (by simp [hpc]) hcalls hcall
    obtain rfl : k = b := by simpa [Moved, hpc] using hmoved (by simp [hpc])
    have hsame : b' = k := by
      rw [hargs, Nodes.call] at hb'
      split at hb'
      · cases hb'
      · exact congrArg Prod.fst hb'
    refine ⟨b', b', hbeside, ?_⟩
    rw [hsame]
    have hstep : Nodes.Step t c.malloc.isSome _ _ _ _ _ := .settle k (s.th t).out
    simpa [hpc, hargs, Local.res] using hstep
  case loadFirst | loadData | loadNext =>
    split at hdeq <;> cases hdeq
    exact StepNodes.silent h hs (by simp [hpc]) (by simp [hpc]) (by simp [hpc]) (by simp [hpc])
  all_goals
    cases hdeq
    exact StepNodes.silent h hs (by simp [hpc]) (by simp [hpc]) (by simp [hpc]) (by simp [hpc])

theorem recycleNode_nodes {pc : RecyclePc} (h : Beside s g b k)
    (hs : step t c s.mem (s.th t) = .next m' l') (hpc : (s.th t).pc = .recycle pc) :
    StepNodes t c s g k m' l' := by
  have hargs : ∃ out, (s.th t).op = .deq out := by
    simpa [Local.argsOk, hpc] using (h.inv.own t).status.args
  refine StepNodes.outside h hs (by simp [hpc]) (by simp [hpc]) ?_
  have hstage : l'.stage = (s.th t).stage := by
    obtain ⟨out, hop⟩ := hargs
    simp only [step, hpc] at hs
    cases pc <;> simp only [recycleNode] at hs <;> (try split at hs) <;> cases hs <;>
      simp [hpc, hop, Local.res]
  rw [hstage, show mark t c s.mem (s.th t) = none by simp [hpc]]
  exact .silent _ _

theorem step_nodes (h : Beside s g b k) (hs : step t c s.mem (s.th t) = .next m' l') :
    StepNodes t c s g k m' l' := by
  cases hpc : (s.th t).pc with
  | idle =>
      refine StepNodes.outside h hs (by simp [hpc]) (by simp [hpc]) ?_
      simp only [step, hpc] at hs
      cases hs
      have hstep : Nodes.Step t c.malloc.isSome _ _ _ _ _ := .call k c.op
      cases hop : c.op <;> simpa [hpc, Local.call, hop] using hstep
  | upcycle pc => exact upcycleNode_nodes h hs hpc
  | enq pc => exact enq_nodes h hs hpc
  | deq pc => exact deq_nodes h hs hpc
  | recycle pc => exact recycleNode_nodes h hs hpc
  | ret =>
      refine StepNodes.outside h hs (by simp [hpc]) (by simp [hpc]) ?_
      simp only [step, hpc] at hs
      cases hs
      have hstep : Nodes.Step t c.malloc.isSome _ _ _ _ _ := .ret k (s.th t).res
      simpa [hpc] using hstep

/-- Ex2 with the sequential run beside it moves nodes as the calls allow. -/
def movesNodes (n : Nat) :
    MovesNodes (step (n := n)) mark fun s (x : Ghost n × Nodes n) => ∃ b, Beside s x.1 b x.2 where
  nodes _ x := x.2
  stage := Local.stage
  mem c := c.malloc.isSome
  step := by
    rintro s ⟨t, c⟩ s' ⟨g, k⟩ ⟨b, h⟩ hf
    obtain ⟨m', l', hs, rfl⟩ := fire_eq_some.mp hf
    obtain ⟨b', k', hbeside, hstep⟩ := step_nodes h hs
    exact ⟨(_, k'), ⟨b', hbeside⟩, by simpa only [Function.update_self] using hstep⟩

end ConcurrentQueues.Ex2
