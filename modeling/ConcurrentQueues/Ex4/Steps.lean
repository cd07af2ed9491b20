import ConcurrentQueues.Ex4.Invariant

/-! Every step of every function of Ex4 keeps the invariant, and so does every run. -/

namespace ConcurrentQueues.Ex4

open Reasoning Layout

variable {n : Nat} {t u : Fin n} {m m' : Mem n} {g g' : Layout n} {l l' : Local} {c : Choice}
  {q' : Store n}

/-- What a step of `t` owes. -/
structure StepOk (t : Fin n) (m : Mem n) (g : Layout n) (m' : Mem n) (g' : Layout n)
    (l' : Local) : Prop where
  shared : Shared m' g'
  own : Own t m' g' l'
  rely : ∀ u, u ≠ t → Rely u m g m' g'

/-! ## Effects -/

theorem Rely.refl (u : Fin n) (m : Mem n) (g : Layout n) : Rely u m g m g where
  frame := Frame.refl u m.store g
  tl_le := le_rfl
  enqLock := Iff.rfl
  deqLock := Iff.rfl
  enq := fun _ => ⟨rfl, rfl⟩
  deq := fun _ => rfl

/-- The functions of a program point that `Status` reads. -/
def Local.face (l : Local) : Bool × Bool × Bool × Bool × Bool × Int32 × Ptr :=
  (l.pc.holdsEnq, l.pc.holdsDeq, l.pc.lagging, l.pc.ahead, l.pc.unlinking, l.pc.slack, l.holding)

theorem Status.congr (h : Status t m g l) (l' : Local) (hf : l'.face = l.face)
    (ha : l'.argsOk) : Status t m g l' := by
  simp only [Local.face, Prod.mk.injEq] at hf
  obtain ⟨henq, hdeq, hlag, hahead, hunl, hslack, hhold⟩ := hf
  exact
  { enqLock := by rw [henq]; exact h.enqLock
    deqLock := by rw [hdeq]; exact h.deqLock
    lag := by rw [henq, hlag]; exact h.lag
    gap := by rw [hdeq, hahead]; exact h.gap
    hold := hhold ▸ h.hold
    pend := hunl ▸ h.pend
    size := hslack ▸ h.size
    args := ha }

/-- A step that touches neither the memory nor the history. -/
theorem StepOk.silent (hS : Shared m g) (hO : Own t m g l) (hf : l'.face = l.face)
    (ha : l'.argsOk) (ho : outline t m g l') : StepOk t m g m g l' :=
  ⟨hS, ⟨hO.status.congr l' hf ha, ho⟩, fun u _ => Rely.refl u m g⟩

/-- A store step that leaves the main list alone. -/
theorem StepOk.store (hS : Shared m g) (hv : g'.Valid q') (hhd : g'.hd = g.hd)
    (htl : g'.tl = g.tl) (hlen : g'.len = g.len) (hlive : g'.Live g'.tl)
    (hst : Status t (m.setStore q') g' l') (ho : outline t (m.setStore q') g' l')
    (hf : ∀ u, u ≠ t → Frame u m.store g q' g') : StepOk t m g (m.setStore q') g' l' where
  shared :=
    { valid := hv
      hd_le := by rw [hhd, htl]; exact hS.hd_le
      tail_live := hlive
      lag := by rw [hlen, htl]; exact hS.lag
      enq_free := by rw [hlen, htl]; exact hS.enq_free
      deq_free := by rw [hhd, htl]; exact hS.deq_free }
  own := ⟨hst, ho⟩
  rely := fun u hu =>
    { frame := hf u hu
      tl_le := htl.ge
      enqLock := Iff.rfl
      deqLock := Iff.rfl
      enq := fun _ => ⟨hlen, htl⟩
      deq := fun _ => hhd }

/-- Storing into the node `t` keeps to itself. -/
theorem StepOk.writeHeld {p : Addr} (hS : Shared m g) (hO : Own t m g l)
    (hp : g.hold t = some p) (x : Node) (hf : l'.face = l.face) (ha : l'.argsOk)
    (ho : outline t (m.setStore { m.store with heap := Function.update m.store.heap p x }) g l') :
    StepOk t m g (m.setStore { m.store with heap := Function.update m.store.heap p x }) g l' :=
  StepOk.store hS (hS.valid.writeHeld hp x) rfl rfl rfl hS.tail_live
    { hO.status.congr l' hf ha with } ho fun _ hu => Frame.writeHeld hS.valid hu hp x

attribute [local simp] Local.face Pc.holdsEnq Pc.holdsDeq Pc.lagging Pc.ahead Pc.unlinking Pc.slack
  Local.holding Local.isEnq

/-! ## Locks -/

/-- Taking `enq_lock`. -/
theorem StepOk.takeEnq (hS : Shared m g) (hfree : m.enqLock = none)
    (hst : Status t (m.setEnqLock (some t)) g l') (ho : outline t (m.setEnqLock (some t)) g l') :
    StepOk t m g (m.setEnqLock (some t)) g l' where
  shared := { hS with enq_free := fun h => by cases h }
  own := ⟨hst, ho⟩
  rely := fun u hu =>
    { Rely.refl u m g with
      enqLock := by simp [hfree, Ne.symm hu] }

/-- Giving `enq_lock` back, with `tail` at the last node. -/
theorem StepOk.dropEnq (hS : Shared m g) (hlock : m.enqLock = some t) (hlag : g.len = g.tl + 1)
    (hst : Status t (m.setEnqLock none) g l') (ho : outline t (m.setEnqLock none) g l') :
    StepOk t m g (m.setEnqLock none) g l' where
  shared := { hS with enq_free := fun _ => hlag }
  own := ⟨hst, ho⟩
  rely := fun u hu =>
    { Rely.refl u m g with
      enqLock := by simp [hlock, Ne.symm hu] }

theorem StepOk.takeDeq (hS : Shared m g) (hfree : m.deqLock = none)
    (hst : Status t (m.setDeqLock (some t)) g l') (ho : outline t (m.setDeqLock (some t)) g l') :
    StepOk t m g (m.setDeqLock (some t)) g l' where
  shared := { hS with deq_free := fun h => by cases h }
  own := ⟨hst, ho⟩
  rely := fun u hu =>
    { Rely.refl u m g with
      deqLock := by simp [hfree, Ne.symm hu] }

/-- Giving `deq_lock` back, with `head` not past `tail`. -/
theorem StepOk.dropDeq (hS : Shared m g) (hlock : m.deqLock = some t) (hgap : g.hd ≤ g.tl)
    (hst : Status t (m.setDeqLock none) g l') (ho : outline t (m.setDeqLock none) g l') :
    StepOk t m g (m.setDeqLock none) g l' where
  shared := { hS with deq_free := fun _ => hgap }
  own := ⟨hst, ho⟩
  rely := fun u hu =>
    { Rely.refl u m g with
      deqLock := by simp [hlock, Ne.symm hu] }

/-! ## `upcylce_node` -/

theorem upcylceNode_ok {pc : UpcylcePc} (hS : Shared m g) (hO : Own t m g l)
    (hpc : l.pc = .upcylce pc) (h : upcylceNode t c m l pc = .next m' l') :
    StepOk t m g m' (record t c m l g) l' := by
  have hst := hO.status
  have hout := hO.here
  have hargs : l.op = .enq l.v := by simpa [Local.argsOk, hpc] using hst.args
  have hhold : pc ≠ .size → g.hold t = none := by
    intro hne
    rw [hst.hold]
    cases pc <;> simp_all
  cases pc with
  | loadHead =>
      rw [show record t c m l g = g by simp [record, hpc]]
      have hchain := hS.valid.chain t
      simp only [upcylceNode] at h
      split at h
      next p hhead =>
        cases h
        -- the head of the list in memory is the first of `free t`
        rw [hhead] at hchain
        obtain ⟨rest, hfree, -⟩ := hchain.of_some
        exact StepOk.silent hS hO (by simp [hpc]) hargs ⟨p, rest, rfl, hfree⟩
      next hhead =>
        cases h
        exact StepOk.silent hS hO (by simp [hpc]) hargs hhead
  | loadNext =>
      obtain ⟨p, rest, hn, hfree⟩ : ∃ p rest, l.newNode = some p ∧ g.free t = p :: rest := by
        simpa [outline, hpc] using hout
      rw [show record t c m l g = g by simp [record, hpc]]
      simp only [upcylceNode, hn] at h
      cases h
      exact StepOk.silent hS hO (by simp [hpc]) hargs ⟨p, rest, rfl, hfree, rfl⟩
  | storeHead =>
      obtain ⟨p, rest, hn, hfree, htmp⟩ : ∃ p rest, l.newNode = some p ∧
          g.free t = p :: rest ∧ l.tmp = (m.store.heap p).next := by
        simpa [outline, hpc] using hout
      have hsize : (m.store.freeLists t).size = Int32.ofNat (g.free t).length := by
        simpa [hpc] using hst.size
      rw [show record t c m l g = g.pop t p by simp [record, hpc, hn]]
      simp only [upcylceNode, htmp] at h
      cases h
      refine StepOk.store hS (hS.valid.pop hfree (hhold (by simp))) rfl rfl rfl hS.tail_live ?_
        (by simp [outline, hn]) fun u hu => Frame.pop hu _
      exact
      { enqLock := by simpa [hpc] using hst.enqLock
        deqLock := by simpa [hpc] using hst.deqLock
        lag := by simpa [hpc] using hst.lag
        gap := by simp
        hold := by simp [hn]
        pend := by simpa [hpc] using hst.pend
        size := by simp [hsize, hfree]
        args := hargs }
  | size =>
      have hn : l.newNode ≠ none := by simpa [outline, hpc] using hout
      have hsize : (m.store.freeLists t).size = Int32.ofNat (g.free t).length + 1 := by
        simpa [hpc] using hst.size
      rw [show record t c m l g = g by simp [record, hpc]]
      cases h
      refine StepOk.store hS (hS.valid.setFreeSize _) rfl rfl rfl hS.tail_live ?_
        (by simpa [outline] using hn) fun u hu => Frame.setFreeSize hu _
      exact
      { enqLock := by simpa [hpc] using hst.enqLock
        deqLock := by simpa [hpc] using hst.deqLock
        lag := by simpa [hpc] using hst.lag
        gap := by simp
        hold := by simpa [hpc] using hst.hold
        pend := by simpa [hpc] using hst.pend
        size := by simp [hsize]
        args := hargs }
  | malloc =>
      simp only [upcylceNode] at h
      split at h
      next raw hraw =>
        rw [show record t c m l g = g.take t m.store.brk by simp [record, hpc, hraw]]
        cases h
        refine StepOk.store hS (hS.valid.malloc raw (hhold (by simp))) rfl rfl rfl hS.tail_live ?_
          (by simp [outline]) fun u hu => Frame.malloc hS.valid hu raw
        exact
        { enqLock := by simpa [hpc] using hst.enqLock
          deqLock := by simpa [hpc] using hst.deqLock
          lag := by simpa [hpc] using hst.lag
          gap := by simp
          hold := by simp
          pend := by simpa [hpc] using hst.pend
          size := by simpa [hpc] using hst.size
          args := hargs }
      next hraw =>
        rw [show record t c m l g = g by simp [record, hpc, hraw]]
        cases h
        exact StepOk.silent hS hO (by simp [hpc]) hargs trivial

/-! ## `enq` -/

/-- `Q->tail->next = new_node` links behind the last node, which is the one `tail` points to. -/
theorem enqLink_ok (hS : Shared m g) (hO : Own t m g l) (hpc : l.pc = .enq .link)
    (h : enq t m l .link = .next m' l') : StepOk t m g m' (record t c m l g) l' := by
  have hst := hO.status
  have hargs : l.op = .enq l.v := by simpa [Local.argsOk, hpc] using hst.args
  have hlock : m.enqLock = some t := hst.enqLock.mpr (by simp [hpc])
  have hlag : g.len = g.tl + 1 := by simpa [hpc] using hst.lag
  obtain ⟨⟨p, hn, hheap⟩, htail⟩ : Ready m l ∧ l.tail = some (g.node g.tl) := by
    simpa [outline, hpc] using hO.here
  have hhold : g.hold t = some p := by simpa [hpc, hn] using hst.hold
  rw [show record t c m l g = g.link t p (m.store.heap p).data by simp [record, hpc, hn]]
  simp only [enq, htail, hn] at h
  cases h
  -- under the lock `tail` is at the last node
  have hvalid := hS.valid.link hhold (by rw [hheap])
  rw [show g.len - 1 = g.tl by omega] at hvalid
  -- `enq_free` has nothing to say while `t` holds the lock
  refine ⟨⟨hvalid, hS.hd_le, ?_, ?_, ?_, hS.deq_free⟩, ⟨?_, ?_⟩, fun u hu => ?_⟩
  · exact ⟨Nat.lt_succ_of_lt hS.tail_live.1, hS.tail_live.2⟩
  · simp only [link_len, link_tl]
    omega
  · intro hfree
    rw [Mem.setStore_enqLock, hlock] at hfree
    cases hfree
  · exact
    { enqLock := by simpa [hpc] using hst.enqLock
      deqLock := by simpa [hpc] using hst.deqLock
      lag := by simp [hlag]
      gap := by simp
      hold := by simp
      pend := by simpa [hpc] using hst.pend
      size := by simpa [hpc] using hst.size
      args := hargs }
  · simp [outline, hn, ← hlag]
  · have hframe := Frame.link (p := p) hS.valid hu (some p) (m.store.heap p).data
    rw [show g.len - 1 = g.tl by omega] at hframe
    exact
    { Rely.refl u m g with
      frame := hframe
      enq := by
        intro hu'
        rw [hlock] at hu'
        exact absurd (Option.some.inj hu') (Ne.symm hu) }

theorem enqStoreTail_ok (hS : Shared m g) (hO : Own t m g l) (hpc : l.pc = .enq .storeTail)
    (h : enq t m l .storeTail = .next m' l') : StepOk t m g m' (record t c m l g) l' := by
  have hst := hO.status
  have hargs : l.op = .enq l.v := by simpa [Local.argsOk, hpc] using hst.args
  have hlock : m.enqLock = some t := hst.enqLock.mpr (by simp [hpc])
  have hlag : g.len = g.tl + 2 := by simpa [hpc] using hst.lag
  have hn : l.newNode = some (g.node (g.tl + 1)) := by simpa [outline, hpc] using hO.here
  have hle := hS.hd_le
  rw [show record t c m l g = g.moveTail (g.tl + 1) by simp [record, hpc]]
  simp only [enq, hn] at h
  cases h
  refine ⟨⟨hS.valid.moveTail (by omega), ?_, ?_, ?_, fun _ => ?_, fun hfree => ?_⟩, ⟨?_, trivial⟩,
    fun u hu => ?_⟩
  · simp only [moveTail_hd, moveTail_tl]
    omega
  -- the linked node is in the main list even if a dequeue has made it the sentinel
  · exact ⟨by simp only [moveTail_len, moveTail_tl]; omega, .inl hle⟩
  · simp only [moveTail_len, moveTail_tl]
    omega
  · simp only [moveTail_len, moveTail_tl]
    omega
  · have := hS.deq_free hfree
    simp only [moveTail_hd, moveTail_tl]
    omega
  · exact
    { enqLock := by simpa [hpc] using hst.enqLock
      deqLock := by simpa [hpc] using hst.deqLock
      lag := by simp [hlag]
      gap := by simp
      hold := by simpa [hpc] using hst.hold
      pend := by simpa [hpc] using hst.pend
      size := by simpa [hpc] using hst.size
      args := hargs }
  · exact
    { Rely.refl u m g with
      frame := Frame.moveTail _
      tl_le := Nat.le_succ _
      enq := by
        intro hu'
        rw [hlock] at hu'
        exact absurd (Option.some.inj hu') (Ne.symm hu) }

theorem enq_ok {pc : EnqPc} (hS : Shared m g) (hO : Own t m g l) (hpc : l.pc = .enq pc)
    (h : enq t m l pc = .next m' l') : StepOk t m g m' (record t c m l g) l' := by
  have hst := hO.status
  have hout := hO.here
  have hargs : l.op = .enq l.v := by simpa [Local.argsOk, hpc] using hst.args
  cases pc with
  | lock =>
      rw [show record t c m l g = g by simp [record, hpc]]
      simp only [enq] at h
      split at h
      next hfree =>
        cases h
        refine StepOk.takeEnq hS hfree ?_ trivial
        exact
        { enqLock := by simp
          deqLock := by simpa [hpc] using hst.deqLock
          lag := fun _ => hS.enq_free hfree
          gap := by simp
          hold := by simpa [hpc] using hst.hold
          pend := by simpa [hpc] using hst.pend
          size := by simpa [hpc] using hst.size
          args := hargs }
      next => cases h
  | data =>
      rw [show record t c m l g = g by simp [record, hpc]]
      simp only [enq] at h
      split at h
      next p hn =>
        have hhold : g.hold t = some p := by simpa [hpc, hn] using hst.hold
        cases h
        exact StepOk.writeHeld hS hO hhold _ (by simp [hpc]) hargs ⟨p, hn, by simp⟩
      next => cases h
  | next =>
      obtain ⟨p, hn, hdata⟩ : ∃ p, l.newNode = some p ∧ (m.store.heap p).data = l.v := by
        simpa [outline, hpc] using hout
      have hhold : g.hold t = some p := by simpa [hpc, hn] using hst.hold
      rw [show record t c m l g = g by simp [record, hpc]]
      simp only [enq, hn] at h
      cases h
      exact StepOk.writeHeld hS hO hhold _ (by simp [hpc]) hargs ⟨p, hn, by simp [hdata]⟩
  | loadTail =>
      have hready : Ready m l := by simpa [outline, hpc] using hout
      rw [show record t c m l g = g by simp [record, hpc]]
      cases h
      exact StepOk.silent hS hO (by simp [hpc]) hargs ⟨hready, hS.valid.tail⟩
  | link => exact enqLink_ok hS hO hpc h
  | storeTail => exact enqStoreTail_ok hS hO hpc h
  | unlock | unlockFail =>
      rw [show record t c m l g = g by simp [record, hpc]]
      have hlag : g.len = g.tl + 1 := by simpa [hpc] using hst.lag
      cases h
      refine StepOk.dropEnq hS (hst.enqLock.mpr (by simp [hpc])) hlag ?_ trivial
      exact
      { enqLock := by simp
        deqLock := by simpa [hpc] using hst.deqLock
        lag := by simp
        gap := by simp
        hold := by simpa [hpc] using hst.hold
        pend := by simpa [hpc] using hst.pend
        size := by simpa [hpc] using hst.size
        args := .inl ⟨hargs, by simp⟩ }

/-! ## `deq` -/

/-- `Q->head = next` makes the first linked node the new sentinel. -/
theorem deqStoreHead_ok (hS : Shared m g) (hO : Own t m g l) (hpc : l.pc = .deq .storeHead)
    (h : deq t m l .storeHead = .next m' l') : StepOk t m g m' (record t c m l g) l' := by
  have hst := hO.status
  have hargs : l.isEnq = false := by
    simpa only [Local.argsOk, hpc] using hst.args
  have hlock : m.deqLock = some t := hst.deqLock.mpr (by simp [hpc])
  have hgap : g.hd ≤ g.tl := by simpa [hpc] using hst.gap
  have hpend : g.pend t = none := by simpa [hpc] using hst.pend
  have hfront : Front g l := by
    have hout := hO.here
    simp only [outline, hpc] at hout
    exact hout.1
  rw [show record t c m l g = g.moveHead t by simp [record, hpc]]
  simp only [deq, hfront.next] at h
  cases h
  refine ⟨⟨hS.valid.moveHead hfront.succ_lt hpend, ?_, ?_, hS.lag, hS.enq_free, fun hfree => ?_⟩,
    ⟨?_, ?_⟩, fun u hu => ?_⟩
  · simp only [moveHead_hd, moveHead_tl]
    omega
  · -- `tail` may be left behind on the sentinel that is now detached
    refine ⟨hS.tail_live.1, ?_⟩
    simp only [moveHead_hd, moveHead_tl, moveHead_pend]
    rcases Nat.lt_or_eq_of_le hgap with hlt | heq
    · exact .inl hlt
    · exact .inr ⟨t, by simp [heq]⟩
  · rw [Mem.setStore_deqLock, hlock] at hfree
    cases hfree
  · exact
    { enqLock := by simpa [hpc] using hst.enqLock
      deqLock := by simpa [hpc] using hst.deqLock
      lag := by simp
      gap := by simp
      hold := by simpa [hpc] using hst.hold
      pend := by simp
      size := by simpa [hpc] using hst.size
      args := hargs }
  · exact ⟨by simpa using hfront.sentinel, by simp⟩
  · exact
    { Rely.refl u m g with
      frame := Frame.moveHead hu _
      deq := by
        intro hu'
        rw [hlock] at hu'
        exact absurd (Option.some.inj hu') (Ne.symm hu) }

/-- The branch of `deq` that takes `enq_lock`. -/
theorem deqRepair_ok {pc : DeqPc} (hS : Shared m g) (hO : Own t m g l) (hpc : l.pc = .deq pc)
    (hrepair : pc = .repairLock ∨ pc = .repairHead ∨ pc = .repairNext ∨ pc = .repairLoad ∨
      pc = .repairStore ∨ pc = .repairUnlock)
    (h : deq t m l pc = .next m' l') : StepOk t m g m' (record t c m l g) l' := by
  have hst := hO.status
  have hout := hO.here
  have hlt := hS.valid.hd_lt
  rcases hrepair with rfl | rfl | rfl | rfl | rfl | rfl
  all_goals
    have hargs : l.isEnq = false := by simpa only [Local.argsOk, hpc] using hst.args
    rw [show record t c m l g = g by simp [record, hpc]]
    simp only [outline, hpc] at hout
  · simp only [deq] at h
    split at h
    next hfree =>
      cases h
      -- the lock was free, so `tail` has caught up with the last node
      have hlag := hS.enq_free hfree
      refine StepOk.takeEnq hS hfree ?_ ⟨hout.sentinel, hout.pos⟩
      exact
      { enqLock := by simp
        deqLock := by simpa [hpc] using hst.deqLock
        lag := fun _ => hlag
        gap := fun _ _ => by omega
        hold := by simpa [hpc] using hst.hold
        pend := by simpa [hpc] using hst.pend
        size := by simpa [hpc] using hst.size
        args := hargs }
    next => cases h
  · cases h
    exact StepOk.silent hS hO (by simp [hpc]) hargs
      ⟨⟨hout.sentinel, hout.pos⟩, hS.valid.head⟩
  · have hlag : g.len = g.tl + 1 := by simpa [hpc] using hst.lag
    have hgap : g.hd ≤ g.tl := by simpa [hpc] using hst.gap
    simp only [deq, hout.2] at h
    split at h
    next hnull =>
      cases h
      -- one node is left, and `head` and `tail` are both on it
      have hlen := (hS.valid.next_eq_none_iff hS.valid.live_hd).mp hnull
      exact StepOk.silent hS hO (by simp [hpc]) hargs
        ⟨⟨hout.1.sentinel, hout.1.pos⟩, by omega⟩
    next =>
      cases h
      exact StepOk.silent hS hO (by simp [hpc]) hargs ⟨hout.1.sentinel, hout.1.pos⟩
  · cases h
    exact StepOk.silent hS hO (by simp [hpc]) hargs
      ⟨⟨hout.1.sentinel, hout.1.pos⟩, hout.2, hS.valid.head⟩
  · -- the store writes back what `tail` holds
    have hsame : m.setStore (m.store.setTail l.head) = m := by
      have htail := hS.valid.tail
      rw [← hout.2.1, ← hout.2.2] at htail
      simp only [Mem.setStore, Store.setTail, ← htail]
    simp only [deq, hsame] at h
    cases h
    exact StepOk.silent hS hO (by simp [hpc]) hargs ⟨hout.1.sentinel, hout.1.pos⟩
  · have hlag : g.len = g.tl + 1 := by simpa [hpc] using hst.lag
    cases h
    refine StepOk.dropEnq hS (hst.enqLock.mpr (by simp [hpc])) hlag ?_ ⟨hout.sentinel, hout.pos⟩
    exact
    { enqLock := by simp
      deqLock := by simpa [hpc] using hst.deqLock
      lag := by simp
      gap := by simpa [hpc] using hst.gap
      hold := by simpa [hpc] using hst.hold
      pend := by simpa [hpc] using hst.pend
      size := by simpa [hpc] using hst.size
      args := hargs }

theorem deq_ok {pc : DeqPc} (hS : Shared m g) (hO : Own t m g l) (hpc : l.pc = .deq pc)
    (h : deq t m l pc = .next m' l') : StepOk t m g m' (record t c m l g) l' := by
  have hst := hO.status
  have hout := hO.here
  cases pc with
  | lock =>
      have hargs : l.op = .deq l.out := by simpa only [Local.argsOk, hpc] using hst.args
      rw [show record t c m l g = g by simp [record, hpc]]
      simp only [deq] at h
      split at h
      next hfree =>
        cases h
        refine StepOk.takeDeq hS hfree ?_ trivial
        exact
        { enqLock := by simpa [hpc] using hst.enqLock
          deqLock := by simp
          lag := by simp
          gap := fun _ _ => hS.deq_free hfree
          hold := by simpa [hpc] using hst.hold
          pend := by simpa [hpc] using hst.pend
          size := by simpa [hpc] using hst.size
          args := hargs }
      next => cases h
  | loadHead =>
      have hargs : l.op = .deq l.out := by simpa only [Local.argsOk, hpc] using hst.args
      rw [show record t c m l g = g by simp [record, hpc]]
      cases h
      exact StepOk.silent hS hO (by simp [hpc]) hargs hS.valid.head
  | loadNext =>
      have hargs : l.op = .deq l.out := by simpa only [Local.argsOk, hpc] using hst.args
      simp only [outline, hpc] at hout
      rw [show record t c m l g = g by simp [record, hpc]]
      simp only [deq, hout] at h
      split at h
      next a hnext =>
        cases h
        -- `deq_lock` is held, so the sentinel is at `head`
        obtain ⟨hlt, rfl⟩ := hS.valid.next_eq_some hS.valid.live_hd hnext
        exact StepOk.silent hS hO (by simp [hpc]) hargs ⟨rfl, hlt, rfl⟩
      next =>
        cases h
        exact StepOk.silent hS hO (by simp [hpc]) hargs trivial
  | loadData =>
      have hargs : l.op = .deq l.out := by simpa only [Local.argsOk, hpc] using hst.args
      have hfront : Front g l := by simpa only [outline, hpc] using hout
      rw [show record t c m l g = g by simp [record, hpc]]
      simp only [deq, hfront.next] at h
      cases h
      exact StepOk.silent hS hO (by simp [hpc]) hargs
        ⟨⟨hfront.sentinel, hfront.succ_lt, rfl⟩,
          hS.valid.data _ (Valid.live_of_le (Nat.le_succ _) hfront.succ_lt)⟩
  | writeOut =>
      have hargs : l.op = .deq l.out := by simpa only [Local.argsOk, hpc] using hst.args
      obtain ⟨hfront, hval⟩ : Front g l ∧ l.val = g.val (g.hd + 1) := by
        simpa only [outline, hpc] using hout
      rw [show record t c m l g = g by simp [record, hpc]]
      cases h
      exact StepOk.silent hS hO (by simp [hpc]) (by simp [Local.argsOk, hargs])
        ⟨⟨hfront.sentinel, hfront.succ_lt, hfront.next⟩, hval, rfl⟩
  | storeHead => exact deqStoreHead_ok hS hO hpc h
  | reloadHead =>
      have hargs : l.isEnq = false := by simpa only [Local.argsOk, hpc] using hst.args
      have hgone : Gone g l := by simpa only [outline, hpc] using hout
      rw [show record t c m l g = g by simp [record, hpc]]
      cases h
      exact StepOk.silent hS hO (by simp [hpc]) hargs
        ⟨⟨hgone.sentinel, hgone.pos⟩, hS.valid.head⟩
  | reloadNext =>
      have hargs : l.isEnq = false := by simpa only [Local.argsOk, hpc] using hst.args
      obtain ⟨hgone, hhead⟩ : Gone g l ∧ l.head = some (g.node g.hd) := by
        simpa only [outline, hpc] using hout
      have hlag := hS.lag
      have hlt := hS.valid.hd_lt
      rw [show record t c m l g = g by simp [record, hpc]]
      simp only [deq, hhead] at h
      split at h
      next =>
        cases h
        exact StepOk.silent hS hO (by simp [hpc]) hargs ⟨hgone.sentinel, hgone.pos⟩
      next hsome =>
        cases h
        -- the new sentinel has a successor, so `tail` is not on the old one
        have hlen : g.hd + 1 ≠ g.len := fun he =>
          hsome ((hS.valid.next_eq_none_iff hS.valid.live_hd).mpr he)
        refine ⟨hS, ⟨?_, ⟨hgone.sentinel, hgone.pos⟩⟩, fun u _ => Rely.refl u m g⟩
        exact
        { enqLock := by simpa [hpc] using hst.enqLock
          deqLock := by simpa [hpc] using hst.deqLock
          lag := by simp
          gap := fun _ _ => by omega
          hold := by simpa [hpc] using hst.hold
          pend := by simpa [hpc] using hst.pend
          size := by simpa [hpc] using hst.size
          args := hargs }
  | repairLock | repairHead | repairNext | repairLoad | repairStore | repairUnlock =>
      exact deqRepair_ok hS hO hpc (by simp) h
  | unlock =>
      have hargs : l.isEnq = false := by simpa only [Local.argsOk, hpc] using hst.args
      have hgap : g.hd ≤ g.tl := by simpa [hpc] using hst.gap
      rw [show record t c m l g = g by simp [record, hpc]]
      cases h
      refine StepOk.dropDeq hS (hst.deqLock.mpr (by simp [hpc])) hgap ?_ trivial
      exact
      { enqLock := by simpa [hpc] using hst.enqLock
        deqLock := by simp
        lag := by simp
        gap := by simp
        hold := by simpa [hpc] using hst.hold
        pend := by simpa [hpc] using hst.pend
        size := by simpa [hpc] using hst.size
        args := .inr (.inr ⟨hargs, rfl⟩) }
  | unlockEmpty =>
      have hargs : l.op = .deq l.out := by simpa only [Local.argsOk, hpc] using hst.args
      have hgap : g.hd ≤ g.tl := by simpa [hpc] using hst.gap
      rw [show record t c m l g = g by simp [record, hpc]]
      cases h
      refine StepOk.dropDeq hS (hst.deqLock.mpr (by simp [hpc])) hgap ?_ trivial
      exact
      { enqLock := by simpa [hpc] using hst.enqLock
        deqLock := by simp
        lag := by simp
        gap := by simp
        hold := by simpa [hpc] using hst.hold
        pend := by simpa [hpc] using hst.pend
        size := by simpa [hpc] using hst.size
        args := .inr (.inl ⟨hargs, rfl⟩) }

/-! ## `recycle_node` -/

theorem recycleNode_ok {pc : RecyclePc} (hS : Shared m g) (hO : Own t m g l)
    (hpc : l.pc = .recycle pc) (h : recycleNode t m l pc = .next m' l') :
    StepOk t m g m' (record t c m l g) l' := by
  have hst := hO.status
  have hout := hO.here
  have hargs : l.isEnq = false := by simpa only [Local.argsOk, hpc] using hst.args
  have hgap : g.hd ≤ g.tl := by
    have hgap := hst.gap
    cases pc <;> simpa [hpc] using hgap
  cases pc with
  | next =>
      have hgone : Gone g l := by simpa only [outline, hpc] using hout
      have hpend : g.pend t = some (g.hd - 1) := by simpa [hpc] using hst.pend
      have hhold : g.hold t = none := by simpa [hpc] using hst.hold
      rw [show record t c m l g = g.detach t (g.node (g.hd - 1)) by
        simp [record, hpc, hgone.sentinel]]
      simp only [recycleNode, hgone.sentinel] at h
      cases h
      -- `tail` is not on the sentinel any more
      refine StepOk.store hS (hS.valid.detach hpend hhold _) rfl rfl rfl
        ⟨hS.tail_live.1, .inl hgap⟩ ?_ ⟨_, hgone.sentinel, by simp⟩
        fun u hu => Frame.detach hS.valid hu (hS.valid.live_pend hpend) _
      exact
      { enqLock := by simpa [hpc] using hst.enqLock
        deqLock := by simpa [hpc] using hst.deqLock
        lag := by simp
        gap := fun _ _ => hgap
        hold := by simp [hgone.sentinel]
        pend := by simp
        size := by simpa [hpc] using hst.size
        args := hargs }
  | head =>
      obtain ⟨p, hp, hnext⟩ : ∃ p, l.sentinel = some p ∧
          (m.store.heap p).next = (m.store.freeLists t).head := by
        simpa only [outline, hpc] using hout
      have hhold : g.hold t = some p := by simpa [hpc, hp] using hst.hold
      have hsize : (m.store.freeLists t).size = Int32.ofNat (g.free t).length := by
        simpa [hpc] using hst.size
      rw [show record t c m l g = g.push t p by simp [record, hpc, hp]]
      simp only [recycleNode, hp] at h
      cases h
      refine StepOk.store hS (hS.valid.push hhold hnext) rfl rfl rfl hS.tail_live ?_ trivial
        fun u hu => Frame.push hu _
      exact
      { enqLock := by simpa [hpc] using hst.enqLock
        deqLock := by simpa [hpc] using hst.deqLock
        lag := by simp
        gap := fun _ _ => hgap
        hold := by simp
        pend := by simpa [hpc] using hst.pend
        size := by
          simp only [Layout.push_free, Function.update_self, Mem.setStore_store,
            Store.setFreeHead_freeLists, Local.goto_pc, Pc.slack, List.length_cons,
            Int32.ofNat_add, hsize]
          exact (add_one_add_neg_one _).symm
        args := hargs }
  | size =>
      have hsize : (m.store.freeLists t).size = Int32.ofNat (g.free t).length + (-1) := by
        simpa [hpc] using hst.size
      rw [show record t c m l g = g by simp [record, hpc]]
      cases h
      refine StepOk.store hS (hS.valid.setFreeSize _) rfl rfl rfl hS.tail_live ?_ trivial
        fun u hu => Frame.setFreeSize hu _
      exact
      { enqLock := by simpa [hpc] using hst.enqLock
        deqLock := by simpa [hpc] using hst.deqLock
        lag := by simp
        gap := fun _ _ => hgap
        hold := by simpa [hpc] using hst.hold
        pend := by simpa [hpc] using hst.pend
        size := by
          simp only [Mem.setStore_store, Store.setFreeSize_freeLists, Function.update_self,
            Local.goto_pc, Pc.slack, hsize, Int32.add_zero]
          exact add_neg_one_add_one _
        args := hargs }
  | count =>
      rw [show record t c m l g = g by simp [record, hpc]]
      cases h
      exact StepOk.silent hS hO (by simp [hpc]) hargs trivial

/-! ## The program -/

theorem step_ok (hS : Shared m g) (hO : Own t m g l) (h : step t c m l = .next m' l') :
    StepOk t m g m' (record t c m l g) l' := by
  unfold step at h
  cases hpc : l.pc with
  | idle =>
      rw [show record t c m l g = g by simp [record, hpc]]
      simp only [hpc] at h
      cases h
      cases hop : c.op <;>
        exact StepOk.silent hS hO (by simp [Local.call, hop, hpc])
          (by simp [Local.argsOk, Local.call, hop]) (by simp [outline, Local.call, hop])
  | upcylce pc => exact upcylceNode_ok hS hO hpc (by simpa only [hpc] using h)
  | enq pc => exact enq_ok hS hO hpc (by simpa only [hpc] using h)
  | deq pc => exact deq_ok hS hO hpc (by simpa only [hpc] using h)
  | recycle pc => exact recycleNode_ok hS hO hpc (by simpa only [hpc] using h)
  | ret =>
      rw [show record t c m l g = g by simp [record, hpc]]
      simp only [hpc] at h
      cases h
      exact StepOk.silent hS hO (by simp [hpc]) trivial trivial

abbrev State (n : Nat) := Config (Fin n) (Mem n) Local

/-- The rely–guarantee proof of Ex4. -/
def guarantee (n : Nat) : RelyGuarantee (withHistory (step (n := n)) record) where
  Shared mg := Shared mg.1 mg.2
  Own t mg l := Own t mg.1 mg.2 l
  Rely t mg mg' := Rely t mg.1 mg.2 mg'.1 mg'.2
  step := by
    intro t c mg l mg' l' hS hO h
    obtain ⟨hstep, hg⟩ := withHistory_next.mp h
    have hok := step_ok hS hO hstep
    rw [hg]
    exact ⟨hok.shared, hok.own, hok.rely⟩
  stable := fun hS h hr => h.stable hS hr

/-- The invariant of Ex4, with the history that explains the state. -/
structure Inv (s : State n) (g : Layout n) : Prop where
  shared : Shared s.mem g
  own : ∀ t, Own t s.mem g (s.th t)

theorem inv_iff {s : State n} : Inv s g ↔ (guarantee n).Inv (s.withHistory g) :=
  ⟨fun h => ⟨h.shared, h.own⟩, fun h => ⟨h.shared, h.own⟩⟩

theorem inv_init (n : Nat) : Inv (init n) (Layout.init n) where
  shared :=
    { valid := Layout.valid_init
      hd_le := Nat.zero_le _
      tail_live := ⟨Nat.one_pos, .inl le_rfl⟩
      lag := by simp
      enq_free := fun _ => rfl
      deq_free := fun _ => le_rfl }
  own := fun _ =>
    { status :=
        { enqLock := by simp [init, Mem.init, Local.init]
          deqLock := by simp [init, Mem.init, Local.init]
          lag := by simp [init, Local.init]
          gap := by simp [init, Local.init]
          hold := rfl
          pend := rfl
          size := rfl
          args := trivial }
      here := trivial }

theorem Inv.fire {s s' : State n} {e : Fin n × Choice} (h : Inv s g)
    (hf : fire step s e = some s') : Inv s' (record e.1 e.2 s.mem (s.th e.1) g) :=
  inv_iff.mpr ((inv_iff.mp h).fire (fire_withHistory record g hf))

/-- Every reachable state has a history that explains it. -/
theorem exists_history {s : State n} {es : List (Fin n × Choice)}
    (h : run step (init n) es = some s) : ∃ g, Inv s g := by
  obtain ⟨g, hg⟩ := run_withHistory record (Layout.init n) h
  exact ⟨g, inv_iff.mpr ((inv_iff.mp (inv_init n)).run hg)⟩

end ConcurrentQueues.Ex4
