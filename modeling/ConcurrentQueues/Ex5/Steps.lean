import ConcurrentQueues.Ex5.Effects

/-! Every step of every function of Ex5 keeps the invariant. -/

namespace ConcurrentQueues.Ex5

open Reasoning Layout

variable {n : Nat} {t : Fin n} {m m' : Mem n} {g : History n} {l l' : Local} {c : Choice}

attribute [local simp] Local.face Pc.inBody Local.holding Local.unlinking Pc.slack Local.listed
  Local.counted Local.took Local.isEnq

/-! ## `mm_op_begin` and `upcylce_node` -/

theorem mmOpBegin_ok (hS : Shared m g) (hO : Own t m g l) (hpc : l.pc = .opBegin)
    (h : mmOpBegin t m l = .next m' l') : StepOk t m g m' (record t c m l g) l' := by
  have hst := hO.status
  have hbody : g.body t = false := by simpa [hpc] using hst.body
  have hargs : l.op = .enq l.v ∨ l.op = .deq l.out := by simpa [Local.argsOk, hpc] using hst.args
  rw [show record t c m l g = g.enter t by simp [record, hpc]]
  cases h
  refine ⟨hS.enter hbody, ?_, fun u hu => Rely.enter hu⟩
  rcases hargs with hop | hop
  all_goals
    exact
    { status :=
        { body := by simp [hop]
          hold := by simpa [hpc, hop] using hst.hold
          pend := by simpa [hpc, hop] using hst.pend
          size := by simpa [hpc, hop] using hst.size
          retired := by simpa [hpc, hop] using hst.retired
          count := by simpa [hpc, hop] using hst.count
          args := by simp [Local.argsOk, hop] }
      here := by simp [outline, hop] }

theorem upcylceNode_ok {pc : UpcylcePc} (hS : Shared m g) (hO : Own t m g l)
    (hpc : l.pc = .upcylce pc) (h : upcylceNode t m l pc = .next m' l') :
    StepOk t m g m' (record t c m l g) l' := by
  have hst := hO.status
  have hout := hO.here
  have hargs : l.op = .enq l.v := by simpa [Local.argsOk, hpc] using hst.args
  cases pc with
  | loadHead =>
      rw [show record t c m l g = g by simp [record, hpc]]
      have hchain := hS.valid.chain t
      simp only [upcylceNode] at h
      split at h
      next p hhead =>
        cases h
        rw [hhead] at hchain
        obtain ⟨rest, hfree, -⟩ := hchain.of_some
        exact StepOk.silent hS hO (by simp [hpc]) hargs ⟨p, rest, rfl, hfree⟩
      next hhead =>
        cases h
        exact StepOk.silent hS hO (by simp [hpc]) hargs trivial
  | loadNext =>
      obtain ⟨p, rest, hn, hfree⟩ : ∃ p rest, l.n = some p ∧ g.lay.free t = p :: rest := by
        simpa [outline, hpc] using hout
      rw [show record t c m l g = g by simp [record, hpc]]
      simp only [upcylceNode, hn] at h
      cases h
      exact StepOk.silent hS hO (by simp [hpc]) hargs ⟨p, rest, rfl, hfree, rfl⟩
  | storeHead =>
      obtain ⟨p, rest, hn, hfree, htmp⟩ : ∃ p rest, l.n = some p ∧ g.lay.free t = p :: rest ∧
          l.tmp = (m.store.heap p).next := by
        simpa [outline, hpc] using hout
      have hhold : g.lay.hold t = none := by simpa [hpc] using hst.hold
      have hsize : (m.store.freeLists t).size = Int32.ofNat (g.lay.free t).length := by
        simpa [hpc] using hst.size
      rw [show record t c m l g = g.setLay (g.lay.pop t p) by simp [record, hpc, hn]]
      simp only [upcylceNode, htmp] at h
      cases h
      refine ⟨hS.setLay_same (hS.valid.pop hfree hhold) rfl rfl rfl rfl,
        ⟨?_, by simp [outline, hn]⟩,
        fun u hu => Rely.setLay (Frame.pop hu _) le_rfl⟩
      exact
      { body := by simpa [hpc] using hst.body
        hold := by simp [hn]
        pend := by simpa [hpc] using hst.pend
        size := by simp [hsize, hfree]
        retired := by simpa [hpc] using hst.retired
        count := by simpa [hpc] using hst.count
        args := hargs }
  | size =>
      have hn : l.n ≠ none := by simpa [outline, hpc] using hout
      have hsize : (m.store.freeLists t).size = Int32.ofNat (g.lay.free t).length + 1 := by
        simpa [hpc] using hst.size
      rw [show record t c m l g = g by simp [record, hpc]]
      simp only [upcylceNode] at h
      cases h
      refine ⟨hS.setLay_same (hS.valid.setFreeSize _) rfl rfl rfl rfl,
        ⟨?_, by simpa [outline] using hn⟩,
        fun u hu => Rely.setLay (Frame.setFreeSize hu _) le_rfl⟩
      exact
      { body := by simpa [hpc] using hst.body
        hold := by simpa [hpc] using hst.hold
        pend := by simpa [hpc] using hst.pend
        size := by simp [hsize]
        retired := by simpa [hpc] using hst.retired
        count := by simpa [hpc] using hst.count
        args := hargs }

/-! ## `make_node` and `enq` -/

/-- A store into the node `n` that `t` keeps to itself, on the way to `l'`. -/
theorem StepOk.writeHeld {p : Addr} (hS : Shared m g) (hO : Own t m g l)
    (hp : g.lay.hold t = some p) (x : Node) (hf : l'.face = l.face) (ha : l'.argsOk)
    (ho : outline t (m.setStore { m.store with heap := Function.update m.store.heap p x }) g l') :
    StepOk t m g (m.setStore { m.store with heap := Function.update m.store.heap p x }) g l' :=
  ⟨hS.writeHeld hp x, ⟨{ hO.status.congr l' hf ha with }, ho⟩,
    fun _ hu => Rely.writeHeld hS hu hp x⟩

theorem makeNode_ok {pc : MakePc} (hS : Shared m g) (hO : Own t m g l) (hpc : l.pc = .make pc)
    (h : makeNode c m l pc = .next m' l') : StepOk t m g m' (record t c m l g) l' := by
  have hst := hO.status
  have hargs : l.op = .enq l.v := by simpa [Local.argsOk, hpc] using hst.args
  cases pc with
  | malloc =>
      have hhold : g.lay.hold t = none := by simpa [hpc] using hst.hold
      simp only [makeNode] at h
      split at h
      next raw hraw =>
        rw [show record t c m l g = g.setLay (g.lay.take t m.store.brk) by
          simp [record, hpc, hraw]]
        cases h
        refine ⟨hS.setLay_same (hS.valid.malloc raw hhold) rfl rfl rfl rfl, ⟨?_, trivial⟩,
          fun u hu => Rely.setLay (Frame.malloc hS.valid hu raw) le_rfl⟩
        exact
        { body := by simpa [hpc] using hst.body
          hold := by simp
          pend := by simpa [hpc] using hst.pend
          size := by simpa [hpc] using hst.size
          retired := by simpa [hpc] using hst.retired
          count := by simpa [hpc] using hst.count
          args := hargs }
      next hraw =>
        rw [show record t c m l g = g by simp [record, hpc, hraw]]
        cases h
        exact StepOk.silent hS hO (by simp [hpc]) hargs trivial
  | data =>
      rw [show record t c m l g = g by simp [record, hpc]]
      simp only [makeNode] at h
      split at h
      next p hn =>
        have hhold : g.lay.hold t = some p := by simpa [hpc, hn] using hst.hold
        cases h
        exact StepOk.writeHeld hS hO hhold _ (by simp [hpc]) hargs (by simp [outline, hn])
      next => cases h
  | next =>
      rw [show record t c m l g = g by simp [record, hpc]]
      simp only [makeNode] at h
      split at h
      next p hn =>
        have hhold : g.lay.hold t = some p := by simpa [hpc, hn] using hst.hold
        cases h
        exact StepOk.writeHeld hS hO hhold _ (by simp [hpc]) hargs (by simp [outline, hn])
      next => cases h

/-- The tail CAS of `enq` and `deq` succeeds only while `tail` is still at `last`. -/
theorem Last.tail_eq (hS : Shared m g) (hb : g.body t = true) (hl : Last t g l)
    (heq : m.store.tail = l.last) : g.iLast t = g.lay.tl := by
  have hle := hS.hd_le_tl
  have hnode : g.lay.node (g.iLast t) = g.lay.node g.lay.tl := by
    have htail := hS.valid.tail
    rw [heq, hl.eq] at htail
    exact Option.some.inj htail
  exact hS.valid.node_inj (hS.live hb hl.start_le hl.lt_len) ⟨hS.valid.tl_lt, .inl hle⟩ hnode

theorem First.head_eq (hS : Shared m g) (hb : g.body t = true) (hl : First t g l)
    (heq : m.store.head = l.first) : g.iFirst t = g.lay.hd := by
  have hnode : g.lay.node (g.iFirst t) = g.lay.node g.lay.hd := by
    have hhead := hS.valid.head
    rw [heq, hl.eq] at hhead
    exact Option.some.inj hhead
  exact hS.valid.node_inj (hS.live hb hl.start_le hl.lt_len) hS.valid.live_hd hnode

theorem enqLink_ok (hS : Shared m g) (hO : Own t m g l) (hpc : l.pc = .enq .link)
    (h : enq c m l .link = .next m' l') : StepOk t m g m' (record t c m l g) l' := by
  have hst := hO.status
  have hargs : l.op = .enq l.v := by simpa [Local.argsOk, hpc] using hst.args
  have hbody : g.body t = true := by simpa [hpc] using hst.body
  obtain ⟨⟨p, hn, hheap⟩, hlast⟩ : Ready m l ∧ Last t g l := by
    simpa [outline, hpc] using hO.here
  have hhold : g.lay.hold t = some p := by simpa [hpc, hn] using hst.hold
  simp only [enq, hlast.eq] at h
  split at h
  next hcas =>
    have hlive := hS.live hbody hlast.start_le hlast.lt_len
    -- the CAS has found `NULL`, so `last` is the last node
    have hlen : g.iLast t + 1 = g.lay.len := (hS.valid.next_eq_none_iff hlive).mp hcas.1
    have htl := hlast.le_tl
    have hlt := hlast.lt_len
    have hlag := hS.valid.tl_lt
    have hfin : g.iLast t = g.lay.len - 1 := by omega
    rw [show record t c m l g = g.setLay (g.lay.link t p (m.store.heap p).data) by
      simp [record, hpc, hlast.eq, hn, hcas]]
    cases h
    rw [hn, hfin]
    refine ⟨?_, ⟨?_, ?_⟩, fun u hu => Rely.setLay (Frame.link hS.valid hu _ _) le_rfl⟩
    · refine hS.setLay (hS.valid.link hhold (by rw [hheap])) hS.hd_le_tl ?_ le_rfl hS.protect
      simp only [link_len, link_tl]
      omega
    · exact
      { body := by simpa [hpc] using hst.body
        hold := by simp
        pend := by simpa [hpc] using hst.pend
        size := by simpa [hpc] using hst.size
        retired := by simpa [hpc] using hst.retired
        count := by simpa [hpc] using hst.count
        args := hargs }
    · refine ⟨⟨?_, hlast.start_le, hlast.le_tl, Nat.lt_succ_of_lt hlt⟩, ?_, ?_⟩
      · simp [hlast.eq, Function.update_of_ne (Nat.ne_of_lt hlt)]
      · simp only [History.setLay_iLast, History.setLay_lay, link_len]
        omega
      · simp [hn, hlen]
  next hcas =>
    rw [show record t c m l g = g by simp [record, hpc, hlast.eq, hn, hcas]]
    cases h
    exact StepOk.silent hS hO (by simp [hpc]) hargs ⟨p, hn, hheap⟩

theorem enqSwing_ok (hS : Shared m g) (hO : Own t m g l) (hpc : l.pc = .enq .swing)
    (h : enq c m l .swing = .next m' l') : StepOk t m g m' (record t c m l g) l' := by
  have hst := hO.status
  have hargs : l.op = .enq l.v := by simpa [Local.argsOk, hpc] using hst.args
  have hbody : g.body t = true := by simpa [hpc] using hst.body
  obtain ⟨hlast, hlt, hn⟩ : Last t g l ∧ g.iLast t + 1 < g.lay.len ∧
      l.n = some (g.lay.node (g.iLast t + 1)) := by
    simpa [outline, hpc] using hO.here
  simp only [enq] at h
  split at h
  next hcas =>
    have htl := hlast.tail_eq hS hbody hcas.1
    rw [show record t c m l g = g.setLay (g.lay.moveTail (g.lay.tl + 1)) by
      simp [record, hpc, hcas]]
    cases h
    rw [hn, htl]
    -- `last` is at `tail`, and `n` is its successor
    refine ⟨hS.moveTail (htl ▸ hlt), ⟨?_, by simp [outline, hargs]⟩, fun u _ => Rely.moveTail _⟩
    exact
    { body := by simpa [hpc] using hst.body
      hold := by simpa [hpc] using hst.hold
      pend := by simpa [hpc, hargs] using hst.pend
      size := by simpa [hpc] using hst.size
      retired := by simpa [hpc, hargs] using hst.retired
      count := by simpa [hpc, hargs] using hst.count
      args := .inl ⟨hargs, rfl⟩ }
  next hcas =>
    rw [show record t c m l g = g by simp [record, hpc, hcas]]
    cases h
    exact StepOk.silent hS hO (by simp [hpc, hargs]) (.inl ⟨hargs, rfl⟩) (by simp [outline, hargs])

theorem enqHelp_ok (hS : Shared m g) (hO : Own t m g l) (hpc : l.pc = .enq .help)
    (h : enq c m l .help = .next m' l') : StepOk t m g m' (record t c m l g) l' := by
  have hst := hO.status
  have hargs : l.op = .enq l.v := by simpa [Local.argsOk, hpc] using hst.args
  have hbody : g.body t = true := by simpa [hpc] using hst.body
  obtain ⟨hready, hlast, hnext, hne⟩ : Ready m l ∧ Last t g l ∧ NextOf g l (g.iLast t) ∧
      l.next ≠ none := by
    simpa [outline, hpc] using hO.here
  simp only [enq] at h
  split at h
  next hcas =>
    have htl := hlast.tail_eq hS hbody hcas.1
    -- `next` is the successor that was loaded, whoever has linked it
    obtain ⟨p, hp⟩ := Option.ne_none_iff_exists'.mp hne
    obtain ⟨hlt, rfl⟩ := hnext p hp
    rw [show record t c m l g = g.setLay (g.lay.moveTail (g.lay.tl + 1)) by
      simp [record, hpc, hcas]]
    cases h
    rw [hp, htl]
    refine ⟨hS.moveTail (htl ▸ hlt), ⟨?_, hready⟩, fun u _ => Rely.moveTail _⟩
    exact { hst.congr (l.goto (.enq .loadTail)) (by simp [hpc]) hargs with }
  next hcas =>
    rw [show record t c m l g = g by simp [record, hpc, hcas]]
    cases h
    exact StepOk.silent hS hO (by simp [hpc]) hargs hready

theorem enq_ok {pc : EnqPc} (hS : Shared m g) (hO : Own t m g l) (hpc : l.pc = .enq pc)
    (h : enq c m l pc = .next m' l') : StepOk t m g m' (record t c m l g) l' := by
  have hst := hO.status
  have hout := hO.here
  have hargs : l.op = .enq l.v := by simpa [Local.argsOk, hpc] using hst.args
  have hbody : g.body t = true := by simpa [hpc] using hst.body
  cases pc with
  | data =>
      rw [show record t c m l g = g by simp [record, hpc]]
      simp only [enq] at h
      split at h
      next p hn =>
        have hhold : g.lay.hold t = some p := by simpa [hpc, hn] using hst.hold
        cases h
        exact StepOk.writeHeld hS hO hhold _ (by simp [hpc]) hargs ⟨p, hn, by simp⟩
      next => cases h
  | next =>
      obtain ⟨p, hn, hdata⟩ : ∃ p, l.n = some p ∧ (m.store.heap p).data = l.v := by
        simpa [outline, hpc] using hout
      have hhold : g.lay.hold t = some p := by simpa [hpc, hn] using hst.hold
      rw [show record t c m l g = g by simp [record, hpc]]
      simp only [enq, hn] at h
      cases h
      exact StepOk.writeHeld hS hO hhold _ (by simp [hpc]) hargs ⟨p, hn, by simp [hdata]⟩
  | loadTail =>
      obtain ⟨p, hn, hheap⟩ : Ready m l := by simpa [outline, hpc] using hout
      rw [show record t c m l g = g.setLast t g.lay.tl by simp [record, hpc]]
      simp only [enq, hn] at h
      cases h
      refine StepOk.setLast hS hO _ (by simp [hpc, hn]) hargs ⟨⟨p, rfl, hheap⟩, ?_⟩
      exact
      { eq := by simpa using hS.valid.tail
        start_le := by simpa using (hS.start_le t hbody).trans hS.hd_le_tl
        le_tl := by simp
        lt_len := by simpa using hS.valid.tl_lt }
  | loadNext =>
      obtain ⟨hready, hlast⟩ : Ready m l ∧ Last t g l := by simpa [outline, hpc] using hout
      rw [show record t c m l g = g by simp [record, hpc]]
      simp only [enq, hlast.eq] at h
      cases h
      refine StepOk.silent hS hO (by simp [hpc]) hargs ⟨hready, { hlast with eq := rfl }, ?_⟩
      exact fun p hp =>
        hS.valid.next_eq_some (hS.live hbody hlast.start_le hlast.lt_len) hp
  | reload =>
      obtain ⟨hready, hlast, hnext⟩ : Ready m l ∧ Last t g l ∧ NextOf g l (g.iLast t) := by
        simpa [outline, hpc] using hout
      rw [show record t c m l g = g by simp [record, hpc]]
      simp only [enq] at h
      split at h
      next =>
        split at h
        next hnull =>
          cases h
          exact StepOk.silent hS hO (by simp [hpc]) hargs ⟨hready, hlast.of_eq rfl⟩
        next hne =>
          cases h
          exact StepOk.silent hS hO (by simp [hpc]) hargs ⟨hready, hlast.of_eq rfl, hnext, hne⟩
      next =>
        cases h
        exact StepOk.silent hS hO (by simp [hpc]) hargs hready
  | link => exact enqLink_ok hS hO hpc h
  | swing => exact enqSwing_ok hS hO hpc h
  | help => exact enqHelp_ok hS hO hpc h

/-! ## `deq` -/

theorem Shared.moveHead (hS : Shared m g) (hlt : g.lay.hd < g.lay.tl)
    (hp : g.lay.pend t = none) :
    Shared (m.setStore (m.store.setHead (some (g.lay.node (g.lay.hd + 1)))))
      (g.setLay (g.lay.moveHead t)) := by
  have htl := hS.valid.tl_lt
  refine hS.setLay (hS.valid.moveHead (by omega) hp) hlt hS.lag (Nat.le_succ _) ?_
  intro u i hb hi hlt'
  simp only [moveHead_hd, moveHead_pend] at hlt' ⊢
  -- the number that falls below `hd` is the one `t` has just unlinked
  rcases Nat.eq_or_lt_of_le (Nat.lt_succ_iff.mp hlt') with rfl | hlt''
  · exact ⟨t, by simp⟩
  · obtain ⟨w, hw⟩ := hS.protect u i hb hi hlt''
    have hwt : w ≠ t := by
      rintro rfl
      rw [hp] at hw
      cases hw
    exact ⟨w, by simpa [Function.update_of_ne hwt] using hw⟩

theorem deqReload_ok (hS : Shared m g) (hO : Own t m g l) (hpc : l.pc = .deq .reload)
    (h : deq c m l .reload = .next m' l') : StepOk t m g m' (record t c m l g) l' := by
  have hst := hO.status
  have hargs : l.op = .deq l.out := by simpa [Local.argsOk, hpc] using hst.args
  have hbody : g.body t = true := by simpa [hpc] using hst.body
  obtain ⟨hfirst, hlast, hle, hnext, hnull⟩ : First t g l ∧ Last t g l ∧
      g.iFirst t ≤ g.iLast t ∧ NextOf g l (g.iFirst t) ∧
        (l.next = none → g.iFirst t = g.iLast t) := by
    simpa [outline, hpc] using hO.here
  rw [show record t c m l g = g by simp [record, hpc]]
  simp only [deq] at h
  split at h
  next =>
    split at h
    next heq =>
      split at h
      next =>
        cases h
        exact StepOk.silent hS hO (by simp [hpc]) (.inr (.inl ⟨hargs, rfl⟩)) (by simp [outline])
      next hne =>
        cases h
        -- live numbers have different nodes, so equal pointers are equal numbers
        have hidx : g.iFirst t = g.iLast t := by
          rw [hfirst.eq, hlast.eq] at heq
          exact hS.valid.node_inj (hS.live hbody hfirst.start_le hfirst.lt_len)
            (hS.live hbody hlast.start_le hlast.lt_len) (Option.some.inj heq)
        exact StepOk.silent hS hO (by simp [hpc]) hargs
          ⟨hfirst.of_eq rfl, hlast.of_eq rfl, hidx, hnext, hne⟩
    next hneq =>
      cases h
      -- `tail` was past `first` when it was loaded, so `first` has a successor
      have hidx : g.iFirst t ≠ g.iLast t := by
        intro hidx
        rw [hfirst.eq, hlast.eq, hidx] at hneq
        exact hneq rfl
      obtain ⟨p, hp⟩ := Option.ne_none_iff_exists'.mp fun hz => hidx (hnull hz)
      obtain ⟨hlt, rfl⟩ := hnext p hp
      exact StepOk.silent hS hO (by simp [hpc]) hargs
        ⟨hfirst.of_eq rfl, hlast.of_eq rfl, by omega, hlt, hp⟩
  next =>
    cases h
    exact StepOk.silent hS hO (by simp [hpc]) hargs trivial

theorem deqHelp_ok (hS : Shared m g) (hO : Own t m g l) (hpc : l.pc = .deq .help)
    (h : deq c m l .help = .next m' l') : StepOk t m g m' (record t c m l g) l' := by
  have hst := hO.status
  have hargs : l.op = .deq l.out := by simpa [Local.argsOk, hpc] using hst.args
  have hbody : g.body t = true := by simpa [hpc] using hst.body
  obtain ⟨-, hlast, heq, hnext, hne⟩ : First t g l ∧ Last t g l ∧ g.iFirst t = g.iLast t ∧
      NextOf g l (g.iFirst t) ∧ l.next ≠ none := by
    simpa [outline, hpc] using hO.here
  simp only [deq] at h
  split at h
  next hcas =>
    have htl := hlast.tail_eq hS hbody hcas.1
    obtain ⟨p, hp⟩ := Option.ne_none_iff_exists'.mp hne
    obtain ⟨hlt, rfl⟩ := hnext p hp
    rw [show record t c m l g = g.setLay (g.lay.moveTail (g.lay.tl + 1)) by
      simp [record, hpc, hcas]]
    cases h
    rw [heq, htl] at hlt
    rw [hp, heq, htl]
    refine ⟨hS.moveTail hlt, ⟨?_, trivial⟩, fun u _ => Rely.moveTail _⟩
    exact { hst.congr (l.goto (.deq .loadHead)) (by simp [hpc]) hargs with }
  next hcas =>
    rw [show record t c m l g = g by simp [record, hpc, hcas]]
    cases h
    exact StepOk.silent hS hO (by simp [hpc]) hargs trivial

theorem deqCas_ok (hS : Shared m g) (hO : Own t m g l) (hpc : l.pc = .deq .cas)
    (h : deq c m l .cas = .next m' l') : StepOk t m g m' (record t c m l g) l' := by
  have hst := hO.status
  have hargs : l.op = .deq l.out := by simpa [Local.argsOk, hpc] using hst.args
  have hbody : g.body t = true := by simpa [hpc] using hst.body
  have hpend : g.lay.pend t = none := by simpa [hpc] using hst.pend
  obtain ⟨hsucc, -⟩ : Successor t g l ∧ l.val = g.lay.val (g.iFirst t + 1) := by
    simpa [outline, hpc] using hO.here
  have hfirst := hsucc.first
  simp only [deq] at h
  split at h
  next hcas =>
    -- `head` is at `first`, which was in front of `last` and so is in front of `tail`
    have hhd := hfirst.head_eq hS hbody hcas.1
    have hlt : g.lay.hd < g.lay.tl := by
      have := hsucc.lt
      have := hsucc.last.le_tl
      omega
    rw [show record t c m l g = g.setLay (g.lay.moveHead t) by simp [record, hpc, hcas]]
    cases h
    rw [hsucc.next, hhd]
    refine ⟨hS.moveHead hlt hpend, ⟨?_, ?_⟩,
      fun u hu => Rely.setLay (Frame.moveHead hu _) le_rfl⟩
    · exact
      { body := by simpa [hpc] using hst.body
        hold := by simpa [hpc] using hst.hold
        pend := by simp [hhd]
        size := by simpa [hpc] using hst.size
        retired := by simpa [hpc] using hst.retired
        count := by simpa [hpc] using hst.count
        args := hargs }
    · refine ⟨⟨hfirst.eq, hfirst.start_le, ?_, hfirst.lt_len⟩, ?_⟩
      · simp [hhd]
      · simp [hhd]
  next hcas =>
    rw [show record t c m l g = g by simp [record, hpc, hcas]]
    cases h
    exact StepOk.silent hS hO (by simp [hpc]) hargs trivial

theorem deq_ok {pc : DeqPc} (hS : Shared m g) (hO : Own t m g l) (hpc : l.pc = .deq pc)
    (h : deq c m l pc = .next m' l') : StepOk t m g m' (record t c m l g) l' := by
  have hst := hO.status
  have hout := hO.here
  have hargs : l.op = .deq l.out := by simpa [Local.argsOk, hpc] using hst.args
  have hbody : g.body t = true := by simpa [hpc] using hst.body
  cases pc with
  | loadHead =>
      rw [show record t c m l g = g.setFirst t g.lay.hd by simp [record, hpc]]
      cases h
      refine StepOk.setFirst hS hO _ (by simp [hpc]) (by simp [hpc]) hargs ?_
      exact
      { eq := by simpa using hS.valid.head
        start_le := by simpa using hS.start_le t hbody
        le_hd := by simp
        lt_len := by simpa using hS.valid.hd_lt }
  | loadTail =>
      have hfirst : First t g l := by simpa [outline, hpc] using hout
      rw [show record t c m l g = g.setLast t g.lay.tl by simp [record, hpc]]
      cases h
      refine StepOk.setLast hS hO _ (by simp [hpc]) hargs ⟨{ hfirst with }, ?_, ?_⟩
      · exact
        { eq := by simpa using hS.valid.tail
          start_le := by simpa using (hS.start_le t hbody).trans hS.hd_le_tl
          le_tl := by simp
          lt_len := by simpa using hS.valid.tl_lt }
      · simpa using hfirst.le_hd.trans hS.hd_le_tl
  | loadNext =>
      obtain ⟨hfirst, hlast, hle⟩ : First t g l ∧ Last t g l ∧ g.iFirst t ≤ g.iLast t := by
        simpa [outline, hpc] using hout
      have hlive := hS.live hbody hfirst.start_le hfirst.lt_len
      rw [show record t c m l g = g by simp [record, hpc]]
      simp only [deq, hfirst.eq] at h
      cases h
      refine StepOk.silent hS hO (by simp [hpc]) hargs
        ⟨{ hfirst with eq := rfl }, hlast.of_eq rfl, hle, ?_, ?_⟩
      · exact fun p hp => hS.valid.next_eq_some hlive hp
      -- `first` is the last node, and `last` is not before it
      · intro hnull
        have hlen := (hS.valid.next_eq_none_iff hlive).mp hnull
        have := hlast.lt_len
        omega
  | reload => exact deqReload_ok hS hO hpc h
  | help => exact deqHelp_ok hS hO hpc h
  | loadData =>
      have hsucc : Successor t g l := by simpa [outline, hpc] using hout
      have hstart := hsucc.first.start_le
      have hlive := hS.live hbody (Nat.le_succ_of_le hstart) hsucc.succ_lt
      rw [show record t c m l g = g by simp [record, hpc]]
      simp only [deq, hsucc.next] at h
      cases h
      exact StepOk.silent hS hO (by simp [hpc]) hargs
        ⟨⟨hsucc.first.of_eq rfl, hsucc.last.of_eq rfl, hsucc.lt, hsucc.succ_lt, rfl⟩,
          hS.valid.data _ hlive⟩
  | cas => exact deqCas_ok hS hO hpc h
  | writeOut =>
      have hpre : First t g l ∧ g.iFirst t < g.lay.hd := by simpa [outline, hpc] using hout
      rw [show record t c m l g = g by simp [record, hpc]]
      cases h
      exact StepOk.silent hS hO (by simp [hpc]) (by simp [Local.argsOk, hargs])
        ⟨hpre.1.of_eq rfl, hpre.2⟩

/-! ## `mm_retire` and `mm_op_end` -/

theorem mmRetire_ok {pc : RetirePc} (hS : Shared m g) (hO : Own t m g l)
    (hpc : l.pc = .retire pc) (h : mmRetire t c m l pc = .next m' l') :
    StepOk t m g m' (record t c m l g) l' := by
  have hst := hO.status
  have hout := hO.here
  have hargs : l.isEnq = false := by simpa only [Local.argsOk, hpc] using hst.args
  cases pc with
  | malloc =>
      obtain ⟨hfirst, hlt⟩ : First t g l ∧ g.iFirst t < g.lay.hd := by
        simpa [outline, hpc] using hout
      simp only [mmRetire] at h
      split at h
      next raw hraw =>
        rw [show record t c m l g = g.setRec t m.recBrk by simp [record, hpc, hraw]]
        cases h
        refine ⟨hS.mallocRec raw, ⟨?_, ?_⟩, fun u hu => Rely.mallocRec hS hu raw⟩
        · exact
          { body := by simpa [hpc] using hst.body
            hold := by simpa [hpc] using hst.hold
            pend := by simpa [hpc] using hst.pend
            size := by simpa [hpc] using hst.size
            retired := by simpa [hpc] using hst.retired
            count := by simpa [hpc] using hst.count
            args := hargs }
        · exact ⟨{ hfirst with }, hlt, .inr ⟨by simp, by simp⟩⟩
      next hraw =>
        rw [show record t c m l g = g by simp [record, hpc, hraw]]
        cases h
        exact StepOk.silent hS hO (by simp [hpc]) hargs ⟨hfirst.of_eq rfl, hlt, .inl rfl⟩
  | node =>
      obtain ⟨hfirst, hlt, hr⟩ : First t g l ∧ g.iFirst t < g.lay.hd ∧
          (l.r = none ∨ (l.r ≠ none ∧ l.r = g.recOf t)) := by
        simpa only [outline, hpc] using hout
      rw [show record t c m l g = g by simp [record, hpc]]
      simp only [mmRetire] at h
      split at h
      next r hlr =>
        have hrec : g.recOf t = some r := by
          rcases hr with hr | hr
          · rw [hlr] at hr; cases hr
          · rw [← hr.2, hlr]
        cases h
        refine ⟨hS.setRecord r _, ⟨?_, ?_⟩, fun u hu => Rely.setRecord hS hu hrec _⟩
        · exact { hst.congr (l.goto (.retire .next)) (by simp [hpc]) hargs with }
        · exact ⟨hfirst.of_eq rfl, hlt, r, hlr, hrec, by simp⟩
      next => cases h
  | next =>
      obtain ⟨hfirst, hlt, r, hlr, hrec, hnode⟩ : First t g l ∧ g.iFirst t < g.lay.hd ∧
          ∃ r, l.r = some r ∧ g.recOf t = some r ∧ (m.records r).node = l.first := by
        simpa only [outline, hpc] using hout
      have hret : m.retired t = none := by simpa [hpc] using hst.retired
      rw [show record t c m l g = g by simp [record, hpc]]
      simp only [mmRetire, hlr] at h
      cases h
      refine ⟨hS.setRecord r _, ⟨?_, ?_⟩, fun u hu => Rely.setRecord hS hu hrec _⟩
      · exact { hst.congr (l.goto (.retire .push)) (by simp [hpc]) hargs with }
      · exact ⟨⟨hfirst.of_eq rfl, hlt, r, hrec, by simp [hnode, hret]⟩, hlr.trans hrec.symm⟩
  | push =>
      obtain ⟨hunl, hr⟩ : Unlinked t m g l ∧ l.r = g.recOf t := by
        simpa only [outline, hpc] using hout
      rw [show record t c m l g = g by simp [record, hpc]]
      cases h
      -- the list was empty, so the record is now its only one
      refine ⟨hS.setRetired l.r, ⟨?_, ?_⟩, fun u hu => Rely.setRetired hu l.r⟩
      · exact
        { body := by simpa [hpc] using hst.body
          hold := by simpa [hpc] using hst.hold
          pend := by simpa [hpc] using hst.pend
          size := by simpa [hpc] using hst.size
          retired := by simp [hr]
          count := by simpa [hpc] using hst.count
          args := hargs }
      · exact { hunl with first := { hunl.first with } }
  | count =>
      have hunl : Unlinked t m g l := by simpa only [outline, hpc] using hout
      have hcount : m.retiredCount t = 0 := by simpa [hpc] using hst.count
      have hret : m.retired t = g.recOf t := by simpa [hpc] using hst.retired
      have hpend : g.lay.pend t = some (g.iFirst t) := by simpa [hpc] using hst.pend
      rw [show record t c m l g = g by simp [record, hpc]]
      cases h
      -- from here on `took` says that there is something to reclaim
      have htook : ({ l with code := 1, pc := .opEnd .inc } : Local).took = true := by
        simpa [Local.isEnq] using hargs
      refine ⟨hS.setRetiredCount _, ⟨?_, ?_⟩, fun u hu => Rely.setRetiredCount hu _⟩
      · exact
        { body := by simpa [hpc] using hst.body
          hold := by simpa [hpc] using hst.hold
          pend := by simp only [Local.unlinking, htook, if_true]; exact hpend
          size := by simpa [hpc] using hst.size
          retired := by simp only [Local.listed, htook, if_true]; exact hret
          count := by
            simp only [Local.counted, htook, if_true, Mem.setRetiredCount_retiredCount, hcount,
              Function.update_self]
            rfl
          args := .inr (.inr ⟨hargs, rfl⟩) }
      · exact fun _ => { hunl with first := { hunl.first with } }

theorem mmOpEnd_ok {pc : OpEndPc} (hS : Shared m g) (hO : Own t m g l) (hpc : l.pc = .opEnd pc)
    (h : mmOpEnd t m l pc = .next m' l') : StepOk t m g m' (record t c m l g) l' := by
  have hst := hO.status
  have hunl : l.took = true → Unlinked t m g l := by simpa only [outline, hpc] using hO.here
  have hargs := hst.args
  simp only [Local.argsOk, hpc] at hargs
  cases pc with
  | inc =>
      have hbody : g.body t = true := by simpa [hpc] using hst.body
      rw [show record t c m l g = g.leave t by simp [record, hpc]]
      cases h
      refine ⟨hS.leave hbody, ⟨?_, ?_⟩, fun u hu => Rely.leave hu⟩
      · exact
        { body := by simp
          hold := by simpa [hpc] using hst.hold
          pend := by simpa [hpc] using hst.pend
          size := by simpa [hpc] using hst.size
          retired := by simpa [hpc] using hst.retired
          count := by simpa [hpc] using hst.count
          args := hargs }
      · exact fun ht => { hunl ht with first := { (hunl ht).first with } }
  | check =>
      have hcount := hst.count
      simp only [Local.counted, hpc] at hcount
      rw [show record t c m l g = g by simp [record, hpc]]
      simp only [mmOpEnd] at h
      split at h
      next hz =>
        -- the count is 1 exactly for a dequeue that has taken a value
        have htook : l.took = false := by
          cases ht : l.took with
          | false => rfl
          | true => rw [hcount, ht] at hz; cases hz
        cases h
        refine StepOk.silent hS hO ?_ hargs trivial
        simp only [Local.face, Pc.inBody, Local.holding, Local.unlinking, Pc.slack, Local.listed,
          Local.counted, hpc, htook, Local.goto_pc]
      next hnz =>
        have htook : l.took = true := by
          cases ht : l.took with
          | true => rfl
          | false => rw [hcount, ht] at hnz; exact absurd rfl hnz
        have hcode : l.isEnq = false ∧ l.code = 1 := by
          simpa only [Local.took, Bool.and_eq_true, Bool.not_eq_true', beq_iff_eq] using htook
        cases h
        refine StepOk.silent hS hO ?_ hcode ⟨(hunl htook).of_eq rfl,
          fun u _ hlt => absurd hlt (by simp)⟩
        simp only [Local.face, Pc.inBody, Local.holding, Local.unlinking, Pc.slack, Local.listed,
          Local.counted, hpc, htook]

/-! ## `mm_wait_until_unreserved` -/

theorem wait_ok {pc : WaitPc} (hS : Shared m g) (hO : Own t m g l) (hpc : l.pc = .wait pc)
    (h : mmWaitUntilUnreserved t m l pc = .next m' l') :
    StepOk t m g m' (record t c m l g) l' := by
  have hst := hO.status
  have hout := hO.here
  have hargs : l.isEnq = false ∧ l.code = 1 := by simpa only [Local.argsOk, hpc] using hst.args
  rw [show record t c m l g = g by simp [record, hpc]]
  -- leaving index `scan` behind with its thread quiet
  have hadvance : ∀ {k : Local}, k.scan = l.scan + 1 → k.first = l.first →
      Scanning t m g l → (∀ hlt : l.scan < n, (⟨l.scan, hlt⟩ : Fin n) ≠ t →
        Quiet t g ⟨l.scan, hlt⟩) → Scanning t m g k := by
    intro k hk hfirst hscan hquiet
    refine ⟨?_, fun u hu hlt => ?_⟩
    · exact hscan.unlinked.of_eq hfirst
    · rcases Nat.lt_or_ge u.val l.scan with hlt' | hge
      · exact hscan.passed u hu hlt'
      · have hval : l.scan = u.val := by omega
        have hquiet' := hquiet (hval ▸ u.isLt)
        simp only [hval, Fin.eta] at hquiet'
        exact hquiet' hu
  cases pc with
  | load =>
      have hscan : Scanning t m g l := by simpa only [outline, hpc] using hout
      simp only [mmWaitUntilUnreserved] at h
      split at h
      next hlt =>
        split at h
        next hself =>
          cases h
          have hnext := hadvance (k := { l with scan := l.scan + 1 }) rfl rfl hscan
            fun _ hne => absurd hself hne
          exact StepOk.silent hS hO (by simp [hpc]) (by simpa [Local.argsOk, hpc] using hargs)
            (by simpa only [outline, hpc] using hnext)
        next hne =>
          split at h
          -- the thread is inside an operation: spin until its counter differs from `v`
          next hodd =>
            cases h
            exact StepOk.silent hS hO (by simp [hpc]) hargs
              ⟨⟨hscan.unlinked.of_eq rfl, hscan.passed⟩, hodd, hlt, hne,
                fun hmoved => absurd rfl hmoved⟩
          next heven =>
            cases h
            -- an even counter says that the thread is outside its operation
            have hquiet : Quiet t g ⟨l.scan, hlt⟩ := by
              intro hb
              rw [← hS.parity] at hb
              exact absurd hb heven
            have hnext := hadvance
              (k := { l with seen := m.ctr ⟨l.scan, hlt⟩, scan := l.scan + 1 }) rfl rfl hscan
              fun _ _ => hquiet
            exact StepOk.silent hS hO (by simp [hpc]) (by simpa [Local.argsOk, hpc] using hargs)
              (by simpa only [outline, hpc] using hnext)
      next hge =>
        cases h
        refine StepOk.silent hS hO (by simp [hpc]) hargs
          ⟨hscan.unlinked.of_eq rfl, fun u hu => ?_⟩
        exact hscan.passed u hu (by have := u.isLt; omega)
  | spin =>
      obtain ⟨hscan, hodd, hlt, hne, hmoved⟩ : Scanning t m g l ∧ isOdd l.seen = true ∧
          ∃ h : l.scan < n, (⟨l.scan, h⟩ : Fin n) ≠ t ∧
            (m.ctr ⟨l.scan, h⟩ ≠ l.seen → Quiet t g ⟨l.scan, h⟩) := by
        simpa only [outline, hpc] using hout
      simp only [mmWaitUntilUnreserved, hlt, dif_pos] at h
      split at h
      next hsame =>
        cases h
        exact StepOk.silent hS hO rfl hst.args hO.here
      next hdiff =>
        cases h
        exact StepOk.silent hS hO (by simp [hpc]) hargs
          (hadvance rfl rfl hscan fun _ _ => hmoved hdiff)

/-! ## `mm_reclaim_all` and `recycle_node` -/

theorem mmReclaimAll_ok {pc : ReclaimPc} (hS : Shared m g) (hO : Own t m g l)
    (hpc : l.pc = .reclaim pc) (h : mmReclaimAll t m l pc = .next m' l') :
    StepOk t m g m' (record t c m l g) l' := by
  have hst := hO.status
  have hout := hO.here
  have hargs : l.isEnq = false ∧ l.code = 1 := by simpa only [Local.argsOk, hpc] using hst.args
  rw [show record t c m l g = g by simp [record, hpc]]
  cases pc with
  | load =>
      have hsafe : Safe t m g l := by simpa only [outline, hpc] using hout
      have hret : m.retired t = g.recOf t := by simpa [hpc] using hst.retired
      cases h
      exact StepOk.silent hS hO (by simp [hpc]) hargs ⟨hsafe.of_eq rfl, hret⟩
  | clear =>
      obtain ⟨hsafe, hr⟩ : Safe t m g l ∧ l.r = g.recOf t := by
        simpa only [outline, hpc] using hout
      cases h
      refine ⟨hS.setRetired none, ⟨?_, ?_⟩, fun u hu => Rely.setRetired hu none⟩
      · exact
        { body := by simpa [hpc] using hst.body
          hold := by simpa [hpc] using hst.hold
          pend := by simpa [hpc] using hst.pend
          size := by simpa [hpc] using hst.size
          retired := by simp
          count := by simpa [hpc] using hst.count
          args := hargs }
      · exact ⟨{ hsafe with
          unlinked := { hsafe.unlinked with first := { hsafe.unlinked.first with } } }, hr⟩
  | count =>
      obtain ⟨hsafe, hr⟩ : Safe t m g l ∧ l.r = g.recOf t := by
        simpa only [outline, hpc] using hout
      obtain ⟨r, hrec, -⟩ := hsafe.unlinked.record
      have hsome : l.r.isSome = true := by rw [hr, hrec]; rfl
      cases h
      refine ⟨hS.setRetiredCount 0, ⟨?_, ?_⟩, fun u hu => Rely.setRetiredCount hu 0⟩
      · exact
        { body := by simpa [hpc] using hst.body
          hold := by simpa [hpc] using hst.hold
          pend := by simpa [hpc, hsome] using hst.pend
          size := by simpa [hpc] using hst.size
          retired := by simpa [hpc] using hst.retired
          count := by simp
          args := hargs }
      · exact .inr ⟨{ hsafe with
          unlinked := { hsafe.unlinked with first := { hsafe.unlinked.first with } } }, hr⟩
  | loop =>
      have hloop : l.r = none ∨ (Safe t m g l ∧ l.r = g.recOf t) := by
        simpa only [outline, hpc] using hout
      simp only [mmReclaimAll] at h
      split at h
      next r hlr =>
        obtain ⟨hsafe, hr⟩ := hloop.resolve_left (by simp [hlr])
        obtain ⟨r', hrec, heq⟩ := hsafe.unlinked.record
        -- the retired list has one record, so the loop runs once
        obtain rfl : r = r' := Option.some.inj (hlr.symm.trans (hr.trans hrec))
        cases h
        exact StepOk.silent hS hO (by simp [hpc, hlr]) hargs ⟨hsafe.of_eq rfl,
          by simp [hlr], by simp [heq], by simp [heq]⟩
      next hlr =>
        cases h
        exact StepOk.silent hS hO (by simp [hpc, hlr]) (.inr (.inr hargs)) trivial
  | free =>
      obtain ⟨hr, hnxt⟩ : l.r ≠ none ∧ l.nxt = none := by simpa only [outline, hpc] using hout
      simp only [mmReclaimAll] at h
      split at h
      next r hlr =>
        cases h
        refine ⟨{ hS with }, ⟨?_, .inl hnxt⟩, fun u _ => { Rely.refl u m g with }⟩
        exact { hst.congr { l with r := l.nxt, pc := .reclaim .loop }
          (by simp [hpc, hnxt]) hargs with }
      next => cases h

/-- Once every other thread is quiet, the unlinked node can leave the history. -/
theorem Shared.detach (hS : Shared m g) (hb : g.body t = false)
    (hp : g.lay.pend t = some (g.iFirst t)) (hold : g.lay.hold t = none)
    (hq : ∀ u, u ≠ t → Quiet t g u) (x : Ptr) :
    Shared (m.setStore (m.store.setNext (g.lay.node (g.iFirst t)) x))
      (g.setLay (g.lay.detach t (g.lay.node (g.iFirst t)))) := by
  refine hS.setLay (hS.valid.detach hp hold x) hS.hd_le_tl hS.lag le_rfl ?_
  intro u i hbu hi hlt
  obtain ⟨w, hw⟩ := hS.protect u i hbu hi hlt
  -- who still needs `i` has begun before it was unlinked, and so is not quiet
  have hut : u ≠ t := by
    rintro rfl
    rw [hb] at hbu
    cases hbu
  have hwt : w ≠ t := by
    rintro rfl
    have hidx : g.iFirst w = i := Option.some.inj (hp.symm.trans hw)
    have := hq u hut hbu
    omega
  exact ⟨w, by simpa [Function.update_of_ne hwt] using hw⟩

theorem recycleNode_ok {pc : RecyclePc} (hS : Shared m g) (hO : Own t m g l)
    (hpc : l.pc = .recycle pc) (h : recycleNode t m l pc = .next m' l') :
    StepOk t m g m' (record t c m l g) l' := by
  have hst := hO.status
  have hout := hO.here
  have hargs : l.isEnq = false ∧ l.code = 1 := by simpa only [Local.argsOk, hpc] using hst.args
  cases pc with
  | next =>
      obtain ⟨hsafe, hr, hnxt, hnode⟩ : Safe t m g l ∧ l.r ≠ none ∧ l.nxt = none ∧
          l.node = l.first := by
        simpa only [outline, hpc] using hout
      have hbody : g.body t = false := by simpa [hpc] using hst.body
      have hpend : g.lay.pend t = some (g.iFirst t) := by simpa [hpc] using hst.pend
      have hhold : g.lay.hold t = none := by simpa [hpc] using hst.hold
      have hfirst := hnode.trans hsafe.unlinked.first.eq
      rw [show record t c m l g = g.setLay (g.lay.detach t (g.lay.node (g.iFirst t))) by
        simp [record, hpc, hfirst]]
      simp only [recycleNode, hfirst] at h
      cases h
      refine ⟨hS.detach hbody hpend hhold hsafe.quiet _, ⟨?_, ?_⟩, fun u hu =>
        Rely.setLay (Frame.detach hS.valid hu (hS.valid.live_pend hpend) _) le_rfl⟩
      · exact
        { body := by simpa [hpc] using hst.body
          hold := by simp [hfirst]
          pend := by simp
          size := by simpa [hpc] using hst.size
          retired := by simpa [hpc] using hst.retired
          count := by simpa [hpc] using hst.count
          args := hargs }
      · exact ⟨hr, hnxt, _, hfirst, by simp⟩
  | head =>
      obtain ⟨hr, hnxt, p, hnode, hnext⟩ : l.r ≠ none ∧ l.nxt = none ∧
          ∃ p, l.node = some p ∧ (m.store.heap p).next = (m.store.freeLists t).head := by
        simpa only [outline, hpc] using hout
      have hhold : g.lay.hold t = some p := by simpa [hpc, hnode] using hst.hold
      have hsize : (m.store.freeLists t).size = Int32.ofNat (g.lay.free t).length := by
        simpa [hpc] using hst.size
      rw [show record t c m l g = g.setLay (g.lay.push t p) by simp [record, hpc, hnode]]
      simp only [recycleNode, hnode] at h
      cases h
      refine ⟨hS.setLay_same (hS.valid.push hhold hnext) rfl rfl rfl rfl, ⟨?_, ⟨hr, hnxt⟩⟩,
        fun u hu => Rely.setLay (Frame.push hu _) le_rfl⟩
      exact
      { body := by simpa [hpc] using hst.body
        hold := by simp
        pend := by simpa [hpc] using hst.pend
        size := by
          simp only [History.setLay_lay, Layout.push_free, Function.update_self, Mem.setStore_store,
            Store.setFreeHead_freeLists, Local.goto_pc, Pc.slack, List.length_cons,
            Int32.ofNat_add, hsize]
          exact (add_one_add_neg_one _).symm
        retired := by simpa [hpc] using hst.retired
        count := by simpa [hpc] using hst.count
        args := hargs }
  | size =>
      have hkeep : l.r ≠ none ∧ l.nxt = none := by simpa only [outline, hpc] using hout
      have hsize : (m.store.freeLists t).size = Int32.ofNat (g.lay.free t).length + (-1) := by
        simpa [hpc] using hst.size
      rw [show record t c m l g = g by simp [record, hpc]]
      cases h
      refine ⟨hS.setLay_same (hS.valid.setFreeSize _) rfl rfl rfl rfl, ⟨?_, hkeep⟩,
        fun u hu => Rely.setLay (Frame.setFreeSize hu _) le_rfl⟩
      exact
      { body := by simpa [hpc] using hst.body
        hold := by simpa [hpc] using hst.hold
        pend := by simpa [hpc] using hst.pend
        size := by
          simp only [Mem.setStore_store, Store.setFreeSize_freeLists, Function.update_self,
            Local.goto_pc, Pc.slack, hsize, Int32.add_zero]
          exact add_neg_one_add_one _
        retired := by simpa [hpc] using hst.retired
        count := by simpa [hpc] using hst.count
        args := hargs }
  | count =>
      have hkeep : l.r ≠ none ∧ l.nxt = none := by simpa only [outline, hpc] using hout
      rw [show record t c m l g = g by simp [record, hpc]]
      cases h
      exact StepOk.silent hS hO (by simp [hpc]) hargs hkeep

/-! ## The program -/

theorem step_ok (hS : Shared m g) (hO : Own t m g l) (h : step t c m l = .next m' l') :
    StepOk t m g m' (record t c m l g) l' := by
  unfold step at h
  cases hpc : l.pc with
  | idle =>
      rw [show record t c m l g = g by simp [record, hpc]]
      simp only [hpc] at h
      cases h
      cases hop : c.op <;>
        exact StepOk.silent hS hO (by simp [Local.call, hop, hpc])
          (by simp [Local.argsOk, Local.call, hop]) (by simp [outline, Local.call, hop])
  | opBegin => exact mmOpBegin_ok hS hO hpc (by simpa only [hpc] using h)
  | upcylce pc => exact upcylceNode_ok hS hO hpc (by simpa only [hpc] using h)
  | make pc => exact makeNode_ok hS hO hpc (by simpa only [hpc] using h)
  | enq pc => exact enq_ok hS hO hpc (by simpa only [hpc] using h)
  | deq pc => exact deq_ok hS hO hpc (by simpa only [hpc] using h)
  | retire pc => exact mmRetire_ok hS hO hpc (by simpa only [hpc] using h)
  | opEnd pc => exact mmOpEnd_ok hS hO hpc (by simpa only [hpc] using h)
  | wait pc => exact wait_ok hS hO hpc (by simpa only [hpc] using h)
  | reclaim pc => exact mmReclaimAll_ok hS hO hpc (by simpa only [hpc] using h)
  | recycle pc => exact recycleNode_ok hS hO hpc (by simpa only [hpc] using h)
  | ret =>
      rw [show record t c m l g = g by simp [record, hpc]]
      simp only [hpc] at h
      cases h
      exact StepOk.silent hS hO (by simp [hpc]) trivial trivial

end ConcurrentQueues.Ex5
