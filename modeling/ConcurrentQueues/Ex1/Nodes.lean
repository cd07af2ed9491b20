import ConcurrentQueues.Ex1.Calls
import ConcurrentQueues.Accounts

/-!
# Ex1 — the calls as moves of nodes

A call of the sequential queue is `Nodes.call`: it returns the same and moves the same nodes.
-/

namespace ConcurrentQueues.Ex1

open Reasoning Layout

variable {n : Nat} {q q' : Store n} {g : Layout n} {t : Fin n} {p a : Addr} {raw : Option Node}
  {v : Value} {countIns : Bool} {c : Call n}

/-- A store between two calls, with the right `size` fields. -/
structure Rep (q : Store n) (g : Layout n) : Prop where
  quiet : Quiet q g
  size : ∀ t, (q.freeLists t).size = .ofNat (g.free t).length

theorem rep_init (n : Nat) : Rep (Store.init n) (Layout.init n) where
  quiet := quiet_init
  size := fun _ => rfl

theorem Rep.free_eq_nil_iff (h : Rep q g) : g.free t = [] ↔ (q.freeLists t).head = none :=
  (h.quiet.valid.chain t).eq_none_iff.symm

theorem Rep.carries (h : Rep q g) : q.Carries (g.nodes q.brk) :=
  Layout.carries h.quiet.valid h.quiet.hold h.quiet.pend h.size

theorem Rep.tailWithin (h : Rep q g) (brk : Addr) : q.TailWithin (g.nodes brk) 0 := by
  have hlt := h.quiet.valid.hd_lt
  have hlast := h.quiet.last
  exact Layout.tailWithin h.quiet.valid (by omega) (by omega) brk

/-! ## `enq` -/

/-- What `upcylce_node` has done to the lists when it returns a node. -/
structure Taken (g : Layout n) (q : Store n) (t : Fin n) (p : Addr) (g' : Layout n)
    (q' : Store n) : Prop where
  valid : g'.Valid q'
  hold : g'.hold = Function.update g.hold t (some p)
  pend : g'.pend = g.pend
  len : g'.len = g.len
  tl : g'.tl = g.tl
  size : ∀ u, (q'.freeLists u).size = .ofNat (g'.free u).length
  nodes : (p, g'.nodes q'.brk) = (g.nodes q.brk).take t

theorem upcylceNode_taken (h : Rep q g) (hup : upcylceNode q t raw = (some p, q')) :
    (∃ g', Taken g q t p g' q') ∧ ¬ (g.free t = [] ∧ raw = none) := by
  have hsize := h.size
  unfold upcylceNode at hup
  split at hup
  next r hhead =>
    cases hup
    have hchain := h.quiet.valid.chain t
    rw [hhead] at hchain
    obtain ⟨rest, hfree, -⟩ := hchain.of_some
    refine ⟨⟨g.pop t p, ?_⟩, by simp [hfree]⟩
    exact
    { valid := (h.quiet.valid.pop hfree (h.quiet.hold t)).setFreeSize _
      hold := rfl
      pend := rfl
      len := rfl
      tl := rfl
      size := by
        intro u
        by_cases hu : u = t
        · subst hu
          have hlen := hsize u
          simp only [hfree, List.length_cons] at hlen
          simp [hfree, hlen]
        · simp [Function.update_of_ne hu, hsize]
      nodes := by simp [Nodes.take, hfree, nodes_pop] }
  next hhead =>
    have hnil := h.free_eq_nil_iff.mpr hhead
    split at hup
    next x =>
      cases hup
      refine ⟨⟨g.take t q.brk, ?_⟩, by simp⟩
      exact
      { valid := h.quiet.valid.malloc x (h.quiet.hold t)
        hold := rfl
        pend := rfl
        len := rfl
        tl := rfl
        size := hsize
        nodes := by simp [Nodes.take, hnil, nodes_take] }
    next => cases hup

theorem upcylceNode_eq_none (h : Rep q g) (hup : upcylceNode q t raw = (none, q')) :
    q' = q ∧ g.free t = [] ∧ raw = none := by
  unfold upcylceNode at hup
  split at hup
  · cases hup
  next hhead =>
    split at hup
    · cases hup
    · exact ⟨(Prod.mk.inj hup).2.symm, h.free_eq_nil_iff.mpr hhead, rfl⟩

theorem append_frame (h : append q v p = some q') :
    q'.brk = q.brk ∧ q'.freeLists = q.freeLists := by
  simp only [append] at h
  split at h
  · cases h
    exact ⟨rfl, rfl⟩
  · cases h

theorem enq_nodes {q : State n} (h : Rep q.store g) (v : Value) (t : Fin n) (raw : Option Node) :
    ∃ code q' g', enq v q t raw = some (code, q') ∧ Rep q'.store g' ∧
      (g'.nodes q'.store.brk, .enq code) =
        (g.nodes q.store.brk).call t raw.isSome (.enq v) ∧
      (code = 0 → q' = q) ∧ q'.insertions = q.insertions := by
  cases hup : upcylceNode q.store t raw with
  | mk new store =>
      cases new with
      | none =>
          obtain ⟨rfl, hfree, rfl⟩ := upcylceNode_eq_none h hup
          exact ⟨0, q, g, by simp [enq, hup, State.setStore], h, by simp [Nodes.call, hfree],
            fun _ => rfl, rfl⟩
      | some p =>
          obtain ⟨⟨g₁, htaken⟩, hmem⟩ := upcylceNode_taken h hup
          obtain ⟨store', happend, hv'⟩ := append_ok (v := v) htaken.valid (t := t) (p := p)
            (by simp [htaken.hold]) (by rw [htaken.len, htaken.tl]; exact h.quiet.last)
          obtain ⟨hbrk, hlists⟩ := append_frame happend
          have hlink := g₁.nodes_link htaken.valid.hd_lt t p v store.brk
          refine ⟨1, q.setStore store', (g₁.link t p v).moveTail g₁.len,
            by simp [enq, hup, happend], ⟨⟨hv', ?_, ?_, rfl⟩, ?_⟩, ?_, by simp, rfl⟩
          · intro u
            by_cases hu : u = t
            · subst hu; simp
            · simp [htaken.hold, Function.update_of_ne hu, h.quiet.hold]
          · simp [htaken.pend, h.quiet.pend]
          · intro u
            simpa [hlists] using htaken.size u
          · have hnone : ¬ ((g.nodes q.store.brk).free t = [] ∧ raw.isSome = false) := by
              simpa using hmem
            simp only [Nodes.call, if_neg hnone, State.setStore_store, nodes_moveTail, hbrk, hlink]
            rw [← htaken.nodes]

/-! ## `deq` -/

/-- The three lists after `Q->head = next` and `recycle_node`. -/
theorem recycle_nodes (h : Rep q g) (hhead : q.head = some p) (hnext : (q.heap p).next = some a) :
    ∃ g', Rep (recycle (q.setHead (some a)) t p) g' ∧ p = g.node g.hd ∧ g.hd + 1 < g.len ∧
      g'.nodes q.brk = (g.nodes q.brk).unlink.push t p := by
  obtain ⟨rfl, hlt, rfl⟩ := h.quiet.next_of_head hhead hnext
  have hmove := h.quiet.valid.moveHead hlt (h.quiet.pend t)
  have hdetach := hmove.detach (t := t) (i := g.hd) (by simp) (h.quiet.hold t)
    (q.freeLists t).head
  have hpush := hdetach.push (t := t) (p := g.node g.hd) (by simp) (by simp)
  have hsize := hpush.setFreeSize (t := t) ((q.freeLists t).size + 1)
  refine ⟨_, ⟨⟨hsize, fun u => ?_, fun u => ?_, h.quiet.last⟩, fun u => ?_⟩, rfl, hlt, ?_⟩
  · by_cases hu : u = t
    · subst hu; simp
    · simp [Function.update_of_ne hu, h.quiet.hold]
  · by_cases hu : u = t
    · subst hu; simp
    · simp [Function.update_of_ne hu, h.quiet.pend]
  · by_cases hu : u = t
    · subst hu; simp [recycle, h.size]
    · simp [recycle, Function.update_of_ne hu, h.size]
  · rw [← g.nodes_moveHead hlt t]
    rfl

theorem deq_nodes {q : State n} (h : Rep q.store g) (out : Value) (t : Fin n) (countIns : Bool)
    (mem : Bool) :
    ∃ code out' q' g', deq out q t countIns = some (code, out', q') ∧ Rep q'.store g' ∧
      (g'.nodes q'.store.brk, .deq code out') = (g.nodes q.store.brk).call t mem (.deq out) ∧
      (code = 0 → q' = q ∧ out' = out) ∧
      q'.insertions = Function.update q.insertions t
        (q.insertions t + if code = 1 ∧ countIns = true then 1 else 0) := by
  have hhead := h.quiet.valid.head
  have hlt := h.quiet.valid.hd_lt
  cases hnext : (q.store.heap (g.node g.hd)).next with
  | none =>
      have hlen := (h.quiet.valid.next_eq_none_iff h.quiet.valid.live_hd).mp hnext
      have hitems := g.items_eq_nil_iff.mpr hlen.ge
      exact ⟨0, out, q, g, deq_none hhead hnext, h, by simp [Nodes.call, hitems],
        fun _ => ⟨rfl, rfl⟩, by simp⟩
  | some a =>
      obtain ⟨g', hrep, -, hlt', hnodes⟩ := recycle_nodes (t := t) h hhead hnext
      obtain ⟨-, -, ha⟩ := h.quiet.next_of_head hhead hnext
      have hdata := h.quiet.valid.data _ (show g.Live (g.hd + 1) from ⟨hlt', .inl (by omega)⟩)
      refine ⟨1, (q.store.heap a).data,
        recycleNode (q.setStore (advance q.store a)) t (g.node g.hd) countIns, g',
        by simp [deq, hhead, hnext], ?_, ?_, by simp, ?_⟩
      · simpa only [recycleNode, State.setStore_store, advance_eq] using hrep
      · have hmain := g.main_moveHead hlt t
        have hitems := g.items_moveHead hlt' t
        have hbrk : (recycleNode (q.setStore (advance q.store a)) t (g.node g.hd)
            countIns).store.brk = q.store.brk := by
          simp only [recycleNode, State.setStore_store, advance_eq]
          rfl
        rw [hbrk, hnodes, Nodes.call, nodes_main, nodes_items, hmain, hitems]
        simp [ha, hdata]
      · simp only [true_and]
        rfl

/-! ## Calls and runs -/

/-- The return code of a call. -/
def code : Res Value → Int
  | .enq code => code
  | .deq code _ => code

theorem call_nodes {q : State n} (h : Rep q.store g) (c : Call n) :
    ∃ q' res g', call q c = some (q', res) ∧ Rep q'.store g' ∧
      (g'.nodes q'.store.brk, res) = (g.nodes q.store.brk).call c.thread c.malloc.isSome c.op ∧
      (code res = 0 → q' = q ∧ ∀ out, c.op = .deq out → res = .deq 0 out) ∧
      q'.insertions = Function.update q.insertions c.thread
        (q.insertions c.thread + inserted c.countIns res) := by
  obtain ⟨t, op, countIns, raw⟩ := c
  cases op with
  | enq v =>
      obtain ⟨code, q', g', henq, hrep, hnodes, hsame, hins⟩ := enq_nodes h v t raw
      refine ⟨q', .enq code, g', by simp [call, henq], hrep, hnodes, fun hcode => ?_, ?_⟩
      · exact ⟨hsame hcode, by simp⟩
      · simp [hins, inserted]
  | deq out =>
      obtain ⟨code, out', q', g', hdeq, hrep, hnodes, hsame, hins⟩ :=
        deq_nodes h out t countIns raw.isSome
      refine ⟨q', .deq code out', g', by simp [call, hdeq], hrep, hnodes, fun hcode => ?_, hins⟩
      obtain ⟨hq, hout⟩ := hsame hcode
      have hzero : code = 0 := hcode
      refine ⟨hq, fun o ho => ?_⟩
      rw [hzero, hout, Op.deq.inj ho]

end ConcurrentQueues.Ex1
