import ConcurrentQueues.Ex1.Model
import ConcurrentQueues.Layout

/-!
# Ex1 — what a call does to the store

Between two calls no operation keeps a node to itself and `tail` is at the last node.  Every call
starts and ends in such a store, and touches no free list but that of its own thread id.
-/

namespace ConcurrentQueues.Ex1

open Reasoning

variable {n : Nat} {q q' : Store n} {g : Layout n} {t u : Fin n} {p a : Addr} {raw : Option Node}
  {v out : Value} {countIns : Bool}

/-- `p` is on the free list of `t`. -/
def Free (q : Store n) (t : Fin n) (p : Addr) : Prop :=
  ∃ ps, Chain q.next (q.freeLists t).head ps ∧ p ∈ ps

structure Quiet (q : Store n) (g : Layout n) : Prop where
  valid : g.Valid q
  hold : ∀ t, g.hold t = none
  pend : ∀ t, g.pend t = none
  last : g.len = g.tl + 1

theorem quiet_init : Quiet (Store.init n) (Layout.init n) where
  valid := Layout.valid_init
  hold := fun _ => rfl
  pend := fun _ => rfl
  last := rfl

namespace Quiet

theorem free_iff (h : Quiet q g) : Free q t p ↔ p ∈ g.free t :=
  h.valid.mem_free_iff.trans (h.valid.owner_free p t)

theorem free_of_head (h : Quiet q g) (hhead : (q.freeLists t).head = some p) : Free q t p := by
  have hchain := h.valid.chain t
  rw [hhead] at hchain
  obtain ⟨rest, hfree, -⟩ := hchain.of_some
  exact h.free_iff.mpr (by simp [hfree])

theorem free_unique (h : Quiet q g) (ht : Free q t p) (hu : Free q u p) : t = u := by
  have hown := (h.valid.owner_free p t).mpr (h.free_iff.mp ht)
  rw [(h.valid.owner_free p u).mpr (h.free_iff.mp hu)] at hown
  exact (Owner.free.inj hown).symm

theorem not_free_brk (h : Quiet q g) : ¬ Free q t q.brk :=
  fun hfree => Nat.lt_irrefl _ (h.valid.free_lt_brk (h.free_iff.mp hfree))

theorem not_free_tail (h : Quiet q g) (htail : q.tail = some p) : ¬ Free q t p := by
  intro hfree
  have hhd := h.valid.hd_lt
  have hlen := h.last
  have hlast : g.Live g.tl := ⟨h.valid.tl_lt, .inl (by omega)⟩
  rw [h.valid.tail] at htail
  exact h.valid.node_ne_free hlast (h.free_iff.mp hfree) (Option.some.inj htail)

theorem not_free_head (h : Quiet q g) (hhead : q.head = some p) : ¬ Free q t p := by
  intro hfree
  rw [h.valid.head] at hhead
  exact h.valid.node_ne_free h.valid.live_hd (h.free_iff.mp hfree) (Option.some.inj hhead)

/-- The successor of the sentinel is the next number of the history. -/
theorem next_of_head (h : Quiet q g) (hhead : q.head = some p) (hnext : (q.heap p).next = some a) :
    p = g.node g.hd ∧ g.hd + 1 < g.len ∧ a = g.node (g.hd + 1) := by
  rw [h.valid.head] at hhead
  obtain rfl := Option.some.inj hhead
  exact ⟨rfl, h.valid.next_eq_some h.valid.live_hd hnext⟩

theorem not_free_next (h : Quiet q g) (hhead : q.head = some p)
    (hnext : (q.heap p).next = some a) : ¬ Free q t a := by
  intro hfree
  obtain ⟨-, hlt, rfl⟩ := h.next_of_head hhead hnext
  exact h.valid.node_ne_free ⟨hlt, .inl (Nat.le_succ _)⟩ (h.free_iff.mp hfree) rfl

end Quiet

/-- The free list of every thread but `t` holds the same nodes. -/
def OthersFree (t : Fin n) (q q' : Store n) : Prop :=
  ∀ u, u ≠ t → ∀ p, Free q' u p ↔ Free q u p

theorem Quiet.othersFree {g' : Layout n} (h : Quiet q g) (h' : Quiet q' g')
    (hfree : ∀ u, u ≠ t → g'.free u = g.free u) : OthersFree t q q' := by
  intro u hu p
  rw [h.free_iff, h'.free_iff, hfree u hu]

/-! ## `enq` -/

/-- The node of an `enq` comes from the free list or from `malloc`, and is then its own. -/
theorem upcylceNode_some (h : Quiet q g) (hup : upcylceNode q t raw = (some p, q')) :
    ∃ g' : Layout n, g'.Valid q' ∧ g'.hold = Function.update g.hold t (some p) ∧ g'.pend = g.pend ∧
      g'.len = g.len ∧ g'.tl = g.tl ∧ (∀ u, u ≠ t → g'.free u = g.free u) ∧
      ∀ a ∈ g'.free t, a ∈ g.free t := by
  unfold upcylceNode at hup
  split at hup
  next r hhead =>
    cases hup
    have hchain := h.valid.chain t
    rw [hhead] at hchain
    obtain ⟨rest, hfree, -⟩ := hchain.of_some
    -- the first node of the free list
    refine ⟨g.pop t p, (h.valid.pop hfree (h.hold t)).setFreeSize _, rfl, rfl, rfl, rfl,
      fun u hu => Function.update_of_ne hu _ _, fun a ha => ?_⟩
    rw [Layout.pop_free, Function.update_self, hfree] at ha
    exact hfree ▸ List.mem_cons_of_mem p ha
  next =>
    split at hup
    next x =>
      cases hup
      exact ⟨g.take t q.brk, h.valid.malloc x (h.hold t), rfl, rfl, rfl, rfl, fun _ _ => rfl,
        fun _ ha => ha⟩
    next => cases hup

theorem upcylceNode_none (hup : upcylceNode q t raw = (none, q')) : q' = q := by
  unfold upcylceNode at hup
  split at hup
  · cases hup
  · split at hup
    · cases hup
    · exact (Prod.mk.inj hup).2.symm

/-- No other thread has the node on its free list. -/
theorem upcylceNode_not_free (h : Quiet q g) (hup : upcylceNode q t raw = (some p, q'))
    (hu : u ≠ t) : ¬ Free q u p := by
  unfold upcylceNode at hup
  split at hup
  next r hhead =>
    cases hup
    exact fun hfree => hu (h.free_unique hfree (h.free_of_head hhead))
  next =>
    split at hup
    · cases hup
      exact h.not_free_brk
    · cases hup

theorem upcylceNode_tail {x : Ptr} (hup : upcylceNode q t raw = (x, q')) : q'.tail = q.tail := by
  unfold upcylceNode at hup
  split at hup
  · cases hup; rfl
  · split at hup <;> cases hup <;> rfl

/-- Linking the new node and moving `tail` to it. -/
theorem append_ok (h : g.Valid q) (hold : g.hold t = some p) (hlast : g.len = g.tl + 1) :
    ∃ q', append q v p = some q' ∧ ((g.link t p v).moveTail g.len).Valid q' := by
  -- the four stores in the order of the code: `data`, `next`, the link, `tail`
  have hready := (h.writeHeld hold { q.heap p with data := v }).writeHeld hold ⟨v, none⟩
  have hlink := hready.link hold (by simp)
  have htl : g.len - 1 = g.tl := by omega
  have hmove := hlink.moveTail (i := g.len) (by simp)
  simp only [Function.update_self, htl, Layout.link_node, Function.update_self] at hmove
  refine ⟨_, ?_, hmove⟩
  simp [append, h.tail, Store.setNext, Store.setData]

theorem enq_ok {q : State n} (h : Quiet q.store g) (v : Value) (t : Fin n)
    (raw : Option Node) :
    ∃ code q' g', enq v q t raw = some (code, q') ∧ Quiet q'.store g' ∧
      OthersFree t q.store q'.store ∧ (∀ p, Free q'.store t p → Free q.store t p) ∧
      q'.insertions = q.insertions := by
  cases hup : upcylceNode q.store t raw with
  | mk new store =>
      cases new with
      | none =>
          -- no memory: nothing has been changed
          obtain rfl := upcylceNode_none hup
          exact ⟨0, q, g, by simp [enq, hup, State.setStore], h, fun _ _ _ => Iff.rfl, fun _ => id,
            rfl⟩
      | some p =>
          obtain ⟨g₁, hv, hhold, hpend, hlen, htl, hother, hown⟩ := upcylceNode_some h hup
          obtain ⟨store', happend, hv'⟩ := append_ok (v := v) hv (t := t) (p := p)
            (by simp [hhold]) (by rw [hlen, htl]; exact h.last)
          have hquiet : Quiet store' ((g₁.link t p v).moveTail g₁.len) :=
          { valid := hv'
            hold := by
              intro u
              by_cases hu : u = t
              · subst hu; simp
              · simp [hhold, Function.update_of_ne hu, h.hold]
            pend := by simp [hpend, h.pend]
            last := rfl }
          refine ⟨1, q.setStore store', _, by simp [enq, hup, happend], hquiet,
            h.othersFree hquiet hother, fun a ha => ?_, rfl⟩
          exact h.free_iff.mpr (hown a (hquiet.free_iff.mp ha))

/-! ## `deq` -/

/-- `tail` points to the new sentinel only if it has pointed there all along. -/
theorem advance_eq (q : Store n) (next : Addr) : advance q next = q.setHead (some next) := by
  by_cases htail : q.tail = some next
  · simp [advance, Store.setTail, Store.setHead, htail]
  · simp [advance, htail]

/-- Moving `head` and putting the old sentinel on the free list. -/
theorem recycle_ok (h : Quiet q g) (hhead : q.head = some p) (hnext : (q.heap p).next = some a) :
    ∃ g', Quiet (recycle (q.setHead (some a)) t p) g' ∧ (∀ u, u ≠ t → g'.free u = g.free u) ∧
      g'.free t = p :: g.free t := by
  obtain ⟨rfl, hlt, rfl⟩ := h.next_of_head hhead hnext
  -- `Q->head = next`, and then the three stores of `recycle_node`
  have hmove := h.valid.moveHead hlt (h.pend t)
  have hdetach := hmove.detach (t := t) (i := g.hd) (by simp) (h.hold t) (q.freeLists t).head
  have hpush := hdetach.push (t := t) (p := g.node g.hd) (by simp) (by simp)
  have hsize := hpush.setFreeSize (t := t) ((q.freeLists t).size + 1)
  refine ⟨_, ⟨hsize, fun u => ?_, fun u => ?_, h.last⟩, fun u hu => ?_, ?_⟩
  · by_cases hu : u = t
    · subst hu; simp
    · simp [Function.update_of_ne hu, h.hold]
  · by_cases hu : u = t
    · subst hu; simp
    · simp [Function.update_of_ne hu, h.pend]
  · simp [Function.update_of_ne hu]
  · simp

/-- A `deq` of a nonempty queue puts the old sentinel on the free list of its thread. -/
theorem deq_some {q : State n} (h : Quiet q.store g) (hhead : q.store.head = some p)
    (hnext : (q.store.heap p).next = some a) (out : Value) (t : Fin n) (countIns : Bool) :
    ∃ q' g', deq out q t countIns = some (1, (q.store.heap a).data, q') ∧ Quiet q'.store g' ∧
      q'.store = recycle (q.store.setHead (some a)) t p ∧
      q'.insertions = Function.update q.insertions t (q.insertions t + if countIns then 1 else 0) ∧
      OthersFree t q.store q'.store ∧ (∀ r, Free q'.store t r ↔ r = p ∨ Free q.store t r) := by
  obtain ⟨g', hquiet, hother, hown⟩ := recycle_ok (t := t) h hhead hnext
  refine ⟨recycleNode (q.setStore (advance q.store a)) t p countIns, g',
    by simp [deq, hhead, hnext], ?_, ?_, rfl, ?_, fun r => ?_⟩ <;>
    simp only [recycleNode, State.setStore_store, advance_eq]
  · exact hquiet
  · exact h.othersFree hquiet hother
  · rw [hquiet.free_iff, h.free_iff, hown, List.mem_cons]

theorem deq_none {q : State n} (hhead : q.store.head = some p)
    (hnext : (q.store.heap p).next = none) : deq out q t countIns = some (0, out, q) := by
  simp [deq, hhead, hnext]

/-! ## Runs -/

theorem call_ok {q : State n} (h : Quiet q.store g) (c : Call n) :
    ∃ q' res g', call q c = some (q', res) ∧ Quiet q'.store g' := by
  obtain ⟨t, op, countIns, raw⟩ := c
  cases op with
  | enq v =>
      obtain ⟨code, q', g', henq, hquiet, -⟩ := enq_ok h v t raw
      exact ⟨q', .enq code, g', by simp [call, henq], hquiet⟩
  | deq out =>
      cases hnext : (q.store.heap (g.node g.hd)).next with
      | none =>
          exact ⟨q, .deq 0 out, g, by simp [call, deq_none h.valid.head hnext], h⟩
      | some a =>
          obtain ⟨q', g', hdeq, hquiet, -⟩ :=
            deq_some h h.valid.head hnext out t countIns
          exact ⟨q', .deq 1 (q.store.heap a).data, g', by simp [call, hdeq], hquiet⟩

end ConcurrentQueues.Ex1
