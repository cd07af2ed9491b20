import ConcurrentQueues.Ex4.Model
import ConcurrentQueues.Layout

/-!
# Ex4 — the invariant behind all interleavings

The holder of `enq_lock` is the only one to move `len` and `tl`, the holder of `deq_lock` the only
one to move `hd`.  While a node is linked and `tail` not yet moved, a dequeue may make that node the
new sentinel: then `hd` is one ahead of `tl`, and `tail` points to the sentinel just detached.  It
cannot be recycled there, because the dequeue sees `Q->head->next == NULL` and waits for `enq_lock`.
-/

namespace ConcurrentQueues.Ex4

open Reasoning

variable {n : Nat}

/-- How a step moves the history. -/
def record (t : Fin n) (c : Choice) (m : Mem n) (l : Local) (g : Layout n) : Layout n :=
  match l.pc with
  | .upcylce .storeHead =>
      match l.newNode with
      | some p => g.pop t p
      | none => g
  | .upcylce .malloc =>
      match c.malloc with
      | some _ => g.take t m.store.brk
      | none => g
  | .enq .link =>
      match l.newNode with
      | some p => g.link t p (m.store.heap p).data
      | none => g
  | .enq .storeTail => g.moveTail (g.tl + 1)
  | .deq .storeHead => g.moveHead t
  | .recycle .next =>
      match l.sentinel with
      | some p => g.detach t p
      | none => g
  | .recycle .head =>
      match l.sentinel with
      | some p => g.push t p
      | none => g
  | _ => g

/-! ## The memory -/

structure Shared (m : Mem n) (g : Layout n) : Prop where
  valid : g.Valid m.store
  hd_le : g.hd ≤ g.tl + 1
  tail_live : g.Live g.tl
  lag : g.len ≤ g.tl + 2
  enq_free : m.enqLock = none → g.len = g.tl + 1
  deq_free : m.deqLock = none → g.hd ≤ g.tl

/-! ## The proof outline of a thread -/

namespace Pc

def holdsEnq : Pc → Bool
  | .enq .lock => false
  | .upcylce _ | .enq _ => true
  | .deq .repairHead | .deq .repairNext | .deq .repairLoad | .deq .repairStore
  | .deq .repairUnlock => true
  | _ => false

def holdsDeq : Pc → Bool
  | .deq .lock => false
  | .deq _ | .recycle _ => true
  | _ => false

/-- The dequeue has moved `head` and not yet seen that `tail` has caught up. -/
def ahead : Pc → Bool
  | .deq .reloadHead | .deq .reloadNext | .deq .repairLock => true
  | _ => false

/-- The node is linked and `tail` not yet moved. -/
def lagging : Pc → Bool
  | .enq .storeTail => true
  | _ => false

/-- How far the `size` field is behind the free list. -/
def slack : Pc → Int32
  | .upcylce .size => 1
  | .recycle .size => -1
  | _ => 0

/-- The sentinel is detached and not yet begun to be recycled. -/
def unlinking : Pc → Bool
  | .deq .reloadHead | .deq .reloadNext | .deq .repairLock | .deq .repairHead | .deq .repairNext
  | .deq .repairLoad | .deq .repairStore | .deq .repairUnlock | .recycle .next => true
  | _ => false

end Pc

namespace Local

/-- The node only this thread can reach. -/
def holding (l : Local) : Ptr :=
  match l.pc with
  | .upcylce .size | .enq .data | .enq .next | .enq .loadTail | .enq .link => l.newNode
  | .recycle .head => l.sentinel
  | _ => none

/-- Call, argument and return code fit the program point. -/
def argsOk (l : Local) : Prop :=
  match l.pc with
  | .idle => True
  | .upcylce _ | .enq _ => l.op = .enq l.v
  | .deq .lock | .deq .loadHead | .deq .loadNext | .deq .loadData | .deq .writeOut
  | .deq .unlockEmpty => l.op = .deq l.out
  | .deq _ | .recycle _ => l.isEnq = false
  | .ret => (l.op = .enq l.v ∧ (l.code = 1 ∨ l.code = 0)) ∨ (l.op = .deq l.out ∧ l.code = 0) ∨
      (l.isEnq = false ∧ l.code = 1)

end Local

section Assertions

variable (t : Fin n) (m : Mem n) (g : Layout n) (l : Local)

/-- What a program point says about memory through functions of the program point alone. -/
structure Status : Prop where
  enqLock : m.enqLock = some t ↔ l.pc.holdsEnq = true
  deqLock : m.deqLock = some t ↔ l.pc.holdsDeq = true
  lag : l.pc.holdsEnq = true → g.len = if l.pc.lagging then g.tl + 2 else g.tl + 1
  gap : l.pc.holdsDeq = true → l.pc.ahead = false → g.hd ≤ g.tl
  hold : g.hold t = l.holding
  pend : g.pend t = if l.pc.unlinking then some (g.hd - 1) else none
  size : (m.store.freeLists t).size = Int32.ofNat (g.free t).length + l.pc.slack
  args : l.argsOk

/-- The node of an `enq` is ready to be linked. -/
def Ready : Prop := ∃ p, l.newNode = some p ∧ m.store.heap p = ⟨l.v, none⟩

/-- `sentinel` is at the front, and `next` its successor. -/
structure Front : Prop where
  sentinel : l.sentinel = some (g.node g.hd)
  succ_lt : g.hd + 1 < g.len
  next : l.next = some (g.node (g.hd + 1))

/-- `sentinel` is the node in front of the present sentinel. -/
structure Gone : Prop where
  sentinel : l.sentinel = some (g.node (g.hd - 1))
  pos : 0 < g.hd

/-- The proof outline. -/
def outline : Prop :=
  match l.pc with
  | .upcylce .loadNext => ∃ p rest, l.newNode = some p ∧ g.free t = p :: rest
  | .upcylce .storeHead =>
      ∃ p rest, l.newNode = some p ∧ g.free t = p :: rest ∧ l.tmp = (m.store.heap p).next
  | .upcylce .size | .enq .data => l.newNode ≠ none
  | .upcylce .malloc => (m.store.freeLists t).head = none
  | .enq .next => ∃ p, l.newNode = some p ∧ (m.store.heap p).data = l.v
  | .enq .loadTail => Ready m l
  | .enq .link => Ready m l ∧ l.tail = some (g.node g.tl)
  | .enq .storeTail => l.newNode = some (g.node (g.tl + 1))
  | .deq .loadNext => l.sentinel = some (g.node g.hd)
  | .deq .loadData => Front g l
  | .deq .writeOut => Front g l ∧ l.val = g.val (g.hd + 1)
  | .deq .storeHead => Front g l ∧ l.val = g.val (g.hd + 1) ∧ l.out = l.val
  | .deq .reloadHead | .deq .repairLock | .deq .repairHead | .deq .repairUnlock => Gone g l
  | .deq .reloadNext | .deq .repairNext => Gone g l ∧ l.head = some (g.node g.hd)
  | .deq .repairLoad => Gone g l ∧ g.hd = g.tl
  | .deq .repairStore => Gone g l ∧ g.hd = g.tl ∧ l.head = some (g.node g.hd)
  | .recycle .next => Gone g l
  | .recycle .head =>
      ∃ p, l.sentinel = some p ∧ (m.store.heap p).next = (m.store.freeLists t).head
  | _ => True

/-- What thread `t` knows. -/
structure Own : Prop where
  status : Status t m g l
  here : outline t m g l

end Assertions

/-! ## What the other threads may do -/

structure Rely (t : Fin n) (m : Mem n) (g : Layout n) (m' : Mem n) (g' : Layout n) : Prop where
  frame : Layout.Frame t m.store g m'.store g'
  tl_le : g.tl ≤ g'.tl
  enqLock : m'.enqLock = some t ↔ m.enqLock = some t
  deqLock : m'.deqLock = some t ↔ m.deqLock = some t
  enq : m.enqLock = some t → g'.len = g.len ∧ g'.tl = g.tl
  deq : m.deqLock = some t → g'.hd = g.hd

section Stable

variable {t : Fin n} {m m' : Mem n} {g g' : Layout n} {l : Local}

theorem Pc.holdsDeq_of_unlinking {pc : Pc} (h : pc.unlinking = true) : pc.holdsDeq = true := by
  unfold unlinking at h
  unfold holdsDeq
  split at h <;> simp_all

theorem Status.stable (h : Status t m g l) (hr : Rely t m g m' g') : Status t m' g' l where
  enqLock := hr.enqLock.trans h.enqLock
  deqLock := hr.deqLock.trans h.deqLock
  lag := by
    intro hl
    obtain ⟨hlen, htl⟩ := hr.enq (h.enqLock.mpr hl)
    rw [hlen, htl]
    exact h.lag hl
  gap := by
    intro hl ha
    rw [hr.deq (h.deqLock.mpr hl)]
    exact (h.gap hl ha).trans hr.tl_le
  hold := hr.frame.hold.trans h.hold
  pend := by
    rw [hr.frame.pend, h.pend]
    split
    next hu => rw [hr.deq (h.deqLock.mpr (Pc.holdsDeq_of_unlinking hu))]
    next => rfl
  size := by rw [hr.frame.freeList, hr.frame.free]; exact h.size
  args := h.args

theorem Ready.stable (h : Ready m l) (hold : g.hold t = l.newNode) (hr : Rely t m g m' g') :
    Ready m' l := by
  obtain ⟨p, hp, hheap⟩ := h
  exact ⟨p, hp, by rw [hr.frame.heap_hold p (hold.trans hp)]; exact hheap⟩

theorem Front.stable (h : Front g l) (hlock : m.deqLock = some t) (hr : Rely t m g m' g') :
    Front g' l where
  sentinel := by
    rw [hr.deq hlock, hr.frame.node _ (by have := h.succ_lt; omega)]
    exact h.sentinel
  succ_lt := by
    rw [hr.deq hlock]
    exact h.succ_lt.trans_le hr.frame.len_le
  next := by
    rw [hr.deq hlock, hr.frame.node _ h.succ_lt]
    exact h.next

theorem Gone.stable (h : Gone g l) (hS : Shared m g) (hlock : m.deqLock = some t)
    (hr : Rely t m g m' g') : Gone g' l where
  sentinel := by
    have hlt := hS.valid.hd_lt
    rw [hr.deq hlock, hr.frame.node _ (by omega)]
    exact h.sentinel
  pos := by
    rw [hr.deq hlock]
    exact h.pos

theorem outline_stable (hS : Shared m g) (hs : Status t m g l) (h : outline t m g l)
    (hr : Rely t m g m' g') : outline t m' g' l := by
  have hhold := hs.hold
  have henq := hs.enqLock.mpr
  have hdeq := hs.deqLock.mpr
  have hhd := hr.frame.node _ hS.valid.hd_lt
  have htl := hr.frame.node _ hS.valid.tl_lt
  unfold Local.holding at hhold
  unfold outline at h ⊢
  cases hpc : l.pc with
  | idle => trivial
  | ret => trivial
  | upcylce pc =>
      simp only [hpc] at h ⊢
      cases pc with
      | loadHead => trivial
      | loadNext =>
          obtain ⟨p, rest, hn, hfree⟩ := h
          exact ⟨p, rest, hn, hr.frame.free.trans hfree⟩
      | storeHead =>
          obtain ⟨p, rest, hn, hfree, htmp⟩ := h
          have hheap := hr.frame.heap_free p (by simp [hfree])
          exact ⟨p, rest, hn, hr.frame.free.trans hfree, by rw [hheap]; exact htmp⟩
      | size => exact h
      | malloc => simpa only [hr.frame.freeList] using h
  | enq pc =>
      simp only [hpc] at h hhold ⊢
      cases pc with
      | data => exact h
      | next =>
          -- no other thread writes to the node `t` holds
          obtain ⟨p, hn, hdata⟩ := h
          exact ⟨p, hn, by rw [hr.frame.heap_hold p (hhold.trans hn)]; exact hdata⟩
      | loadTail => exact h.stable hhold hr
      | link =>
          -- the lock keeps `tail` where it is
          refine ⟨h.1.stable hhold hr, ?_⟩
          rw [(hr.enq (henq (by simp [hpc, Pc.holdsEnq]))).2, htl]
          exact h.2
      | storeTail =>
          -- number `tl + 1` is assigned already, so its node stays
          have hlag := hs.lag (by simp [hpc, Pc.holdsEnq])
          simp only [hpc, Pc.lagging, if_true] at hlag
          simp only at h ⊢
          rw [(hr.enq (henq (by simp [hpc, Pc.holdsEnq]))).2, hr.frame.node _ (by omega)]
          exact h
      | lock | unlock | unlockFail => trivial
  | deq pc =>
      simp only [hpc] at h ⊢
      have hlock : pc ≠ .lock → m.deqLock = some t := by
        intro hne
        exact hdeq (by rw [hpc]; cases pc <;> first | rfl | exact absurd rfl hne)
      cases pc with
      | lock | loadHead | unlock | unlockEmpty => trivial
      | loadNext =>
          simp only at h ⊢
          rw [hr.deq (hlock (by simp)), hhd]
          exact h
      -- `deq_lock` keeps `head` where it is
      | loadData => exact h.stable (hlock (by simp)) hr
      | writeOut =>
          refine ⟨h.1.stable (hlock (by simp)) hr, ?_⟩
          rw [hr.deq (hlock (by simp)), hr.frame.val _ h.1.succ_lt]
          exact h.2
      | storeHead =>
          refine ⟨h.1.stable (hlock (by simp)) hr, ?_, h.2.2⟩
          rw [hr.deq (hlock (by simp)), hr.frame.val _ h.1.succ_lt]
          exact h.2.1
      | reloadHead | repairLock | repairHead | repairUnlock =>
          exact h.stable hS (hlock (by simp)) hr
      | reloadNext | repairNext =>
          refine ⟨h.1.stable hS (hlock (by simp)) hr, ?_⟩
          rw [hr.deq (hlock (by simp)), hhd]
          exact h.2
      -- both locks are held, so neither `hd` nor `tl` moves
      | repairLoad =>
          refine ⟨h.1.stable hS (hlock (by simp)) hr, ?_⟩
          rw [hr.deq (hlock (by simp)), (hr.enq (henq (by simp [hpc, Pc.holdsEnq]))).2]
          exact h.2
      | repairStore =>
          refine ⟨h.1.stable hS (hlock (by simp)) hr, ?_, ?_⟩
          · rw [hr.deq (hlock (by simp)), (hr.enq (henq (by simp [hpc, Pc.holdsEnq]))).2]
            exact h.2.1
          · rw [hr.deq (hlock (by simp)), hhd]
            exact h.2.2
  | recycle pc =>
      simp only [hpc] at h hhold ⊢
      cases pc with
      | next => exact h.stable hS (hdeq (by simp [hpc, Pc.holdsDeq])) hr
      | head =>
          obtain ⟨p, hp, hnext⟩ := h
          refine ⟨p, hp, ?_⟩
          rw [hr.frame.heap_hold p (hhold.trans hp), hr.frame.freeList]
          exact hnext
      | size | count => trivial

theorem Own.stable (hS : Shared m g) (h : Own t m g l) (hr : Rely t m g m' g') :
    Own t m' g' l :=
  ⟨h.status.stable hr, outline_stable hS h.status h.here hr⟩

end Stable

end ConcurrentQueues.Ex4
