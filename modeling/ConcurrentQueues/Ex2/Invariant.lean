import ConcurrentQueues.Ex2.Model
import ConcurrentQueues.Ex1.Calls

/-!
# Ex2 — the sequential run beside a concurrent one

The sequential queue executes a call at the step that releases the lock.  `cur` takes the stores of
the open critical section as they come; it differs from the memory by what `recycle_node` still
has to do, and this is in the free lists only: the detached sentinel of a thread is the first node
of its free list in the sequential state already, and nobody else reaches it there.
-/

namespace ConcurrentQueues.Ex2

open Reasoning

variable {n : Nat}

/-- The sequential run so far.  `calls` is `serial` of the run, `done` the calls whose critical
section is over, `base` and `results` what the sequential queue makes of `done`. -/
structure Ghost (n : Nat) where
  calls : List (Ex1.Call n)
  done : List (Ex1.Call n)
  base : Ex1.State n
  results : List (Ex1.Return n)
  cur : Store n
  returned : Fin n → List (Ex1.Return n)

namespace Ghost

@[simps] def init (n : Nat) : Ghost n where
  calls := []
  done := []
  base := Ex1.State.init n
  results := []
  cur := Store.init n
  returned := fun _ => []

@[simps] def setCur (g : Ghost n) (q : Store n) : Ghost n := { g with cur := q }

@[simps] def note (g : Ghost n) (e : Fin n × Event) : Ghost n :=
  { g with calls := serialStep g.calls e }

@[simps] def giveBack (g : Ghost n) (t : Fin n) (r : Ex1.Return n) : Ghost n :=
  { g with returned := Function.update g.returned t (g.returned t ++ [r]) }

/-- The sequential queue executes the call that ends its critical section. -/
def finish (g : Ghost n) : Ghost n :=
  match Ex1.run (Ex1.State.init n) g.calls with
  | some (q, rs) => { g with done := g.calls, base := q, results := rs, cur := q.store }
  | none => g

end Ghost

/-- How a step moves the sequential run. -/
def record (t : Fin n) (c : Choice) (_ : Mem n) (l : Local) (g : Ghost n) : Ghost n :=
  match l.pc with
  | .enq .lock | .deq .lock => g.note (t, .acquire l.op l.countIns)
  | .upcycle .storeHead => g.setCur (g.cur.setFreeHead t l.next)
  | .upcycle .storeSize => g.setCur (g.cur.setFreeSize t (l.size - 1))
  | .upcycle .malloc =>
      match c.malloc with
      | some raw => (g.note (t, .malloc c.malloc)).setCur (g.cur.malloc raw)
      | none => g.note (t, .malloc c.malloc)
  | .enq .data =>
      match l.newNode with
      | some p => g.setCur (g.cur.setData p l.v)
      | none => g
  | .enq .next =>
      match l.newNode with
      | some p => g.setCur (g.cur.setNext p none)
      | none => g
  | .enq .link =>
      match l.tail with
      | some p => g.setCur (g.cur.setNext p l.newNode)
      | none => g
  | .enq .storeTail => g.setCur (g.cur.setTail l.newNode)
  | .deq .storeHead => g.setCur (g.cur.setHead l.next)
  | .deq .storeTail => g.setCur (g.cur.setTail l.head)
  -- the lock is released: the whole call is executed at once
  | .enq .unlock | .enq .unlockFail | .deq .unlock | .deq .unlockEmpty => g.finish
  | .ret => g.giveBack t ⟨t, l.op, l.res⟩
  | _ => g

/-! ## The memory -/

structure Shared (m : Mem n) (g : Ghost n) : Prop where
  exec : Ex1.run (Ex1.State.init n) g.done = some (g.base, g.results)
  quiet : ∃ lay, Ex1.Quiet g.base.store lay
  unlocked : m.lock = none → g.calls = g.done ∧ g.cur = g.base.store
  brk : m.store.brk = g.cur.brk
  head : m.store.head = g.cur.head
  tail : m.store.tail = g.cur.tail
  heap : ∀ p, (∀ t, ¬ Ex1.Free g.base.store t p) → m.store.heap p = g.cur.heap p

/-! ## The proof outline of a thread -/

namespace Pc

/-- Between acquisition and release of the lock. -/
def inside : Pc → Bool
  | .enq .lock | .deq .lock => false
  | .upcycle _ | .enq _ | .deq _ => true
  | _ => false

/-- The sentinel is detached and its `next` not yet overwritten. -/
def owesNext : Pc → Bool
  | .recycle .loadHead | .recycle .storeNext => true
  | _ => false

def owesHead : Pc → Bool
  | .recycle .loadHead | .recycle .storeNext | .recycle .storeHead => true
  | _ => false

def owesSize : Pc → Bool
  | .recycle .count => false
  | .recycle _ => true
  | _ => false

def owesCount : Pc → Bool
  | .recycle _ => true
  | _ => false

end Pc

namespace Local

/-- What the call will return, once it is certain. -/
def pending (t : Fin n) (l : Local) : List (Ex1.Return n) :=
  match l.pc with
  | .recycle _ => [⟨t, l.op, .deq 1 l.out⟩]
  | .ret => [⟨t, l.op, l.res⟩]
  | _ => []

/-- Call and arguments fit the program point. -/
def argsOk (l : Local) : Prop :=
  match l.pc with
  | .upcycle _ | .enq _ => l.op = .enq l.v
  | .deq .lock | .deq .loadHead | .deq .testNext | .deq .unlockEmpty => l.op = .deq l.out
  | .deq _ | .recycle _ => ∃ out, l.op = .deq out
  | _ => True

end Local

section Assertions

variable (t : Fin n) (m : Mem n) (g : Ghost n) (l : Local)

/-- What a program point says through functions of the program point alone. -/
structure Status : Prop where
  lock : m.lock = some t ↔ l.pc.inside = true
  call : l.pc.inside = true → ∃ raw, g.calls = g.done ++ [⟨t, l.op, l.countIns, raw⟩]
  freeHead : (g.cur.freeLists t).head =
    if l.pc.owesHead then l.sentinel else (m.store.freeLists t).head
  freeSize : (g.cur.freeLists t).size =
    (m.store.freeLists t).size + if l.pc.owesSize then 1 else 0
  data : ∀ p, Ex1.Free g.base.store t p → (m.store.heap p).data = (g.cur.heap p).data
  next : ∀ p, Ex1.Free g.base.store t p → (l.pc.owesNext = true → l.sentinel ≠ some p) →
    (m.store.heap p).next = (g.cur.heap p).next
  debt : l.pc.owesNext = true → ∃ p, l.sentinel = some p ∧ Ex1.Free g.base.store t p ∧
    (g.cur.heap p).next = (m.store.freeLists t).head
  insertions : g.base.insertions t =
    l.insertions + if l.pc.owesCount = true ∧ l.countIns = true then 1 else 0
  results : g.results.filter (·.thread = t) = g.returned t ++ l.pending t
  args : l.argsOk

/-- `upcycle_node` has returned `p` and left `q`. -/
def Taken (p : Addr) (q : Store n) : Prop :=
  l.newNode = some p ∧ ∃ raw, g.calls = g.done ++ [⟨t, l.op, l.countIns, raw⟩] ∧
    Ex1.upcylceNode g.base.store t raw = (some p, q)

/-- `p` is the sentinel, `a` its successor. -/
def Front (p a : Addr) : Prop :=
  g.base.store.head = some p ∧ (g.base.store.heap p).next = some a ∧ l.sentinel = some p

/-- The proof outline under the lock, about the sequential run. -/
def inner : Prop :=
  match l.pc with
  | .upcycle .loadHead => g.cur = g.base.store
  | .upcycle .loadNext =>
      g.cur = g.base.store ∧
        ∃ p, l.newNode = some p ∧ (g.base.store.freeLists t).head = some p
  | .upcycle .storeHead =>
      g.cur = g.base.store ∧ ∃ p, l.newNode = some p ∧
        (g.base.store.freeLists t).head = some p ∧ l.next = (g.base.store.heap p).next
  | .upcycle .loadSize =>
      ∃ p, l.newNode = some p ∧ (g.base.store.freeLists t).head = some p ∧
        g.cur = g.base.store.setFreeHead t (g.base.store.heap p).next
  | .upcycle .storeSize =>
      ∃ p, l.newNode = some p ∧ (g.base.store.freeLists t).head = some p ∧
        g.cur = g.base.store.setFreeHead t (g.base.store.heap p).next ∧
        l.size = (g.base.store.freeLists t).size
  | .upcycle .malloc => g.cur = g.base.store ∧ (g.base.store.freeLists t).head = none
  | .enq .data => ∃ p, Taken t g l p g.cur
  | .enq .next => ∃ p q, Taken t g l p q ∧ g.cur = q.setData p l.v
  | .enq .loadTail => ∃ p q, Taken t g l p q ∧ g.cur = (q.setData p l.v).setNext p none
  | .enq .link =>
      ∃ p q, Taken t g l p q ∧ g.cur = (q.setData p l.v).setNext p none ∧ l.tail = q.tail
  | .enq .storeTail =>
      ∃ p q last, Taken t g l p q ∧ q.tail = some last ∧
        g.cur = ((q.setData p l.v).setNext p none).setNext last (some p)
  | .enq .unlock => ∃ p q, Taken t g l p q ∧ Ex1.append q l.v p = some g.cur
  | .enq .unlockFail =>
      g.cur = g.base.store ∧ ∃ raw, g.calls = g.done ++ [⟨t, l.op, l.countIns, raw⟩] ∧
        Ex1.upcylceNode g.base.store t raw = (none, g.base.store)
  | .deq .loadHead => g.cur = g.base.store
  | .deq .testNext => g.cur = g.base.store ∧ l.head = g.base.store.head
  | .deq .unlockEmpty =>
      g.cur = g.base.store ∧
        ∃ p, g.base.store.head = some p ∧ (g.base.store.heap p).next = none
  | .deq .loadSentinel =>
      g.cur = g.base.store ∧
        ∃ p a, g.base.store.head = some p ∧ (g.base.store.heap p).next = some a
  | .deq .loadFirst => g.cur = g.base.store ∧ ∃ p a, Front g l p a
  | .deq .loadData => g.cur = g.base.store ∧ ∃ p a, Front g l p a ∧ l.next = some a
  | .deq .writeOut =>
      g.cur = g.base.store ∧ ∃ p a, Front g l p a ∧ l.val = (g.base.store.heap a).data
  | .deq .loadNext =>
      g.cur = g.base.store ∧ ∃ p a, Front g l p a ∧ l.out = (g.base.store.heap a).data
  | .deq .storeHead =>
      g.cur = g.base.store ∧ ∃ p a, Front g l p a ∧ l.out = (g.base.store.heap a).data ∧
        l.next = some a
  | .deq .loadTail | .deq .unlock =>
      ∃ p a, Front g l p a ∧ l.out = (g.base.store.heap a).data ∧
        g.cur = g.base.store.setHead (some a)
  | .deq .testTail =>
      ∃ p a, Front g l p a ∧ l.out = (g.base.store.heap a).data ∧
        g.cur = g.base.store.setHead (some a) ∧ l.tail = g.base.store.tail
  | .deq .loadHeadTail =>
      ∃ p a, Front g l p a ∧ l.out = (g.base.store.heap a).data ∧
        g.cur = g.base.store.setHead (some a) ∧ g.base.store.tail = some a
  | .deq .storeTail =>
      ∃ p a, Front g l p a ∧ l.out = (g.base.store.heap a).data ∧
        g.cur = g.base.store.setHead (some a) ∧ g.base.store.tail = some a ∧ l.head = some a
  | _ => True

/-- The proof outline of `recycle_node`, which runs without the lock. -/
def outer : Prop :=
  match l.pc with
  | .recycle .storeNext => l.head = (m.store.freeLists t).head
  | .recycle .storeSize => l.size = (m.store.freeLists t).size
  | _ => True

/-- What thread `t` knows. -/
structure Own : Prop where
  status : Status t m g l
  inner : inner t g l
  outer : outer t m l

end Assertions

/-! ## What the other threads may do -/

structure Rely (t : Fin n) (m : Mem n) (g : Ghost n) (m' : Mem n) (g' : Ghost n) : Prop where
  lock : m'.lock = some t ↔ m.lock = some t
  held : m.lock = some t → ∃ r, g' = { g with returned := r }
  free : ∀ p, Ex1.Free g'.base.store t p ↔ Ex1.Free g.base.store t p
  list : m'.store.freeLists t = m.store.freeLists t
  curList : g'.cur.freeLists t = g.cur.freeLists t
  heap : ∀ p, Ex1.Free g.base.store t p → m'.store.heap p = m.store.heap p
  curHeap : ∀ p, Ex1.Free g.base.store t p → g'.cur.heap p = g.cur.heap p
  insertions : g'.base.insertions t = g.base.insertions t
  results : g'.results.filter (·.thread = t) = g.results.filter (·.thread = t)
  returned : g'.returned t = g.returned t

section Stable

variable {t : Fin n} {m m' : Mem n} {g g' : Ghost n} {l : Local}

theorem Status.stable (h : Status t m g l) (hr : Rely t m g m' g') : Status t m' g' l where
  lock := hr.lock.trans h.lock
  call := by
    intro hin
    obtain ⟨r, rfl⟩ := hr.held (h.lock.mpr hin)
    exact h.call hin
  freeHead := by rw [hr.curList, hr.list]; exact h.freeHead
  freeSize := by rw [hr.curList, hr.list]; exact h.freeSize
  data := by
    intro p hp
    have hp' := (hr.free p).mp hp
    rw [hr.heap p hp', hr.curHeap p hp']
    exact h.data p hp'
  next := by
    intro p hp hne
    have hp' := (hr.free p).mp hp
    rw [hr.heap p hp', hr.curHeap p hp']
    exact h.next p hp' hne
  debt := by
    intro howe
    -- the node `t` owes is on its own free list, which the others leave alone
    obtain ⟨p, hs, hp, hnext⟩ := h.debt howe
    exact ⟨p, hs, (hr.free p).mpr hp, by rw [hr.curHeap p hp, hr.list]; exact hnext⟩
  insertions := hr.insertions.trans h.insertions
  results := by rw [hr.results, hr.returned]; exact h.results
  args := h.args

/-- Outside the lock the outline says nothing about the sequential run. -/
theorem inner_of_outside (hin : l.pc.inside = false) : inner t g l := by
  unfold inner
  split <;> first | trivial | simp_all [Pc.inside]

theorem Own.stable (h : Own t m g l) (hr : Rely t m g m' g') : Own t m' g' l where
  status := h.status.stable hr
  inner := by
    cases hin : l.pc.inside with
    | false => exact inner_of_outside hin
    | true =>
        -- the lock keeps the sequential run where it is
        obtain ⟨r, rfl⟩ := hr.held (h.status.lock.mpr hin)
        exact h.inner
  outer := by
    have houter := h.outer
    unfold Ex2.outer at houter ⊢
    rw [hr.list]
    exact houter

end Stable

end ConcurrentQueues.Ex2
