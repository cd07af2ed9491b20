import ConcurrentQueues.Store
import ConcurrentQueues.Reasoning.AtomicQueue

/-!
# Ex4 — the queue with two locks

`enq` runs under `enq_lock` and `deq` under `deq_lock`; `deq` also takes `enq_lock` when it has
removed the last node.  Every load and store of `head`, `tail`, `next` and `data`, and every
acquisition and release of a lock, is one step; an update of the thread's own free list is one step
with the load it starts from.
-/

namespace ConcurrentQueues.Ex4

open Reasoning

/-- The shared memory: the node store and the two locks, each with its holder. -/
structure Mem (n : Nat) where
  store : Store n
  enqLock : Option (Fin n)
  deqLock : Option (Fin n)

inductive UpcylcePc where
  | loadHead | loadNext | storeHead | size | malloc
  deriving DecidableEq, Repr

inductive EnqPc where
  | lock | data | next | loadTail | link | storeTail | unlock | unlockFail
  deriving DecidableEq, Repr

/-- `repairLock` to `repairUnlock` is the branch in which `Q->head->next` was `NULL`. -/
inductive DeqPc where
  | lock | loadHead | loadNext | loadData | writeOut | storeHead | reloadHead | reloadNext
  | repairLock | repairHead | repairNext | repairLoad | repairStore | repairUnlock
  | unlock | unlockEmpty
  deriving DecidableEq, Repr

inductive RecyclePc where
  | next | head | size | count
  deriving DecidableEq, Repr

/-- The function a thread executes and the access it performs next. -/
inductive Pc where
  | idle
  | upcylce (pc : UpcylcePc)
  | enq (pc : EnqPc)
  | deq (pc : DeqPc)
  | recycle (pc : RecyclePc)
  | ret
  deriving DecidableEq, Repr

/-- A thread's locals.  `tail` and `head` hold the values of `Q->tail` and `Q->head` between their
load and the access through them; `out` is `*v` and `insertions` is `*free_list_insertion_count`,
which the caller passes if `countIns`. -/
structure Local where
  pc : Pc
  op : Op Value
  countIns : Bool
  v : Value
  newNode : Ptr
  tmp : Ptr
  tail : Ptr
  head : Ptr
  sentinel : Ptr
  next : Ptr
  val : Value
  out : Value
  code : Int
  insertions : Nat

/-- The next call, and the result of `malloc`. -/
structure Choice where
  op : Op Value
  countIns : Bool
  malloc : Option Node

namespace Mem

variable {n : Nat}

@[simps] def setStore (m : Mem n) (q : Store n) : Mem n := { m with store := q }

@[simps] def setEnqLock (m : Mem n) (x : Option (Fin n)) : Mem n := { m with enqLock := x }

@[simps] def setDeqLock (m : Mem n) (x : Option (Fin n)) : Mem n := { m with deqLock := x }

end Mem

namespace Local

def isEnq (l : Local) : Bool :=
  match l.op with
  | .enq _ => true
  | .deq _ => false

@[simps] def goto (l : Local) (pc : Pc) : Local := { l with pc := pc }

/-- `if (free_list_insertion_count) (*free_list_insertion_count)++;` -/
@[simps] def countInsertion (l : Local) : Local :=
  { l with insertions := l.insertions + if l.countIns then 1 else 0 }

/-- Entering a call with its arguments. -/
def call (l : Local) (c : Choice) : Local :=
  match c.op with
  | .enq v => { l with pc := .enq .lock, op := c.op, countIns := c.countIns, v := v }
  | .deq out => { l with pc := .deq .lock, op := c.op, countIns := c.countIns, out := out }

def init : Local where
  pc := .idle
  op := .deq 0
  countIns := false
  v := 0
  newNode := none
  tmp := none
  tail := none
  head := none
  sentinel := none
  next := none
  val := 0
  out := 0
  code := 0
  insertions := 0

end Local

variable {n : Nat}

abbrev Result (n : Nat) := Outcome (Mem n) Local

/-- `upcylce_node`. -/
def upcylceNode (t : Fin n) (c : Choice) (m : Mem n) (l : Local) : UpcylcePc → Result n
  | .loadHead =>
      match (m.store.freeLists t).head with
      | some p => .next m { l with newNode := some p, pc := .upcylce .loadNext }
      | none => .next m (l.goto (.upcylce .malloc))
  | .loadNext =>
      match l.newNode with
      | some p => .next m { l with tmp := (m.store.heap p).next, pc := .upcylce .storeHead }
      | none => .fault
  | .storeHead => .next (m.setStore (m.store.setFreeHead t l.tmp)) (l.goto (.upcylce .size))
  | .size =>
      .next (m.setStore (m.store.setFreeSize t ((m.store.freeLists t).size - 1)))
        (l.goto (.enq .data))
  | .malloc =>
      match c.malloc with
      | some raw =>
          .next (m.setStore (m.store.malloc raw))
            { l with newNode := some m.store.brk, pc := .enq .data }
      -- `if (!new_node)`: the lock is released and `enq` returns 0
      | none => .next m { l with newNode := none, pc := .enq .unlockFail }

/-- `enq` up to the call of `upcylce_node` and from its return on. -/
def enq (t : Fin n) (m : Mem n) (l : Local) : EnqPc → Result n
  | .lock =>
      match m.enqLock with
      | none => .next (m.setEnqLock (some t)) (l.goto (.upcylce .loadHead))
      | some _ => .blocked
  | .data =>
      match l.newNode with
      | some p => .next (m.setStore (m.store.setData p l.v)) (l.goto (.enq .next))
      | none => .fault
  | .next =>
      match l.newNode with
      | some p => .next (m.setStore (m.store.setNext p none)) (l.goto (.enq .loadTail))
      | none => .fault
  | .loadTail => .next m { l with tail := m.store.tail, pc := .enq .link }
  | .link =>
      match l.tail with
      | some p => .next (m.setStore (m.store.setNext p l.newNode)) (l.goto (.enq .storeTail))
      | none => .fault
  | .storeTail => .next (m.setStore (m.store.setTail l.newNode)) (l.goto (.enq .unlock))
  | .unlock => .next (m.setEnqLock none) { l with code := 1, pc := .ret }
  | .unlockFail => .next (m.setEnqLock none) { l with code := 0, pc := .ret }

/-- `deq` without its call of `recycle_node`. -/
def deq (t : Fin n) (m : Mem n) (l : Local) : DeqPc → Result n
  | .lock =>
      match m.deqLock with
      | none => .next (m.setDeqLock (some t)) (l.goto (.deq .loadHead))
      | some _ => .blocked
  | .loadHead => .next m { l with sentinel := m.store.head, pc := .deq .loadNext }
  | .loadNext =>
      match l.sentinel with
      | some p =>
          match (m.store.heap p).next with
          | some a => .next m { l with next := some a, pc := .deq .loadData }
          -- `if (!next)`: the lock is released and `deq` returns 0
          | none => .next m { l with next := none, pc := .deq .unlockEmpty }
      | none => .fault
  | .loadData =>
      match l.next with
      | some p => .next m { l with val := (m.store.heap p).data, pc := .deq .writeOut }
      | none => .fault
  | .writeOut => .next m { l with out := l.val, pc := .deq .storeHead }
  | .storeHead => .next (m.setStore (m.store.setHead l.next)) (l.goto (.deq .reloadHead))
  | .reloadHead => .next m { l with head := m.store.head, pc := .deq .reloadNext }
  | .reloadNext =>
      match l.head with
      | some p =>
          -- the last node was removed, as far as can be seen without `enq_lock`
          if (m.store.heap p).next = none then .next m (l.goto (.deq .repairLock))
          else .next m (l.goto (.recycle .next))
      | none => .fault
  | .repairLock =>
      match m.enqLock with
      | none => .next (m.setEnqLock (some t)) (l.goto (.deq .repairHead))
      | some _ => .blocked
  | .repairHead => .next m { l with head := m.store.head, pc := .deq .repairNext }
  | .repairNext =>
      match l.head with
      | some p =>
          -- the condition is tested again under `enq_lock`
          if (m.store.heap p).next = none then .next m (l.goto (.deq .repairLoad))
          else .next m (l.goto (.deq .repairUnlock))
      | none => .fault
  | .repairLoad => .next m { l with head := m.store.head, pc := .deq .repairStore }
  | .repairStore => .next (m.setStore (m.store.setTail l.head)) (l.goto (.deq .repairUnlock))
  | .repairUnlock => .next (m.setEnqLock none) (l.goto (.recycle .next))
  | .unlock => .next (m.setDeqLock none) { l with code := 1, pc := .ret }
  | .unlockEmpty => .next (m.setDeqLock none) { l with code := 0, pc := .ret }

/-- `recycle_node(Q, thread_id, sentinel, free_list_insertion_count)`. -/
def recycleNode (t : Fin n) (m : Mem n) (l : Local) : RecyclePc → Result n
  | .next =>
      match l.sentinel with
      | some p =>
          .next (m.setStore (m.store.setNext p (m.store.freeLists t).head))
            (l.goto (.recycle .head))
      | none => .fault
  | .head => .next (m.setStore (m.store.setFreeHead t l.sentinel)) (l.goto (.recycle .size))
  | .size =>
      .next (m.setStore (m.store.setFreeSize t ((m.store.freeLists t).size + 1)))
        (l.goto (.recycle .count))
  -- `deq_lock` is released after the recycling only
  | .count => .next m (l.countInsertion.goto (.deq .unlock))

/-- One step of thread `t`. -/
def step : Program (Fin n) Choice (Mem n) Local := fun t c m l =>
  match l.pc with
  | .idle => .next m (l.call c)
  | .upcylce pc => upcylceNode t c m l pc
  | .enq pc => enq t m l pc
  | .deq pc => deq t m l pc
  | .recycle pc => recycleNode t m l pc
  | .ret => .next m (l.goto .idle)

/-- `init_queue(Q, n)`. -/
def Mem.init (n : Nat) : Mem n := ⟨Store.init n, none, none⟩

/-- The queue after `init_queue` and before any call. -/
def init (n : Nat) : Config (Fin n) (Mem n) Local := ⟨Mem.init n, fun _ => Local.init⟩

/-- What a step announces to the atomic queue: an enqueue takes effect at `Q->tail->next =
new_node`, a dequeue at `Q->head = next`, and an empty dequeue at its load of `sentinel->next`. -/
def label (_ : Fin n) (c : Choice) (m : Mem n) (l : Local) : Option (Label Value) :=
  match l.pc with
  | .idle => some (.act (.call c.op))
  | .upcylce .malloc => if c.malloc = none then some (.act .enqueueFail) else none
  | .enq .link => some (.act (.enqueue l.v))
  -- `deq_lock` is held, so a `NULL` here settles the dequeue
  | .deq .loadNext =>
      match l.sentinel with
      | some p => if (m.store.heap p).next = none then some (.act .dequeueEmpty) else none
      | none => none
  | .deq .storeHead => some (.act (.dequeue l.val))
  | .ret =>
      match l.op with
      | .enq _ => some (.act (.ret (.enq l.code)))
      | .deq _ => some (.act (.ret (.deq l.code l.out)))
  | _ => none

/-- `k` steps of thread `t`, which calls `op` whenever it is idle and gets `raw` from `malloc`. -/
def solo (t : Fin n) (op : Op Value) (raw : Option Node) (k : Nat) : List (Fin n × Choice) :=
  List.replicate k (t, ⟨op, true, raw⟩)

/-- Thread `t` enqueues 7, thread `u` dequeues it and recycles the old sentinel, and `t` calls
`enq` again. -/
def handover (t u : Fin n) : List (Fin n × Choice) :=
  solo t (.enq 7) (some ⟨0, none⟩) 11 ++ solo u (.deq 0) none 21 ++ solo t (.enq 8) none 1

/-- Thread `t` gets no memory and returns from its second `enq`. -/
def outOfMemory (t : Fin n) : List (Fin n × Choice) := solo t (.enq 8) none 4

end ConcurrentQueues.Ex4
