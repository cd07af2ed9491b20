import ConcurrentQueues.Ex1.Model

/-!
# Ex2 — the queue with one lock

`enq` and `deq` run under `Q->lock`, except that `deq` calls `recycle_node` after it has released
the lock.  Every load and store of a shared field, and every acquisition and release of the lock, is
one step.
-/

namespace ConcurrentQueues.Ex2

open Reasoning

/-- The shared memory: the node store and the lock with its holder. -/
structure Mem (n : Nat) where
  store : Store n
  lock : Option (Fin n)

inductive UpcyclePc where
  | loadHead | loadNext | storeHead | loadSize | storeSize | malloc
  deriving DecidableEq, Repr

inductive EnqPc where
  | lock | data | next | loadTail | link | storeTail | unlock | unlockFail
  deriving DecidableEq, Repr

/-- `loadHead` and `testNext` evaluate `!Q->head->next`, `loadTail` and `testTail` evaluate
`Q->tail == sentinel->next`; `loadHeadTail` and `storeTail` are the branch this guards. -/
inductive DeqPc where
  | lock | loadHead | testNext | loadSentinel | loadFirst | loadData | writeOut | loadNext
  | storeHead | loadTail | testTail | loadHeadTail | storeTail | unlock | unlockEmpty
  deriving DecidableEq, Repr

inductive RecyclePc where
  | loadHead | storeNext | storeHead | loadSize | storeSize | count
  deriving DecidableEq, Repr

/-- The function a thread executes and the access it performs next. -/
inductive Pc where
  | idle
  | upcycle (pc : UpcyclePc)
  | enq (pc : EnqPc)
  | deq (pc : DeqPc)
  | recycle (pc : RecyclePc)
  | ret
  deriving DecidableEq, Repr

/-- A thread's locals.  `head`, `tail`, `next`, `size` and `val` hold what the last load of such a
field returned; `out` is `*v` and `insertions` is `*free_list_insertion_count`, which the caller
passes if `countIns`. -/
structure Local where
  pc : Pc
  op : Op Value
  countIns : Bool
  v : Value
  newNode : Ptr
  sentinel : Ptr
  head : Ptr
  tail : Ptr
  next : Ptr
  size : Int32
  val : Value
  out : Value
  code : Int
  insertions : Nat

/-- The next call, and the result of `malloc`. -/
structure Choice where
  op : Op Value
  countIns : Bool
  malloc : Option Node

namespace Mem

variable {n : Nat}

@[simps] def setStore (m : Mem n) (q : Store n) : Mem n := { m with store := q }

@[simps] def setLock (m : Mem n) (x : Option (Fin n)) : Mem n := { m with lock := x }

end Mem

namespace Local

@[simps] def goto (l : Local) (pc : Pc) : Local := { l with pc := pc }

/-- `if(free_list_insertion_count) (*free_list_insertion_count)++;` -/
@[simps] def countInsertion (l : Local) : Local :=
  { l with insertions := l.insertions + if l.countIns then 1 else 0 }

/-- Entering a call with its arguments. -/
def call (l : Local) (c : Choice) : Local :=
  match c.op with
  | .enq v => { l with pc := .enq .lock, op := c.op, countIns := c.countIns, v := v }
  | .deq out => { l with pc := .deq .lock, op := c.op, countIns := c.countIns, out := out }

/-- What the call returns. -/
def res (l : Local) : Res Value :=
  match l.op with
  | .enq _ => .enq l.code
  | .deq _ => .deq l.code l.out

def init : Local where
  pc := .idle
  op := .deq 0
  countIns := false
  v := 0
  newNode := none
  sentinel := none
  head := none
  tail := none
  next := none
  size := 0
  val := 0
  out := 0
  code := 0
  insertions := 0

end Local

variable {n : Nat}

abbrev Result (n : Nat) := Outcome (Mem n) Local

/-- `upcycle_node`. -/
def upcycleNode (t : Fin n) (c : Choice) (m : Mem n) (l : Local) : UpcyclePc → Result n
  | .loadHead =>
      match (m.store.freeLists t).head with
      | some p => .next m { l with newNode := some p, pc := .upcycle .loadNext }
      | none => .next m (l.goto (.upcycle .malloc))
  | .loadNext =>
      match l.newNode with
      | some p => .next m { l with next := (m.store.heap p).next, pc := .upcycle .storeHead }
      | none => .fault
  | .storeHead => .next (m.setStore (m.store.setFreeHead t l.next)) (l.goto (.upcycle .loadSize))
  | .loadSize => .next m { l with size := (m.store.freeLists t).size, pc := .upcycle .storeSize }
  | .storeSize => .next (m.setStore (m.store.setFreeSize t (l.size - 1))) (l.goto (.enq .data))
  | .malloc =>
      match c.malloc with
      | some raw =>
          .next (m.setStore (m.store.malloc raw))
            { l with newNode := some m.store.brk, pc := .enq .data }
      -- `if (!new_node)`: the lock is released and `enq` returns 0
      | none => .next m { l with newNode := none, pc := .enq .unlockFail }

/-- `enq` up to the call of `upcycle_node` and from its return on. -/
def enq (t : Fin n) (m : Mem n) (l : Local) : EnqPc → Result n
  | .lock =>
      match m.lock with
      | none => .next (m.setLock (some t)) (l.goto (.upcycle .loadHead))
      | some _ => .blocked
  | .data =>
      match l.newNode with
      | some p => .next (m.setStore (m.store.setData p l.v)) (l.goto (.enq .next))
      | none => .fault
  | .next =>
      match l.newNode with
      | some p => .next (m.setStore (m.store.setNext p none)) (l.goto (.enq .loadTail))
      | none => .fault
  | .loadTail => .next m { l with tail := m.store.tail, pc := .enq .link }
  | .link =>
      match l.tail with
      | some p => .next (m.setStore (m.store.setNext p l.newNode)) (l.goto (.enq .storeTail))
      | none => .fault
  | .storeTail => .next (m.setStore (m.store.setTail l.newNode)) (l.goto (.enq .unlock))
  | .unlock => .next (m.setLock none) { l with code := 1, pc := .ret }
  | .unlockFail => .next (m.setLock none) { l with code := 0, pc := .ret }

/-- `deq` up to its call of `recycle_node`. -/
def deq (t : Fin n) (m : Mem n) (l : Local) : DeqPc → Result n
  | .lock =>
      match m.lock with
      | none => .next (m.setLock (some t)) (l.goto (.deq .loadHead))
      | some _ => .blocked
  | .loadHead => .next m { l with head := m.store.head, pc := .deq .testNext }
  | .testNext =>
      match l.head with
      | some p =>
          -- `if (!Q->head->next)`
          if (m.store.heap p).next = none then .next m (l.goto (.deq .unlockEmpty))
          else .next m (l.goto (.deq .loadSentinel))
      | none => .fault
  | .loadSentinel => .next m { l with sentinel := m.store.head, pc := .deq .loadFirst }
  | .loadFirst =>
      match l.sentinel with
      | some p => .next m { l with next := (m.store.heap p).next, pc := .deq .loadData }
      | none => .fault
  | .loadData =>
      match l.next with
      | some p => .next m { l with val := (m.store.heap p).data, pc := .deq .writeOut }
      | none => .fault
  | .writeOut => .next m { l with out := l.val, pc := .deq .loadNext }
  | .loadNext =>
      match l.sentinel with
      | some p => .next m { l with next := (m.store.heap p).next, pc := .deq .storeHead }
      | none => .fault
  | .storeHead => .next (m.setStore (m.store.setHead l.next)) (l.goto (.deq .loadTail))
  | .loadTail => .next m { l with tail := m.store.tail, pc := .deq .testTail }
  | .testTail =>
      match l.sentinel with
      | some p =>
          -- the node taken out was the last one, and `tail` must not be left on it
          if l.tail = (m.store.heap p).next then .next m (l.goto (.deq .loadHeadTail))
          else .next m (l.goto (.deq .unlock))
      | none => .fault
  | .loadHeadTail => .next m { l with head := m.store.head, pc := .deq .storeTail }
  | .storeTail => .next (m.setStore (m.store.setTail l.head)) (l.goto (.deq .unlock))
  -- the sentinel is recycled without the lock
  | .unlock => .next (m.setLock none) (l.goto (.recycle .loadHead))
  | .unlockEmpty => .next (m.setLock none) { l with code := 0, pc := .ret }

/-- `recycle_node(Q, thread_id, sentinel, free_list_insertion_count)` and `return 1`. -/
def recycleNode (t : Fin n) (m : Mem n) (l : Local) : RecyclePc → Result n
  | .loadHead => .next m { l with head := (m.store.freeLists t).head, pc := .recycle .storeNext }
  | .storeNext =>
      match l.sentinel with
      | some p => .next (m.setStore (m.store.setNext p l.head)) (l.goto (.recycle .storeHead))
      | none => .fault
  | .storeHead =>
      .next (m.setStore (m.store.setFreeHead t l.sentinel)) (l.goto (.recycle .loadSize))
  | .loadSize => .next m { l with size := (m.store.freeLists t).size, pc := .recycle .storeSize }
  | .storeSize => .next (m.setStore (m.store.setFreeSize t (l.size + 1))) (l.goto (.recycle .count))
  | .count => .next m { l.countInsertion with code := 1, pc := .ret }

/-- One step of thread `t`. -/
def step : Program (Fin n) Choice (Mem n) Local := fun t c m l =>
  match l.pc with
  | .idle => .next m (l.call c)
  | .upcycle pc => upcycleNode t c m l pc
  | .enq pc => enq t m l pc
  | .deq pc => deq t m l pc
  | .recycle pc => recycleNode t m l pc
  | .ret => .next m (l.goto .idle)

/-- `init_queue(Q, n)`. -/
def Mem.init (n : Nat) : Mem n := ⟨Store.init n, none⟩

/-- The queue after `init_queue` and before any call. -/
def init (n : Nat) : Config (Fin n) (Mem n) Local := ⟨Mem.init n, fun _ => Local.init⟩

/-! ## The order of the calls -/

/-- What the calls of a run and their order are read from. -/
inductive Event where
  | acquire (op : Op Value) (countIns : Bool)
  | malloc (raw : Option Node)
  | ret (op : Op Value) (res : Res Value)

def event (t : Fin n) (c : Choice) (_ : Mem n) (l : Local) : Option (Fin n × Event) :=
  match l.pc with
  | .enq .lock | .deq .lock => some (t, .acquire l.op l.countIns)
  | .upcycle .malloc => some (t, .malloc c.malloc)
  | .ret => some (t, .ret l.op l.res)
  | _ => none

/-- A thread that acquires the lock starts the next call; only the holder of the lock calls
`malloc`. -/
def serialStep (calls : List (Ex1.Call n)) : Fin n × Event → List (Ex1.Call n)
  | (t, .acquire op countIns) => calls ++ [⟨t, op, countIns, none⟩]
  | (_, .malloc raw) =>
      calls.dropLast ++ (calls.getLast?.map fun c => { c with malloc := raw }).toList
  | (_, .ret _ _) => calls

/-- The calls of a run in the order in which they acquired the lock, each with the result of its
`malloc`. -/
def serial (evs : List (Fin n × Event)) : List (Ex1.Call n) := evs.foldl serialStep []

/-- What the calls of `t` have returned, in order. -/
def returned (t : Fin n) (evs : List (Fin n × Event)) : List (Ex1.Return n) :=
  evs.filterMap fun e =>
    match e.2 with
    | .ret op res => if e.1 = t then some ⟨t, op, res⟩ else none
    | _ => none

/-- The state of a configuration as a state of the sequential queue. -/
def state (s : Config (Fin n) (Mem n) Local) : Ex1.State n :=
  ⟨s.mem.store, fun t => (s.th t).insertions⟩

/-- `k` steps of thread `t`, which calls `op` whenever it is idle and gets `raw` from `malloc`. -/
def solo (t : Fin n) (op : Op Value) (raw : Option Node) (k : Nat) : List (Fin n × Choice) :=
  List.replicate k (t, ⟨op, true, raw⟩)

/-- Thread `u` dequeues the 7 of thread `t` and is overtaken, before it recycles the sentinel, by
an `enq` that gets no memory. -/
def overlap (t u : Fin n) : List (Fin n × Choice) :=
  solo t (.enq 7) (some ⟨0, none⟩) 11 ++ solo u (.deq 0) none 15 ++ solo t (.enq 8) none 6 ++
    solo u (.deq 0) none 7

end ConcurrentQueues.Ex2
