import ConcurrentQueues.Store
import ConcurrentQueues.Reasoning.AtomicQueue

/-!
# Ex5 — the lock-free queue and its reclamation

Every atomic access of `enq`, `deq` and the `mm_*` functions is one step, and so is every access
to the heap, the free lists and the retired lists; an update of a field that only its own thread
uses is one step with the load it starts from.  A thread's `Pc` names the access it performs next;
purely local computation is part of the step before it.
-/

namespace ConcurrentQueues.Ex5

open Reasoning

abbrev RecAddr := Nat

/-- `retired_t`. -/
structure Retired where
  node : Ptr
  next : Option RecAddr
  deriving DecidableEq, Repr

/-- The shared memory: the node store, the rest of `queue_t`, and the heap of retired records.
`freed` lists the records passed to `free`. -/
structure Mem (n : Nat) where
  store : Store n
  ctr : Fin n → UInt64
  retired : Fin n → Option RecAddr
  retiredCount : Fin n → UInt64
  records : RecAddr → Retired
  recBrk : RecAddr
  freed : List RecAddr

inductive UpcylcePc where
  | loadHead | loadNext | storeHead | size
  deriving DecidableEq, Repr

inductive MakePc where
  | malloc | data | next
  deriving DecidableEq, Repr

inductive EnqPc where
  | data | next | loadTail | loadNext | reload | link | swing | help
  deriving DecidableEq, Repr

inductive DeqPc where
  | loadHead | loadTail | loadNext | reload | help | loadData | cas | writeOut
  deriving DecidableEq, Repr

inductive RetirePc where
  | malloc | node | next | push | count
  deriving DecidableEq, Repr

inductive OpEndPc where
  | inc | check
  deriving DecidableEq, Repr

inductive WaitPc where
  | load | spin
  deriving DecidableEq, Repr

inductive ReclaimPc where
  | load | clear | count | loop | free
  deriving DecidableEq, Repr

inductive RecyclePc where
  | next | head | size | count
  deriving DecidableEq, Repr

/-- The function a thread executes and the access it performs next. -/
inductive Pc where
  | idle
  | opBegin
  | upcylce (pc : UpcylcePc)
  | make (pc : MakePc)
  | enq (pc : EnqPc)
  | deq (pc : DeqPc)
  | retire (pc : RetirePc)
  | opEnd (pc : OpEndPc)
  | wait (pc : WaitPc)
  | reclaim (pc : ReclaimPc)
  | recycle (pc : RecyclePc)
  | ret
  deriving DecidableEq, Repr

/-- A thread's locals, under their names in the source, and the caller's variables it writes
through pointers: `out` is `*v`, and the counters are `*failed_CAS_count` of its `enq` and `deq`
calls and `*free_list_insertion_count`.  `countCAS` and `countIns` say whether the caller passed
a counter or `NULL`. -/
structure Local where
  pc : Pc
  op : Op Value
  countCAS : Bool
  countIns : Bool
  v : Value
  n : Ptr
  tmp : Ptr
  first : Ptr
  last : Ptr
  next : Ptr
  val : Value
  out : Value
  code : Int
  r : Option RecAddr
  nxt : Option RecAddr
  node : Ptr
  scan : Nat
  seen : UInt64
  failedEnqCAS : Nat
  failedDeqCAS : Nat
  insertions : Nat

/-- What the code does not determine: the next call, spurious failures of the weak CAS, and the
results of `malloc`, `NULL` or a block with arbitrary content. -/
structure Choice where
  op : Op Value
  countCAS : Bool
  countIns : Bool
  spurious : Bool
  malloc : Option Node
  mallocRec : Option Retired

/-- `is_odd`. -/
def isOdd (x : UInt64) : Bool := x &&& 1 != 0

namespace Mem

variable {n : Nat}

@[simps] def fetchAdd (m : Mem n) (t : Fin n) : Mem n :=
  { m with ctr := Function.update m.ctr t (m.ctr t + 1) }

@[simps] def setStore (m : Mem n) (q : Store n) : Mem n := { m with store := q }

@[simps] def setRetired (m : Mem n) (t : Fin n) (r : Option RecAddr) : Mem n :=
  { m with retired := Function.update m.retired t r }

@[simps] def setRetiredCount (m : Mem n) (t : Fin n) (k : UInt64) : Mem n :=
  { m with retiredCount := Function.update m.retiredCount t k }

@[simps] def setRecord (m : Mem n) (r : RecAddr) (x : Retired) : Mem n :=
  { m with records := Function.update m.records r x }

/-- A successful `malloc(sizeof(retired_t))`; its address is `m.recBrk`. -/
@[simps] def mallocRec (m : Mem n) (raw : Retired) : Mem n :=
  { m with records := Function.update m.records m.recBrk raw, recBrk := m.recBrk + 1 }

@[simps] def freeRec (m : Mem n) (r : RecAddr) : Mem n := { m with freed := r :: m.freed }

end Mem

namespace Local

def isEnq (l : Local) : Bool :=
  match l.op with
  | .enq _ => true
  | .deq _ => false

@[simps] def goto (l : Local) (pc : Pc) : Local := { l with pc := pc }

/-- `if (failed_CAS_count) (*failed_CAS_count)++;` -/
@[simps] def failCAS (l : Local) : Local :=
  { l with
    failedEnqCAS := l.failedEnqCAS + if l.countCAS && l.isEnq then 1 else 0
    failedDeqCAS := l.failedDeqCAS + if l.countCAS && !l.isEnq then 1 else 0 }

/-- `if (free_list_insertion_count) (*free_list_insertion_count)++;` -/
@[simps] def countInsertion (l : Local) : Local :=
  { l with insertions := l.insertions + if l.countIns then 1 else 0 }

/-- Entering a call with its arguments. -/
def call (l : Local) (c : Choice) : Local :=
  match c.op with
  | .enq v =>
      { l with
        pc := .opBegin, op := c.op, countCAS := c.countCAS, countIns := c.countIns, v := v }
  | .deq out =>
      { l with
        pc := .opBegin, op := c.op, countCAS := c.countCAS, countIns := c.countIns, out := out }

def init : Local where
  pc := .idle
  op := .deq 0
  countCAS := false
  countIns := false
  v := 0
  n := none
  tmp := none
  first := none
  last := none
  next := none
  val := 0
  out := 0
  code := 0
  r := none
  nxt := none
  node := none
  scan := 0
  seen := 0
  failedEnqCAS := 0
  failedDeqCAS := 0
  insertions := 0

end Local

variable {n : Nat}

abbrev Result (n : Nat) := Outcome (Mem n) Local

/-- `mm_op_begin`. -/
def mmOpBegin (t : Fin n) (m : Mem n) (l : Local) : Result n :=
  .next (m.fetchAdd t) (l.goto (if l.isEnq then .upcylce .loadHead else .deq .loadHead))

/-- `upcylce_node`; `get_next(n)` is kept in `tmp` until it is stored. -/
def upcylceNode (t : Fin n) (m : Mem n) (l : Local) : UpcylcePc → Result n
  | .loadHead =>
      match (m.store.freeLists t).head with
      | some p => .next m { l with n := some p, pc := .upcylce .loadNext }
      -- the free list is empty: `return make_node(0)`
      | none => .next m { l with n := none, pc := .make .malloc }
  | .loadNext =>
      match l.n with
      | some p => .next m { l with tmp := (m.store.heap p).next, pc := .upcylce .storeHead }
      | none => .fault
  | .storeHead => .next (m.setStore (m.store.setFreeHead t l.tmp)) (l.goto (.upcylce .size))
  | .size =>
      .next (m.setStore (m.store.setFreeSize t ((m.store.freeLists t).size - 1)))
        (l.goto (.enq .data))

/-- `make_node(0)`, as `upcylce_node` calls it. -/
def makeNode (c : Choice) (m : Mem n) (l : Local) : MakePc → Result n
  | .malloc =>
      match c.malloc with
      | some raw =>
          .next (m.setStore (m.store.malloc raw))
            { l with n := some m.store.brk, pc := .make .data }
      -- `make_node` does not test the pointer, so its next store faults
      | none => .next m { l with n := none, pc := .make .data }
  | .data =>
      match l.n with
      | some p => .next (m.setStore (m.store.setData p 0)) (l.goto (.make .next))
      | none => .fault
  | .next =>
      match l.n with
      | some p => .next (m.setStore (m.store.setNext p none)) (l.goto (.enq .data))
      | none => .fault

/-- The body of `enq` between `upcylce_node` and `mm_op_end`. -/
def enq (c : Choice) (m : Mem n) (l : Local) : EnqPc → Result n
  | .data =>
      match l.n with
      | some p => .next (m.setStore (m.store.setData p l.v)) (l.goto (.enq .next))
      | none => .fault
  | .next =>
      match l.n with
      | some p => .next (m.setStore (m.store.setNext p none)) (l.goto (.enq .loadTail))
      | none => .fault
  | .loadTail =>
      match l.n with
      | some _ => .next m { l with last := m.store.tail, pc := .enq .loadNext }
      -- `while (n)` is left at once and `enq` returns 0
      | none => .next m { l with code := 0, pc := .opEnd .inc }
  | .loadNext =>
      match l.last with
      | some p => .next m { l with next := (m.store.heap p).next, pc := .enq .reload }
      | none => .fault
  | .reload =>
      -- `last` is compared with a second load of `Q->tail`
      if l.last = m.store.tail then
        if l.next = none then .next m (l.goto (.enq .link)) else .next m (l.goto (.enq .help))
      else .next m (l.goto (.enq .loadTail))
  | .link =>
      match l.last with
      | some p =>
          -- a failure changes `expected_next` only, which the next iteration sets anew
          if (m.store.heap p).next = none ∧ c.spurious = false then
            .next (m.setStore (m.store.setNext p l.n)) (l.goto (.enq .swing))
          else .next m (l.failCAS.goto (.enq .loadTail))
      | none => .fault
  | .swing =>
      -- `enq` returns 1 either way; a failed CAS loads `Q->tail` into `last`
      if m.store.tail = l.last ∧ c.spurious = false then
        .next (m.setStore (m.store.setTail l.n)) { l with code := 1, pc := .opEnd .inc }
      else .next m { l.failCAS with last := m.store.tail, code := 1, pc := .opEnd .inc }
  | .help =>
      -- `tail` lags behind: advance it to `next`, and retry in both cases
      if m.store.tail = l.last ∧ c.spurious = false then
        .next (m.setStore (m.store.setTail l.next)) (l.goto (.enq .loadTail))
      else .next m { l.failCAS with last := m.store.tail, pc := .enq .loadTail }

/-- The body of `deq` up to `mm_retire`. -/
def deq (c : Choice) (m : Mem n) (l : Local) : DeqPc → Result n
  | .loadHead => .next m { l with first := m.store.head, pc := .deq .loadTail }
  | .loadTail => .next m { l with last := m.store.tail, pc := .deq .loadNext }
  | .loadNext =>
      match l.first with
      | some p => .next m { l with next := (m.store.heap p).next, pc := .deq .reload }
      | none => .fault
  | .reload =>
      if l.first = m.store.head then
        if l.first = l.last then
          -- the queue was empty when `first->next` was loaded
          if l.next = none then .next m { l with code := 0, pc := .opEnd .inc }
          else .next m (l.goto (.deq .help))
        else .next m (l.goto (.deq .loadData))
      else .next m (l.goto (.deq .loadHead))
  | .help =>
      -- one node behind the sentinel, but `tail` still points to the sentinel
      if m.store.tail = l.last ∧ c.spurious = false then
        .next (m.setStore (m.store.setTail l.next)) (l.goto (.deq .loadHead))
      else .next m { l.failCAS with last := m.store.tail, pc := .deq .loadHead }
  | .loadData =>
      match l.next with
      | some p => .next m { l with val := (m.store.heap p).data, pc := .deq .cas }
      | none => .fault
  | .cas =>
      -- `next` becomes the sentinel; its `data` was read before the CAS
      if m.store.head = l.first ∧ c.spurious = false then
        .next (m.setStore (m.store.setHead l.next)) (l.goto (.deq .writeOut))
      else .next m { l.failCAS with first := m.store.head, pc := .deq .loadHead }
  | .writeOut => .next m { l with out := l.val, pc := .retire .malloc }

/-- `mm_retire(Q, tid, first)`. -/
def mmRetire (t : Fin n) (c : Choice) (m : Mem n) (l : Local) : RetirePc → Result n
  | .malloc =>
      match c.mallocRec with
      | some raw => .next (m.mallocRec raw) { l with r := some m.recBrk, pc := .retire .node }
      -- `mm_retire` does not test the pointer either
      | none => .next m { l with r := none, pc := .retire .node }
  | .node =>
      match l.r with
      | some r =>
          .next (m.setRecord r { m.records r with node := l.first }) (l.goto (.retire .next))
      | none => .fault
  | .next =>
      match l.r with
      | some r =>
          .next (m.setRecord r { m.records r with next := m.retired t }) (l.goto (.retire .push))
      | none => .fault
  | .push => .next (m.setRetired t l.r) (l.goto (.retire .count))
  | .count =>
      .next (m.setRetiredCount t (m.retiredCount t + 1)) { l with code := 1, pc := .opEnd .inc }

/-- `mm_op_end`. -/
def mmOpEnd (t : Fin n) (m : Mem n) (l : Local) : OpEndPc → Result n
  | .inc => .next (m.fetchAdd t) (l.goto (.opEnd .check))
  | .check =>
      -- `return` without waiting when nothing is retired
      if m.retiredCount t = 0 then .next m (l.goto .ret)
      else .next m { l with scan := 0, pc := .wait .load }

/-- `mm_wait_until_unreserved`; the loop index `t` is `scan` and the value `v` is `seen`. -/
def mmWaitUntilUnreserved (t : Fin n) (m : Mem n) (l : Local) : WaitPc → Result n
  | .load =>
      if h : l.scan < n then
        -- `if (t == tid) continue;`
        if (⟨l.scan, h⟩ : Fin n) = t then .next m { l with scan := l.scan + 1 }
        else if isOdd (m.ctr ⟨l.scan, h⟩) then
          .next m { l with seen := m.ctr ⟨l.scan, h⟩, pc := .wait .spin }
        else .next m { l with seen := m.ctr ⟨l.scan, h⟩, scan := l.scan + 1 }
      else .next m (l.goto (.reclaim .load))
  | .spin =>
      if h : l.scan < n then
        -- the busy-wait: as long as the counter is `v` the thread stays here
        if m.ctr ⟨l.scan, h⟩ = l.seen then .next m l
        else .next m { l with scan := l.scan + 1, pc := .wait .load }
      else .fault

/-- `mm_reclaim_all`. -/
def mmReclaimAll (t : Fin n) (m : Mem n) (l : Local) : ReclaimPc → Result n
  | .load => .next m { l with r := m.retired t, pc := .reclaim .clear }
  | .clear => .next (m.setRetired t none) (l.goto (.reclaim .count))
  | .count => .next (m.setRetiredCount t 0) (l.goto (.reclaim .loop))
  | .loop =>
      match l.r with
      | some r =>
          -- `nxt` and `r->node` are loaded before the call of `recycle_node`
          .next m
            { l with
              nxt := (m.records r).next, node := (m.records r).node, pc := .recycle .next }
      | none => .next m (l.goto .ret)
  | .free =>
      match l.r with
      | some r => .next (m.freeRec r) { l with r := l.nxt, pc := .reclaim .loop }
      | none => .fault

/-- `recycle_node`. -/
def recycleNode (t : Fin n) (m : Mem n) (l : Local) : RecyclePc → Result n
  | .next =>
      match l.node with
      | some p =>
          .next (m.setStore (m.store.setNext p (m.store.freeLists t).head))
            (l.goto (.recycle .head))
      | none => .fault
  | .head => .next (m.setStore (m.store.setFreeHead t l.node)) (l.goto (.recycle .size))
  | .size =>
      .next (m.setStore (m.store.setFreeSize t ((m.store.freeLists t).size + 1)))
        (l.goto (.recycle .count))
  | .count => .next m (l.countInsertion.goto (.reclaim .free))

/-- One step of thread `t`. -/
def step : Program (Fin n) Choice (Mem n) Local := fun t c m l =>
  match l.pc with
  | .idle => .next m (l.call c)
  | .opBegin => mmOpBegin t m l
  | .upcylce pc => upcylceNode t m l pc
  | .make pc => makeNode c m l pc
  | .enq pc => enq c m l pc
  | .deq pc => deq c m l pc
  | .retire pc => mmRetire t c m l pc
  | .opEnd pc => mmOpEnd t m l pc
  | .wait pc => mmWaitUntilUnreserved t m l pc
  | .reclaim pc => mmReclaimAll t m l pc
  | .recycle pc => recycleNode t m l pc
  | .ret => .next m (l.goto .idle)

/-- `init_queue(Q, n)`. -/
def Mem.init (n : Nat) : Mem n where
  store := Store.init n
  ctr := fun _ => 0
  retired := fun _ => none
  retiredCount := fun _ => 0
  records := fun _ => ⟨none, none⟩
  recBrk := 0
  freed := []

/-- The queue after `init_queue` and before any call. -/
def init (n : Nat) : Config (Fin n) (Mem n) Local := ⟨Mem.init n, fun _ => Local.init⟩

/-- What a step announces to the atomic queue: an enqueue takes effect at its link CAS, a
dequeue at its head CAS, and an empty dequeue at its last load of `first->next`. -/
def label (_ : Fin n) (c : Choice) (m : Mem n) (l : Local) : Option (Label Value) :=
  match l.pc with
  | .idle => some (.act (.call c.op))
  | .enq .link =>
      match l.last with
      | some p =>
          if (m.store.heap p).next = none ∧ c.spurious = false then some (.act (.enqueue l.v))
          else none
      | none => none
  -- whether this load settles the dequeue is known only at `first == Q->head`
  | .deq .loadNext => some .peek
  | .deq .cas =>
      if m.store.head = l.first ∧ c.spurious = false then some (.act (.dequeue l.val)) else none
  | .ret =>
      match l.op with
      | .enq _ => some (.act (.ret (.enq l.code)))
      | .deq _ =>
          if l.code = 0 then some (.retEmpty l.out) else some (.act (.ret (.deq l.code l.out)))
  | _ => none

/-! ## Schedules in which one thread runs for a while -/

/-- No spurious failure, and `malloc` succeeds. -/
def Choice.plain (op : Op Value) : Choice :=
  ⟨op, true, true, false, some ⟨0, none⟩, some ⟨none, none⟩⟩

/-- `k` steps of thread `t`, which calls `op` whenever it is idle. -/
def solo (t : Fin n) (op : Op Value) (k : Nat) : List (Fin n × Choice) :=
  List.replicate k (t, .plain op)

/-- Thread `t` enqueues 7, and thread `u` dequeues it and recycles the old sentinel. -/
def handover (t u : Fin n) : List (Fin n × Choice) := solo t (.enq 7) 16 ++ solo u (.deq 0) 30

end ConcurrentQueues.Ex5
