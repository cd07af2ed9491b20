import ConcurrentQueues.Store
import ConcurrentQueues.Reasoning.AtomicQueue

/-!
# Ex1 — the sequential queue

Each function is its effect on the whole state; `none` is a dereferenced `NULL`.
-/

namespace ConcurrentQueues.Ex1

open Reasoning

/-- The node store, and the counter that the caller of each thread id passes as
`free_list_insertion_count`. -/
@[ext] structure State (n : Nat) where
  store : Store n
  insertions : Fin n → Nat

/-- A call: the thread id, the operation, whether the caller passes its counter, and the result of
`malloc` in case it is asked. -/
structure Call (n : Nat) where
  thread : Fin n
  op : Op Value
  countIns : Bool
  malloc : Option Node
  deriving DecidableEq

/-- What a call of a thread has returned. -/
structure Return (n : Nat) where
  thread : Fin n
  op : Op Value
  res : Res Value
  deriving DecidableEq

variable {n : Nat}

@[simps] def State.setStore (q : State n) (store : Store n) : State n := { q with store := store }

/-- `init_queue(Q, n)`, with every counter at 0. -/
@[simps] def State.init (n : Nat) : State n := ⟨Store.init n, fun _ => 0⟩

/-- `upcylce_node`: the node and the store after it. -/
def upcylceNode (q : Store n) (t : Fin n) (raw : Option Node) : Ptr × Store n :=
  match (q.freeLists t).head with
  | some p =>
      (some p, (q.setFreeHead t (q.heap p).next).setFreeSize t ((q.freeLists t).size - 1))
  | none =>
      match raw with
      | some x => (some q.brk, q.malloc x)
      -- `malloc` has returned `NULL`, and so does `upcylce_node`
      | none => (none, q)

/-- The three stores of `recycle_node`. -/
def recycle (q : Store n) (t : Fin n) (p : Addr) : Store n :=
  ((q.setNext p (q.freeLists t).head).setFreeHead t (some p)).setFreeSize t
    ((q.freeLists t).size + 1)

/-- `recycle_node`. -/
def recycleNode (q : State n) (t : Fin n) (p : Addr) (countIns : Bool) : State n where
  store := recycle q.store t p
  insertions := Function.update q.insertions t (q.insertions t + if countIns then 1 else 0)

/-- `enq` behind the call of `upcylce_node`, which has returned `p`. -/
def append (q : Store n) (v : Value) (p : Addr) : Option (Store n) :=
  let q := (q.setData p v).setNext p none
  match q.tail with
  | some last => some ((q.setNext last (some p)).setTail (some p))
  | none => none

/-- `enq`: the return code and the state after it. -/
def enq (v : Value) (q : State n) (t : Fin n) (raw : Option Node) : Option (Int × State n) :=
  match upcylceNode q.store t raw with
  -- `if (!new_node) return 0;`
  | (none, store) => some (0, q.setStore store)
  | (some p, store) =>
      match append store v p with
      | some store => some (1, q.setStore store)
      | none => none

/-- `deq` from `Q->head = sentinel->next` to its call of `recycle_node`. -/
def advance (q : Store n) (next : Addr) : Store n :=
  let q := q.setHead (some next)
  -- the last node became the sentinel, so `tail` moves to it as well
  if q.tail = some next then q.setTail q.head else q

/-- `deq`: the return code, `*v` and the state after it. -/
def deq (out : Value) (q : State n) (t : Fin n) (countIns : Bool) :
    Option (Int × Value × State n) :=
  match q.store.head with
  | some sentinel =>
      match (q.store.heap sentinel).next with
      | some next =>
          some (1, (q.store.heap next).data,
            recycleNode (q.setStore (advance q.store next)) t sentinel countIns)
      | none => some (0, out, q)
  | none => none

/-- One call, with its result. -/
def call (q : State n) (c : Call n) : Option (State n × Res Value) :=
  match c.op with
  | .enq v => (enq v q c.thread c.malloc).map fun r => (r.2, .enq r.1)
  | .deq out => (deq out q c.thread c.countIns).map fun r => (r.2.2, .deq r.1 r.2.1)

/-- A sequence of calls, with what they return. -/
def run (q : State n) : List (Call n) → Option (State n × List (Return n))
  | [] => some (q, [])
  | c :: cs =>
      match call q c with
      | some (q, res) => (run q cs).map fun r => (r.1, ⟨c.thread, c.op, res⟩ :: r.2)
      | none => none

theorem run_snoc {q q' q'' : State n} {cs : List (Call n)} {c : Call n} {rs : List (Return n)}
    {res : Res Value} (h : run q cs = some (q', rs)) (hc : call q' c = some (q'', res)) :
    run q (cs ++ [c]) = some (q'', rs ++ [⟨c.thread, c.op, res⟩]) := by
  induction cs generalizing q rs with
  | nil =>
      obtain ⟨rfl, rfl⟩ : q = q' ∧ [] = rs := by simpa [run] using h
      simp [run, hc]
  | cons d cs ih =>
      simp only [List.cons_append, run] at h ⊢
      cases hd : call q d with
      | none => simp [hd] at h
      | some qr =>
          simp only [hd, Option.map_eq_some_iff, Prod.mk.injEq] at h ⊢
          obtain ⟨⟨u, us⟩, hrun, rfl, rfl⟩ := h
          exact ⟨_, ih hrun, rfl, rfl⟩

end ConcurrentQueues.Ex1
