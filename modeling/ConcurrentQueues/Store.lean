import Mathlib.Algebra.Group.Nat.Defs
import Mathlib.Logic.Function.Basic
import Mathlib.Tactic.Simps.Basic

/-!
# Store — the heap of queue nodes

The four queues share their data types: nodes with a value and a `next` pointer, the head and tail
of the main list, and one free list per thread id.  `NULL` is `none`; `malloc` hands out addresses
in increasing order and nothing is freed before `destroy_queue`.
-/

namespace ConcurrentQueues

theorem add_one_add_neg_one (a : Int32) : a + 1 + -1 = a := by
  rw [Int32.add_assoc, Int32.add_right_neg, Int32.add_zero]

theorem add_neg_one_add_one (a : Int32) : a + -1 + 1 = a := by
  rw [Int32.add_assoc, Int32.add_left_neg, Int32.add_zero]

/-- An `int` that counts to `k` and wraps around is `k` below `2 ^ 31` only. -/
theorem toInt_ofNat_iff {k : Nat} : (Int32.ofNat k).toInt = k ↔ k < 2 ^ 31 := by
  constructor
  · intro h
    have hlt := (Int32.ofNat k).toInt_lt
    omega
  · exact Int32.toInt_ofNat_of_lt

/-- `value_t`. -/
abbrev Value := Int32

abbrev Addr := Nat

/-- `node_t*`. -/
abbrev Ptr := Option Addr

/-- `node_t`. -/
@[ext] structure Node where
  data : Value
  next : Ptr
  deriving DecidableEq, Repr

/-- `freelist_t`; `size` wraps around. -/
@[ext] structure FreeList where
  head : Ptr
  size : Int32
  deriving DecidableEq, Repr

/-- The node heap with the fields of `queue_t` that all versions have.  The addresses below `brk`
are the nodes obtained from `malloc` so far. -/
@[ext] structure Store (n : Nat) where
  heap : Addr → Node
  brk : Addr
  head : Ptr
  tail : Ptr
  freeLists : Fin n → FreeList

namespace Store

variable {n : Nat}

/-- `p->next`. -/
def next (q : Store n) (p : Addr) : Ptr := (q.heap p).next

@[simps] def setNext (q : Store n) (p : Addr) (x : Ptr) : Store n :=
  { q with heap := Function.update q.heap p { q.heap p with next := x } }

@[simps] def setData (q : Store n) (p : Addr) (v : Value) : Store n :=
  { q with heap := Function.update q.heap p { q.heap p with data := v } }

@[simps] def setHead (q : Store n) (x : Ptr) : Store n := { q with head := x }

@[simps] def setTail (q : Store n) (x : Ptr) : Store n := { q with tail := x }

@[simps] def setFreeHead (q : Store n) (t : Fin n) (x : Ptr) : Store n :=
  { q with freeLists := Function.update q.freeLists t { q.freeLists t with head := x } }

@[simps] def setFreeSize (q : Store n) (t : Fin n) (k : Int32) : Store n :=
  { q with freeLists := Function.update q.freeLists t { q.freeLists t with size := k } }

/-- A successful `malloc(sizeof(node_t))` whose block holds `raw`; its address is `q.brk`. -/
@[simps] def malloc (q : Store n) (raw : Node) : Store n :=
  { q with heap := Function.update q.heap q.brk raw, brk := q.brk + 1 }

/-- The store `init_queue` sets up: one sentinel node and empty free lists. -/
@[simps] def init (n : Nat) : Store n where
  heap := fun _ => ⟨0, none⟩
  brk := 1
  head := some 0
  tail := some 0
  freeLists := fun _ => ⟨none, 0⟩

end Store

end ConcurrentQueues
