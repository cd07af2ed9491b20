import ConcurrentQueues.Store
import Mathlib.Data.List.FinRange
import Mathlib.Data.List.Perm.Basic

/-!
# Bench — `run_benchmark` with its correctness check

A worker is a function of the answers it gets: the sampled batch sizes and what each call of the
queue returns and does to the counters it is given.  `int` is 32 bits wide and wraps around,
`uint64_t` is 64 bits wide.
-/

namespace ConcurrentQueues.Bench

/-- What a call of `enq` does: whether it returns 1, by how much it raises the counters it is given,
and the size of the thread's free list after it. -/
structure EnqReply where
  success : Bool
  failedCas : Int32
  insertions : Int32
  freeListSize : Int32

/-- What a call of `deq` does; `value` is what it has written to `*v` if it returns 1. -/
structure DeqReply where
  value : Option Value
  failedCas : Int32
  insertions : Int32
  freeListSize : Int32

/-- One round of the worker loop: the two sampled sizes and the answers of the queue. -/
structure Batch where
  enqSize : Int32
  deqSize : Int32
  enqs : List EnqReply
  deqs : List DeqReply

/-- The locals of a worker.  The last two fields are not in the code: the values passed to
successful calls of `enq`, and the values successful calls of `deq` have returned. -/
structure Worker where
  enqCount : Int32
  deqCount : Int32
  failedEnqCount : Int32
  failedDeqCount : Int32
  failedEnqCasCount : Int32
  failedDeqCasCount : Int32
  freeListInsertions : Int32
  maxFreeListSize : Int32
  dequeueSum : UInt64
  enqueued : List Value
  dequeued : List Value

/-- `(uint64_t)value`: the sign is extended. -/
def toUInt64 (v : Value) : UInt64 := v.toInt64.toUInt64

/-- `success`, 0 or 1. -/
def flag (b : Bool) : Int32 := if b then 1 else 0

namespace Worker

def start : Worker where
  enqCount := 0
  deqCount := 0
  failedEnqCount := 0
  failedDeqCount := 0
  failedEnqCasCount := 0
  failedDeqCasCount := 0
  freeListInsertions := 0
  maxFreeListSize := 0
  dequeueSum := 0
  enqueued := []
  dequeued := []

/-- `enq_count * num_threads + tid`. -/
def value (w : Worker) (numThreads tid : Int32) : Value := w.enqCount * numThreads + tid

/-- The body of the enqueue loop. -/
def enq (numThreads tid : Int32) (w : Worker) (r : EnqReply) : Worker :=
  { w with
    failedEnqCasCount := w.failedEnqCasCount + r.failedCas
    freeListInsertions := w.freeListInsertions + r.insertions
    maxFreeListSize :=
      if r.freeListSize > w.maxFreeListSize then r.freeListSize else w.maxFreeListSize
    enqCount := w.enqCount + flag r.success
    failedEnqCount := w.failedEnqCount + (1 - flag r.success)
    enqueued := if r.success then w.enqueued ++ [w.value numThreads tid] else w.enqueued }

/-- The body of the dequeue loop. -/
def deq (w : Worker) (r : DeqReply) : Worker :=
  { w with
    failedDeqCasCount := w.failedDeqCasCount + r.failedCas
    freeListInsertions := w.freeListInsertions + r.insertions
    maxFreeListSize :=
      if r.freeListSize > w.maxFreeListSize then r.freeListSize else w.maxFreeListSize
    deqCount := w.deqCount + flag r.value.isSome
    failedDeqCount := w.failedDeqCount + (1 - flag r.value.isSome)
    -- only a call that returned 1 has written to `*v`
    dequeueSum :=
      match r.value with
      | some v => w.dequeueSum + toUInt64 v
      | none => w.dequeueSum
    dequeued := w.dequeued ++ r.value.toList }

end Worker

/-- `for (int i = 0; i < enq_batch_size; )` from `i` on; `none` if the answers end before the loop
or go on after it. -/
def enqBatch (numThreads tid size : Int32) : Int32 → Worker → List EnqReply → Option Worker
  | i, w, [] => if i < size then none else some w
  | i, w, r :: rs =>
      -- `i` counts the calls that returned 1; a failed call is tried again
      if i < size then enqBatch numThreads tid size (i + flag r.success) (w.enq numThreads tid r) rs
      else none

/-- `for (int i = 0; i < deq_batch_size; i++)` from `i` on. -/
def deqBatch (size : Int32) : Int32 → Worker → List DeqReply → Option Worker
  | i, w, [] => if i < size then none else some w
  | i, w, r :: rs => if i < size then deqBatch size (i + 1) (w.deq r) rs else none

/-- One round of the worker loop. -/
def round (numThreads tid : Int32) (w : Worker) (b : Batch) : Option Worker :=
  match enqBatch numThreads tid b.enqSize 0 w b.enqs with
  | some w => deqBatch b.deqSize 0 w b.deqs
  | none => none

/-- A worker that runs as many rounds as the time interval lets it. -/
def worker (numThreads tid : Int32) (bs : List Batch) : Option Worker :=
  bs.foldlM (round numThreads tid) Worker.start

/-- A run of `run_benchmark` with `n` threads: the rounds of every worker, the order in which the
workers add to `total_dequeue_sum`, and the values that the final loop takes out. -/
structure Run (n : Nat) where
  batches : Fin n → List Batch
  worker : Fin n → Worker
  ran : ∀ t : Fin n, Bench.worker (.ofNat n) (.ofNat t) (batches t) = some (worker t)
  order : List (Fin n)
  order_perm : order.Perm (List.finRange n)
  drained : List Value

namespace Run

variable {n : Nat}

/-- `total_dequeue_sum` after the final loop. -/
def totalDequeueSum (r : Run n) : UInt64 :=
  r.drained.foldl (fun s v => s + toUInt64 v)
    (r.order.foldl (fun s t => s + (r.worker t).dequeueSum) 0)

/-- `expected_sum`. -/
def expectedSum (r : Run n) : UInt64 :=
  (List.finRange n).foldl (fun s t =>
    (List.range (r.worker t).enqCount.toInt.toNat).foldl (fun s i =>
      s + (UInt64.ofNat i * UInt64.ofNat n + UInt64.ofNat t)) s) 0

/-- The check prints "passed". -/
def Passed (r : Run n) : Prop := r.totalDequeueSum = r.expectedSum

instance (r : Run n) : Decidable r.Passed := inferInstanceAs (Decidable (_ = _))

/-- The queue has lost, invented and repeated nothing. -/
def Fifo (r : Run n) : Prop :=
  ((List.finRange n).flatMap (fun t => (r.worker t).dequeued) ++ r.drained).Perm
    ((List.finRange n).flatMap fun t => (r.worker t).enqueued)

instance (r : Run n) : Decidable r.Fifo := inferInstanceAs (Decidable (List.Perm _ _))

/-- The number of calls of `enq` by thread `t` that return 1. -/
def enqueues (r : Run n) (t : Fin n) : Nat :=
  ((r.batches t).flatMap (·.enqs)).countP (·.success)

end Run

end ConcurrentQueues.Bench
