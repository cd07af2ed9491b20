import ConcurrentQueues.Bench.Model
import ConcurrentQueues.Reasoning.Words
import Mathlib.Algebra.BigOperators.Fin

/-!
# Bench — when the correctness check passes

The values are computed in `int`, the sum expected of them in `uint64_t`.  A value that wraps around
`k` times is too small by `k * 2 ^ 32`, so the check passes exactly if all values together wrap
around a multiple of `2 ^ 32` times.
-/

namespace ConcurrentQueues.Bench

open Reasoning

variable {n k : Nat} {tid : Nat} {w w' : Worker} {size i : Int32}

/-- The sum of a list of values as the check computes it. -/
def sumOf (vs : List Value) : ZMod (2 ^ 64) := (vs.map fun v => residue (toUInt64 v)).sum

@[simp] theorem sumOf_append (vs vs' : List Value) : sumOf (vs ++ vs') = sumOf vs + sumOf vs' := by
  simp [sumOf]

theorem sumOf_flatMap {α : Type*} (f : α → List Value) (xs : List α) :
    sumOf (xs.flatMap f) = (xs.map fun x => sumOf (f x)).sum := by
  induction xs with
  | nil => rfl
  | cons x xs ih => rw [List.flatMap_cons, sumOf_append, ih, List.map_cons, List.sum_cons]

theorem sumOf_perm {vs vs' : List Value} (h : vs.Perm vs') : sumOf vs = sumOf vs' :=
  (h.map _).sum_eq

/-- A worker after `k` successful calls of `enq`. -/
structure Counted (n tid k : Nat) (w : Worker) : Prop where
  enqCount : w.enqCount = .ofNat k
  enqueued : w.enqueued = (List.range k).map fun i => Int32.ofNat (i * n + tid)
  dequeueSum : residue w.dequeueSum = sumOf w.dequeued

theorem counted_start : Counted n tid 0 Worker.start where
  enqCount := rfl
  enqueued := rfl
  dequeueSum := by simp [Worker.start, sumOf]

theorem Counted.enq (h : Counted n tid k w) (r : EnqReply) :
    Counted n tid (if r.success then k + 1 else k) (w.enq (.ofNat n) (.ofNat tid) r) := by
  have hvalue : w.value (.ofNat n) (.ofNat tid) = Int32.ofNat (k * n + tid) := by
    rw [Worker.value, h.enqCount, Int32.ofNat_add, Int32.ofNat_mul]
  cases hr : r.success with
  | true =>
      refine ⟨?_, ?_, h.dequeueSum⟩
      · simp [Worker.enq, flag, hr, h.enqCount]
      · simp [Worker.enq, hr, hvalue, h.enqueued, List.range_succ]
  | false =>
      refine ⟨?_, ?_, h.dequeueSum⟩
      · simp [Worker.enq, flag, hr, h.enqCount]
      · simp [Worker.enq, hr, h.enqueued]

theorem Counted.deq (h : Counted n tid k w) (r : DeqReply) : Counted n tid k (w.deq r) where
  enqCount := h.enqCount
  enqueued := h.enqueued
  dequeueSum := by
    cases hr : r.value with
    | some v => simp [Worker.deq, hr, h.dequeueSum, sumOf]
    | none => simp [Worker.deq, hr, h.dequeueSum]

theorem Counted.enqBatch {rs : List EnqReply} (h : Counted n tid k w)
    (hrun : enqBatch (.ofNat n) (.ofNat tid) size i w rs = some w') :
    Counted n tid (k + rs.countP (·.success)) w' := by
  induction rs generalizing i w k with
  | nil =>
      obtain ⟨-, rfl⟩ : ¬ i < size ∧ w = w' := by simpa [Bench.enqBatch] using hrun
      exact h
  | cons r rs ih =>
      obtain ⟨-, hrun⟩ := Option.ite_none_right_eq_some.mp hrun
      have hrest := ih (h.enq r) hrun
      -- a failed call counts neither here nor in `k`
      cases hr : r.success <;> simp [hr, Nat.add_assoc, Nat.add_comm] at hrest ⊢ <;> exact hrest

theorem Counted.deqBatch {rs : List DeqReply} (h : Counted n tid k w)
    (hrun : deqBatch size i w rs = some w') : Counted n tid k w' := by
  induction rs generalizing i w with
  | nil =>
      obtain ⟨-, rfl⟩ : ¬ i < size ∧ w = w' := by simpa [Bench.deqBatch] using hrun
      exact h
  | cons r rs ih =>
      obtain ⟨-, hrun⟩ := Option.ite_none_right_eq_some.mp hrun
      exact ih (h.deq r) hrun

theorem Counted.round {b : Batch} (h : Counted n tid k w)
    (hrun : round (.ofNat n) (.ofNat tid) w b = some w') :
    Counted n tid (k + b.enqs.countP (·.success)) w' := by
  unfold Bench.round at hrun
  split at hrun
  next u hu => exact (h.enqBatch hu).deqBatch hrun
  next => cases hrun

theorem Counted.rounds {bs : List Batch} (h : Counted n tid k w)
    (hrun : bs.foldlM (Bench.round (.ofNat n) (.ofNat tid)) w = some w') :
    Counted n tid (k + (bs.flatMap (·.enqs)).countP (·.success)) w' := by
  induction bs generalizing w k with
  | nil =>
      obtain rfl : w = w' := by simpa using hrun
      exact h
  | cons b bs ih =>
      rw [List.foldlM_cons] at hrun
      obtain ⟨u, hu, hrest⟩ := Option.bind_eq_some_iff.mp hrun
      have hcounted := ih (h.round hu) hrest
      rwa [List.flatMap_cons, List.countP_append, ← Nat.add_assoc]

/-- How often the values of `count t` enqueues of each thread `t` wrap around. -/
def wraps (n : Nat) (count : Fin n → Nat) : Nat :=
  ∑ t : Fin n, ∑ i ∈ Finset.range (count t), wrapsOf (i * n + t)

namespace Run

variable {r : Run n}

theorem counted (r : Run n) (t : Fin n) : Counted n t (r.enqueues t) (r.worker t) := by
  have h := counted_start.rounds (r.ran t)
  rwa [Nat.zero_add] at h

theorem residue_totalDequeueSum (r : Run n) :
    residue r.totalDequeueSum =
      sumOf ((List.finRange n).flatMap (fun t => (r.worker t).dequeued) ++ r.drained) := by
  have hworkers : (r.order.map fun t => residue (r.worker t).dequeueSum).sum =
      sumOf ((List.finRange n).flatMap fun t => (r.worker t).dequeued) := by
    rw [(r.order_perm.map _).sum_eq, sumOf_flatMap]
    simp only [(r.counted _).dequeueSum]
  rw [totalDequeueSum, residue_foldl, residue_foldl, residue_zero, zero_add, hworkers, sumOf_append]
  rfl

/-- A value of the code is too small by `2 ^ 32` for each time it has wrapped around. -/
theorem sumOf_enqueued (r : Run n) :
    sumOf ((List.finRange n).flatMap fun t => (r.worker t).enqueued) =
      (∑ t : Fin n, ∑ i ∈ Finset.range (r.enqueues t), ((i * n + t : Nat) : ZMod (2 ^ 64))) -
        2 ^ 32 * (wraps n r.enqueues : ZMod (2 ^ 64)) := by
  -- one value, extended to 64 bits
  have hvalue : ∀ i : Nat, residue (toUInt64 (Int32.ofNat i)) =
      (i : ZMod (2 ^ 64)) - 2 ^ 32 * (wrapsOf i : ZMod (2 ^ 64)) := by
    intro i
    rw [toUInt64, residue_signExtend, toInt_ofNat_wraps]
    push_cast
    rfl
  have hthread : ∀ t : Fin n, sumOf (r.worker t).enqueued =
      ∑ i ∈ Finset.range (r.enqueues t),
        (((i * n + t : Nat) : ZMod (2 ^ 64)) - 2 ^ 32 * (wrapsOf (i * n + t) : ZMod (2 ^ 64))) := by
    intro t
    rw [(r.counted t).enqueued, sumOf, List.map_map]
    simp only [Function.comp_def, hvalue]
    rfl
  rw [sumOf_flatMap, ← Fin.sum_univ_def]
  simp only [hthread, Finset.sum_sub_distrib, ← Finset.mul_sum]
  simp [wraps]

theorem residue_expectedSum (hcount : ∀ t, r.enqueues t < 2 ^ 31) :
    residue r.expectedSum =
      ∑ t : Fin n, ∑ i ∈ Finset.range (r.enqueues t), ((i * n + t : Nat) : ZMod (2 ^ 64)) := by
  -- below `2 ^ 31` calls `enq_count` is the number of successful calls
  have hbound : ∀ t, (r.worker t).enqCount.toInt.toNat = r.enqueues t := by
    intro t
    rw [(r.counted t).enqCount, Int32.toInt_ofNat_of_lt (hcount t), Int.toNat_natCast]
  have hfold : ∀ (ts : List (Fin n)) (s : UInt64),
      residue (ts.foldl (fun s t => (List.range (r.enqueues t)).foldl (fun s i =>
        s + (UInt64.ofNat i * UInt64.ofNat n + UInt64.ofNat t)) s) s) =
      residue s + (ts.map fun t => ∑ i ∈ Finset.range (r.enqueues t),
        ((i * n + t : Nat) : ZMod (2 ^ 64))).sum := by
    intro ts
    induction ts with
    | nil => simp
    | cons t ts ih =>
        intro s
        rw [List.foldl_cons, ih, residue_foldl, List.map_cons, List.sum_cons, add_assoc]
        congr 2
        simp only [residue_add, residue_mul, residue_ofNat, Nat.cast_add, Nat.cast_mul]
        rfl
  simp only [expectedSum, hbound]
  rw [hfold, residue_zero, zero_add, Fin.sum_univ_def]

/-- The sums of the code differ by `2 ^ 32` for every wrap. -/
theorem residue_sums (hfifo : r.Fifo) (hcount : ∀ t, r.enqueues t < 2 ^ 31) :
    residue r.totalDequeueSum =
      residue r.expectedSum - 2 ^ 32 * (wraps n r.enqueues : ZMod (2 ^ 64)) := by
  rw [residue_totalDequeueSum, sumOf_perm hfifo, sumOf_enqueued, residue_expectedSum hcount]

/-- No value wraps when every value fits into an `int`. -/
theorem wraps_eq_zero (hfits : ∀ t : Fin n, ∀ i < r.enqueues t, i * n + t < 2 ^ 31) :
    wraps n r.enqueues = 0 := by
  refine Finset.sum_eq_zero fun t _ => Finset.sum_eq_zero fun i hi => ?_
  have hlt := hfits t i (Finset.mem_range.mp hi)
  exact Nat.div_eq_of_lt (by omega)

/-- The check raises no alarm when every value fits into an `int`. -/
theorem passed_of_fits (hfifo : r.Fifo) (hcount : ∀ t, r.enqueues t < 2 ^ 31)
    (hfits : ∀ t : Fin n, ∀ i < r.enqueues t, i * n + t < 2 ^ 31) : r.Passed := by
  have hsums := residue_sums hfifo hcount
  rw [wraps_eq_zero hfits, Nat.cast_zero, mul_zero, sub_zero] at hsums
  exact residue_injective hsums

end Run

/-- **The correctness check.**  When the queue has lost, invented and repeated nothing, the check
passes if and only if the number of wraps of all enqueued values is a multiple of `2 ^ 32`. -/
theorem check_passes_iff (r : Run n) (hfifo : r.Fifo) (hcount : ∀ t, r.enqueues t < 2 ^ 31) :
    r.Passed ↔ 2 ^ 32 ∣ wraps n r.enqueues := by
  rw [Run.Passed, ← residue_injective.eq_iff, Run.residue_sums hfifo hcount, sub_eq_self]
  have hcast : (2 ^ 32 * (wraps n r.enqueues : ZMod (2 ^ 64))) =
      ((2 ^ 32 * wraps n r.enqueues : Nat) : ZMod (2 ^ 64)) := by
    push_cast
    rfl
  rw [hcast, ZMod.natCast_eq_zero_iff, show 2 ^ 64 = 2 ^ 32 * 2 ^ 32 by rfl]
  exact Nat.mul_dvd_mul_iff_left (by decide)

/-- A call of `enq` that succeeds at once. -/
def success : EnqReply := ⟨true, 0, 0, 0⟩

/-- Thread 0 enqueues 0 and 2 and dequeues 0, thread 1 enqueues 1 at its second attempt. -/
def smallRun : Run 2 where
  batches := ![[⟨2, 1, [success, success], [⟨some 0, 0, 1, 1⟩]⟩],
    [⟨1, 0, [⟨false, 0, 0, 0⟩, success], []⟩]]
  worker := ![⟨2, 1, 0, 0, 0, 0, 1, 1, 0, [0, 2], [0]⟩, ⟨1, 0, 1, 0, 0, 0, 0, 0, 0, [1], []⟩]
  ran := by
    intro t
    match t with
    | 0 => rfl
    | 1 => rfl
  order := (List.finRange 2).reverse
  order_perm := List.reverse_perm _
  drained := [2, 1]

theorem check_passes_iff_smallRun : smallRun.Passed :=
  (check_passes_iff smallRun (by decide) (by decide)).mpr (by decide)

/-! ## A false alarm -/

/-- A batch of `k` successful calls runs to its end. -/
theorem enqBatch_replicate (numThreads tid : Int32) {j k : Nat} (h : j + k < 2 ^ 31) (w : Worker) :
    ∃ w', enqBatch numThreads tid (.ofNat (j + k)) (.ofNat j) w (List.replicate k success) =
      some w' ∧ w'.dequeued = w.dequeued := by
  induction k generalizing j w with
  | zero => exact ⟨w, by simp [enqBatch], rfl⟩
  | succ k ih =>
      have hlt : Int32.ofNat j < Int32.ofNat (j + (k + 1)) :=
        (Int32.ofNat_lt_iff_lt (by omega) h).mpr (by omega)
      obtain ⟨w', hrun, hdeq⟩ := ih (j := j + 1) (by omega) (w.enq numThreads tid success)
      refine ⟨w', ?_, hdeq⟩
      rw [List.replicate_succ, enqBatch, if_pos hlt, show j + (k + 1) = j + 1 + k by omega,
        show Int32.ofNat j + flag success.success = Int32.ofNat (j + 1) by simp [flag, success]]
      exact hrun

/-- Every thread may enqueue any number of values that are all left to the final loop. -/
theorem exists_run (count : Fin n → Nat) (hcount : ∀ t, count t < 2 ^ 31) :
    ∃ r : Run n, r.enqueues = count ∧ r.Fifo := by
  have hworker : ∀ t : Fin n, ∃ w, worker (.ofNat n) (.ofNat t)
      [⟨.ofNat (count t), 0, List.replicate (count t) success, []⟩] = some w ∧
      w.dequeued = [] := by
    intro t
    obtain ⟨w, hrun, hdeq⟩ := enqBatch_replicate (.ofNat n) (.ofNat t) (j := 0) (k := count t)
      (by have := hcount t; omega) Worker.start
    rw [Nat.zero_add, show Int32.ofNat 0 = 0 from rfl] at hrun
    refine ⟨w, ?_, hdeq⟩
    simp [worker, round, hrun, deqBatch]
  choose ws hrun hdeq using hworker
  refine ⟨⟨_, ws, hrun, List.finRange n, List.Perm.refl _,
    (List.finRange n).flatMap fun t => (ws t).enqueued⟩, ?_, ?_⟩
  · funext t
    simp [Run.enqueues, success, List.countP_replicate]
  · have hnil : ((List.finRange n).flatMap fun _ => ([] : List Value)) = [] :=
      List.flatMap_eq_nil_iff.mpr fun _ _ => rfl
    simp [Run.Fifo, hdeq, hnil]

/-- The check fails when a single value, the last of thread 0, wraps around once. -/
theorem exists_false_alarm [NeZero n] {k : Nat} (hk : k + 1 < 2 ^ 31)
    (hfit : ∀ i < k, i * n < 2 ^ 31) (hwrap : wrapsOf (k * n) = 1) :
    ∃ r : Run n, (∀ t, r.enqueues t = if t = 0 then k + 1 else 0) ∧ r.Fifo ∧ ¬ r.Passed := by
  have hlt : ∀ t : Fin n, (if t = 0 then k + 1 else 0) < 2 ^ 31 := by
    intro t
    split
    · exact hk
    · decide
  -- thread 0 enqueues everything, and the final loop takes it out
  obtain ⟨r, hr, hfifo⟩ := exists_run (fun t : Fin n => if t = 0 then k + 1 else 0) hlt
  refine ⟨r, congrFun hr, hfifo, fun hpassed => ?_⟩
  -- all summands are 0 but the last one of thread 0
  have hwraps : wraps n r.enqueues = 1 := by
    rw [wraps, hr, Finset.sum_eq_single (0 : Fin n)]
    · simp only [if_true]
      rw [Finset.sum_range_succ, Finset.sum_eq_zero]
      · simpa using hwrap
      · intro i hi
        have hi' := hfit i (Finset.mem_range.mp hi)
        exact Nat.div_eq_of_lt (by simp only [Fin.val_zero]; omega)
    · intro t _ ht
      simp [ht]
    · simp
  have hsums := Run.residue_sums hfifo (fun t => by rw [hr]; exact hlt t)
  rw [hwraps, congrArg residue hpassed, eq_comm, sub_eq_self, Nat.cast_one, mul_one] at hsums
  -- if the sums agreed, `2 ^ 32` would be 0 modulo `2 ^ 64`
  have hzero : ((2 ^ 32 : Nat) : ZMod (2 ^ 64)) = 0 := by
    rw [Nat.cast_pow]
    exact hsums
  exact absurd ((ZMod.natCast_eq_zero_iff _ _).mp hzero) (by decide)

/-- With 64 threads, the value `33554432 * 64 + 0` of thread 0 wraps around. -/
theorem check_false_alarm :
    ∃ r : Run 64, (∀ t, r.enqueues t = if t = 0 then 33554433 else 0) ∧ r.Fifo ∧ ¬ r.Passed :=
  exists_false_alarm (k := 33554432) (by decide) (fun i hi => by omega) (by decide)

end ConcurrentQueues.Bench
