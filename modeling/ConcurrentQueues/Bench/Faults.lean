import ConcurrentQueues.Bench.Check
import Mathlib.Algebra.BigOperators.Intervals
import Mathlib.Tactic.Ring

/-!
# Bench — which single faults the correctness check detects

An element that is lost or returned once too often moves the sum by its value.  The values of the
threads start at 0, so the first element of thread 0 does not move it.
-/

namespace ConcurrentQueues.Bench

open Reasoning

variable {n : Nat} {r : Run n} {x : Value} {vs vs' : List Value}

namespace Run

/-- The values of all successful calls of `enq`. -/
def allEnqueued (r : Run n) : List Value := (List.finRange n).flatMap fun t => (r.worker t).enqueued

/-- The values that the workers and the final loop have taken out. -/
def allDequeued (r : Run n) : List Value :=
  (List.finRange n).flatMap (fun t => (r.worker t).dequeued) ++ r.drained

end Run

/-- One enqueued element is missing, or has been returned once too often. -/
inductive SingleFault (r : Run n) (x : Value) : Prop
  | missing (h : r.allEnqueued.Perm (x :: r.allDequeued))
  | repeated (hx : x ∈ r.allEnqueued) (h : r.allDequeued.Perm (x :: r.allEnqueued))

/-- No enqueued value overflows `value_t`. -/
def Run.ValuesFit (r : Run n) : Prop := ∀ t : Fin n, ∀ i < r.enqueues t, i * n + t < 2 ^ 31

instance (r : Run n) : Decidable r.ValuesFit :=
  inferInstanceAs (Decidable (∀ t : Fin n, ∀ i < r.enqueues t, i * n + t < 2 ^ 31))

theorem sumOf_cons (x : Value) (vs : List Value) :
    sumOf (x :: vs) = (x.toInt : ZMod (2 ^ 64)) + sumOf vs := by
  rw [sumOf, List.map_cons, List.sum_cons, toUInt64, residue_signExtend, sumOf]

/-- The fault moves the sum by the value of the element. -/
theorem SingleFault.sum (h : SingleFault r x) :
    ∃ z : Int, (z = x.toInt ∨ z = -x.toInt) ∧
      sumOf r.allDequeued = sumOf r.allEnqueued + (z : ZMod (2 ^ 64)) := by
  cases h with
  | missing h =>
      refine ⟨-x.toInt, .inr rfl, ?_⟩
      rw [sumOf_perm h, sumOf_cons]
      push_cast
      ring
  | repeated hx h =>
      refine ⟨x.toInt, .inl rfl, ?_⟩
      rw [sumOf_perm h, sumOf_cons, add_comm]

/-- A small number is a multiple of `2 ^ 64` only if it is 0. -/
theorem intCast_eq_zero {z : Int} (hlow : -2 ^ 64 < z) (hhigh : z < 2 ^ 64) :
    (z : ZMod (2 ^ 64)) = 0 ↔ z = 0 := by
  rw [ZMod.intCast_zmod_eq_zero_iff_dvd]
  constructor
  · exact fun hdvd => Int.eq_zero_of_abs_lt_dvd hdvd (abs_lt.mpr ⟨by omega, by omega⟩)
  · rintro rfl
    exact dvd_zero _

namespace Run

theorem sumOf_allEnqueued (hfit : r.ValuesFit) :
    sumOf r.allEnqueued =
      ∑ t : Fin n, ∑ i ∈ Finset.range (r.enqueues t), ((i * n + t : Nat) : ZMod (2 ^ 64)) := by
  have hsum := r.sumOf_enqueued
  rwa [wraps_eq_zero hfit, Nat.cast_zero, mul_zero, sub_zero] at hsum

/-- Where the counters do not overflow, the sums differ by the value of the element. -/
theorem passed_iff_of_counts (hfit : r.ValuesFit) (hfault : SingleFault r x)
    (hcount : ∀ t, r.enqueues t < 2 ^ 31) : r.Passed ↔ x = 0 := by
  obtain ⟨z, hz, hsum⟩ := hfault.sum
  have hlow : -2147483648 ≤ x.toInt := x.le_toInt
  have hhigh : x.toInt < 2147483648 := x.toInt_lt
  have htotal : residue r.totalDequeueSum = residue r.expectedSum + (z : ZMod (2 ^ 64)) := by
    rw [residue_totalDequeueSum, residue_expectedSum hcount, ← sumOf_allEnqueued hfit]
    exact hsum
  rw [Passed, ← residue_injective.eq_iff, htotal, add_eq_left,
    intCast_eq_zero (by omega) (by omega), ← Int32.toInt_inj, Int32.toInt_zero]
  omega

/-- Only a single thread can overflow its counter and not the values. -/
theorem eq_one_of_count (hfit : r.ValuesFit) {t : Fin n} (ht : 2 ^ 31 ≤ r.enqueues t) :
    n = 1 ∧ r.enqueues t = 2 ^ 31 := by
  have hlast := hfit t (2 ^ 31 - 1) (by omega)
  have hone : n = 1 := by
    have hpos := t.isLt
    by_contra hne
    have hle : (2 ^ 31 - 1) * 2 ≤ (2 ^ 31 - 1) * n := Nat.mul_le_mul_left _ (by omega)
    omega
  refine ⟨hone, Nat.le_antisymm (Nat.not_lt.mp fun hlt => ?_) ht⟩
  have hover := hfit t (2 ^ 31) hlt
  omega

/-- Behind `2 ^ 31` enqueues of a single thread `expected_sum` is 0, and the values add up to less
than `2 ^ 64`. -/
theorem not_passed_of_count (hfit : r.ValuesFit) (hfault : SingleFault r x) {t : Fin n}
    (ht : 2 ^ 31 ≤ r.enqueues t) : ¬ r.Passed := by
  obtain ⟨rfl, hcount⟩ := eq_one_of_count hfit ht
  obtain rfl : t = 0 := Subsingleton.elim t 0
  obtain ⟨z, hz, hsum⟩ := hfault.sum
  have hlow : -2147483648 ≤ x.toInt := x.le_toInt
  have hhigh : x.toInt < 2147483648 := x.toInt_lt
  have hexpected : r.expectedSum = 0 := by
    have hneg : (r.worker 0).enqCount.toInt.toNat = 0 := by
      rw [(r.counted 0).enqCount, hcount]
      rfl
    have hfin : List.finRange 1 = [0] := rfl
    rw [expectedSum, hfin, List.foldl_cons, List.foldl_nil, hneg]
    rfl
  have hvalues : sumOf r.allEnqueued = ((2305843008139952128 : Int) : ZMod (2 ^ 64)) := by
    rw [sumOf_allEnqueued hfit, Fin.sum_univ_one, hcount]
    simp only [Fin.val_zero, Nat.mul_one, Nat.add_zero]
    rw [← Nat.cast_sum, Finset.sum_range_id]
    rfl
  intro hpassed
  have htotal : residue r.totalDequeueSum =
      ((2305843008139952128 + z : Int) : ZMod (2 ^ 64)) := by
    rw [residue_totalDequeueSum, Int.cast_add, ← hvalues]
    exact hsum
  rw [hpassed, hexpected, residue_zero] at htotal
  have hzero := (intCast_eq_zero (by omega) (by omega)).mp htotal.symm
  omega

end Run

/-- **Single faults.**  When every enqueued value fits into `value_t` and one element is lost or
returned once too often, the check fails exactly if the element is not 0, the first one of thread 0.
(A single thread with `2 ^ 31` enqueues overflows its counter, and then the check always fails.) -/
theorem check_detects_iff (hfit : r.ValuesFit) (hfault : SingleFault r x) :
    ¬ r.Passed ↔ x ≠ 0 ∨ ∃ t, 2 ^ 31 ≤ r.enqueues t := by
  by_cases hcount : ∃ t, 2 ^ 31 ≤ r.enqueues t
  · obtain ⟨t, ht⟩ := hcount
    exact iff_of_true (Run.not_passed_of_count hfit hfault ht) (.inr ⟨t, ht⟩)
  · have hsmall : ∀ t, r.enqueues t < 2 ^ 31 := fun t => Nat.not_le.mp fun ht => hcount ⟨t, ht⟩
    rw [Run.passed_iff_of_counts hfit hfault hsmall]
    exact (or_iff_left hcount).symm

/-- One thread enqueues 0 and 1, and its queue loses all but `vs`. -/
def lossyRun (drained : List Value) : Run 1 where
  batches := ![[⟨2, 0, [success, success], []⟩]]
  worker := ![⟨2, 0, 0, 0, 0, 0, 0, 0, 0, [0, 1], []⟩]
  ran := by
    intro t
    match t with
    | 0 => rfl
  order := [0]
  order_perm := List.Perm.refl _
  drained := drained

/-- The loss of 1 is detected. -/
theorem check_detects_iff_lossyRun : ¬ (lossyRun [0]).Passed :=
  (check_detects_iff (r := lossyRun [0]) (x := 1) (by decide)
    (.missing (by decide))).mpr (.inl (by decide))

/-- The loss of 0 is not. -/
theorem check_misses_zero :
    (lossyRun [1]).ValuesFit ∧ SingleFault (lossyRun [1]) 0 ∧ (lossyRun [1]).Passed :=
  ⟨by decide, .missing (by decide), by decide⟩

end ConcurrentQueues.Bench
