import ConcurrentQueues.Store
import Mathlib.Tactic.Linarith

/-!
# Spec — batch sizes

A batch size is fixed or drawn anew for each batch from an inclusive range.  `int` and
`unsigned int` are 32 bits wide; `hi - lo + 1` may reach `2 ^ 31`.
-/

namespace ConcurrentQueues.Bench

/-- `batch_spec_kind_t`. -/
inductive BatchSpecKind where
  | fixed
  | range
  deriving DecidableEq, Repr

/-- `batch_spec_t`. -/
@[ext] structure BatchSpec where
  kind : BatchSpecKind
  min : Int32
  max : Int32
  deriving DecidableEq, Repr

namespace BatchSpec

/-- The sizes are not negative, and the range is not empty. -/
structure Valid (spec : BatchSpec) : Prop where
  nonneg : 0 ≤ spec.min.toInt
  le : spec.min.toInt ≤ spec.max.toInt

/-- `batch_spec_sample`; `r` is the result of `rand_r`. -/
def sample (spec : BatchSpec) (r : UInt32) : Int32 :=
  match spec.kind with
  | .fixed => spec.min
  | .range =>
      let lo := spec.min
      let hi := spec.max
      if lo = hi then lo
      else
        let span := (hi - lo + 1).toUInt32
        lo + (r % span).toInt32

theorem toInt_eq_bmod (x : Int32) : x.toInt = (x.toUInt32.toNat : Int).bmod (2 ^ 32) := by
  rw [← Int32.toInt_toBitVec, BitVec.toInt_eq_toNat_bmod]
  rfl

theorem toInt_toInt32 (x : UInt32) : x.toInt32.toInt = (x.toNat : Int).bmod (2 ^ 32) :=
  toInt_eq_bmod x.toInt32

/-- Reading a word as signed moves it by a multiple of `2 ^ 32`. -/
theorem exists_bmod (x : Int) : ∃ k, x.bmod (2 ^ 32) = x + 4294967296 * k ∧
    -2147483648 ≤ x.bmod (2 ^ 32) ∧ x.bmod (2 ^ 32) < 2147483648 := by
  have hle := Int.le_bmod (x := x) (show 0 < 2 ^ 32 by decide)
  have hlt := Int.bmod_lt (x := x) (show 0 < 2 ^ 32 by decide)
  refine ⟨-(Int.bdiv x (2 ^ 32)), ?_, by simpa using hle, by simpa using hlt⟩
  have hdiv : 4294967296 * x.bdiv (2 ^ 32) + x.bmod (2 ^ 32) = x :=
    Int.bdiv_add_bmod x (2 ^ 32)
  omega

/-- The number of sizes in a range, also when `hi - lo + 1` wraps around. -/
theorem toNat_span {lo hi : Int32} (hlo : 0 ≤ lo.toInt) (hlt : lo.toInt < hi.toInt) :
    ((hi - lo + 1).toUInt32.toNat : Int) = hi.toInt - lo.toInt + 1 := by
  have hbits := toInt_eq_bmod (hi - lo + 1)
  rw [Int32.toInt_add, Int32.toInt_sub, Int32.toInt_one] at hbits
  have hmax : hi.toInt < 2147483648 := hi.toInt_lt
  have hrange : (hi - lo + 1).toUInt32.toNat < 4294967296 := (hi - lo + 1).toUInt32.toNat_lt
  obtain ⟨i, hi', -⟩ := exists_bmod (hi.toInt - lo.toInt)
  obtain ⟨j, hj, -⟩ := exists_bmod ((hi.toInt - lo.toInt).bmod (2 ^ 32) + 1)
  obtain ⟨k, hk, -⟩ := exists_bmod ((hi - lo + 1).toUInt32.toNat : Int)
  omega

/-- The sample of a range that is not empty. -/
theorem toInt_sample {spec : BatchSpec} (h : spec.Valid) (hkind : spec.kind = .range) (r : UInt32) :
    (spec.sample r).toInt =
      spec.min.toInt + (r.toNat % (spec.max.toInt - spec.min.toInt + 1).toNat : Nat) := by
  have hle := h.le
  have hnonneg := h.nonneg
  have hmax : spec.max.toInt < 2147483648 := spec.max.toInt_lt
  simp only [sample, hkind]
  split
  next heq =>
    rw [heq, Int.sub_self, Int.zero_add, Int.toNat_one, Nat.mod_one, Int.natCast_zero, Int.add_zero]
  next hne =>
    have hlt : spec.min.toInt < spec.max.toInt :=
      lt_of_le_of_ne hle fun he => hne (Int32.toInt_inj.mp he)
    have hspan := toNat_span hnonneg hlt
    generalize (spec.max - spec.min + 1).toUInt32 = span at hspan
    have hnat : (spec.max.toInt - spec.min.toInt + 1).toNat = span.toNat := by omega
    have hmod : r.toNat % span.toNat < span.toNat := Nat.mod_lt _ (by omega)
    rw [hnat, Int32.toInt_add, toInt_toInt32, UInt32.toNat_mod]
    -- nothing wraps around: the offset is below the number of sizes
    obtain ⟨i, hi, hi'⟩ := exists_bmod ((r.toNat % span.toNat : Nat) : Int)
    obtain ⟨j, hj, hj'⟩ :=
      exists_bmod (spec.min.toInt + ((r.toNat % span.toNat : Nat) : Int).bmod (2 ^ 32))
    omega

/-- A sample is a size of the range. -/
theorem sample_mem {spec : BatchSpec} (h : spec.Valid) (r : UInt32) :
    spec.min.toInt ≤ (spec.sample r).toInt ∧ (spec.sample r).toInt ≤ spec.max.toInt := by
  have hle := h.le
  cases hkind : spec.kind with
  | fixed =>
      have hsample : spec.sample r = spec.min := by simp only [sample, hkind]
      rw [hsample]
      exact ⟨le_rfl, hle⟩
  | range =>
      have hmod : r.toNat % (spec.max.toInt - spec.min.toInt + 1).toNat <
          (spec.max.toInt - spec.min.toInt + 1).toNat := Nat.mod_lt _ (by omega)
      rw [toInt_sample h hkind]
      constructor <;> omega

theorem sample_nonneg {spec : BatchSpec} (h : spec.Valid) (r : UInt32) :
    0 ≤ (spec.sample r).toInt := h.nonneg.trans (sample_mem h r).1

end BatchSpec

end ConcurrentQueues.Bench
