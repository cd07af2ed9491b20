import Mathlib.Data.ZMod.Basic
import Mathlib.Algebra.BigOperators.Group.List.Basic

/-! Machine words as residues: sums of 64-bit words, and 32-bit words before and after they wrap. -/

namespace ConcurrentQueues.Reasoning

/-- A 64-bit word as a residue modulo `2 ^ 64`. -/
def residue (x : UInt64) : ZMod (2 ^ 64) := (x.toNat : ZMod (2 ^ 64))

theorem residue_injective : Function.Injective residue := by
  intro x y h
  have hmod := (ZMod.natCast_eq_natCast_iff' _ _ _).mp h
  rw [Nat.mod_eq_of_lt x.toNat_lt, Nat.mod_eq_of_lt y.toNat_lt] at hmod
  exact UInt64.toNat_inj.mp hmod

@[simp] theorem residue_zero : residue 0 = 0 := by simp [residue]

@[simp] theorem residue_add (x y : UInt64) : residue (x + y) = residue x + residue y := by
  rw [residue, UInt64.toNat_add, ZMod.natCast_mod, Nat.cast_add]
  rfl

@[simp] theorem residue_mul (x y : UInt64) : residue (x * y) = residue x * residue y := by
  rw [residue, UInt64.toNat_mul, ZMod.natCast_mod, Nat.cast_mul]
  rfl

@[simp] theorem residue_ofNat (k : Nat) : residue (UInt64.ofNat k) = k := by
  rw [residue, UInt64.toNat_ofNat', ZMod.natCast_mod]

/-- Sign extension keeps the value. -/
theorem residue_signExtend (v : Int32) :
    residue v.toInt64.toUInt64 = (v.toInt : ZMod (2 ^ 64)) := by
  have hbmod : v.toInt = (v.toInt64.toUInt64.toNat : Int).bmod (2 ^ 64) := by
    rw [← Int32.toInt_toInt64 v, ← Int64.toInt_toBitVec, BitVec.toInt_eq_toNat_bmod,
      Int64.toNat_toBitVec]
  rw [residue, hbmod, ← Int.cast_natCast, ZMod.intCast_eq_intCast_iff_dvd_sub]
  exact Int.dvd_bmod_sub_self

theorem residue_foldl {α : Type*} (f : α → UInt64) (xs : List α) (s : UInt64) :
    residue (xs.foldl (fun s x => s + f x) s) =
      residue s + (xs.map fun x => residue (f x)).sum := by
  induction xs generalizing s with
  | nil => simp
  | cons x xs ih => simp [ih, add_assoc]

/-- How often `k` wraps around when it is stored in 32 signed bits. -/
def wrapsOf (k : Nat) : Nat := (k + 2 ^ 31) / 2 ^ 32

theorem toInt_ofNat_wraps (k : Nat) : (Int32.ofNat k).toInt = k - 2 ^ 32 * wrapsOf k := by
  rw [Int32.toInt_ofNat', Int.bmod_eq_emod, Int32.size, wrapsOf]
  split <;> omega

end ConcurrentQueues.Reasoning
