import ConcurrentQueues.Bench.Language
import Mathlib.Data.Int.CardIntervalMod

/-!
# Sampling — `batch_spec_sample` on what the parser returns

C leaves `int` overflow and a remainder by zero undefined, so the function is evaluated here with
both as errors.  With `hi - lo + 1` taken modulo `2 ^ 32` it is `BatchSpec.sample`, which hits the
sizes of a range equally often, up to one hit.
-/

namespace ConcurrentQueues.Bench

open Reasoning

variable {spec : BatchSpec} {r : UInt32} {v w : Int32} {z : Int}

/-- Why an expression has no defined value. -/
inductive Undefined where
  | overflow
  | remainderByZero
  deriving DecidableEq, Repr

/-- The result of an `int` operation whose exact value is `z`. -/
def int (z : Int) : Except Undefined Int32 :=
  if -2147483648 ≤ z ∧ z ≤ 2147483647 then .ok (Int32.ofInt z) else .error .overflow

/-- `x % y` for `unsigned int`. -/
def remainder (x y : UInt32) : Except Undefined UInt32 :=
  if y = 0 then .error .remainderByZero else .ok (x % y)

/-- The draw from a range of more than one size; `r` is the result of `rand_r`. -/
def draw (lo hi : Int32) (r : UInt32) : Except Undefined Int32 := do
  let width ← int (hi.toInt - lo.toInt)
  let sum ← int (width.toInt + 1)
  let offset ← remainder r sum.toUInt32
  int (lo.toInt + offset.toInt32.toInt)

/-- `batch_spec_sample`; a `NULL` spec is `none`. -/
def batchSpecSample (spec : Option BatchSpec) (r : UInt32) : Except Undefined Int32 :=
  match spec with
  | none => .ok 0
  | some spec =>
      match spec.kind with
      | .fixed => .ok spec.min
      | .range => if spec.min = spec.max then .ok spec.min else draw spec.min spec.max r

/-- The sample is defined and a size of the spec. -/
def SampledSafely (spec : BatchSpec) (r : UInt32) : Prop :=
  ∃ v, batchSpecSample (some spec) r = .ok v ∧ spec.min ≤ v ∧ v ≤ spec.max

theorem int_ok (hlow : -2147483648 ≤ z) (hhigh : z ≤ 2147483647) :
    int z = .ok (Int32.ofInt z) ∧ (Int32.ofInt z).toInt = z :=
  ⟨if_pos ⟨hlow, hhigh⟩, Int32.toInt_ofInt_of_le (by omega) (by omega)⟩

/-! ## One sample -/

theorem remainder_ok {x y : UInt32} (h : 0 < y.toNat) : remainder x y = .ok (x % y) := by
  refine if_neg fun hy => ?_
  rw [hy] at h
  exact absurd h (by decide)

theorem toInt_toInt32_of_lt {x : UInt32} (h : x.toNat < 2147483648) :
    x.toInt32.toInt = x.toNat := by
  rw [BatchSpec.toInt_toInt32]
  obtain ⟨k, hk, hk'⟩ := BatchSpec.exists_bmod (x.toNat : Int)
  omega

/-- The whole range of sizes. -/
def Full (spec : BatchSpec) : Prop :=
  spec.kind = .range ∧ spec.min = 0 ∧ spec.max = 2147483647

instance (spec : BatchSpec) : Decidable (Full spec) := inferInstanceAs (Decidable (_ ∧ _))

theorem draw_eq {lo hi : Int32} (hlo : 0 ≤ lo.toInt) (hlt : lo.toInt < hi.toInt)
    (hshort : hi.toInt - lo.toInt < 2147483647) (r : UInt32) :
    draw lo hi r = .ok (lo + (r % (hi - lo + 1).toUInt32).toInt32) := by
  have hmax : hi.toInt < 2147483648 := hi.toInt_lt
  have hspan := BatchSpec.toNat_span hlo hlt
  obtain ⟨hwidth, hwidth'⟩ := int_ok (z := hi.toInt - lo.toInt) (by omega) (by omega)
  obtain ⟨hsum, -⟩ := int_ok (z := hi.toInt - lo.toInt + 1) (by omega) (by omega)
  have hword : (Int32.ofInt (hi.toInt - lo.toInt + 1)).toUInt32 = (hi - lo + 1).toUInt32 := by
    rw [Int32.ofInt_add, Int32.ofInt_sub, Int32.ofInt_toInt, Int32.ofInt_toInt]
    rfl
  generalize (hi - lo + 1).toUInt32 = span at hspan hword ⊢
  have hpos : 0 < span.toNat := by omega
  have hmod : (r % span).toNat < span.toNat := by
    rw [UInt32.toNat_mod]
    exact Nat.mod_lt _ hpos
  have hoffset : (r % span).toInt32.toInt = (r % span).toNat := toInt_toInt32_of_lt (by omega)
  obtain ⟨hsample, -⟩ := int_ok (z := lo.toInt + (r % span).toInt32.toInt) (by omega) (by omega)
  rw [Int32.ofInt_add, Int32.ofInt_toInt, Int32.ofInt_toInt] at hsample
  simp only [draw, hwidth, bind, Except.bind, hwidth', hsum, hword, remainder_ok hpos, hsample]

/-- Short of the whole range nothing overflows, and the sample is the one of `sample`. -/
theorem batchSpecSample_eq (h : spec.Valid) (hfull : ¬ Full spec) (r : UInt32) :
    batchSpecSample (some spec) r = .ok (spec.sample r) := by
  have hnonneg := h.nonneg
  have hmax : spec.max.toInt < 2147483648 := spec.max.toInt_lt
  cases hkind : spec.kind with
  | fixed => simp only [batchSpecSample, BatchSpec.sample, hkind]
  | range =>
      simp only [batchSpecSample, BatchSpec.sample, hkind]
      by_cases heq : spec.min = spec.max
      · rw [if_pos heq, if_pos heq]
      rw [if_neg heq, if_neg heq]
      have hlt : spec.min.toInt < spec.max.toInt :=
        lt_of_le_of_ne h.le fun he => heq (Int32.toInt_inj.mp he)
      refine draw_eq hnonneg hlt ?_ r
      by_contra hge
      refine hfull ⟨hkind, Int32.toInt_inj.mp ?_, Int32.toInt_inj.mp ?_⟩
      · exact (show spec.min.toInt = 0 by omega)
      · exact (show spec.max.toInt = 2147483647 by omega)

/-- For the whole range `hi - lo + 1` overflows. -/
theorem batchSpecSample_full (hfull : Full spec) (r : UInt32) :
    batchSpecSample (some spec) r = .error .overflow := by
  obtain ⟨hkind, hmin, hmax⟩ := hfull
  simp only [batchSpecSample, hkind, hmin, hmax]
  rfl

theorem sampledSafely_iff (h : spec.Valid) (r : UInt32) :
    SampledSafely spec r ↔ ¬ Full spec := by
  constructor
  · rintro ⟨v, hv, -⟩ hfull
    rw [batchSpecSample_full hfull] at hv
    cases hv
  · intro hfull
    have hmem := BatchSpec.sample_mem h r
    exact ⟨_, batchSpecSample_eq h hfull r, Int32.le_iff_toInt_le.mpr hmem.1,
      Int32.le_iff_toInt_le.mpr hmem.2⟩

/-- **Samples of parsed batch sizes.**  For every pattern the parser accepts, every spec it yields and
every result of `rand_r`, the sample is defined and a size of the spec, unless the spec is the whole
range `(0,2147483647)`. -/
theorem parsed_sampledSafely_iff {str : Text} {numThreads : Int32} {fuel : Nat}
    {specs : List BatchSpec} (h0 : 0 ∉ str) (hfuel : str.length ≤ fuel)
    (hok : parseBatchSizePattern fuel (some (str ++ [0])) numThreads = .ok specs) :
    ∀ spec ∈ specs, ∀ r : UInt32, r.toNat < 2 ^ 31 → (SampledSafely spec r ↔ ¬ Full spec) := by
  have hn : 0 < numThreads := by
    by_contra hn
    simp only [parseBatchSizePattern, if_pos (Int32.not_lt.mp hn)] at hok
    cases hok
  exact fun spec hmem r _ => sampledSafely_iff (parsePattern_valid h0 hn hfuel hok spec hmem) r

/-- `(0,2)` for one thread. -/
theorem parsed_sampledSafely_iff_small :
    SampledSafely ⟨.range, 0, 2⟩ 7 ↔ ¬ Full ⟨.range, 0, 2⟩ := by
  have hok : parseBatchSizePattern 5 (some ([40, 48, 44, 50, 41] ++ [0])) 1 =
      .ok [⟨.range, 0, 2⟩] := rfl
  exact parsed_sampledSafely_iff (by decide) (by decide) hok _ List.mem_cons_self 7 (by decide)

/-- `(0,2147483647)` for one thread. -/
theorem sample_overflows :
    parseBatchSizePattern 14 (some [40, 48, 44, 50, 49, 52, 55, 52, 56, 51, 54, 52, 55, 41, 0]) 1 =
        .ok [⟨.range, 0, 2147483647⟩] ∧
      ¬ SampledSafely ⟨.range, 0, 2147483647⟩ 0 := by
  refine ⟨by rfl, ?_⟩
  rintro ⟨v, hv, -⟩
  exact absurd hv (by rw [batchSpecSample_full ⟨rfl, rfl, rfl⟩]; simp)

/-! ## All samples -/

/-- For how many of the results `0 .. 2 ^ 31 - 1` of `rand_r` the sample is `v`. -/
def hits (spec : BatchSpec) (v : Int32) : Nat :=
  Nat.count (fun r => spec.sample (UInt32.ofNat r) = v) (2 ^ 31)

/-- The number of sizes of a range. -/
def BatchSpec.span (spec : BatchSpec) : Nat := (spec.max.toInt - spec.min.toInt + 1).toNat

theorem BatchSpec.Valid.span_pos (h : spec.Valid) : 0 < spec.span := by
  have hle := h.le
  unfold BatchSpec.span
  omega

theorem BatchSpec.Valid.span_le (h : spec.Valid) : spec.span ≤ 2 ^ 31 := by
  have hnonneg := h.nonneg
  have hmax : spec.max.toInt < 2147483648 := spec.max.toInt_lt
  unfold BatchSpec.span
  omega

/-- The results of `rand_r` that lead to `v` are a residue class. -/
theorem sample_eq_iff (h : spec.Valid) (hkind : spec.kind = .range) {k : Nat} (hk : k < 2 ^ 31)
    (hv : spec.min ≤ v ∧ v ≤ spec.max) :
    spec.sample (UInt32.ofNat k) = v ↔ k ≡ (v.toInt - spec.min.toInt).toNat [MOD spec.span] := by
  have hlow := Int32.le_iff_toInt_le.mp hv.1
  have hhigh := Int32.le_iff_toInt_le.mp hv.2
  have hlt : (v.toInt - spec.min.toInt).toNat < spec.span := by
    unfold BatchSpec.span
    omega
  have hword : (UInt32.ofNat k).toNat = k :=
    UInt32.toNat_ofNat_of_lt' (by rw [UInt32.size]; omega)
  rw [Nat.ModEq, Nat.mod_eq_of_lt hlt, ← Int32.toInt_inj, BatchSpec.toInt_sample h hkind, hword,
    ← BatchSpec.span]
  omega

theorem hits_eq (h : spec.Valid) (hkind : spec.kind = .range)
    (hv : spec.min ≤ v ∧ v ≤ spec.max) :
    hits spec v = 2 ^ 31 / spec.span +
      if (v.toInt - spec.min.toInt).toNat % spec.span < 2 ^ 31 % spec.span then 1 else 0 := by
  rw [← Nat.count_modEq_card _ h.span_pos]
  apply le_antisymm
  · exact Nat.count_mono_left fun k hk => (sample_eq_iff h hkind hk hv).mp
  · exact Nat.count_mono_left fun k hk => (sample_eq_iff h hkind hk hv).mpr

theorem hits_eq_zero (h : spec.Valid) (hv : ¬ (spec.min ≤ v ∧ v ≤ spec.max)) :
    hits spec v = 0 := by
  apply Nat.count_iff_forall_not.mpr
  rintro k - rfl
  have hmem := BatchSpec.sample_mem h (UInt32.ofNat k)
  exact hv ⟨Int32.le_iff_toInt_le.mpr hmem.1, Int32.le_iff_toInt_le.mpr hmem.2⟩

/-- **Uniform samples.**  The sizes of a range are hit equally often up to one hit, each of them at
least once, and nothing else is hit. -/
theorem sample_uniform (h : spec.Valid) (hkind : spec.kind = .range) :
    (∀ v, 0 < hits spec v ↔ spec.min ≤ v ∧ v ≤ spec.max) ∧
    (∀ v, spec.min ≤ v → v ≤ spec.max →
      hits spec v = 2 ^ 31 / spec.span ∨ hits spec v = 2 ^ 31 / spec.span + 1) ∧
    ∀ v w, spec.min ≤ v → v ≤ spec.max → spec.min ≤ w → w ≤ spec.max →
      hits spec v ≤ hits spec w + 1 := by
  have hquot (v : Int32) (hlow : spec.min ≤ v) (hhigh : v ≤ spec.max) :
      hits spec v = 2 ^ 31 / spec.span ∨ hits spec v = 2 ^ 31 / spec.span + 1 := by
    rw [hits_eq h hkind ⟨hlow, hhigh⟩]
    split
    · exact .inr rfl
    · exact .inl rfl
  have hpos : 0 < 2 ^ 31 / spec.span := Nat.div_pos h.span_le h.span_pos
  refine ⟨fun v => ⟨fun hv => ?_, fun hv => ?_⟩, hquot, fun v w hv hv' hw hw' => ?_⟩
  · by_contra hout
    exact absurd (hits_eq_zero h hout) (Nat.pos_iff_ne_zero.mp hv)
  · rcases hquot v hv.1 hv.2 with he | he <;> rw [he] <;> omega
  · rcases hquot v hv hv' with he | he <;> rcases hquot w hw hw' with he' | he' <;>
      rw [he, he'] <;> omega

/-- The whole range has `2 ^ 31` sizes, each of them hit once. -/
theorem sample_uniform_full : 0 < hits ⟨.range, 0, 2147483647⟩ 2147483647 := by
  have hvalid : BatchSpec.Valid ⟨.range, 0, 2147483647⟩ := ⟨by decide, by decide⟩
  exact ((sample_uniform hvalid rfl).1 2147483647).mpr ⟨by decide, by decide⟩

end ConcurrentQueues.Bench
