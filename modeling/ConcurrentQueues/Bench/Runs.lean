import ConcurrentQueues.Bench.Main
import ConcurrentQueues.Bench.Scripts
import Mathlib.Data.List.Nodup
import Mathlib.Data.List.ProdSigma

/-!
# Runs — the calls of the benchmark in `bench.sh` and `small_bench.sh`

A script calls `run_one` with a version, a variant, and the numbers that the name of the results file
is made of.  The command line of such a call is the one `parse_args` wants.
-/

namespace ConcurrentQueues.Bench

open Reasoning

variable {fuel p k : Nat} {b : Int32} {outdir : Text}

/-- The variants of the concurrent queues, and the one pattern of the sequential queue. -/
inductive Variant where
  | seq | a | b | c | d
  deriving DecidableEq

/-- What it has in the name of the results file. -/
def Variant.letters : Variant → List Char
  | .seq => ['s', 'e', 'q']
  | .a => ['a']
  | .b => ['b']
  | .c => ['c']
  | .d => ['d']

/-- Whether thread `i` of `p` enqueues. -/
def Variant.enqueues (p : Nat) : Variant → Nat → Bool
  | .seq, _ | .a, _ => true
  | .b, i => i == 0
  | .c, i => i < p / 2
  | .d, i => i % 2 == 0

/-- In the variants b, c and d a thread has one role. -/
def Variant.dequeues (p : Nat) : Variant → Nat → Bool
  | .seq, _ | .a, _ => true
  | variant, i => !variant.enqueues p i

/-- A call of `run_one`. -/
structure RunOne where
  v : Nat
  variant : Variant
  p : Nat
  reps : Nat
  secs : Nat
  b : Nat
  deriving DecidableEq

namespace RunOne

/-- The numbers are in the range of an `int`, and the lists are not too long for the parser. -/
structure Ok (x : RunOne) : Prop where
  v_lt : x.v < 2 ^ 31
  p_pos : 0 < x.p
  p_le : x.p ≤ 2 ^ 30
  reps_pos : 0 < x.reps
  reps_lt : x.reps < 2 ^ 31
  secs_pos : 0 < x.secs
  secs_lt : x.secs < 2 ^ 31
  b_lt : x.b < 2 ^ 31
  /-- `VERSION` 1 is called with one thread. -/
  sequential : x.v = 1 → x.p = 1

instance (x : RunOne) : Decidable x.Ok :=
  decidable_of_iff (x.v < 2 ^ 31 ∧ 0 < x.p ∧ x.p ≤ 2 ^ 30 ∧ 0 < x.reps ∧ x.reps < 2 ^ 31 ∧
      0 < x.secs ∧ x.secs < 2 ^ 31 ∧ x.b < 2 ^ 31 ∧ (x.v = 1 → x.p = 1))
    ⟨fun ⟨h₁, h₂, h₃, h₄, h₅, h₆, h₇, h₈, h₉⟩ => ⟨h₁, h₂, h₃, h₄, h₅, h₆, h₇, h₈, h₉⟩,
      fun h => ⟨h.1, h.2, h.3, h.4, h.5, h.6, h.7, h.8, h.9⟩⟩

/-- `enq` and `deq`. -/
def patterns (x : RunOne) : Text × Text :=
  match x.variant with
  | .seq | .a => (printInt x.b, printInt x.b)
  | .b => readLists (mkListsOneEnqRestDeq x.p (printInt x.b))
  | .c => readLists (mkListsHalfEnqHalfDeq x.p (printInt x.b))
  | .d => readLists (mkListsEvenEnqOddDeq x.p (printInt x.b))

/-- The name of the results file: `ex${v}_a_p${p}_b${b}_s${secs}_r${reps}.csv`. -/
def out (x : RunOne) : List Char :=
  ["ex".toList, Nat.toDigits 10 x.v, "_".toList, x.variant.letters, "_p".toList,
    Nat.toDigits 10 x.p, "_b".toList, Nat.toDigits 10 x.b, "_s".toList, Nat.toDigits 10 x.secs,
    "_r".toList, Nat.toDigits 10 x.reps, ".csv".toList].flatten

/-- `"${OUTDIR}/.."`. -/
def path (outdir : Text) (x : RunOne) : Text :=
  outdir ++ '/'.toUInt8 :: x.out.map fun c => c.toNat.toUInt8

/-- What `run_one` calls the benchmark with. -/
def argv (outdir : Text) (x : RunOne) : List Text :=
  [ascii "./build/benchmark_ex" ++ printInt x.v, printInt x.p, printInt x.reps, printInt x.secs,
    x.patterns.1, x.patterns.2, x.path outdir]

/-- What the benchmark makes of it. -/
def args (outdir : Text) (x : RunOne) : Args where
  numThreads := .ofNat x.p
  numRepetitions := .ofNat x.reps
  timeInterval := .ofNat x.secs
  enqSpecs := (List.range x.p).map fun i => roleSpec (x.variant.enqueues x.p i) (.ofNat x.b)
  deqSpecs := (List.range x.p).map fun i => roleSpec (x.variant.dequeues x.p i) (.ofNat x.b)
  filename := x.path outdir

end RunOne

/-! ## The scripts -/

/-- The calls with the sequential queue. -/
def seqRuns (seqSeconds seqBatches : List Nat) (seqReps : Nat) : List RunOne :=
  seqSeconds.flatMap fun secs => seqBatches.map fun b => ⟨1, .seq, 1, seqReps, secs, b⟩

/-- The calls with the concurrent queues. -/
def concRuns (concVersions threadCounts concBatches : List Nat) (variants : List Variant)
    (concSeconds concReps : Nat) : List RunOne :=
  concVersions.flatMap fun v => threadCounts.flatMap fun p => concBatches.flatMap fun b =>
    variants.map fun variant => ⟨v, variant, p, concReps, concSeconds, b⟩

def threadCounts : List Nat := [1, 2, 8, 10, 20, 32, 45, 64]

/-- `bench.sh`. -/
def benchSh : List RunOne :=
  seqRuns [1, 5] [1, 1000] 10 ++ concRuns [2, 4, 5] threadCounts [1, 1000] [.a, .b, .c, .d] 1 10

/-- `small_bench.sh`. -/
def smallBenchSh : List RunOne :=
  seqRuns [1] [1] 2 ++ concRuns [2, 4, 5] threadCounts [1] [.a] 1 2

/-- The calls of a script: each is in range, and none is made twice. -/
structure Script (runs : List RunOne) : Prop where
  ok : ∀ x ∈ runs, x.Ok
  nodup : runs.Nodup

/-- Two loops give every pair of their values once. -/
theorem nodup_seqRuns {seconds batches : List Nat} (hseconds : seconds.Nodup)
    (hbatches : batches.Nodup) (reps : Nat) : (seqRuns seconds batches reps).Nodup := by
  have hloops : (seqRuns seconds batches reps).map (fun x => (x.secs, x.b)) =
      seconds ×ˢ batches := by
    simp [seqRuns, List.map_flatMap, SProd.sprod, List.product, Function.comp_def]
  apply List.Nodup.of_map fun x : RunOne => (x.secs, x.b)
  rw [hloops]
  exact hseconds.product hbatches

theorem nodup_concRuns {versions threads batches : List Nat} {variants : List Variant}
    (hversions : versions.Nodup) (hthreads : threads.Nodup) (hbatches : batches.Nodup)
    (hvariants : variants.Nodup) (secs reps : Nat) :
    (concRuns versions threads batches variants secs reps).Nodup := by
  have hloops : (concRuns versions threads batches variants secs reps).map
      (fun x => (x.v, x.p, x.b, x.variant)) = versions ×ˢ (threads ×ˢ (batches ×ˢ variants)) := by
    simp [concRuns, List.map_flatMap, SProd.sprod, List.product, Function.comp_def]
  apply List.Nodup.of_map fun x : RunOne => (x.v, x.p, x.b, x.variant)
  rw [hloops]
  exact hversions.product (hthreads.product (hbatches.product hvariants))

theorem script_append {runs runs' : List RunOne} (hok : ∀ x ∈ runs ++ runs', x.Ok)
    (h : runs.Nodup) (h' : runs'.Nodup) (hseq : ∀ x ∈ runs, x.variant = .seq)
    (hconc : ∀ x ∈ runs', x.variant ≠ .seq) : Script (runs ++ runs') where
  ok := hok
  nodup := h.append h' fun x hx hx' => hconc x hx' (hseq x hx)

theorem script_benchSh : Script benchSh :=
  script_append (by decide +kernel) (nodup_seqRuns (by decide) (by decide) _)
    (nodup_concRuns (by decide) (by decide) (by decide) (by decide) _ _) (by decide)
    (by decide +kernel)

theorem script_smallBenchSh : Script smallBenchSh :=
  script_append (by decide +kernel) (nodup_seqRuns (by decide) (by decide) _)
    (nodup_concRuns (by decide) (by decide) (by decide) (by decide) _ _) (by decide)
    (by decide +kernel)

/-! ## The command line -/

theorem toInt_ofNat_range (hk : k < 2 ^ 31) : (Int32.ofNat k).toInt = k :=
  Int32.toInt_ofNat_of_lt (by omega)

/-- `atoi` reads what `$` has printed. -/
theorem atoi_printInt (hk : k < 2 ^ 31) : atoi (printInt k) = .ok (.ofNat k) := by
  have hread : strtol (printInt k ++ [0]) = some ⟨k, false, [0]⟩ := by
    have h := strtol_numeral (numeral_printInt k) stops_nil
    rw [List.append_nil, List.nil_append, Strtol.ofInt_eq (by simp only [longMax]; omega)
      (by simp only [longMax]; omega)] at h
    exact h
  rw [atoi, hread]
  exact congrArg Except.ok (Int32.ofInt_eq_ofNat)

theorem ofNat_pos (hpos : 0 < k) (hk : k < 2 ^ 31) : (0 : Int32) < .ofNat k := by
  rw [Int32.lt_iff_toInt_lt, toInt_ofNat_range hk, Int32.toInt_zero]
  omega

theorem RunOne.Ok.p_lt {x : RunOne} (hx : x.Ok) : x.p < 2 ^ 31 := by
  have hle := hx.p_le
  omega

/-- The two patterns are parsed to the roles of the variant. -/
theorem parse_patterns {x : RunOne} (hx : x.Ok) (henq : x.patterns.1.length ≤ fuel)
    (hdeq : x.patterns.2.length ≤ fuel) :
    parseBatchSizePattern fuel (some (x.patterns.1 ++ [0])) (.ofNat x.p) =
        .ok (x.args outdir).enqSpecs ∧
      parseBatchSizePattern fuel (some (x.patterns.2 ++ [0])) (.ofNat x.p) =
        .ok (x.args outdir).deqSpecs := by
  have hb := toInt_ofNat_range hx.b_lt
  have hb' : 0 ≤ (Int32.ofNat x.b).toInt := by omega
  have hnumber : (printInt (x.b : Int)).length ≤ fuel →
      parseBatchSizePattern fuel (some (printInt (x.b : Int) ++ [0])) (.ofNat x.p) =
        .ok ((List.range x.p).map fun _ => roleSpec true (.ofNat x.b)) := by
    intro hfuel
    rw [← hb] at hfuel ⊢
    rw [parse_number (ofNat_pos hx.p_pos hx.p_lt) hb' hfuel, toInt_ofNat_range hx.p_lt,
      Int.toNat_natCast, List.map_const', List.length_range]
  have hlists := fun enqueues => @parse_readLists fuel x.p _ hx.p_pos hx.p_le hb' enqueues
  rw [hb] at hlists
  obtain ⟨v, variant, p, reps, secs, b⟩ := x
  cases variant with
  | seq => exact ⟨hnumber henq, hnumber hdeq⟩
  | a => exact ⟨hnumber henq, hnumber hdeq⟩
  | b => exact hlists _ henq hdeq
  | c => exact hlists _ henq hdeq
  | d => exact hlists _ henq hdeq

/-- **The command lines of the scripts are accepted.** -/
theorem parseArgs_argv {x : RunOne} (hx : x.Ok) (henq : x.patterns.1.length ≤ fuel)
    (hdeq : x.patterns.2.length ≤ fuel) :
    parseArgs fuel (x.argv outdir) = .ok (x.args outdir) := by
  obtain ⟨henqs, hdeqs⟩ := @parse_patterns fuel outdir x hx henq hdeq
  have hpos : ∀ name k, 0 < k → k < 2 ^ 31 → positive name (.ofNat k) = .ok () :=
    fun name k hpos hk => positive_eq_ok.mpr (ofNat_pos hpos hk)
  rw [RunOne.argv, parseArgs]
  simp only [List.length_singleton, Nat.lt_irrefl, if_false, atoi_printInt hx.p_lt,
    atoi_printInt hx.reps_lt, atoi_printInt hx.secs_lt, hpos _ _ hx.p_pos hx.p_lt,
    hpos _ _ hx.reps_pos hx.reps_lt, hpos _ _ hx.secs_pos hx.secs_lt, henqs, hdeqs, onString,
    bind, Except.bind, pure, Except.pure]
  rfl

end ConcurrentQueues.Bench
