import ConcurrentQueues.Bench.Counters
import ConcurrentQueues.Bench.Main
import ConcurrentQueues.Plot.Metrics

/-!
# Report — from the command line to the metrics

A call of the benchmark with a file of its own leaves one group of rows for each repetition, and the
metrics of the group are those of the parallel region.
-/

namespace ConcurrentQueues.Plot

open Bench Reasoning

variable {n v reps : Nat} {args : Args}

/-- `num_repetitions` as a number. -/
def repetitions (args : Args) : Nat := args.numRepetitions.toInt.toNat

def seconds (args : Args) : Nat := args.timeInterval.toInt.toNat

/-- What the repetitions leave in the arrays of `main`. -/
def resultsOf {Q : Queue n} (s : Fin reps → Config (Fin n) Q.Mem (Client Q.Local))
    (times : Fin reps → Fin n → ℚ) : List (Results n) :=
  List.ofFn fun r => ⟨fun t => ((s r).th t).w, times r⟩

/-- The call of the benchmark whose repetitions have ended in `s`. -/
def invocation (hok : args.Ok)
    (s : Fin (repetitions args) → Config (Fin (args.threads v)) (version (args.threads v) v).Mem
      (Client (version (args.threads v) v).Local))
    (times : Fin (repetitions args) → Fin (args.threads v) → ℚ) : Invocation where
  numThreads := args.threads v
  timeInterval := seconds args
  results := resultsOf s times
  numThreads_pos := hok.threads_pos v
  timeInterval_pos := by
    have h := Int32.lt_iff_toInt_lt.mp hok.timeInterval
    rw [Int32.toInt_zero] at h
    unfold seconds
    omega
  results_ne_nil := by
    have h := Int32.lt_iff_toInt_lt.mp hok.numRepetitions
    rw [Int32.toInt_zero] at h
    intro hnil
    have hlen := congrArg List.length hnil
    rw [resultsOf, List.length_ofFn, repetitions, List.length_nil] at hlen
    omega

/-- What the metrics of a repetition say about its parallel region. -/
structure Reported {Q : Queue n} (seconds : Nat) (s : Config (Fin n) Q.Mem (Client Q.Local))
    (times : Fin n → ℚ) (m : Metrics) : Prop where
  timeInterval : m.timeInterval = some (seconds : ℚ)
  totalEnq : m.totalEnq = (∑ t, (s.th t).enqSum : Int)
  totalDeq : m.totalDeq + m.totalFailedDeq = (∑ t, (s.th t).deqSum : Int)
  left : ∃ main, Chain (Q.store s.mem).next (Q.store s.mem).head main ∧
    m.totalEnq - m.totalDeq = main.length - 1
  freelistInsertions : m.freelistInsertions = m.totalDeq
  throughput : m.throughputOpsS = some ((m.totalEnq + m.totalDeq) / ((∑ t, times t) / n))

/-! ## The rows of a repetition -/

section Rows

variable {inv : Invocation} {m : Metadata} {rep : Nat} {r : Results inv.numThreads}

theorem present_rows (hr : inv.results[rep]? = some r) {c : Column} {f : Fin inv.numThreads → ℚ}
    (hf : ∀ tid, dataLine rep inv.timeInterval r tid c = .number (f tid)) :
    present c ((inv.rows rep).map m.row) = (List.finRange inv.numThreads).map f := by
  rw [Invocation.rows, hr, List.map_map, present, List.filterMap_map, ← List.filterMap_eq_map]
  congr 1
  funext tid
  simp only [Function.comp_apply, Metadata.row, hf, toNumeric]

theorem columnSum_rows (hr : inv.results[rep]? = some r) {c : Column}
    {f : Fin inv.numThreads → ℚ}
    (hf : ∀ tid, dataLine rep inv.timeInterval r tid c = .number (f tid)) :
    columnSum c ((inv.rows rep).map m.row) = ∑ tid, f tid := by
  rw [columnSum, present_rows hr hf, Fin.sum_univ_def]

theorem columnMean_rows (hr : inv.results[rep]? = some r) {c : Column}
    {f : Fin inv.numThreads → ℚ}
    (hf : ∀ tid, dataLine rep inv.timeInterval r tid c = .number (f tid)) :
    columnMean c ((inv.rows rep).map m.row) = some ((∑ tid, f tid) / inv.numThreads) := by
  have hne : (List.finRange inv.numThreads).map f ≠ [] := by
    intro hnil
    have hlen := congrArg List.length hnil
    rw [List.length_map, List.length_finRange, List.length_nil] at hlen
    exact inv.numThreads_pos.ne' hlen
  rw [columnMean, columnSum_rows hr hf, present_rows hr hf, if_neg hne, List.length_map,
    List.length_finRange]

theorem columnFirst_rows (hr : inv.results[rep]? = some r) {c : Column} {q : ℚ}
    (hf : ∀ tid, dataLine rep inv.timeInterval r tid c = .number q) :
    columnFirst c ((inv.rows rep).map m.row) = some q := by
  rw [columnFirst, present_rows hr hf]
  obtain ⟨k, hk⟩ := Nat.exists_eq_succ_of_ne_zero inv.numThreads_pos.ne'
  rw [List.map_const', List.length_finRange, hk, List.replicate_succ, List.head?_cons]

end Rows

/-! ## The region and its metrics -/

/-- The sums over the rows are those over the workers. -/
theorem reported {inv : Invocation} {m : Metadata} {rep : Nat} {k : Key}
    {Q : Queue inv.numThreads} {s : Config (Fin inv.numThreads) Q.Mem (Client Q.Local)}
    {times : Fin inv.numThreads → ℚ}
    (hr : inv.results[rep]? = some ⟨fun t => (s.th t).w, times⟩)
    (haccounted : ∀ t, Accounted (s.th t))
    (hleft : ∃ main, Chain (Q.store s.mem).next (Q.store s.mem).head main ∧
      ∑ t, (s.th t).w.enqCount.toInt - ∑ t, (s.th t).w.deqCount.toInt = main.length - 1) :
    Reported inv.timeInterval s times (metrics k ((inv.rows rep).map m.row)) := by
  have henq : (metrics k ((inv.rows rep).map m.row)).totalEnq =
      ∑ t, ((s.th t).w.enqCount.toInt : ℚ) := columnSum_rows hr fun _ => rfl
  have hdeq : (metrics k ((inv.rows rep).map m.row)).totalDeq =
      ∑ t, ((s.th t).w.deqCount.toInt : ℚ) := columnSum_rows hr fun _ => rfl
  have hfailed : (metrics k ((inv.rows rep).map m.row)).totalFailedDeq =
      ∑ t, ((s.th t).w.failedDeqCount.toInt : ℚ) := columnSum_rows hr fun _ => rfl
  have hins : (metrics k ((inv.rows rep).map m.row)).freelistInsertions =
      ∑ t, ((s.th t).w.freeListInsertions.toInt : ℚ) := columnSum_rows hr fun _ => rfl
  have hmean : columnMean .actualBenchTime ((inv.rows rep).map m.row) =
      some ((∑ t, times t) / inv.numThreads) := columnMean_rows hr fun _ => rfl
  constructor
  · exact columnFirst_rows hr fun _ => rfl
  · rw [henq, Int.cast_sum]
    exact Finset.sum_congr rfl fun t _ => by rw [(haccounted t).enqCount]
  · rw [hdeq, hfailed, ← Finset.sum_add_distrib, Int.cast_sum]
    exact Finset.sum_congr rfl fun t _ => by rw [← (haccounted t).deqCount, Int.cast_add]
  · obtain ⟨main, hchain, hlen⟩ := hleft
    refine ⟨main, hchain, ?_⟩
    rw [henq, hdeq, ← Int.cast_sum, ← Int.cast_sum, ← Int.cast_sub, hlen]
    push_cast
    rfl
  · rw [hins, hdeq]
    exact Finset.sum_congr rfl fun t _ => by rw [(haccounted t).freeListInsertions]
  · show (columnMean .actualBenchTime _).map _ = _
    rw [hmean]
    rfl

/-! ## The groups of a file -/

theorem mem_groupBy_iff {inv : Invocation} {m : Metadata} {name : List Char} {df g : List Row}
    {k : Key} (hm : parseFilename name = .ok m)
    (hload : loadOneCsv name (resultsFile [inv]) = .ok df) :
    (k, g) ∈ groupBy df ↔ ∃ rep < inv.results.length, k = m.key rep inv.numThreads ∧
      g = (inv.rows rep).map m.row := by
  have hone : ∀ rep < inv.results.length,
      df.filter (fun x => x.key = m.key rep inv.numThreads) = (inv.rows rep).map m.row := by
    intro rep hrep
    have hhas : inv.Has rep inv.numThreads := ⟨rfl, hrep⟩
    rw [filter_loaded hm hload, List.filter_cons, decide_eq_true hhas, if_pos rfl, List.filter_nil,
      List.flatMap_singleton]
  rw [groupBy, mem_groups]
  constructor
  · rintro ⟨⟨x, hx, rfl⟩, rfl⟩
    obtain ⟨inv', t, heq, rfl⟩ := loadOneCsv_eq hm hload
    obtain ⟨rfl, rfl⟩ := List.cons.inj heq
    obtain ⟨l, hl, rfl⟩ := List.mem_map.mp hx
    rw [show resultsFile [] = [] from rfl, List.append_nil] at hl
    obtain ⟨rep, hhas, hkey⟩ := key_allRows (m := m) hl
    exact ⟨rep, hhas.2, hkey, by rw [hkey]; exact hone rep hhas.2⟩
  · rintro ⟨rep, hrep, rfl, rfl⟩
    refine ⟨?_, (hone rep hrep).symm⟩
    have hne : (inv.rows rep).map m.row ≠ [] := by
      intro hnil
      have hhas : inv.Has rep inv.numThreads := ⟨rfl, hrep⟩
      have hlen := congrArg List.length hnil
      rw [List.length_map, hhas.length_rows, List.length_nil] at hlen
      exact inv.numThreads_pos.ne' hlen
    obtain ⟨x, hx⟩ := List.exists_mem_of_ne_nil _ hne
    rw [← hone rep hrep] at hx
    obtain ⟨hmem, hkey⟩ := List.mem_filter.mp hx
    exact ⟨x, hmem, of_decide_eq_true hkey⟩

/-- Two threads asked for, with the values left in the queue after one round of Ex1. -/
def twoThreads : Args := ⟨2, 1, 1, List.replicate 2 ⟨.fixed, 1, 1⟩, List.replicate 2 ⟨.fixed, 1, 1⟩,
  defaultFilename⟩

end ConcurrentQueues.Plot
