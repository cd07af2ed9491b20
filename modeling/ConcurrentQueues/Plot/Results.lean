import ConcurrentQueues.Bench.Model
import ConcurrentQueues.Plot.Filename
import ConcurrentQueues.Reasoning.Groups
import Mathlib.Algebra.Field.Rat
import Mathlib.Algebra.BigOperators.Group.List.Basic

/-!
# Results — the results file as `bench.c` writes it and as `plot.py` reads it

The rows of every repetition are appended to a file; rows with the same key are put together.  A
number is what has been printed of it, and sums and quotients are exact.
-/

namespace ConcurrentQueues.Plot

open Bench Reasoning

/-! ## `bench.c` -/

inductive Column
  | repetition | numThreads | timeInterval | actualBenchTime | threadId
  | nrEnqOps | nrDeqOps | nrFailedEnqOps | nrFailedDeqOps | nrFailedEnqCasOps | nrFailedDeqCasOps
  | nrFreeListInsertions | maxFreeListSize
  deriving DecidableEq

/-- What stands between two commas. -/
inductive Cell
  | name (c : Column)
  | number (v : ℚ)

abbrev Line := Column → Cell

/-- The arrays that `run_benchmark` fills; of a worker only the counters are read. -/
structure Results (p : Nat) where
  worker : Fin p → Worker
  threadTimes : Fin p → ℚ

/-- A call of the program, as `parse_args` accepts it. -/
structure Invocation where
  numThreads : Nat
  timeInterval : Nat
  results : List (Results numThreads)
  numThreads_pos : 0 < numThreads
  timeInterval_pos : 0 < timeInterval
  results_ne_nil : results ≠ []

def header : Line := .name

def dataLine {p : Nat} (rep timeInterval : Nat) (r : Results p) (tid : Fin p) : Line
  | .repetition => .number (rep + 1)
  | .numThreads => .number p
  | .timeInterval => .number timeInterval
  | .actualBenchTime => .number (r.threadTimes tid)
  | .threadId => .number tid
  | .nrEnqOps => .number (r.worker tid).enqCount.toInt
  | .nrDeqOps => .number (r.worker tid).deqCount.toInt
  | .nrFailedEnqOps => .number (r.worker tid).failedEnqCount.toInt
  | .nrFailedDeqOps => .number (r.worker tid).failedDeqCount.toInt
  | .nrFailedEnqCasOps => .number (r.worker tid).failedEnqCasCount.toInt
  | .nrFailedDeqCasOps => .number (r.worker tid).failedDeqCasCount.toInt
  | .nrFreeListInsertions => .number (r.worker tid).freeListInsertions.toInt
  | .maxFreeListSize => .number (r.worker tid).maxFreeListSize.toInt

/-- `write_results_line`, on a file that can be opened. -/
def writeResultsLine {p : Nat} (rep timeInterval : Nat) (r : Results p) (f : List Line) :
    List Line :=
  let f := if rep = 0 then f ++ [header] else f
  f ++ (List.finRange p).map (dataLine rep timeInterval r)

/-- The repetitions of `main`. -/
def Invocation.main (inv : Invocation) (f : List Line) : List Line :=
  inv.results.zipIdx.foldl (fun f x => writeResultsLine x.2 inv.timeInterval x.1 f) f

/-- The file after some invocations with the same output path. -/
def resultsFile (h : List Invocation) : List Line := h.foldl (fun f inv => inv.main f) []

/-! ## `plot.py` -/

/-- `pd.read_csv`: the first line names the columns. -/
def readCsv : List Line → Except Error (List Line)
  | [] => .error (.valueError "No columns to parse from file".toList)
  | _ :: rows => .ok rows

/-- `pd.to_numeric` with `errors="coerce"`; a missing value is `none`. -/
def toNumeric : Cell → Option ℚ
  | .name _ => none
  | .number v => some v

def inferImpl (exercise : Nat) (variant : List Char) : List Char :=
  if exercise = 1 ∧ variant = "seq".toList then "seq".toList
  else if exercise = 4 then "ex4".toList
  else if exercise = 5 then "ex5".toList
  else if exercise = 2 then "ex2".toList
  else "ex".toList ++ Nat.toDigits 10 exercise ++ "_".toList ++ variant

structure Row where
  exercise : Nat
  variant : List Char
  impl : List Char
  batch : Nat
  s : Nat
  rFromName : Nat
  file : List Char
  value : Column → Option ℚ

/-- A line with the columns that the name of its file gives. -/
def Metadata.row (m : Metadata) (l : Line) : Row where
  exercise := m.exercise
  variant := m.variant
  impl := inferImpl m.exercise m.variant
  batch := m.batch
  s := m.s
  rFromName := m.rFromName
  file := m.file
  value c := toNumeric (l c)

def loadOneCsv (name : List Char) (f : List Line) : Except Error (List Row) := do
  let m ← parseFilename name
  let df ← readCsv f
  return df.map m.row

/-- The files of a folder, in the order of their names. -/
def loadAllCsvs (folder : List Char) (files : List (List Char × List Line)) :
    Except Error (List Row) := do
  if files = [] then
    throw (.fileNotFound ("No CSVs found under: ".toList ++ folder))
  let parts ← files.mapM fun x => loadOneCsv x.1 x.2
  return parts.flatten

/-- `group_cols`. -/
structure Key where
  file : List Char
  exercise : Nat
  variant : List Char
  impl : List Char
  batch : Nat
  s : Nat
  repetition : Option ℚ
  numThreads : Option ℚ
  deriving DecidableEq

def Row.key (r : Row) : Key :=
  ⟨r.file, r.exercise, r.variant, r.impl, r.batch, r.s, r.value .repetition, r.value .numThreads⟩

/-- `groupby` with `dropna=False`: missing values are equal.  The groups are not sorted here. -/
def groupBy (df : List Row) : List (Key × List Row) := groups Row.key df

/-- The values of a column that are not missing. -/
def present (c : Column) (rows : List Row) : List ℚ := rows.filterMap (·.value c)

def columnFirst (c : Column) (rows : List Row) : Option ℚ := (present c rows).head?

def columnSum (c : Column) (rows : List Row) : ℚ := (present c rows).sum

def columnMean (c : Column) (rows : List Row) : Option ℚ :=
  if present c rows = [] then none else some (columnSum c rows / (present c rows).length)

def columnMax (c : Column) (rows : List Row) : Option ℚ := (present c rows).max?

structure Metrics where
  key : Key
  timeInterval : Option ℚ
  actualBenchTime : Option ℚ
  totalEnq : ℚ
  totalDeq : ℚ
  totalFailedEnq : ℚ
  totalFailedDeq : ℚ
  totalFailedEnqCas : ℚ
  totalFailedDeqCas : ℚ
  freelistInsertions : ℚ
  maxFreelistSizeGlobal : Option ℚ
  totalOps : ℚ
  throughputOpsS : Option ℚ
  freelistInsertsS : Option ℚ
  failedCasPerOp : Option ℚ
  failedEnqCasPerOp : Option ℚ
  failedDeqCasPerOp : Option ℚ

/-- A quotient by `total_ops`, where 0 counts as missing. -/
def perOp (v ops : ℚ) : Option ℚ := if ops = 0 then none else some (v / ops)

/-- The time of a run is at least `time_interval`, so not 0. -/
def metrics (k : Key) (rows : List Row) : Metrics :=
  let time := columnMean .actualBenchTime rows
  let ops := columnSum .nrEnqOps rows + columnSum .nrDeqOps rows
  let failedEnqCas := columnSum .nrFailedEnqCasOps rows
  let failedDeqCas := columnSum .nrFailedDeqCasOps rows
  let insertions := columnSum .nrFreeListInsertions rows
  { key := k
    timeInterval := columnFirst .timeInterval rows
    actualBenchTime := time
    totalEnq := columnSum .nrEnqOps rows
    totalDeq := columnSum .nrDeqOps rows
    totalFailedEnq := columnSum .nrFailedEnqOps rows
    totalFailedDeq := columnSum .nrFailedDeqOps rows
    totalFailedEnqCas := failedEnqCas
    totalFailedDeqCas := failedDeqCas
    freelistInsertions := insertions
    maxFreelistSizeGlobal := columnMax .maxFreeListSize rows
    totalOps := ops
    throughputOpsS := time.map (ops / ·)
    freelistInsertsS := time.map (insertions / ·)
    failedCasPerOp := perOp (failedEnqCas + failedDeqCas) ops
    failedEnqCasPerOp := perOp failedEnqCas ops
    failedDeqCasPerOp := perOp failedDeqCas ops }

def perRunMetrics (df : List Row) : List Metrics :=
  (groupBy df).map fun g => metrics g.1 g.2

end ConcurrentQueues.Plot
