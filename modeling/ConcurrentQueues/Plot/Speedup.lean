import ConcurrentQueues.Plot.Campaign

/-!
# Speedup — the means that `plot_throughput` and `plot_speedup` draw

A point of the plots stands for the repetitions of one configuration.  The baseline of the speedup is
taken over all sequential runs with the batch size of the point, the reference line of the throughput
over those of one second.  There is a subplot for each of the default variants and batch sizes, so a
row of the table with another one is not drawn.
-/

namespace ConcurrentQueues.Plot

open Bench Reasoning

variable {rows rows' : List Metrics} {column : Metrics → Option ℚ} {outdir : Text}

/-! ## `plot.py` -/

def average (vs : List ℚ) : Option ℚ := if vs = [] then none else some (vs.sum / vs.length)

/-- `mean`, of the values that are not missing. -/
def mean (column : Metrics → Option ℚ) (rows : List Metrics) : Option ℚ :=
  average (rows.filterMap column)

/-- `groupby(..)["throughput_ops_s"].mean()`. -/
def meanBy {κ : Type} [DecidableEq κ] (key : Metrics → κ) (rows : List Metrics) :
    List (κ × Option ℚ) :=
  (groups key rows).map fun g => (g.1, mean Metrics.throughputOpsS g.2)

@[ext] structure Point where
  variant : List Char
  batch : Nat
  exercise : Nat
  numThreads : Option ℚ
  deriving DecidableEq

def Metrics.point (m : Metrics) : Point :=
  ⟨m.key.variant, m.key.batch, m.key.exercise, m.key.numThreads⟩

/-- `agg_df`; rows with a missing key are dropped. -/
def aggDf (runDf : List Metrics) : List (Point × Option ℚ) :=
  meanBy Metrics.point (runDf.filter fun m => m.key.exercise ≠ 1 ∧ m.key.numThreads ≠ none)

/-- `ref_agg` of `plot_throughput`. -/
def refAgg (runDf : List Metrics) : List ((Nat × Option ℚ) × Option ℚ) :=
  meanBy (fun m => (m.key.batch, m.timeInterval))
    (runDf.filter fun m => m.key.exercise = 1 ∧ m.timeInterval = some 1)

/-- `seq_baseline` of `plot_speedup`. -/
def seqBaseline (runDf : List Metrics) : List (Nat × Option ℚ) :=
  meanBy (fun m => m.key.batch)
    (runDf.filter fun m => m.key.exercise = 1 ∧ m.key.numThreads = some 1)

/-- `calculate_speedup`. -/
def calculateSpeedup (baseline : List (Nat × Option ℚ)) (row : Point × Option ℚ) : Option ℚ :=
  match (baseline.lookup row.1.batch).join with
  | none => none
  | some b => if b = 0 then none else row.2.map (· / b)

/-- The column `speedup` of `agg_df`. -/
def speedup (runDf : List Metrics) : List (Point × Option ℚ) :=
  (aggDf runDf).map fun row => (row.1, calculateSpeedup (seqBaseline runDf) row)

def defaultBatches : List Nat := [1, 1000]

def defaultVariants : List (List Char) := [['a'], ['b'], ['c'], ['d']]

/-- `sorted(data["exercise"].unique())`. -/
def exercises (data : List (Point × Option ℚ)) : List Nat :=
  (data.map fun row => row.1.exercise).dedup.mergeSort

/-- The lines of one subplot. -/
def exerciseLines (data : List (Point × Option ℚ)) : List (List (Point × Option ℚ)) :=
  (exercises data).map fun exercise => data.filter fun row => row.1.exercise = exercise

/-- The subplots that `plot_throughput` and `plot_speedup` make of `agg_df`. -/
def subplots (aggDf : List (Point × Option ℚ)) : List (List (List (Point × Option ℚ))) :=
  defaultVariants.flatMap fun variant => defaultBatches.map fun batch =>
    exerciseLines (aggDf.filter fun row => row.1.variant = variant ∧ row.1.batch = batch)

/-- A row of `agg_df` that is a point of some line. -/
def Drawn (aggDf : List (Point × Option ℚ)) (row : Point × Option ℚ) : Prop :=
  ∃ axes ∈ subplots aggDf, ∃ line ∈ axes, row ∈ line

/-! ## The rows that are drawn -/

theorem mem_exerciseLines {data : List (Point × Option ℚ)} {row : Point × Option ℚ} :
    (∃ line ∈ exerciseLines data, row ∈ line) ↔ row ∈ data := by
  constructor
  · rintro ⟨line, hline, hrow⟩
    obtain ⟨exercise, -, rfl⟩ := List.mem_map.mp hline
    exact List.mem_of_mem_filter hrow
  · intro hrow
    refine ⟨_, List.mem_map.mpr ⟨row.1.exercise, ?_, rfl⟩,
      List.mem_filter.mpr ⟨hrow, decide_eq_true rfl⟩⟩
    rw [exercises, List.mem_mergeSort, List.mem_dedup]
    exact List.mem_map_of_mem hrow

/-- The rows with a default variant and a default batch size, and no others. -/
theorem drawn_iff {aggDf : List (Point × Option ℚ)} {row : Point × Option ℚ} :
    Drawn aggDf row ↔
      row ∈ aggDf ∧ row.1.variant ∈ defaultVariants ∧ row.1.batch ∈ defaultBatches := by
  constructor
  · rintro ⟨axes, haxes, hlines⟩
    obtain ⟨variant, hvariant, hmem⟩ := List.mem_flatMap.mp haxes
    obtain ⟨batch, hbatch, rfl⟩ := List.mem_map.mp hmem
    obtain ⟨hrow, hselect⟩ := List.mem_filter.mp (mem_exerciseLines.mp hlines)
    obtain ⟨rfl, rfl⟩ := of_decide_eq_true hselect
    exact ⟨hrow, hvariant, hbatch⟩
  · rintro ⟨hrow, hvariant, hbatch⟩
    have hselect : row ∈ aggDf.filter fun row' =>
        row'.1.variant = row.1.variant ∧ row'.1.batch = row.1.batch :=
      List.mem_filter.mpr ⟨hrow, decide_eq_true ⟨rfl, rfl⟩⟩
    exact ⟨_, List.mem_flatMap.mpr ⟨_, hvariant, List.mem_map_of_mem hbatch⟩,
      mem_exerciseLines.mpr hselect⟩

/-! ## Means of groups -/

/-- The order of the rows is irrelevant. -/
theorem mean_perm (h : rows.Perm rows') : mean column rows = mean column rows' := by
  have hvalues := h.filterMap column
  unfold mean average
  by_cases hnil : rows.filterMap column = []
  · rw [hnil] at hvalues ⊢
    rw [List.nil_perm.mp hvalues]
  · have hnil' : rows'.filterMap column ≠ [] := by
      intro h'
      rw [h'] at hvalues
      exact hnil (List.perm_nil.mp hvalues)
    rw [if_neg hnil, if_neg hnil', hvalues.sum_eq, hvalues.length_eq]

theorem mem_meanBy {κ : Type} [DecidableEq κ] {key : Metrics → κ} {k : κ} {q : Option ℚ} :
    (k, q) ∈ meanBy key rows ↔ (∃ m ∈ rows, key m = k) ∧
      q = mean Metrics.throughputOpsS (rows.filter fun m => key m = k) := by
  rw [meanBy, List.mem_map]
  constructor
  · rintro ⟨⟨k', g⟩, hg, heq⟩
    obtain ⟨rfl, rfl⟩ := Prod.mk.inj heq
    obtain ⟨hk, rfl⟩ := mem_groups.mp hg
    exact ⟨hk, rfl⟩
  · rintro ⟨hk, rfl⟩
    exact ⟨(k, _), mem_groups.mpr ⟨hk, rfl⟩, rfl⟩

/-- `get`: a key without rows has no mean. -/
theorem lookup_meanBy {κ : Type} [DecidableEq κ] (key : Metrics → κ) (rows : List Metrics)
    (k : κ) :
    ((meanBy key rows).lookup k).join =
      mean Metrics.throughputOpsS (rows.filter fun m => key m = k) := by
  have hlookup : ∀ (ks : List κ) (f : κ → Option ℚ),
      (ks.map fun k' => (k', f k')).lookup k = if k ∈ ks then some (f k) else none := by
    intro ks f
    induction ks with
    | nil => rfl
    | cons k' ks ih =>
        rw [List.map_cons, List.lookup_cons, ih]
        by_cases hk : k = k'
        · simp [hk]
        · simp [hk, beq_eq_false_iff_ne.mpr hk]
  have hmap : meanBy key rows = (rows.map key).dedup.map fun k' =>
      (k', mean Metrics.throughputOpsS (rows.filter fun m => key m = k')) := by
    rw [meanBy, groups, List.map_map]
    rfl
  rw [hmap, hlookup]
  split
  next => rfl
  next hk =>
    have hnil : rows.filter (fun m => key m = k) = [] := by
      apply List.filter_eq_nil_iff.mpr
      intro m hm hkey
      apply hk
      rw [List.mem_dedup, ← of_decide_eq_true hkey]
      exact List.mem_map_of_mem hm
    rw [hnil]
    rfl

/-! ## The runs of the calls -/

namespace Ended

/-- The operations of a repetition for each second of its threads' mean time. -/
def throughput (e : Ended outdir) (r : Fin (repetitions (e.call.args outdir))) : ℚ :=
  (∑ t, (((e.s r).th t).w.enqCount.toInt : ℚ) + ∑ t, (((e.s r).th t).w.deqCount.toInt : ℚ)) /
    ((∑ t, e.times r t) / (e.call.args outdir).threads e.call.v)

def throughputs (e : Ended outdir) : List ℚ := (List.finRange _).map e.throughput

/-- The metrics of the repetitions. -/
def runs (e : Ended outdir) : List Metrics :=
  (List.finRange _).map fun r : Fin (repetitions (e.call.args outdir)) =>
    metrics (e.key r) (e.rows r)

def point (e : Ended outdir) : Point :=
  ⟨e.call.variant.letters, e.call.b, e.call.v, some e.call.p⟩

theorem throughputOpsS (e : Ended outdir) (r : Fin (repetitions (e.call.args outdir))) :
    (metrics (e.key r) (e.rows r)).throughputOpsS = some (e.throughput r) := by
  have hr := e.getElem_results r
  have henq : columnSum .nrEnqOps (e.rows r) =
      ∑ t, (((e.s r).th t).w.enqCount.toInt : ℚ) := columnSum_rows hr fun _ => rfl
  have hdeq : columnSum .nrDeqOps (e.rows r) =
      ∑ t, (((e.s r).th t).w.deqCount.toInt : ℚ) := columnSum_rows hr fun _ => rfl
  have htime : columnMean .actualBenchTime (e.rows r) =
      some ((∑ t, e.times r t) / (e.call.args outdir).threads e.call.v) :=
    columnMean_rows hr fun _ => rfl
  rw [metrics, throughput, henq, hdeq, htime, Option.map_some]

theorem runs_throughputs (e : Ended outdir) :
    e.runs.filterMap Metrics.throughputOpsS = e.throughputs := by
  rw [runs, List.filterMap_map, throughputs, ← List.filterMap_eq_map]
  exact List.filterMap_congr fun r _ => e.throughputOpsS r

theorem length_throughputs (e : Ended outdir) : e.throughputs.length = e.call.reps := by
  rw [throughputs, List.length_map, List.length_finRange]
  exact repetitions_args e.ok outdir

/-- What the metrics of a call have in common. -/
structure Of (e : Ended outdir) (m : Metrics) : Prop where
  point : m.point = e.point
  timeInterval : m.timeInterval = some (e.call.secs : ℚ)

theorem of_mem_runs {e : Ended outdir} {m : Metrics} (hm : m ∈ e.runs) : e.Of m := by
  obtain ⟨r, -, rfl⟩ := List.mem_map.mp hm
  exact ⟨rfl, e.timeInterval r⟩

end Ended

variable {h : List (Ended outdir)}

theorem metrics_repetitionRows (h : List (Ended outdir)) :
    ((repetitionRows h).map fun g => metrics g.1 g.2) = h.flatMap Ended.runs := by
  rw [repetitionRows, List.map_flatMap]
  refine List.flatMap_congr fun e _ => ?_
  rw [List.map_map]
  rfl

/-- A condition on the configuration selects calls. -/
theorem filter_runs {p : Metrics → Bool} {P : Ended outdir → Bool}
    (hp : ∀ e m, e.Of m → p m = P e) (h : List (Ended outdir)) :
    (h.flatMap Ended.runs).filter p = (h.filter P).flatMap Ended.runs := by
  induction h with
  | nil => rfl
  | cons e h ih =>
      rw [List.flatMap_cons, List.filter_append, ih, List.filter_cons]
      have hblock : ∀ m ∈ e.runs, p m = P e := fun m hm => hp e m (Ended.of_mem_runs hm)
      cases hP : P e with
      | true =>
          rw [if_pos rfl, List.flatMap_cons,
            List.filter_eq_self.mpr fun m hm => (hblock m hm).trans hP]
      | false =>
          rw [if_neg Bool.false_ne_true, List.filter_eq_nil_iff.mpr fun m hm => by
            rw [hblock m hm, hP]
            exact Bool.false_ne_true]
          rfl

theorem mean_runs (h : List (Ended outdir)) :
    mean Metrics.throughputOpsS (h.flatMap Ended.runs) =
      average (h.flatMap Ended.throughputs) := by
  rw [mean, List.filterMap_flatMap]
  exact congrArg average (List.flatMap_congr fun e _ => e.runs_throughputs)

/-! ## The data of `bench.sh` -/

variable {runDf : List Metrics} {pt : Point} {q : Option ℚ}

theorem mean_filter {p : Metrics → Bool} {P : Ended outdir → Bool}
    (hrows : runDf.Perm (h.flatMap Ended.runs)) (hp : ∀ e m, e.Of m → p m = P e) :
    mean Metrics.throughputOpsS (runDf.filter p) =
      average ((h.filter P).flatMap Ended.throughputs) := by
  rw [mean_perm (hrows.filter p), filter_runs hp, mean_runs]

theorem Ended.runs_ne_nil (e : Ended outdir) : e.runs ≠ [] := by
  have hreps : 0 < repetitions (e.call.args outdir) := by
    rw [repetitions_args e.ok outdir]
    exact e.ok.reps_pos
  intro hnil
  have hlen := congrArg List.length hnil
  rw [runs, List.length_map, List.length_finRange, List.length_nil] at hlen
  omega

/-- A row that satisfies a condition comes from a call that does. -/
theorem exists_mem_runs {p : Metrics → Prop} {P : Ended outdir → Prop}
    (hrows : runDf.Perm (h.flatMap Ended.runs)) (hp : ∀ e m, e.Of m → (p m ↔ P e)) :
    (∃ m ∈ runDf, p m) ↔ ∃ e ∈ h, P e := by
  constructor
  · rintro ⟨m, hm, hpm⟩
    obtain ⟨e, he, hme⟩ := List.mem_flatMap.mp (hrows.mem_iff.mp hm)
    exact ⟨e, he, (hp e m (Ended.of_mem_runs hme)).mp hpm⟩
  · rintro ⟨e, he, hPe⟩
    obtain ⟨m, hm⟩ := List.exists_mem_of_ne_nil _ e.runs_ne_nil
    exact ⟨m, hrows.mem_iff.mpr (List.mem_flatMap_of_mem he hm),
      (hp e m (Ended.of_mem_runs hm)).mpr hPe⟩

theorem filter_eq_singleton {α : Type} {l : List α} {p : α → Bool} {x : α} (hl : l.Nodup)
    (hx : x ∈ l) (hp : ∀ y ∈ l, p y = true ↔ y = x) : l.filter p = [x] := by
  apply List.perm_singleton.mp
  apply (List.perm_ext_iff_of_nodup (hl.filter p) (List.nodup_singleton x)).mpr
  intro y
  rw [List.mem_filter, List.mem_singleton]
  exact ⟨fun ⟨hy, hpy⟩ => (hp y hy).mp hpy, fun hyx => hyx ▸ ⟨hx, (hp x hx).mpr rfl⟩⟩

/-- The concurrent calls of `bench.sh` all have one duration and one number of repetitions. -/
theorem concRuns_benchSh : ∀ x ∈ benchSh, x.v ≠ 1 → x.secs = 1 ∧ x.reps = 10 := by
  decide +kernel

theorem batch_benchSh : ∀ x ∈ benchSh, x.b = 1 ∨ x.b = 1000 := by decide +kernel

theorem mem_defaultBatches {b : Nat} : b ∈ defaultBatches ↔ b = 1 ∨ b = 1000 := by
  simp [defaultBatches]

theorem letters_mem_defaultVariants : ∀ x ∈ benchSh, x.v ≠ 1 →
    x.variant.letters ∈ defaultVariants := by
  decide +kernel

/-- The sequential calls with one batch size have both durations. -/
theorem seqRuns_benchSh {b : Nat} (hb : b = 1 ∨ b = 1000) :
    benchSh.filter (fun x => x.v = 1 ∧ x.p = 1 ∧ x.b = b) =
      [⟨1, .seq, 1, 10, 1, b⟩, ⟨1, .seq, 1, 10, 5, b⟩] := by
  rcases hb with rfl | rfl <;> decide +kernel

theorem refRuns_benchSh :
    ∀ x ∈ benchSh, x.v = 1 → x.secs = 1 → x = ⟨1, .seq, 1, 10, 1, x.b⟩ := by decide +kernel

section BenchSh

variable (hcalls : h.map Ended.call = benchSh)
include hcalls

theorem call_mem {e : Ended outdir} (he : e ∈ h) : e.call ∈ benchSh :=
  hcalls ▸ List.mem_map_of_mem he

theorem call_inj {e e' : Ended outdir} (he : e ∈ h) (he' : e' ∈ h) (heq : e.call = e'.call) :
    e = e' :=
  List.inj_on_of_nodup_map (hcalls ▸ script_benchSh.nodup) he he' heq

/-- A condition that only one call of the script satisfies. -/
theorem filter_call {e : Ended outdir} (he : e ∈ h) {P : Ended outdir → Bool}
    (hP : ∀ e' ∈ h, P e' = true ↔ e'.call = e.call) : h.filter P = [e] := by
  have hnodup : (h.map Ended.call).Nodup := hcalls ▸ script_benchSh.nodup
  apply filter_eq_singleton hnodup.of_map he
  intro e' he'
  rw [hP e' he']
  exact ⟨call_inj hcalls he' he, congrArg Ended.call⟩

/-- A point stands for one call. -/
theorem filter_point {e : Ended outdir} (he : e ∈ h) (hv : e.call.v ≠ 1) :
    h.filter (fun e' => e'.point = e.point) = [e] := by
  apply filter_call hcalls he
  intro e' he'
  rw [decide_eq_true_eq]
  constructor
  · intro hpoint
    obtain ⟨hletters, hb, hv', hp⟩ := Point.mk.inj hpoint
    obtain ⟨hsecs, hreps⟩ := concRuns_benchSh _ (call_mem hcalls he) hv
    obtain ⟨hsecs', hreps'⟩ := concRuns_benchSh _ (call_mem hcalls he') (hv' ▸ hv)
    exact call_ext hv' (letters_inj hletters) (Nat.cast_injective (Option.some.inj hp))
      (hreps'.trans hreps.symm) (hsecs'.trans hsecs.symm) hb
  · intro hcall
    rw [Ended.point, Ended.point, hcall]

/-- The calls that the script's condition selects. -/
theorem exists_of_filter {P : RunOne → Bool} {xs : List RunOne} (hP : benchSh.filter P = xs) :
    (h.filter fun e => P e.call).map Ended.call = xs := by
  rw [← hP, ← hcalls, List.filter_map]
  rfl

theorem exists_pair {P : RunOne → Bool} {x y : RunOne} (hP : benchSh.filter P = [x, y]) :
    ∃ e ∈ h, ∃ e' ∈ h, (h.filter fun e => P e.call) = [e, e'] ∧ e.call = x ∧ e'.call = y := by
  have hmap := exists_of_filter hcalls hP
  obtain ⟨e, es, hes, hx, hmap⟩ := List.map_eq_cons_iff.mp hmap
  obtain ⟨e', es', rfl, hy, hnil⟩ := List.map_eq_cons_iff.mp hmap
  obtain rfl := List.map_eq_nil_iff.mp hnil
  have hmem : ∀ e'' ∈ [e, e'], e'' ∈ h := fun e'' he => List.mem_of_mem_filter (hes ▸ he)
  exact ⟨e, hmem e (by simp), e', hmem e' (by simp), hes, hx, hy⟩

end BenchSh

/-! ## The points of the plots -/

/-- A mean over `n` values. -/
def meanOf (vs : List ℚ) (n : Nat) : ℚ := vs.sum / n

theorem average_of_length {vs : List ℚ} {n : Nat} (hn : 0 < n) (hlen : vs.length = n) :
    average vs = some (meanOf vs n) := by
  have hne : vs ≠ [] := List.length_pos_iff.mp (hlen ▸ hn)
  rw [average, if_neg hne, hlen, meanOf]

theorem reps_benchSh : ∀ x ∈ benchSh, x.reps = 10 := by decide +kernel

theorem average_throughputs (hcalls : h.map Ended.call = benchSh) {e : Ended outdir} (he : e ∈ h) :
    average e.throughputs = some (meanOf e.throughputs 10) :=
  average_of_length (by decide)
    (e.length_throughputs.trans (reps_benchSh _ (call_mem hcalls he)))

section Points

variable (hcalls : h.map Ended.call = benchSh) (hrows : runDf.Perm (h.flatMap Ended.runs))
include hcalls hrows

/-- The points of `agg_df`. -/
theorem mem_aggDf :
    (pt, q) ∈ aggDf runDf ↔ ∃ e ∈ h, e.call.v ≠ 1 ∧ pt = e.point ∧
      q = some (meanOf e.throughputs 10) := by
  have hconc : ∀ (e : Ended outdir) m, e.Of m →
      ((m.key.exercise ≠ 1 ∧ m.key.numThreads ≠ none) ∧ m.point = pt ↔
        e.call.v ≠ 1 ∧ e.point = pt) := by
    intro e m hm
    obtain ⟨-, -, hv, hp⟩ := Point.mk.inj hm.point
    rw [hm.point, hv, hp]
    simp
  have hmean : ∀ e ∈ h, e.call.v ≠ 1 → pt = e.point →
      mean Metrics.throughputOpsS ((runDf.filter fun m =>
        m.key.exercise ≠ 1 ∧ m.key.numThreads ≠ none).filter fun m => m.point = pt) =
      some (meanOf e.throughputs 10) := by
    rintro e he hv rfl
    have hselect : ∀ (e' : Ended outdir) m, e'.Of m →
        (decide (m.point = e.point) && decide (m.key.exercise ≠ 1 ∧ m.key.numThreads ≠ none)) =
          decide (e'.point = e.point) := by
      intro e' m hm
      obtain ⟨-, -, hv', hp'⟩ := Point.mk.inj hm.point
      rw [hm.point, hv', hp']
      by_cases hpoint : e'.point = e.point
      · have hv'' : e'.call.v = e.call.v := congrArg Point.exercise hpoint
        simp [hpoint, hv'', hv]
      · simp [hpoint]
    rw [List.filter_filter, mean_filter hrows hselect, filter_point hcalls he hv,
      List.flatMap_singleton, average_throughputs hcalls he]
  have hexists := exists_mem_runs hrows hconc
  rw [aggDf, mem_meanBy]
  constructor
  · rintro ⟨⟨m, hm, hpt⟩, rfl⟩
    obtain ⟨hm, hcond⟩ := List.mem_filter.mp hm
    obtain ⟨e, he, hv, hpoint⟩ := hexists.mp ⟨m, hm, of_decide_eq_true hcond, hpt⟩
    exact ⟨e, he, hv, hpoint.symm, hmean e he hv hpoint.symm⟩
  · rintro ⟨e, he, hv, hpt, rfl⟩
    obtain ⟨m, hm, hcond, hpoint⟩ := hexists.mpr ⟨e, he, hv, hpt.symm⟩
    exact ⟨⟨m, List.mem_filter.mpr ⟨hm, decide_eq_true hcond⟩, hpoint⟩, (hmean e he hv hpt).symm⟩

/-- The baseline has the runs of both durations. -/
theorem lookup_seqBaseline {b : Nat} (hb : b = 1 ∨ b = 1000) :
    ∃ e₁ ∈ h, ∃ e₅ ∈ h, e₁.call = ⟨1, .seq, 1, 10, 1, b⟩ ∧ e₅.call = ⟨1, .seq, 1, 10, 5, b⟩ ∧
      ((seqBaseline runDf).lookup b).join =
        some (meanOf (e₁.throughputs ++ e₅.throughputs) 20) := by
  obtain ⟨e₁, he₁, e₅, he₅, hfilter, hx, hy⟩ := exists_pair hcalls (seqRuns_benchSh hb)
  refine ⟨e₁, he₁, e₅, he₅, hx, hy, ?_⟩
  have hselect : ∀ (e : Ended outdir) m, e.Of m →
      (decide (m.key.batch = b) && decide (m.key.exercise = 1 ∧ m.key.numThreads = some 1)) =
        decide (e.call.v = 1 ∧ e.call.p = 1 ∧ e.call.b = b) := by
    intro e m hm
    obtain ⟨-, hb, hv, hp⟩ := Point.mk.inj hm.point
    rw [hb, hv, hp, ← Bool.decide_and]
    apply decide_eq_decide.mpr
    rw [Option.some.injEq, Nat.cast_eq_one]
    tauto
  rw [seqBaseline, lookup_meanBy, List.filter_filter, mean_filter hrows hselect, hfilter,
    List.flatMap_cons, List.flatMap_singleton]
  apply average_of_length (by decide)
  rw [List.length_append, e₁.length_throughputs, e₅.length_throughputs, hx, hy]
  rfl

/-- The reference line has the runs of one second. -/
theorem mem_refAgg {k : Nat × Option ℚ} :
    (k, q) ∈ refAgg runDf ↔ ∃ e ∈ h, e.call = ⟨1, .seq, 1, 10, 1, k.1⟩ ∧ k.2 = some 1 ∧
      q = some (meanOf e.throughputs 10) := by
  have href : ∀ (e : Ended outdir) m, e.Of m →
      ((m.key.exercise = 1 ∧ m.timeInterval = some 1) ∧ (m.key.batch, m.timeInterval) = k ↔
        (e.call.v = 1 ∧ e.call.secs = 1 ∧ e.call.b = k.1) ∧ k.2 = some 1) := by
    intro e m hm
    obtain ⟨-, hb, hv, -⟩ := Point.mk.inj hm.point
    rw [hb, hv, hm.timeInterval, Option.some.injEq, Nat.cast_eq_one, Prod.ext_iff]
    constructor
    · rintro ⟨⟨hv, hsecs⟩, hb, hk⟩
      simp only [hsecs, Nat.cast_one] at hk
      exact ⟨⟨hv, hsecs, hb⟩, hk.symm⟩
    · rintro ⟨⟨hv, hsecs, hb⟩, hk⟩
      refine ⟨⟨hv, hsecs⟩, hb, ?_⟩
      simp only [hsecs, Nat.cast_one]
      exact hk.symm
  have hcall : ∀ e ∈ h, e.call = ⟨1, .seq, 1, 10, 1, k.1⟩ ↔
      e.call.v = 1 ∧ e.call.secs = 1 ∧ e.call.b = k.1 := by
    intro e he
    constructor
    · intro hc
      rw [hc]
      exact ⟨rfl, rfl, rfl⟩
    · rintro ⟨hv, hsecs, hb⟩
      rw [refRuns_benchSh _ (call_mem hcalls he) hv hsecs, hb]
  have hmean : ∀ e ∈ h, e.call = ⟨1, .seq, 1, 10, 1, k.1⟩ → k.2 = some 1 →
      mean Metrics.throughputOpsS ((runDf.filter fun m =>
        m.key.exercise = 1 ∧ m.timeInterval = some 1).filter fun m =>
          (m.key.batch, m.timeInterval) = k) = some (meanOf e.throughputs 10) := by
    intro e he hc hk
    have hselect : ∀ (e' : Ended outdir) m, e'.Of m →
        (decide ((m.key.batch, m.timeInterval) = k) &&
          decide (m.key.exercise = 1 ∧ m.timeInterval = some 1)) =
          decide (e'.call.v = 1 ∧ e'.call.secs = 1 ∧ e'.call.b = k.1) := by
      intro e' m hm
      rw [Bool.and_comm, ← Bool.decide_and]
      apply decide_eq_decide.mpr
      rw [href e' m hm, and_iff_left hk]
    have hone : h.filter (fun e' => e'.call.v = 1 ∧ e'.call.secs = 1 ∧ e'.call.b = k.1) = [e] := by
      apply filter_call hcalls he
      intro e' he'
      rw [decide_eq_true_eq, ← hcall e' he', hc]
    rw [List.filter_filter, mean_filter hrows hselect, hone, List.flatMap_singleton,
      average_throughputs hcalls he]
  have hexists := exists_mem_runs hrows href
  rw [refAgg, mem_meanBy]
  constructor
  · rintro ⟨⟨m, hm, hk⟩, rfl⟩
    obtain ⟨hm, hcond⟩ := List.mem_filter.mp hm
    obtain ⟨e, he, hP, hsecond⟩ := hexists.mp ⟨m, hm, of_decide_eq_true hcond, hk⟩
    have hc := (hcall e he).mpr hP
    exact ⟨e, he, hc, hsecond, hmean e he hc hsecond⟩
  · rintro ⟨e, he, hc, hsecond, rfl⟩
    obtain ⟨m, hm, hcond, hk⟩ := hexists.mpr ⟨e, he, (hcall e he).mp hc, hsecond⟩
    exact ⟨⟨m, List.mem_filter.mpr ⟨hm, decide_eq_true hcond⟩, hk⟩,
      (hmean e he hc hsecond).symm⟩

/-- The speedup of a point. -/
theorem mem_speedup :
    (pt, q) ∈ speedup runDf ↔ ∃ e ∈ h, e.call.v ≠ 1 ∧ pt = e.point ∧
      ∃ e₁ ∈ h, ∃ e₅ ∈ h, e₁.call = ⟨1, .seq, 1, 10, 1, e.call.b⟩ ∧
        e₅.call = ⟨1, .seq, 1, 10, 5, e.call.b⟩ ∧
        q = if meanOf (e₁.throughputs ++ e₅.throughputs) 20 = 0 then none
          else some (meanOf e.throughputs 10 / meanOf (e₁.throughputs ++ e₅.throughputs) 20) := by
  have hspeedup : ∀ e ∈ h, ∃ e₁ ∈ h, ∃ e₅ ∈ h, e₁.call = ⟨1, .seq, 1, 10, 1, e.call.b⟩ ∧
      e₅.call = ⟨1, .seq, 1, 10, 5, e.call.b⟩ ∧
      calculateSpeedup (seqBaseline runDf) (e.point, some (meanOf e.throughputs 10)) =
        if meanOf (e₁.throughputs ++ e₅.throughputs) 20 = 0 then none
        else some (meanOf e.throughputs 10 / meanOf (e₁.throughputs ++ e₅.throughputs) 20) := by
    intro e he
    have hb := batch_benchSh _ (call_mem hcalls he)
    obtain ⟨e₁, he₁, e₅, he₅, hx, hy, hbase⟩ := lookup_seqBaseline hcalls hrows hb
    refine ⟨e₁, he₁, e₅, he₅, hx, hy, ?_⟩
    have hlookup : ((seqBaseline runDf).lookup e.point.batch).join = _ := hbase
    rw [calculateSpeedup, hlookup]
    rfl
  rw [speedup, List.mem_map]
  constructor
  · rintro ⟨⟨pt', q'⟩, hmem, heq⟩
    obtain ⟨rfl, rfl⟩ := Prod.mk.inj heq
    obtain ⟨e, he, hv, rfl, rfl⟩ := (mem_aggDf hcalls hrows).mp hmem
    exact ⟨e, he, hv, rfl, hspeedup e he⟩
  · rintro ⟨e, he, hv, rfl, e₁, he₁, e₅, he₅, hx, hy, rfl⟩
    obtain ⟨e₁', he₁', e₅', he₅', hx', hy', hq⟩ := hspeedup e he
    rw [call_inj hcalls he₁' he₁ (hx'.trans hx.symm),
      call_inj hcalls he₅' he₅ (hy'.trans hy.symm)] at hq
    refine ⟨_, (mem_aggDf hcalls hrows).mpr ⟨e, he, hv, rfl, rfl⟩, ?_⟩
    rw [← hq]

/-- The script uses the default variants and batch sizes only. -/
theorem default_of_mem_aggDf (hmem : (pt, q) ∈ aggDf runDf) :
    pt.variant ∈ defaultVariants ∧ pt.batch ∈ defaultBatches := by
  obtain ⟨e, he, hv, rfl, -⟩ := (mem_aggDf hcalls hrows).mp hmem
  have hx := call_mem hcalls he
  exact ⟨letters_mem_defaultVariants _ hx hv, mem_defaultBatches.mpr (batch_benchSh _ hx)⟩

theorem drawn_aggDf : Drawn (aggDf runDf) (pt, q) ↔ (pt, q) ∈ aggDf runDf := by
  rw [drawn_iff, and_iff_left_of_imp]
  exact default_of_mem_aggDf hcalls hrows

theorem drawn_speedup : Drawn (speedup runDf) (pt, q) ↔ (pt, q) ∈ speedup runDf := by
  rw [drawn_iff, and_iff_left_of_imp]
  intro hmem
  obtain ⟨row, hrow, heq⟩ := List.mem_map.mp hmem
  obtain ⟨rfl, -⟩ := Prod.mk.inj heq
  exact default_of_mem_aggDf hcalls hrows hrow

end Points

/-- **What is drawn of a run of `bench.sh`.**  The points of the throughput plot and of the speedup
plot are those of the concurrent calls.  The throughput is the mean of the ten repetitions, and the
speedup is that mean over the mean of the twenty sequential repetitions with the same batch size,
ten of one second and ten of five.  The reference lines of the throughput plot are the means of the
ten of one second. -/
theorem speedup_of_benchSh (h : List (Ended outdir)) (hcalls : h.map Ended.call = benchSh)
    (files : Folder) (hfiles : files.Perm (folderOf h)) (path : List Char) :
    ∃ df, loadAllCsvs path files = .ok df ∧
      (∀ pt q, Drawn (aggDf (perRunMetrics df)) (pt, q) ↔ ∃ e ∈ h, e.call.v ≠ 1 ∧ pt = e.point ∧
        q = some (meanOf e.throughputs 10)) ∧
      (∀ pt q, Drawn (speedup (perRunMetrics df)) (pt, q) ↔
        (pt, q) ∈ speedup (perRunMetrics df)) ∧
      (∀ pt q, (pt, q) ∈ speedup (perRunMetrics df) ↔ ∃ e ∈ h, e.call.v ≠ 1 ∧ pt = e.point ∧
        ∃ e₁ ∈ h, ∃ e₅ ∈ h, e₁.call = ⟨1, .seq, 1, 10, 1, e.call.b⟩ ∧
          e₅.call = ⟨1, .seq, 1, 10, 5, e.call.b⟩ ∧
          q = if meanOf (e₁.throughputs ++ e₅.throughputs) 20 = 0 then none
            else some (meanOf e.throughputs 10 / meanOf (e₁.throughputs ++ e₅.throughputs) 20)) ∧
      ∀ k q, (k, q) ∈ refAgg (perRunMetrics df) ↔ k.1 ∈ defaultBatches ∧ ∃ e ∈ h,
        e.call = ⟨1, .seq, 1, 10, 1, k.1⟩ ∧ k.2 = some 1 ∧ q = some (meanOf e.throughputs 10) := by
  have hnodup : (h.map Ended.call).Nodup := hcalls ▸ script_benchSh.nodup
  have hne : h ≠ [] := by
    rintro rfl
    cases hcalls
  obtain ⟨df, hload⟩ := exists_loadAll hne hnodup hfiles path
  have hrows : (perRunMetrics df).Perm (h.flatMap Ended.runs) := by
    rw [← metrics_repetitionRows]
    exact (groupBy_perm hnodup hfiles hload).map _
  refine ⟨df, hload, fun pt q => ?_, fun _ _ => drawn_speedup hcalls hrows,
    fun _ _ => mem_speedup hcalls hrows, fun k q => ?_⟩
  · rw [drawn_aggDf hcalls hrows]
    exact mem_aggDf hcalls hrows
  · rw [mem_refAgg hcalls hrows, and_iff_right_of_imp]
    rintro ⟨e, he, hcall, -⟩
    have hb := batch_benchSh _ (call_mem hcalls he)
    rw [hcall] at hb
    exact mem_defaultBatches.mpr hb

/-- A run of the script in which every thread finds the time over at once has the point of variant d
with 64 threads and batches of 1000 in Ex5. -/
theorem speedup_of_benchSh_idle :
    ∃ (h : List (Ended [])) (df : List Row) (q : Option ℚ), h.map Ended.call = benchSh ∧
      loadAllCsvs [] (folderOf h) = .ok df ∧
      Drawn (speedup (perRunMetrics df)) (⟨['d'], 1000, 5, some 64⟩, q) := by
  obtain ⟨h, hcalls⟩ := exists_endeds script_benchSh.ok []
  obtain ⟨df, hload, -, hdrawn, hpoints, -⟩ :=
    speedup_of_benchSh h hcalls _ (List.Perm.refl _) []
  have hcall : ∀ x ∈ benchSh, ∃ e ∈ h, e.call = x := fun x hx => List.mem_map.mp (hcalls ▸ hx)
  obtain ⟨e, he, hx⟩ := hcall ⟨5, .d, 64, 10, 1, 1000⟩ (by decide +kernel)
  obtain ⟨e₁, he₁, hx₁⟩ := hcall ⟨1, .seq, 1, 10, 1, e.call.b⟩ (by rw [hx]; decide +kernel)
  obtain ⟨e₅, he₅, hx₅⟩ := hcall ⟨1, .seq, 1, 10, 5, e.call.b⟩ (by rw [hx]; decide +kernel)
  have hv : e.call.v ≠ 1 := by
    rw [hx]
    decide
  have hpoint : (⟨['d'], 1000, 5, some 64⟩ : Point) = e.point := by
    rw [Ended.point, hx]
    simp [Variant.letters]
  exact ⟨h, df, _, hcalls, hload, (hdrawn _ _).mpr
    ((hpoints _ _).mpr ⟨e, he, hv, hpoint, e₁, he₁, e₅, he₅, hx₁, hx₅, rfl⟩)⟩

end ConcurrentQueues.Plot
