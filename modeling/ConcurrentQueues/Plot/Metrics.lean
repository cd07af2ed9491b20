import ConcurrentQueues.Plot.Results

/-!
# Metrics — which rows a metric is computed from

A key names a repetition and a number of threads, but no invocation.  The group of a key holds the
rows of every invocation with such a repetition, and a later header is a row of its own.
-/

namespace ConcurrentQueues.Plot

open Bench Reasoning

/-! ## The file -/

variable {h : List Invocation} {inv : Invocation} {m : Metadata} {name : List Char}
  {df g : List Row} {k : Key} {rep p : Nat}

/-- The rows of one repetition; none if there were fewer. -/
def Invocation.rows (inv : Invocation) (rep : Nat) : List Line :=
  match inv.results[rep]? with
  | some r => (List.finRange inv.numThreads).map (dataLine rep inv.timeInterval r)
  | none => []

/-- The rows of all repetitions. -/
def Invocation.allRows (inv : Invocation) : List Line :=
  inv.results.zipIdx.flatMap fun x =>
    (List.finRange inv.numThreads).map (dataLine x.2 inv.timeInterval x.1)

theorem foldl_writeResultsLine (timeInterval : Nat) (rs : List (Results p)) (i : Nat)
    (f : List Line) :
    (rs.zipIdx (i + 1)).foldl (fun f x => writeResultsLine x.2 timeInterval x.1 f) f =
      f ++ (rs.zipIdx (i + 1)).flatMap fun x =>
        (List.finRange p).map (dataLine x.2 timeInterval x.1) := by
  induction rs generalizing i f with
  | nil => exact (List.append_nil f).symm
  | cons r rs ih =>
      rw [List.zipIdx_cons, List.foldl_cons, ih, List.flatMap_cons, writeResultsLine,
        if_neg (Nat.succ_ne_zero i), List.append_assoc]

/-- An invocation appends a header and its rows. -/
theorem Invocation.main_eq (inv : Invocation) (f : List Line) :
    inv.main f = f ++ header :: inv.allRows := by
  rw [Invocation.main, Invocation.allRows]
  cases hrs : inv.results with
  | nil => exact absurd hrs inv.results_ne_nil
  | cons r rs =>
      rw [List.zipIdx_cons, List.foldl_cons, foldl_writeResultsLine, List.flatMap_cons,
        writeResultsLine, if_pos rfl, List.append_assoc, List.append_assoc]
      rfl

theorem resultsFile_eq (h : List Invocation) :
    resultsFile h = h.flatMap fun inv => header :: inv.allRows := by
  have happend : ∀ f, h.foldl (fun f inv => inv.main f) f =
      f ++ h.flatMap fun inv => header :: inv.allRows := by
    induction h with
    | nil => exact fun f => (List.append_nil f).symm
    | cons inv h ih =>
        intro f
        rw [List.foldl_cons, ih, inv.main_eq, List.flatMap_cons, List.append_assoc]
  exact happend []

/-! ## Keys -/

/-- The key of the rows of repetition `rep` with `p` threads. -/
def Metadata.key (m : Metadata) (rep p : Nat) : Key :=
  ⟨m.file, m.exercise, m.variant, inferImpl m.exercise m.variant, m.batch, m.s,
    some (rep + 1), some p⟩

theorem key_dataLine (m : Metadata) (rep timeInterval : Nat) (r : Results p) (tid : Fin p) :
    (m.row (dataLine rep timeInterval r tid)).key = m.key rep p := rfl

theorem Metadata.key_inj {rep' p' : Nat} : m.key rep p = m.key rep' p' ↔ rep = rep' ∧ p = p' := by
  constructor
  · intro h
    have hrep : (rep : ℚ) + 1 = rep' + 1 := Option.some.inj (congrArg Key.repetition h)
    have hp : (p : ℚ) = p' := Option.some.inj (congrArg Key.numThreads h)
    exact ⟨Nat.cast_injective (add_right_cancel hrep), Nat.cast_injective hp⟩
  · rintro ⟨rfl, rfl⟩
    rfl

/-- A header has no key of a repetition. -/
theorem filter_header (m : Metadata) (rep p : Nat) (ls : List Line) :
    ((header :: ls).map m.row).filter (fun x => x.key = m.key rep p) =
      (ls.map m.row).filter fun x => x.key = m.key rep p := by
  rw [List.map_cons]
  refine List.filter_cons_of_neg fun hkey => ?_
  cases congrArg Key.repetition (of_decide_eq_true hkey)

theorem zipIdx_filter {α : Type} (rs : List α) (i rep : Nat) :
    (rs.zipIdx i).filter (fun x => x.2 = rep) =
      if i ≤ rep then (rs[rep - i]?).toList.map (·, rep) else [] := by
  induction rs generalizing i with
  | nil => simp
  | cons r rs ih =>
      rw [List.zipIdx_cons, List.filter_cons, ih]
      rcases Nat.lt_trichotomy i rep with hlt | rfl | hgt
      · have hsub : rep - i = rep - (i + 1) + 1 := by omega
        rw [if_neg (by simpa using hlt.ne), if_pos (by omega), if_pos (by omega), hsub,
          List.getElem?_cons_succ]
      · rw [if_pos (decide_eq_true rfl), if_neg (by omega), if_pos (Nat.le_refl i), Nat.sub_self]
        rfl
      · rw [if_neg (by simpa using hgt.ne'), if_neg (by omega), if_neg (by omega)]

/-- The rows of an invocation under one key. -/
theorem filter_allRows (inv : Invocation) (m : Metadata) (rep p : Nat) :
    (inv.allRows.map m.row).filter (fun x => x.key = m.key rep p) =
      if inv.numThreads = p then (inv.rows rep).map m.row else [] := by
  have hkey : ∀ x ∈ inv.results.zipIdx, ∀ y ∈ ((List.finRange inv.numThreads).map
      (dataLine x.2 inv.timeInterval x.1)).map m.row, y.key = m.key x.2 inv.numThreads := by
    intro x _ y hy
    obtain ⟨l, hl, rfl⟩ := List.mem_map.mp hy
    obtain ⟨tid, -, rfl⟩ := List.mem_map.mp hl
    exact key_dataLine m x.2 inv.timeInterval x.1 tid
  rw [Invocation.allRows, List.map_flatMap, filter_flatMap_of_key hkey]
  split
  next hp =>
    have hrep : (fun x : Results inv.numThreads × Nat =>
        decide (m.key x.2 inv.numThreads = m.key rep p)) = fun x => decide (x.2 = rep) := by
      funext x
      simp only [Metadata.key_inj, hp, and_true]
    rw [hrep, zipIdx_filter, if_pos (Nat.zero_le rep), Nat.sub_zero, Invocation.rows]
    cases inv.results[rep]? with
    | none => rfl
    | some r => exact List.append_nil _
  next hp =>
    have hrep : inv.results.zipIdx.filter (fun x =>
        decide (m.key x.2 inv.numThreads = m.key rep p)) = [] :=
      List.filter_eq_nil_iff.mpr fun x _ hx =>
        hp (Metadata.key_inj.mp (of_decide_eq_true hx)).2
    rw [hrep]
    rfl

/-- A run, as the rows of a group and their metrics. -/
structure IsRun (inv : Invocation) (rep : Fin inv.results.length) (k : Key) (g : List Row) :
    Prop where
  rows : g.map Row.value = (List.finRange inv.numThreads).map fun tid c =>
    toNumeric (dataLine rep inv.timeInterval inv.results[rep] tid c)
  threadIds : g.map (·.value .threadId) =
    (List.range inv.numThreads).map fun i : Nat => some (i : ℚ)
  totalEnq : (metrics k g).totalEnq =
    ((List.finRange inv.numThreads).map fun tid =>
      ((inv.results[rep].worker tid).enqCount.toInt : ℚ)).sum
  totalDeq : (metrics k g).totalDeq =
    ((List.finRange inv.numThreads).map fun tid =>
      ((inv.results[rep].worker tid).deqCount.toInt : ℚ)).sum
  freelistInsertions : (metrics k g).freelistInsertions =
    ((List.finRange inv.numThreads).map fun tid =>
      ((inv.results[rep].worker tid).freeListInsertions.toInt : ℚ)).sum

theorem isRun_rows (inv : Invocation) (m : Metadata) (rep : Fin inv.results.length) (k : Key) :
    IsRun inv rep k ((inv.rows rep).map m.row) := by
  have hrows : inv.rows rep =
      (List.finRange inv.numThreads).map (dataLine rep inv.timeInterval inv.results[rep]) := by
    rw [Invocation.rows, List.getElem?_eq_getElem rep.isLt]
    rfl
  have hpresent : ∀ c (v : Fin inv.numThreads → ℚ),
      (∀ tid, dataLine rep inv.timeInterval inv.results[rep] tid c = .number (v tid)) →
      present c ((inv.rows rep).map m.row) = (List.finRange inv.numThreads).map v := by
    intro c v hv
    rw [hrows, List.map_map, present, List.filterMap_map, ← List.filterMap_eq_map]
    congr 1
    funext tid
    simp only [Function.comp_apply, Metadata.row, hv, toNumeric]
  constructor
  · rw [hrows, List.map_map, List.map_map]
    rfl
  · rw [hrows, List.map_map, List.map_map, ← List.map_coe_finRange_eq_range, List.map_map]
    rfl
  · exact congrArg List.sum (hpresent .nrEnqOps _ fun _ => rfl)
  · exact congrArg List.sum (hpresent .nrDeqOps _ fun _ => rfl)
  · exact congrArg List.sum (hpresent .nrFreeListInsertions _ fun _ => rfl)

/-! ## What is loaded -/

theorem resultsFile_cons (inv : Invocation) (h : List Invocation) :
    resultsFile (inv :: h) = header :: (inv.allRows ++ resultsFile h) := by
  rw [resultsFile_eq, resultsFile_eq, List.flatMap_cons, List.cons_append]

theorem exists_metadata {f : List Line} (hload : loadOneCsv name f = .ok df) :
    ∃ m, parseFilename name = .ok m := by
  unfold loadOneCsv at hload
  cases hm : parseFilename name with
  | error e =>
      rw [hm] at hload
      cases hload
  | ok m => exact ⟨m, rfl⟩

/-- The lines after the header of the first invocation. -/
theorem loadOneCsv_eq (hm : parseFilename name = .ok m)
    (hload : loadOneCsv name (resultsFile h) = .ok df) :
    ∃ inv t, h = inv :: t ∧ df = (inv.allRows ++ resultsFile t).map m.row := by
  unfold loadOneCsv at hload
  rw [hm] at hload
  cases h with
  | nil => cases hload
  | cons inv t =>
      rw [resultsFile_cons] at hload
      exact ⟨inv, t, rfl, (Except.ok.inj hload).symm⟩

/-- The invocation has a repetition `rep`, with `p` threads. -/
def Invocation.Has (inv : Invocation) (rep p : Nat) : Prop :=
  inv.numThreads = p ∧ rep < inv.results.length

instance (inv : Invocation) (rep p : Nat) : Decidable (inv.Has rep p) :=
  inferInstanceAs (Decidable (_ ∧ _))

theorem Invocation.rows_eq_nil (hrep : inv.results.length ≤ rep) : inv.rows rep = [] := by
  rw [Invocation.rows, List.getElem?_eq_none hrep]

theorem Invocation.Has.length_rows (hi : inv.Has rep p) : (inv.rows rep).length = p := by
  rw [Invocation.rows, List.getElem?_eq_getElem hi.2]
  simp [hi.1]

/-- The rows under one key are those of every invocation that has such a repetition. -/
theorem filter_resultsFile (h : List Invocation) (m : Metadata) (rep p : Nat) :
    ((resultsFile h).map m.row).filter (fun x => x.key = m.key rep p) =
      ((h.filter fun inv => inv.Has rep p).flatMap fun inv => inv.rows rep).map m.row := by
  induction h with
  | nil => rfl
  | cons inv h ih =>
      rw [resultsFile_cons, filter_header, List.map_append, List.filter_append, filter_allRows, ih,
        List.filter_cons]
      by_cases hi : inv.Has rep p
      · rw [if_pos hi.1, if_pos (decide_eq_true hi), List.flatMap_cons, List.map_append]
      · rw [decide_eq_false hi, if_neg Bool.false_ne_true]
        split
        next hp =>
          rw [Invocation.rows_eq_nil (Nat.not_lt.mp fun hrep => hi ⟨hp, hrep⟩)]
          rfl
        next => rfl

theorem key_allRows {l : Line} (hl : l ∈ inv.allRows) :
    ∃ rep, inv.Has rep inv.numThreads ∧ (m.row l).key = m.key rep inv.numThreads := by
  obtain ⟨⟨r, rep⟩, hr, hl⟩ := List.mem_flatMap.mp hl
  obtain ⟨tid, -, rfl⟩ := List.mem_map.mp hl
  exact ⟨rep, ⟨rfl, List.snd_lt_of_mem_zipIdx hr⟩, key_dataLine m rep inv.timeInterval r tid⟩

/-- A loaded group holds the rows of every invocation that has such a repetition. -/
theorem filter_loaded (hm : parseFilename name = .ok m)
    (hload : loadOneCsv name (resultsFile h) = .ok df) (rep p : Nat) :
    df.filter (fun x => x.key = m.key rep p) =
      ((h.filter fun inv => inv.Has rep p).flatMap fun inv => inv.rows rep).map m.row := by
  obtain ⟨inv, t, rfl, rfl⟩ := loadOneCsv_eq hm hload
  rw [← filter_resultsFile, resultsFile_cons, filter_header]

theorem length_flatMap_rows (h : List Invocation) (rep p : Nat) :
    ((h.filter fun inv => inv.Has rep p).flatMap fun inv => inv.rows rep).length =
      (h.filter fun inv => inv.Has rep p).length * p := by
  have hlen : (h.filter fun inv => inv.Has rep p).map (fun inv => (inv.rows rep).length) =
      (h.filter fun inv => inv.Has rep p).map fun _ => p :=
    List.map_congr_left fun inv hinv =>
      (of_decide_eq_true (List.mem_filter.mp hinv).2).length_rows
  rw [List.length_flatMap, hlen, List.map_const', List.sum_replicate_nat]

/-- A group of rows is one run if and only if one invocation only has such a repetition. -/
theorem isRun_group_iff (hm : parseFilename name = .ok m)
    (hload : loadOneCsv name (resultsFile h) = .ok df) (hg : (m.key rep p, g) ∈ groupBy df) :
    (∃ inv ∈ h, ∃ i, IsRun inv i (m.key rep p) g) ↔
      (h.filter fun inv => inv.Has rep p).length = 1 := by
  obtain ⟨⟨x, hx, hkey⟩, rfl⟩ := mem_groups.mp hg
  have hxg : x ∈ df.filter fun y => y.key = m.key rep p :=
    List.mem_filter.mpr ⟨hx, decide_eq_true hkey⟩
  rw [filter_loaded hm hload] at hxg ⊢
  constructor
  · rintro ⟨inv, -, i, hrun⟩
    have hvalue := List.mem_map_of_mem hxg (f := Row.value)
    rw [hrun.rows] at hvalue
    obtain ⟨tid, -, hline⟩ := List.mem_map.mp hvalue
    have hnum : some (inv.numThreads : ℚ) = x.value .numThreads := congrFun hline .numThreads
    have hp : (inv.numThreads : ℚ) = p :=
      Option.some.inj (hnum.trans (congrArg Key.numThreads hkey))
    obtain rfl : inv.numThreads = p := Nat.cast_injective hp
    have hlen := congrArg List.length hrun.rows
    rw [List.length_map, List.length_map, length_flatMap_rows, List.length_map,
      List.length_finRange] at hlen
    exact Nat.eq_of_mul_eq_mul_right inv.numThreads_pos (hlen.trans (Nat.one_mul _).symm)
  · intro hone
    obtain ⟨inv, hinv⟩ := List.length_eq_one_iff.mp hone
    have hmem : inv ∈ h.filter fun inv => inv.Has rep p := hinv ▸ List.mem_singleton_self inv
    obtain ⟨hh, hhas⟩ := List.mem_filter.mp hmem
    obtain ⟨rfl, hrep⟩ := of_decide_eq_true hhas
    rw [hinv, List.flatMap_singleton]
    exact ⟨inv, hh, ⟨rep, hrep⟩, isRun_rows inv m ⟨rep, hrep⟩ _⟩

theorem columnSum_flatMap (c : Column) (m : Metadata) (rep : Nat) (l : List Invocation) :
    columnSum c ((l.flatMap fun inv => inv.rows rep).map m.row) =
      (l.map fun inv => columnSum c ((inv.rows rep).map m.row)).sum := by
  induction l with
  | nil => rfl
  | cons inv l ih =>
      rw [List.flatMap_cons, List.map_append, List.map_cons, List.sum_cons, ← ih, columnSum,
        present, List.filterMap_append, List.sum_append]
      rfl

/-- The sums of a group count every invocation that has such a repetition. -/
theorem columnSum_group (hm : parseFilename name = .ok m)
    (hload : loadOneCsv name (resultsFile h) = .ok df) (hg : (m.key rep p, g) ∈ groupBy df)
    (c : Column) :
    columnSum c g = ((h.filter fun inv => inv.Has rep p).map fun inv =>
      columnSum c ((inv.rows rep).map m.row)).sum := by
  obtain ⟨-, rfl⟩ := mem_groups.mp hg
  rw [filter_loaded hm hload, columnSum_flatMap]

/-- Every group is one run if and only if one invocation only has written to the file. -/
theorem groups_isRun_iff (h : List Invocation) (name : List Char) (df : List Row)
    (hload : loadOneCsv name (resultsFile h) = .ok df) :
    (∀ g ∈ groupBy df, ∃ inv ∈ h, ∃ i, IsRun inv i g.1 g.2) ↔ h.length = 1 := by
  obtain ⟨m, hm⟩ := exists_metadata hload
  obtain ⟨inv, t, rfl, hdf⟩ := loadOneCsv_eq hm hload
  constructor
  · intro hall
    cases ht : t with
    | nil => rfl
    | cons inv' t' =>
        -- the header of the second invocation is a row without numbers
        have hheader : m.row header ∈ df := by
          rw [hdf, ht, resultsFile_cons]
          exact List.mem_map_of_mem (List.mem_append_right _ List.mem_cons_self)
        obtain ⟨g, hg, hmem⟩ := @exists_mem_groups _ _ _ Row.key _ _ hheader
        obtain ⟨run, -, i, hrun⟩ := hall _ hg
        have hvalue := List.mem_map_of_mem hmem (f := Row.value)
        rw [hrun.rows] at hvalue
        obtain ⟨tid, -, hline⟩ := List.mem_map.mp hvalue
        cases congrFun hline .repetition
  · intro hone
    rintro ⟨k, g⟩ hg
    obtain rfl := List.eq_nil_of_length_eq_zero (Nat.succ.inj hone)
    obtain ⟨⟨x, hx, rfl⟩, -⟩ := mem_groups.mp hg
    rw [hdf] at hx
    obtain ⟨l, hl, rfl⟩ := List.mem_map.mp hx
    rcases List.mem_append.mp hl with hl | hl
    · obtain ⟨rep, hhas, hkey⟩ := key_allRows (m := m) hl
      rw [hkey] at hg ⊢
      refine (isRun_group_iff hm hload hg).mpr ?_
      rw [List.filter_cons, decide_eq_true hhas, if_pos rfl]
      rfl
    · cases hl

/-! ## A folder of files -/

theorem mapM_cons_eq {α β : Type} {f : α → Except Error β} {x : α} {l : List α} {ys : List β}
    (h : (x :: l).mapM f = .ok ys) : ∃ y ys', ys = y :: ys' ∧ f x = .ok y ∧ l.mapM f = .ok ys' := by
  rw [List.mapM_cons] at h
  obtain ⟨y, hy, h⟩ := exists_of_bind h
  obtain ⟨ys', hys', h⟩ := exists_of_bind h
  cases h
  exact ⟨y, ys', rfl, hy, hys'⟩

theorem mem_mapM {α β : Type} {f : α → Except Error β} {l : List α} {ys : List β}
    (h : l.mapM f = .ok ys) (y : β) : y ∈ ys ↔ ∃ x ∈ l, f x = .ok y := by
  induction l generalizing ys with
  | nil =>
      cases h
      simp
  | cons x l ih =>
      obtain ⟨z, ys', rfl, hz, hys'⟩ := mapM_cons_eq h
      rw [List.mem_cons, List.exists_mem_cons_iff, ih hys', hz]
      exact or_congr_left ⟨fun h => h ▸ rfl, fun h => (Except.ok.inj h).symm⟩

theorem file_of_mem {f : List Line} (hload : loadOneCsv name f = .ok df) {r : Row} (hr : r ∈ df) :
    r.key.file = name := by
  obtain ⟨m, hm, hload⟩ := exists_of_bind hload
  obtain ⟨lines, -, hload⟩ := exists_of_bind hload
  cases hload
  obtain ⟨l, -, rfl⟩ := List.mem_map.mp hr
  exact (file_mode hm).1

theorem pairwise_parts {files : List (List Char × List Line)} {parts : List (List Row)}
    (hnames : (files.map Prod.fst).Nodup)
    (hload : (files.mapM fun x => loadOneCsv x.1 x.2) = .ok parts) :
    parts.Pairwise fun l l' => ∀ x ∈ l, ∀ y ∈ l', x.key ≠ y.key := by
  induction files generalizing parts with
  | nil =>
      cases hload
      exact .nil
  | cons x files ih =>
      obtain ⟨part, parts, rfl, hpart, hparts⟩ := mapM_cons_eq hload
      rw [List.map_cons, List.nodup_cons] at hnames
      refine .cons (fun part' hpart' r hr r' hr' hkey => hnames.1 ?_) (ih hnames.2 hparts)
      obtain ⟨x', hx', hload'⟩ := (mem_mapM hparts part').mp hpart'
      rw [← file_of_mem hpart hr, hkey, file_of_mem hload' hr']
      exact List.mem_map_of_mem hx'

/-- The groups of a folder are those of its files. -/
theorem mem_groupBy_folder {folder : List Char} {files : List (List Char × List Line)}
    (hnames : (files.map Prod.fst).Nodup) (hload : loadAllCsvs folder files = .ok df) :
    (k, g) ∈ groupBy df ↔
      ∃ x ∈ files, ∃ part, loadOneCsv x.1 x.2 = .ok part ∧ (k, g) ∈ groupBy part := by
  unfold loadAllCsvs at hload
  split at hload
  next => cases hload
  obtain ⟨parts, hparts, hload⟩ := exists_of_bind hload
  cases hload
  rw [groupBy, mem_groups_flatten (pairwise_parts hnames hparts)]
  constructor
  · rintro ⟨part, hpart, hg⟩
    obtain ⟨x, hx, hload⟩ := (mem_mapM hparts part).mp hpart
    exact ⟨x, hx, part, hload, hg⟩
  · rintro ⟨x, hx, part, hload, hg⟩
    exact ⟨part, (mem_mapM hparts part).mpr ⟨x, hx, hload⟩, hg⟩

/-! ## The script, called twice -/

/-- A call of `small_bench.sh` with one thread, which has enqueued `n` values in each
repetition. -/
def smallBench (n : Int32) : Invocation where
  numThreads := 1
  timeInterval := 1
  results := List.replicate 2
    { worker := fun _ => { Worker.start with enqCount := n, deqCount := n }
      threadTimes := fun _ => 1 }
  numThreads_pos := by decide
  timeInterval_pos := by decide
  results_ne_nil := List.cons_ne_nil _ _

def smallName : List Char := "ex2_a_p1_b1_s1_r2.csv".toList

def smallMetadata : Metadata := ⟨smallName, 2, ['a'], 1, 1, 1, 2, .concurrent⟩

theorem parseFilename_small : parseFilename smallName = .ok smallMetadata := by decide

theorem groups_isRun_iff_smallBench :
    (∀ g ∈ groupBy ((resultsFile [smallBench 5]).tail.map smallMetadata.row),
      ∃ inv ∈ [smallBench 5], ∃ i, IsRun inv i g.1 g.2) ↔ [smallBench 5].length = 1 :=
  groups_isRun_iff [smallBench 5] smallName _ rfl

/-- The script, called twice, leaves one group for two runs. -/
theorem two_runs_in_a_group :
    ∃ df g, loadOneCsv smallName (resultsFile [smallBench 5, smallBench 3]) = .ok df ∧
      (smallMetadata.key 0 1, g) ∈ groupBy df ∧
      (metrics (smallMetadata.key 0 1) g).totalEnq = 8 ∧
      ¬ ∃ inv ∈ [smallBench 5, smallBench 3], ∃ i,
        IsRun inv i (smallMetadata.key 0 1) g := by
  have hload : loadOneCsv smallName (resultsFile [smallBench 5, smallBench 3]) =
      .ok ((resultsFile [smallBench 5, smallBench 3]).tail.map smallMetadata.row) := rfl
  have hfirst : smallMetadata.row (dataLine 0 1 ((smallBench 5).results.head
      (List.cons_ne_nil _ _)) (0 : Fin 1)) ∈
      (resultsFile [smallBench 5, smallBench 3]).tail.map smallMetadata.row :=
    List.mem_map_of_mem List.mem_cons_self
  obtain ⟨g, hg, -⟩ := @exists_mem_groups _ _ _ Row.key _ _ hfirst
  have hkey : (smallMetadata.key 0 1, g) ∈
      groupBy ((resultsFile [smallBench 5, smallBench 3]).tail.map smallMetadata.row) := hg
  have hsum := columnSum_group parseFilename_small hload hkey .nrEnqOps
  refine ⟨_, g, hload, hkey, hsum.trans (by decide +kernel), ?_⟩
  rw [isRun_group_iff parseFilename_small hload hkey]
  decide

end ConcurrentQueues.Plot
