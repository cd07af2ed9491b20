import ConcurrentQueues.Bench.Runs
import ConcurrentQueues.Plot.Report

/-!
# Campaign — from a benchmark script to the metrics

Every call of a script writes a results file of its own, whose name tells the configuration.  The
groups that `plot.py` finds in the folder are the repetitions of the calls.
-/

namespace ConcurrentQueues.Plot

open Bench Reasoning

variable {k : Nat} {x y : RunOne} {outdir : Text}

/-! ## The names of the files -/

theorem toLower_of_isDigit {c : Char} (h : c.isDigit = true) : c.toLower = c := by
  have hrange : 48 ≤ c.toNat ∧ c.toNat ≤ 57 := by
    simpa [Char.isDigit, UInt32.le_iff_toNat_le] using h
  rcases Regex.toLower_cases c with hc | ⟨hc, -⟩
  · exact hc
  · omega

/-- A number of the script in the name of a file. -/
def Numeral.ofNat (k : Nat) (hk : k < 2 ^ 31) : Numeral where
  digits := Nat.toDigits 10 k
  ne_nil := Nat.toDigits_ne_nil
  isDigit := fun _ hc => isDigit_of_mem_toDigits hc
  short := by
    have hlen : (Nat.toDigits 10 k).length ≤ 10 :=
      (Nat.length_toDigits_le_iff (by decide) (by decide)).mpr (by omega)
    exact hlen.trans (by decide)

theorem Numeral.value_ofNat (hk : k < 2 ^ 31) : (Numeral.ofNat k hk).value = k :=
  Nat.ofDigitChars_ten_toDigits

def variantWord (variant : Variant) : Word where
  letters := variant.letters
  ne_nil := by cases variant <;> decide
  isLower := by cases variant <;> simp [Variant.letters]

/-- The fields that `out` is made of. -/
def fieldsOf (x : RunOne) (hx : x.Ok) : Fields where
  exercise := .ofNat x.v hx.v_lt
  variant := variantWord x.variant
  p := .ofNat x.p hx.p_lt
  b := .ofNat x.b hx.b_lt
  s := .ofNat x.secs hx.secs_lt
  r := .ofNat x.reps hx.reps_lt

/-- What the name of the file says. -/
def metadataOf (x : RunOne) : Metadata :=
  ⟨x.out, x.v, x.variant.letters, x.p, x.b, x.secs, x.reps, .concurrent⟩

theorem map_toLower_toDigits (k : Nat) :
    (Nat.toDigits 10 k).map Char.toLower = Nat.toDigits 10 k :=
  List.map_congr_left (fun _ hc => toLower_of_isDigit (isDigit_of_mem_toDigits hc)) |>.trans
    (List.map_id _)

theorem map_toLower_letters (variant : Variant) :
    variant.letters.map Char.toLower = variant.letters := by
  cases variant <;> decide

theorem parseFilename_out (hx : x.Ok) : parseFilename x.out = .ok (metadataOf x) := by
  have hlower : x.out.map Char.toLower = (fieldsOf x hx).fileName := by
    simp only [RunOne.out, List.map_flatten, List.map_cons, List.map_nil, map_toLower_toDigits,
      map_toLower_letters]
    rfl
  rw [parseFilename_eq hlower]
  simp only [Fields.metadata, fieldsOf, Numeral.value_ofNat]
  rfl

theorem letters_inj {variant variant' : Variant} (h : variant.letters = variant'.letters) :
    variant = variant' := by
  cases variant <;> cases variant' <;> first | rfl | exact absurd h (by decide)

theorem call_ext (hv : x.v = y.v) (hvariant : x.variant = y.variant) (hp : x.p = y.p)
    (hreps : x.reps = y.reps) (hsecs : x.secs = y.secs) (hb : x.b = y.b) : x = y := by
  obtain ⟨v, variant, p, reps, secs, b⟩ := x
  obtain ⟨v', variant', p', reps', secs', b'⟩ := y
  simp only at hv hvariant hp hreps hsecs hb
  rw [hv, hvariant, hp, hreps, hsecs, hb]

/-- Two calls write to one file only if they are the same. -/
theorem out_inj (hx : x.Ok) (hy : y.Ok) (h : x.out = y.out) : x = y := by
  have hboth := parseFilename_out hx
  rw [h, parseFilename_out hy] at hboth
  obtain ⟨-, hv, hletters, hp, hb, hsecs, hreps, -⟩ := Metadata.mk.inj (Except.ok.inj hboth)
  exact (call_ext hv (letters_inj hletters) hp hreps hsecs hb).symm

/-! ## The folder -/

/-- The files of a folder. -/
abbrev Folder := List (List Char × List Line)

/-- `fopen` with the mode `"a"`, and what is written to the file then. -/
def appendTo (name : List Char) (write : List Line → List Line) : Folder → Folder
  | [] => [(name, write [])]
  | (other, f) :: rest =>
      if other = name then (other, write f) :: rest
      else (other, f) :: appendTo name write rest

theorem appendTo_new {name : List Char} {write : List Line → List Line} {folder : Folder}
    (h : ∀ f ∈ folder, f.1 ≠ name) : appendTo name write folder = folder ++ [(name, write [])] := by
  induction folder with
  | nil => rfl
  | cons f folder ih =>
      rw [appendTo, if_neg (h f List.mem_cons_self),
        ih fun g hg => h g (List.mem_cons_of_mem f hg), List.cons_append]

/-! ## The calls of a script -/

theorem roles_length (hx : x.Ok) (role : Nat → Bool) :
    ((List.range x.p).map fun i => roleSpec (role i) (.ofNat x.b)).length =
      (Int32.ofNat x.p).toInt.toNat := by
  rw [toInt_ofNat_range hx.p_lt, List.length_map, List.length_range, Int.toNat_natCast]

theorem roleSpec_valid (hx : x.Ok) (active : Bool) : (roleSpec active (.ofNat x.b)).Valid := by
  have hb : 0 ≤ (Int32.ofNat x.b).toInt := by
    rw [toInt_ofNat_range hx.b_lt]
    exact Int.natCast_nonneg _
  exact (roleSpec_parsed hb active).valid

theorem roles_valid (hx : x.Ok) (role : Nat → Bool) :
    ∀ e ∈ (List.range x.p).map fun i => roleSpec (role i) (.ofNat x.b), e.Valid := by
  intro e he
  obtain ⟨i, -, rfl⟩ := List.mem_map.mp he
  exact roleSpec_valid hx _

theorem args_ok (hx : x.Ok) (outdir : Text) : (x.args outdir).Ok where
  numThreads := ofNat_pos hx.p_pos hx.p_lt
  numRepetitions := ofNat_pos hx.reps_pos hx.reps_lt
  timeInterval := ofNat_pos hx.secs_pos hx.secs_lt
  enqSpecs := ⟨roles_length hx _, roles_valid hx _⟩
  deqSpecs := ⟨roles_length hx _, roles_valid hx _⟩

theorem threads_args (hx : x.Ok) (outdir : Text) : (x.args outdir).threads x.v = x.p := by
  have hp : (x.args outdir).numThreads.toInt = x.p := toInt_ofNat_range hx.p_lt
  unfold Args.threads
  split
  next h => exact (hx.sequential h.1).symm
  next => omega

theorem repetitions_args (hx : x.Ok) (outdir : Text) : repetitions (x.args outdir) = x.reps := by
  have hreps : (x.args outdir).numRepetitions.toInt = x.reps := toInt_ofNat_range hx.reps_lt
  unfold repetitions
  omega

theorem seconds_args (hx : x.Ok) (outdir : Text) : seconds (x.args outdir) = x.secs := by
  have hsecs : (x.args outdir).timeInterval.toInt = x.secs := toInt_ofNat_range hx.secs_lt
  unfold seconds
  omega

/-- A call whose regions have all ended. -/
structure Ended (outdir : Text) where
  call : RunOne
  ok : call.Ok
  es : Fin (repetitions (call.args outdir)) → List (Fin ((call.args outdir).threads call.v) ×
    ClientChoice (version ((call.args outdir).threads call.v) call.v).Choice)
  s : Fin (repetitions (call.args outdir)) → Config (Fin ((call.args outdir).threads call.v))
    (version ((call.args outdir).threads call.v) call.v).Mem
    (Client (version ((call.args outdir).threads call.v) call.v).Local)
  times : Fin (repetitions (call.args outdir)) → Fin ((call.args outdir).threads call.v) → ℚ
  run : ∀ r, run (runBenchmark (version ((call.args outdir).threads call.v) call.v)
      (fun t => roleSpec (call.variant.enqueues call.p t) (.ofNat call.b))
      fun t => roleSpec (call.variant.dequeues call.p t) (.ofNat call.b))
    (benchmarkInit (version ((call.args outdir).threads call.v) call.v)) (es r) = some (s r)
  done : ∀ r t, ((s r).th t).loc = .done

/-- A region in which every thread finds the time over at once. -/
theorem exists_idle {n : Nat} (Q : Queue n) (c : Q.Choice) (enqSpecs deqSpecs : Fin n → BatchSpec) :
    ∃ es s, run (runBenchmark Q enqSpecs deqSpecs) (benchmarkInit Q) es = some s ∧
      ∀ t, (s.th t).loc = .done := by
  have hthreads : ∀ ts : List (Fin n), ts.Nodup → ∀ s : Config (Fin n) Q.Mem (Client Q.Local),
      (∀ t ∈ ts, (s.th t).loc = .top) → ∃ s', run (runBenchmark Q enqSpecs deqSpecs) s
        (ts.map fun t => (t, ⟨false, 0, 0, 0, c⟩)) = some s' ∧
        ∀ t, (s'.th t).loc = if t ∈ ts then .done else (s.th t).loc := by
    intro ts
    induction ts with
    | nil => exact fun _ s _ => ⟨s, rfl, fun t => (if_neg List.not_mem_nil).symm⟩
    | cons u ts ih =>
        intro hnodup s htop
        obtain ⟨hu, hts⟩ := List.nodup_cons.mp hnodup
        have hstep : runBenchmark Q enqSpecs deqSpecs u ⟨false, 0, 0, 0, c⟩ s.mem (s.th u) =
            .next s.mem { s.th u with loc := .done } := by
          rw [runBenchmark, htop u List.mem_cons_self]
          rfl
        have hne : ∀ t ∈ ts, t ≠ u := fun t ht heq => hu (heq ▸ ht)
        obtain ⟨s', hrun, hall⟩ := ih hts
          ⟨s.mem, Function.update s.th u { s.th u with loc := .done }⟩ fun t ht => by
            simp only [Function.update_of_ne (hne t ht)]
            exact htop t (List.mem_cons_of_mem u ht)
        refine ⟨s', run_cons.mpr ⟨_, fire_eq_some.mpr ⟨_, _, hstep, rfl⟩, hrun⟩, fun t => ?_⟩
        rw [hall t]
        by_cases ht : t = u
        · subst ht
          simp
        · simp [ht]
  obtain ⟨s, hrun, hall⟩ := hthreads (List.finRange n) (List.nodup_finRange n) (benchmarkInit Q)
    fun _ _ => rfl
  refine ⟨_, s, hrun, fun t => ?_⟩
  rw [hall t, if_pos (List.mem_finRange t)]

theorem exists_choice (n v : Nat) : Nonempty (version n v).Choice := by
  unfold version
  split
  · exact ⟨(⟨.deq 0, false, none⟩ : Ex2.Choice)⟩
  · exact ⟨(⟨.deq 0, false, none⟩ : Ex4.Choice)⟩
  · exact ⟨Ex5.Choice.plain (.deq 0)⟩
  · exact ⟨(⟨.deq 0, false, none⟩ : Ex1.Choice)⟩

/-- Every call can end. -/
theorem exists_ended (hx : x.Ok) (outdir : Text) : ∃ e : Ended outdir, e.call = x := by
  obtain ⟨c⟩ := exists_choice ((x.args outdir).threads x.v) x.v
  obtain ⟨es, s, hrun, hall⟩ := exists_idle _ c
    (fun t => roleSpec (x.variant.enqueues x.p t) (.ofNat x.b))
    (fun t => roleSpec (x.variant.dequeues x.p t) (.ofNat x.b))
  exact ⟨⟨x, hx, fun _ => es, fun _ => s, fun _ _ => 1, fun _ => hrun, fun _ => hall⟩, rfl⟩

/-- Every script can end. -/
theorem exists_endeds {runs : List RunOne} (hok : ∀ x ∈ runs, x.Ok) (outdir : Text) :
    ∃ h : List (Ended outdir), h.map Ended.call = runs := by
  induction runs with
  | nil => exact ⟨[], rfl⟩
  | cons x runs ih =>
      obtain ⟨e, rfl⟩ := exists_ended (hok x List.mem_cons_self) outdir
      obtain ⟨h, rfl⟩ := ih fun y hy => hok y (List.mem_cons_of_mem _ hy)
      exact ⟨e :: h, rfl⟩

namespace Ended

variable {e : Ended outdir}

def invocation (e : Ended outdir) : Invocation :=
  Plot.invocation (args_ok e.ok outdir) e.s e.times

/-- The key of a repetition. -/
def key (e : Ended outdir) (r : Nat) : Key := (metadataOf e.call).key r e.call.p

/-- The rows of a repetition. -/
def rows (e : Ended outdir) (r : Nat) : List Row :=
  (e.invocation.rows r).map (metadataOf e.call).row

theorem length_results (e : Ended outdir) :
    e.invocation.results.length = repetitions (e.call.args outdir) := List.length_ofFn

theorem getElem_results (e : Ended outdir) (r : Fin (repetitions (e.call.args outdir))) :
    e.invocation.results[r.val]? = some ⟨fun t => ((e.s r).th t).w, e.times r⟩ := by
  have hlt : r.val < e.invocation.results.length := by
    rw [length_results]
    exact r.isLt
  rw [List.getElem?_eq_getElem hlt]
  exact congrArg some (List.getElem_ofFn hlt)

theorem timeInterval (e : Ended outdir) (r : Fin (repetitions (e.call.args outdir))) :
    (metrics (e.key r) (e.rows r)).timeInterval = some (e.call.secs : ℚ) := by
  rw [← seconds_args e.ok outdir]
  exact columnFirst_rows (e.getElem_results r) fun _ => rfl

/-- The metrics of a repetition are those of its region, as long as no counter overflows. -/
theorem reported (e : Ended outdir) (r : Fin (repetitions (e.call.args outdir)))
    (hfits : ∀ t, Fits ((e.s r).th t).results) :
    Reported e.call.secs (e.s r) (e.times r) (metrics (e.key r) (e.rows r)) := by
  obtain ⟨C⟩ := version_correct ((e.call.args outdir).threads e.call.v) e.call.v
  obtain ⟨haccounted, hleft⟩ := account_of_run C (fun _ => roleSpec_valid e.ok _)
    (fun _ => roleSpec_valid e.ok _) (e.run r) (e.done r) hfits
  rw [← seconds_args e.ok outdir]
  exact Plot.reported (e.getElem_results r) haccounted hleft

/-- The table of its file has a group for each repetition. -/
theorem mem_groupBy (e : Ended outdir) {df g : List Row} {k : Key}
    (hload : loadOneCsv e.call.out (e.invocation.main []) = .ok df) :
    (k, g) ∈ groupBy df ↔
      ∃ r : Fin (repetitions (e.call.args outdir)), k = e.key r ∧ g = e.rows r := by
  have hkey : ∀ r, e.key r = (metadataOf e.call).key r e.invocation.numThreads := by
    intro r
    exact congrArg ((metadataOf e.call).key r) (threads_args e.ok outdir).symm
  rw [mem_groupBy_iff (parseFilename_out e.ok) hload, length_results]
  constructor
  · rintro ⟨r, hr, hk, hg⟩
    exact ⟨⟨r, hr⟩, hk.trans (hkey r).symm, hg⟩
  · rintro ⟨r, hk, hg⟩
    exact ⟨r, r.isLt, hk.trans (hkey r), hg⟩

theorem exists_load (e : Ended outdir) :
    ∃ df, loadOneCsv e.call.out (e.invocation.main []) = .ok df := by
  rw [loadOneCsv, parseFilename_out e.ok, e.invocation.main_eq]
  exact ⟨_, rfl⟩

theorem key_inj {e e' : Ended outdir} {r r' : Nat} (h : e.key r = e'.key r') :
    e.call = e'.call ∧ r = r' := by
  have hcall := out_inj e.ok e'.ok (congrArg Key.file h)
  rw [key, key, hcall] at h
  exact ⟨hcall, (Metadata.key_inj.mp h).1⟩

end Ended

/-! ## The folder of a script -/

/-- The results files after the calls. -/
def folderOf (h : List (Ended outdir)) : Folder :=
  h.foldl (fun folder e => appendTo e.call.out e.invocation.main folder) []

variable {h : List (Ended outdir)} {files : Folder} {df : List Row}

theorem nodup_outs (hnodup : (h.map Ended.call).Nodup) :
    (h.map fun e => e.call.out).Nodup := by
  have hcalls : (h.map Ended.call).map RunOne.out = h.map fun e => e.call.out := by
    rw [List.map_map]
    rfl
  rw [← hcalls]
  refine hnodup.map_on fun x hx y hy hout => ?_
  obtain ⟨e, -, rfl⟩ := List.mem_map.mp hx
  obtain ⟨e', -, rfl⟩ := List.mem_map.mp hy
  exact out_inj e.ok e'.ok hout

/-- No file is written twice. -/
theorem folderOf_eq (hnodup : (h.map Ended.call).Nodup) :
    folderOf h = h.map fun e => (e.call.out, e.invocation.main []) := by
  have happend : ∀ (l : List (Ended outdir)) (folder : Folder),
      (folder.map Prod.fst ++ l.map fun e => e.call.out).Nodup →
      l.foldl (fun folder e => appendTo e.call.out e.invocation.main folder) folder =
        folder ++ l.map fun e => (e.call.out, e.invocation.main []) := by
    intro l
    induction l with
    | nil => exact fun folder _ => (List.append_nil folder).symm
    | cons e l ih =>
        intro folder hnames
        have hnew : ∀ f ∈ folder, f.1 ≠ e.call.out := by
          intro f hf hout
          apply (List.nodup_append'.mp hnames).2.2 (List.mem_map_of_mem hf)
          rw [hout]
          exact List.mem_cons_self
        rw [List.foldl_cons, appendTo_new hnew, ih, List.append_assoc]
        · rfl
        · rw [List.map_append, List.append_assoc]
          exact hnames
  exact happend h [] (nodup_outs hnodup)

theorem exists_mapM {α β : Type} {f : α → Except Error β} {l : List α}
    (h : ∀ x ∈ l, ∃ y, f x = .ok y) : ∃ ys, l.mapM f = .ok ys := by
  induction l with
  | nil => exact ⟨[], rfl⟩
  | cons x l ih =>
      obtain ⟨y, hy⟩ := h x List.mem_cons_self
      obtain ⟨ys, hys⟩ := ih fun z hz => h z (List.mem_cons_of_mem x hz)
      exact ⟨y :: ys, by rw [List.mapM_cons, hy, hys]; rfl⟩

/-- The files are read whatever their order is. -/
theorem exists_loadAll (hne : h ≠ []) (hnodup : (h.map Ended.call).Nodup)
    (hfiles : files.Perm (folderOf h)) (path : List Char) :
    ∃ df, loadAllCsvs path files = .ok df := by
  rw [folderOf_eq hnodup] at hfiles
  have hfiles_ne : files ≠ [] := by
    rintro rfl
    exact hne (List.map_eq_nil_iff.mp hfiles.nil_eq.symm)
  have hload : ∃ parts, (files.mapM fun f => loadOneCsv f.1 f.2) = .ok parts := by
    apply exists_mapM
    intro f hf
    obtain ⟨e, -, rfl⟩ := List.mem_map.mp (hfiles.mem_iff.mp hf)
    exact e.exists_load
  obtain ⟨parts, hparts⟩ := hload
  rw [loadAllCsvs, if_neg hfiles_ne, hparts]
  exact ⟨_, rfl⟩

theorem mem_groupBy_script (hnodup : (h.map Ended.call).Nodup) (hfiles : files.Perm (folderOf h))
    {path : List Char} (hload : loadAllCsvs path files = .ok df) {k : Key} {g : List Row} :
    (k, g) ∈ groupBy df ↔ ∃ e ∈ h, ∃ r : Fin (repetitions (e.call.args outdir)),
      k = e.key r ∧ g = e.rows r := by
  rw [folderOf_eq hnodup] at hfiles
  have hnames : (files.map Prod.fst).Nodup := by
    rw [(hfiles.map Prod.fst).nodup_iff, List.map_map]
    exact nodup_outs hnodup
  rw [mem_groupBy_folder hnames hload]
  constructor
  · rintro ⟨f, hf, part, hpart, hg⟩
    obtain ⟨e, he, rfl⟩ := List.mem_map.mp (hfiles.mem_iff.mp hf)
    exact ⟨e, he, (e.mem_groupBy hpart).mp hg⟩
  · rintro ⟨e, he, hr⟩
    obtain ⟨part, hpart⟩ := e.exists_load
    exact ⟨_, hfiles.mem_iff.mpr (List.mem_map_of_mem he), part, hpart,
      (e.mem_groupBy hpart).mpr hr⟩

/-! ## The table of the metrics -/

/-- The repetitions of the calls with their rows. -/
def repetitionRows (h : List (Ended outdir)) : List (Key × List Row) :=
  h.flatMap fun e => (List.finRange _).map fun r : Fin (repetitions (e.call.args outdir)) =>
    (e.key r, e.rows r)

theorem nodup_repetitionRows (hnodup : (h.map Ended.call).Nodup) : (repetitionRows h).Nodup := by
  have hinj : ∀ e : Ended outdir, Function.Injective
      fun r : Fin (repetitions (e.call.args outdir)) => (e.key r, e.rows r) := by
    intro e r r' heq
    exact Fin.ext (Ended.key_inj (Prod.mk.inj heq).1).2
  apply List.nodup_flatMap.mpr
  refine ⟨fun e _ => (List.nodup_finRange _).map (hinj e), ?_⟩
  refine (List.pairwise_map.mp hnodup).imp fun hne y hy hy' => ?_
  obtain ⟨r, -, rfl⟩ := List.mem_map.mp hy
  obtain ⟨r', -, heq⟩ := List.mem_map.mp hy'
  exact hne (Ended.key_inj (Prod.mk.inj heq).1).1.symm

theorem nodup_groupBy (df : List Row) : (groupBy df).Nodup := by
  apply List.Nodup.of_map Prod.fst
  rw [groupBy, groups, List.map_map]
  exact (List.map_id _).symm ▸ List.nodup_dedup _

theorem groupBy_perm (hnodup : (h.map Ended.call).Nodup) (hfiles : files.Perm (folderOf h))
    {path : List Char} (hload : loadAllCsvs path files = .ok df) :
    (groupBy df).Perm (repetitionRows h) := by
  apply (List.perm_ext_iff_of_nodup (nodup_groupBy df) (nodup_repetitionRows hnodup)).mpr
  rintro ⟨k, g⟩
  rw [mem_groupBy_script hnodup hfiles hload]
  simp [repetitionRows, eq_comm]

end ConcurrentQueues.Plot
