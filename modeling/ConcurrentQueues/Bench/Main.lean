import ConcurrentQueues.Bench.Language

/-!
# Main — the command line of the benchmark

The arguments of `main` without their terminators.  `main` runs the repetitions with the configuration
that `parse_args` returns; `VERSION` 1 has one thread whatever it says.
-/

namespace ConcurrentQueues.Bench

open Reasoning

variable {fuel : Nat} {argv : List Text} {str : Text} {numThreads : Int32}

def ascii (s : String) : Text := s.toList.map fun c => c.toNat.toUInt8

/-- How `parse_args` ends the program: with a text on one of the two channels, or in the parser of
the pattern `str`. -/
inductive Exit where
  | stdout (text : Text)
  | stderr (text : Text)
  | parser (str : Text) (halt : Halt)
  deriving DecidableEq

/-- The variables of `main` that `parse_args` sets. -/
structure Args where
  numThreads : Int32
  numRepetitions : Int32
  timeInterval : Int32
  enqSpecs : List BatchSpec
  deqSpecs : List BatchSpec
  filename : Text
  deriving DecidableEq

def defaultFilename : Text := ascii "benchmark_results.csv"

/-- What is printed for a wrong number of arguments. -/
def usage (program : Text) : Text :=
  ascii "Usage: " ++ program ++ ascii " <num_threads> <num_repetitions> <time_interval> " ++
    ascii "<enq_batch_size> <deq_batch_size> [output_filename]\n" ++
    ascii "Batch size patterns (entered as strings / CLI args; quote patterns in your shell):\n" ++
    ascii "  Fixed: integer value (e.g., \"10\")\n" ++
    ascii "  Random range: tuple (min,max) (e.g., \"(0,10)\")\n" ++
    ascii "  Repeating per-thread pattern: list [x0,x1,...] (e.g., \"[5,10,(0,20)]\")\n" ++
    ascii "  Explicit per-thread list: \x7bx0,x1,...,xT-1\x7d (e.g., \"\x7b5,(0,10),10,20\x7d\")\n" ++
    ascii "  Output filename (optional): if provided, results will be written to this file\n"

/-- What the parser makes of `str`. -/
def onString {A : Type} (str : Text) : Parse A → Except Exit A
  | .ok a => .ok a
  | .error h => .error (.parser str h)

/-- `atoi`, which is `strtol` cut down to an `int`. -/
def atoi (str : Text) : Except Exit Int32 :=
  onString str (inBounds ((strtol (str ++ [0])).map fun v => Int32.ofInt v.value))

/-- `if (*out <= 0) {..; exit(EXIT_FAILURE);}` -/
def positive (name : String) (v : Int32) : Except Exit Unit :=
  if v ≤ 0 then .error (.stderr (ascii name ++ ascii " must be > 0\n")) else .ok ()

/-- `parse_args`. -/
def parseArgs (fuel : Nat) (argv : List Text) : Except Exit Args :=
  match argv with
  | _ :: threads :: repetitions :: seconds :: enq :: deq :: rest =>
      if 1 < rest.length then .error (.stdout (usage (argv.headD [])))
      else do
        let numThreads ← atoi threads
        let numRepetitions ← atoi repetitions
        let timeInterval ← atoi seconds
        positive "num_threads" numThreads
        positive "num_repetitions" numRepetitions
        positive "time_interval" timeInterval
        let enqSpecs ← onString enq (parseBatchSizePattern fuel (some (enq ++ [0])) numThreads)
        let deqSpecs ← onString deq (parseBatchSizePattern fuel (some (deq ++ [0])) numThreads)
        return ⟨numThreads, numRepetitions, timeInterval, enqSpecs, deqSpecs,
          rest.head?.getD defaultFilename⟩
  | _ => .error (.stdout (usage (argv.headD [])))

/-- `num_threads` in `main`, behind the test of `VERSION`. -/
def Args.threads (version : Nat) (args : Args) : Nat :=
  if version = 1 ∧ args.numThreads ≠ 1 then 1 else args.numThreads.toInt.toNat

/-! ## What is accepted -/

theorem onString_eq_ok {A : Type} {x : Parse A} {a : A} : onString str x = .ok a ↔ x = .ok a := by
  cases x <;> simp [onString]

theorem bind_eq_ok {A B : Type} {x : Except Exit A} {f : A → Except Exit B} {b : B} :
    (x >>= f) = .ok b ↔ ∃ a, x = .ok a ∧ f a = .ok b := by
  cases x <;> simp [bind, Except.bind]

theorem positive_eq_ok {name : String} {v : Int32} {u : Unit} :
    positive name v = .ok u ↔ 0 < v := by
  unfold positive
  split
  next h => simpa using Int32.not_lt.mpr h
  next h => simpa using Int32.not_le.mp h

/-- A configuration that `main` can work with. -/
structure Args.Ok (args : Args) : Prop where
  numThreads : 0 < args.numThreads
  numRepetitions : 0 < args.numRepetitions
  timeInterval : 0 < args.timeInterval
  enqSpecs : args.enqSpecs.length = args.numThreads.toInt.toNat ∧ ∀ e ∈ args.enqSpecs, e.Valid
  deqSpecs : args.deqSpecs.length = args.numThreads.toInt.toNat ∧ ∀ e ∈ args.deqSpecs, e.Valid

theorem length_of_parsePattern {specs : List BatchSpec} (h0 : 0 ∉ str) (hn : 0 < numThreads)
    (hfuel : str.length ≤ fuel)
    (hok : parseBatchSizePattern fuel (some (str ++ [0])) numThreads = .ok specs) :
    specs.length = numThreads.toInt.toNat := by
  rcases parsePattern_cases h0 hn hfuel with ⟨m, hdie⟩ | ⟨specs', hlen, -, hok'⟩ | ⟨-, hover⟩
  · rw [hok] at hdie
    cases hdie
  · rw [hok] at hok'
    cases hok'
    exact hlen
  · rw [hok] at hover
    cases hover

theorem parseArgs_ok {args : Args} (hargv : ∀ x ∈ argv, 0 ∉ x ∧ x.length ≤ fuel)
    (h : parseArgs fuel argv = .ok args) : args.Ok := by
  unfold parseArgs at h
  split at h
  next program threads repetitions seconds enq deq rest =>
    split at h
    next => cases h
    simp only [bind_eq_ok, positive_eq_ok, onString_eq_ok] at h
    obtain ⟨n, -, r, -, s, -, -, hn, -, hr, -, hs, es, hes, ds, hds, hargs⟩ := h
    cases hargs
    obtain ⟨henq0, henq⟩ := hargv enq (by simp)
    obtain ⟨hdeq0, hdeq⟩ := hargv deq (by simp)
    exact ⟨hn, hr, hs,
      ⟨length_of_parsePattern henq0 hn henq hes, parsePattern_valid henq0 hn henq hes⟩,
      ⟨length_of_parsePattern hdeq0 hn hdeq hds, parsePattern_valid hdeq0 hn hdeq hds⟩⟩
  next => cases h

theorem Args.Ok.threads_pos {args : Args} (h : args.Ok) (version : Nat) :
    0 < args.threads version := by
  have hn := Int32.lt_iff_toInt_lt.mp h.numThreads
  rw [Int32.toInt_zero] at hn
  unfold Args.threads
  split <;> omega

/-- The override of `num_threads` leaves the arrays long enough. -/
theorem Args.Ok.threads_le {args : Args} (h : args.Ok) (version : Nat) :
    args.threads version ≤ args.numThreads.toInt.toNat := by
  have hn := Int32.lt_iff_toInt_lt.mp h.numThreads
  rw [Int32.toInt_zero] at hn
  unfold Args.threads
  split <;> omega

/-- Every thread finds its specs in the arrays. -/
theorem Args.Ok.exists_specs {args : Args} (h : args.Ok) (version : Nat) :
    ∃ enqSpecs deqSpecs : Fin (args.threads version) → BatchSpec,
      (∀ t, args.enqSpecs[t.val]? = some (enqSpecs t) ∧ (enqSpecs t).Valid) ∧
      ∀ t, args.deqSpecs[t.val]? = some (deqSpecs t) ∧ (deqSpecs t).Valid := by
  have hle := h.threads_le version
  have henq : ∀ t : Fin (args.threads version), t.val < args.enqSpecs.length := by
    intro t
    have hlen := h.enqSpecs.1
    have ht := t.isLt
    omega
  have hdeq : ∀ t : Fin (args.threads version), t.val < args.deqSpecs.length := by
    intro t
    have hlen := h.deqSpecs.1
    have ht := t.isLt
    omega
  exact ⟨fun t => args.enqSpecs.get ⟨t, henq t⟩, fun t => args.deqSpecs.get ⟨t, hdeq t⟩,
    fun t => ⟨List.getElem?_eq_getElem (henq t), h.enqSpecs.2 _ (List.get_mem _ _)⟩,
    fun t => ⟨List.getElem?_eq_getElem (hdeq t), h.deqSpecs.2 _ (List.get_mem _ _)⟩⟩

end ConcurrentQueues.Bench
