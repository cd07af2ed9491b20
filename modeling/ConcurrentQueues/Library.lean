import ConcurrentQueues.Reasoning.Threads
import Mathlib.Algebra.Order.BigOperators.Group.Finset
import Mathlib.Algebra.BigOperators.Fin

/-!
# Library — the lending library of `library.c`

Every thread lends and returns copies of two books in critical sections, until it has returned
`times` copies.  It may keep what it has lent, so the threads that are left may have to do with few
copies; they never run out of all of them.
-/

namespace ConcurrentQueues.Library

open Reasoning

/-- The two books. -/
inductive Title where
  | artOfMultiprocessorProgramming
  | theCProgrammingLanguage
  deriving DecidableEq

/-- `one_thread_library`. -/
structure OneThreadLibrary where
  artOfMultiprocessorProgramming : Int32
  theCProgrammingLanguage : Int32

structure Counters where
  failedTurns : Int32
  successfulLends : Int32

/-- The locals of a thread.  The last two fields are not in the code: the numbers that the counters
hold modulo `2 ^ 32`. -/
structure Reader where
  i : Int32
  herlihyShavitLuchangcoSpear : Int32
  kernighamRitchie : Int32
  data : Counters
  lends : Nat
  fails : Nat

namespace OneThreadLibrary

def copies (l : OneThreadLibrary) : Title → Int32
  | .artOfMultiprocessorProgramming => l.artOfMultiprocessorProgramming
  | .theCProgrammingLanguage => l.theCProgrammingLanguage

def setCopies (l : OneThreadLibrary) (b : Title) (k : Int32) : OneThreadLibrary where
  artOfMultiprocessorProgramming :=
    if b = .artOfMultiprocessorProgramming then k else l.artOfMultiprocessorProgramming
  theCProgrammingLanguage := if b = .theCProgrammingLanguage then k else l.theCProgrammingLanguage

theorem copies_setCopies (l : OneThreadLibrary) (b d : Title) (k : Int32) :
    (l.setCopies b k).copies d = if d = b then k else l.copies d := by
  cases b <;> cases d <;> rfl

end OneThreadLibrary

namespace Reader

def held (x : Reader) : Title → Int32
  | .artOfMultiprocessorProgramming => x.herlihyShavitLuchangcoSpear
  | .theCProgrammingLanguage => x.kernighamRitchie

def setHeld (x : Reader) (b : Title) (k : Int32) : Reader :=
  { x with
    herlihyShavitLuchangcoSpear :=
      if b = .artOfMultiprocessorProgramming then k else x.herlihyShavitLuchangcoSpear
    kernighamRitchie := if b = .theCProgrammingLanguage then k else x.kernighamRitchie }

def start : Reader := ⟨0, 0, 0, ⟨0, 0⟩, 0, 0⟩

end Reader

/-! ## The four functions on the library -/

/-- Both `lend_*` functions. -/
def lend (b : Title) (l : OneThreadLibrary) : Bool × OneThreadLibrary :=
  if l.copies b > 0 then (true, l.setCopies b (l.copies b - 1)) else (false, l)

/-- Both `return_*` functions. -/
def giveBack (b : Title) (l : OneThreadLibrary) : OneThreadLibrary :=
  l.setCopies b (l.copies b + 1)

def lendHerlihyshavitLuchangcoSpear : OneThreadLibrary → Bool × OneThreadLibrary :=
  lend .artOfMultiprocessorProgramming

def returnHerlihyshavitLuchangcoSpear : OneThreadLibrary → OneThreadLibrary :=
  giveBack .artOfMultiprocessorProgramming

def lendKernighamRitchie : OneThreadLibrary → Bool × OneThreadLibrary :=
  lend .theCProgrammingLanguage

def returnKernighamRitchie : OneThreadLibrary → OneThreadLibrary :=
  giveBack .theCProgrammingLanguage

/-! ## `random_bench1` and `small_bench` -/

namespace Reader

def lent (b : Title) (x : Reader) : Reader :=
  { x.setHeld b (x.held b + 1) with
    data := { x.data with successfulLends := x.data.successfulLends + 1 }
    lends := x.lends + 1 }

def returned (b : Title) (x : Reader) : Reader := { x.setHeld b (x.held b - 1) with i := x.i + 1 }

def failed (x : Reader) : Reader :=
  { x with
    data := { x.data with failedTurns := x.data.failedTurns + 1 }
    fails := x.fails + 1 }

end Reader

/-- A branch of the critical section, with its two functions. -/
def turn (b : Title) (lend : OneThreadLibrary → Bool × OneThreadLibrary)
    (giveBack : OneThreadLibrary → OneThreadLibrary) (l : OneThreadLibrary) (x : Reader) :
    OneThreadLibrary × Reader :=
  match lend l with
  | (true, l') => (l', x.lent b)
  | (false, _) => if x.held b > 0 then (giveBack l, x.returned b) else (l, x.failed)

/-- One round of the loop; `choice` is what `random_r` has put there. -/
def randomBench1 {n : Nat} (times : Int32) : Program (Fin n) Int32 OneThreadLibrary Reader :=
  fun _ choice l x =>
    if x.i < times then
      let (l', x') :=
        if choice > (1 : Int32) <<< 30 then
          turn .artOfMultiprocessorProgramming lendHerlihyshavitLuchangcoSpear
            returnHerlihyshavitLuchangcoSpear l x
        else
          turn .theCProgrammingLanguage lendKernighamRitchie returnKernighamRitchie l x
      .next l' x'
    -- the thread has returned `data`
    else .blocked

/-- The library and the threads at the beginning of `small_bench`. -/
def init (n : Nat) : Config (Fin n) OneThreadLibrary Reader := ⟨⟨20, 20⟩, fun _ => .start⟩

/-- The loop behind the parallel region.  `result` is not initialised, so it begins with `junk`. -/
def reduce {n : Nat} (junk : Counters) (threadData : Fin n → Counters) : Counters :=
  (List.finRange n).foldl (fun r i =>
    { successfulLends := r.successfulLends + (threadData i).successfulLends
      failedTurns := r.failedTurns + (threadData i).failedTurns }) junk

variable {n : Nat} {times : Int32} {t u : Fin n} {b d : Title} {l l' : OneThreadLibrary}
  {x x' : Reader} {choice : Int32} {s s' : Config (Fin n) OneThreadLibrary Reader}

/-! ## What a round does -/

/-- A round: the thread lends a copy, returns one of a book that is out, or has a failed turn. -/
inductive Round (b : Title) (l : OneThreadLibrary) (x : Reader) : OneThreadLibrary → Reader → Prop
  | lend (hstock : 0 < (l.copies b).toInt) :
      Round b l x (l.setCopies b (l.copies b - 1)) (x.lent b)
  | giveBack (hstock : (l.copies b).toInt ≤ 0) (hheld : 0 < (x.held b).toInt) :
      Round b l x (l.setCopies b (l.copies b + 1)) (x.returned b)
  | fail (hstock : (l.copies b).toInt ≤ 0) (hheld : (x.held b).toInt ≤ 0) : Round b l x l x.failed

theorem pos_iff {k : Int32} : k > 0 ↔ 0 < k.toInt := by
  rw [gt_iff_lt, Int32.lt_iff_toInt_lt, Int32.toInt_zero]

theorem turn_round (b : Title) (l : OneThreadLibrary) (x : Reader) :
    Round b l x (turn b (lend b) (giveBack b) l x).1 (turn b (lend b) (giveBack b) l x).2 := by
  unfold turn lend
  by_cases hstock : l.copies b > 0
  · simp only [if_pos hstock]
    exact .lend (pos_iff.mp hstock)
  · have hout := not_lt.mp (pos_iff.not.mp hstock)
    simp only [if_neg hstock]
    by_cases hheld : x.held b > 0
    · simp only [if_pos hheld]
      exact .giveBack hout (pos_iff.mp hheld)
    · simp only [if_neg hheld]
      exact .fail hout (not_lt.mp (pos_iff.not.mp hheld))

/-- The book that `choice` stands for. -/
def pick (choice : Int32) : Title :=
  if choice > (1 : Int32) <<< 30 then .artOfMultiprocessorProgramming else .theCProgrammingLanguage

theorem randomBench1_eq (h : x.i < times) :
    randomBench1 times t choice l x =
      .next (turn (pick choice) (lend (pick choice)) (giveBack (pick choice)) l x).1
        (turn (pick choice) (lend (pick choice)) (giveBack (pick choice)) l x).2 := by
  unfold randomBench1 pick
  rw [if_pos h]
  by_cases hchoice : choice > (1 : Int32) <<< 30
  · simp only [if_pos hchoice]
    rfl
  · simp only [if_neg hchoice]
    rfl

theorem randomBench1_cases (h : randomBench1 times t choice l x = .next l' x') :
    x.i < times ∧ Round (pick choice) l x l' x' := by
  by_cases hlt : x.i < times
  · rw [randomBench1_eq hlt] at h
    injection h with hl hx
    rw [← hl, ← hx]
    exact ⟨hlt, turn_round _ l x⟩
  · unfold randomBench1 at h
    rw [if_neg hlt] at h
    cases h

/-! ## What every run keeps -/

@[simp] theorem copies_setCopies_self (k : Int32) : (l.setCopies b k).copies b = k := by
  rw [OneThreadLibrary.copies_setCopies, if_pos rfl]

theorem copies_setCopies_other (hd : d ≠ b) (k : Int32) :
    (l.setCopies b k).copies d = l.copies d := by
  rw [OneThreadLibrary.copies_setCopies, if_neg hd]

@[simp] theorem held_lent : (x.lent b).held d = if d = b then x.held b + 1 else x.held d := by
  cases b <;> cases d <;> rfl

@[simp] theorem held_returned :
    (x.returned b).held d = if d = b then x.held b - 1 else x.held d := by
  cases b <;> cases d <;> rfl

@[simp] theorem held_failed : x.failed.held d = x.held d := by cases d <;> rfl

/-- What the thread has lent and not returned. -/
def Reader.out (x : Reader) : Int :=
  (x.held .artOfMultiprocessorProgramming).toInt + (x.held .theCProgrammingLanguage).toInt

theorem out_lent (h : ((x.held b) + 1).toInt = (x.held b).toInt + 1) :
    (x.lent b).out = x.out + 1 := by
  cases b <;> simp only [Reader.out, held_lent, if_true, reduceCtorEq, if_false, h] <;> omega

theorem out_returned (h : ((x.held b) - 1).toInt = (x.held b).toInt - 1) :
    (x.returned b).out = x.out - 1 := by
  cases b <;> simp only [Reader.out, held_returned, if_true, reduceCtorEq, if_false, h] <;> omega

/-- What is known of one thread. -/
structure Reader.Ok (times : Int32) (x : Reader) : Prop where
  held : ∀ b, 0 ≤ (x.held b).toInt
  index : 0 ≤ x.i.toInt ∧ x.i.toInt ≤ max 0 times.toInt
  lends : (x.lends : Int) = x.out + x.i.toInt
  successfulLends : x.data.successfulLends = .ofNat x.lends
  failedTurns : x.data.failedTurns = .ofNat x.fails

/-- No copy is lost or made, and who has not finished can hope for one. -/
structure Inv (times : Int32) (s : Config (Fin n) OneThreadLibrary Reader) : Prop where
  stock : ∀ b, 0 ≤ (s.mem.copies b).toInt
  conserved : ∀ b, (s.mem.copies b).toInt + ∑ t, ((s.th t).held b).toInt = 20
  reader : ∀ t, (s.th t).Ok times
  reserve : (∃ t, (s.th t).i < times) →
    ∃ b, 0 < (s.mem.copies b).toInt ∨ ∃ t, (s.th t).i < times ∧ 0 < ((s.th t).held b).toInt
  alone : n = 1 → ∀ t, (s.th t).fails = 0

theorem toInt_add_one {k : Int32} (hk : k.toInt < 2147483647) : (k + 1).toInt = k.toInt + 1 := by
  have hmin := k.le_toInt
  rw [Int32.toInt_add, Int32.toInt_one]
  exact Int.bmod_eq_of_le (by omega) (by omega)

theorem toInt_sub_one {k : Int32} (hk : 0 < k.toInt) : (k - 1).toInt = k.toInt - 1 := by
  have hmax := k.toInt_lt
  rw [Int32.toInt_sub, Int32.toInt_one]
  exact Int.bmod_eq_of_le (by omega) (by omega)

theorem inv_init (n : Nat) (times : Int32) : Inv times (init n) where
  stock b := by cases b <;> exact (show (0 : Int) ≤ (20 : Int32).toInt by decide)
  conserved b := by cases b <;> simp [init, Reader.start, Reader.held] <;> rfl
  reader _ :=
    { held := fun b => by cases b <;> exact (show (0 : Int) ≤ (0 : Int32).toInt by decide)
      index := ⟨le_rfl, le_max_left _ _⟩
      lends := rfl
      successfulLends := rfl
      failedTurns := rfl }
  reserve _ := ⟨.artOfMultiprocessorProgramming, .inl (show (0 : Int) < (20 : Int32).toInt by decide)⟩
  alone _ _ := rfl

/-- Nobody has more copies than there are. -/
theorem Inv.held_le (h : Inv times s) (t : Fin n) (b : Title) :
    (s.mem.copies b).toInt + ((s.th t).held b).toInt ≤ 20 := by
  have hle := Finset.single_le_sum (fun u _ => (h.reader u).held b) (Finset.mem_univ t)
  have hall := h.conserved b
  omega

/-- What a round changes. -/
structure Kept (times : Int32) (l : OneThreadLibrary) (x : Reader) (l' : OneThreadLibrary)
    (x' : Reader) : Prop where
  reader : x'.Ok times
  stock : ∀ d, 0 ≤ (l'.copies d).toInt
  balance : ∀ d, (l'.copies d).toInt + (x'.held d).toInt = (l.copies d).toInt + (x.held d).toInt
  reserve : (∃ d, 0 < (l'.copies d).toInt) ∨ (x'.i < times ∧ ∃ d, 0 < (x'.held d).toInt) ∨
    (l' = l ∧ x'.i = x.i ∧ ∀ d, x'.held d = x.held d)
  fails : x'.fails = x.fails ∨ ∃ d, (l.copies d).toInt ≤ 0 ∧ (x.held d).toInt ≤ 0

theorem Round.kept (h : Round b l x l' x') (hok : x.Ok times)
    (hstock : ∀ d, 0 ≤ (l.copies d).toInt)
    (hle : ∀ d, (l.copies d).toInt + (x.held d).toInt ≤ 20) (hlt : x.i < times) :
    Kept times l x l' x' := by
  have hleb := hle b
  have hheldb := hok.held b
  have hstockb := hstock b
  cases h with
  | lend hpos =>
      have hcopies := toInt_sub_one hpos
      have hheld : (x.held b + 1).toInt = (x.held b).toInt + 1 := toInt_add_one (by omega)
      refine ⟨⟨fun d => ?_, hok.index, ?_, ?_, hok.failedTurns⟩, fun d => ?_, fun d => ?_,
        .inr (.inl ⟨hlt, b, ?_⟩), .inl rfl⟩
      · have hd := hok.held d
        by_cases hdb : d = b <;> simp only [held_lent, hdb, if_true, if_false] <;> omega
      · have hlends := hok.lends
        rw [out_lent hheld]
        show ((x.lends + 1 : Nat) : Int) = x.out + 1 + x.i.toInt
        omega
      · show x.data.successfulLends + 1 = .ofNat (x.lends + 1)
        rw [hok.successfulLends, Int32.ofNat_add]
        rfl
      · have hd := hstock d
        by_cases hdb : d = b
        · rw [hdb, copies_setCopies_self]
          omega
        · rw [copies_setCopies_other hdb]
          exact hd
      · by_cases hdb : d = b
        · rw [hdb, copies_setCopies_self, held_lent, if_pos rfl]
          omega
        · rw [copies_setCopies_other hdb, held_lent, if_neg hdb]
      · rw [held_lent, if_pos rfl]
        omega
  | giveBack hout hpos =>
      have hcopies : (l.copies b + 1).toInt = (l.copies b).toInt + 1 := toInt_add_one (by omega)
      have hheld := toInt_sub_one hpos
      have hi := Int32.lt_iff_toInt_lt.mp hlt
      have htop := times.toInt_lt
      have hsucc : (x.i + 1).toInt = x.i.toInt + 1 := toInt_add_one (by omega)
      refine ⟨⟨fun d => ?_, ?_, ?_, hok.successfulLends, hok.failedTurns⟩, fun d => ?_, fun d => ?_,
        .inl ⟨b, ?_⟩, .inl rfl⟩
      · have hd := hok.held d
        by_cases hdb : d = b <;> simp only [held_returned, hdb, if_true, if_false] <;> omega
      · have hindex := hok.index
        show 0 ≤ (x.i + 1).toInt ∧ (x.i + 1).toInt ≤ max 0 times.toInt
        omega
      · have hlends := hok.lends
        rw [out_returned hheld]
        show (x.lends : Int) = x.out - 1 + (x.i + 1).toInt
        omega
      · have hd := hstock d
        by_cases hdb : d = b
        · rw [hdb, copies_setCopies_self]
          omega
        · rw [copies_setCopies_other hdb]
          exact hd
      · by_cases hdb : d = b
        · rw [hdb, copies_setCopies_self, held_returned, if_pos rfl]
          omega
        · rw [copies_setCopies_other hdb, held_returned, if_neg hdb]
      · rw [copies_setCopies_self]
        omega
  | fail hout hnone =>
      refine ⟨⟨fun d => ?_, hok.index, ?_, hok.successfulLends, ?_⟩, hstock, fun d => ?_,
        .inr (.inr ⟨rfl, rfl, fun d => held_failed⟩), .inr ⟨b, hout, hnone⟩⟩
      · rw [held_failed]
        exact hok.held d
      · have hlends := hok.lends
        rwa [show x.failed.out = x.out by simp only [Reader.out, held_failed]]
      · show x.data.failedTurns + 1 = .ofNat (x.fails + 1)
        rw [hok.failedTurns, Int32.ofNat_add]
        rfl
      · rw [held_failed]

/-- The sum over the threads moves with the copies of the library. -/
theorem Inv.conserved_update (h : Inv times s) (hk : Kept times s.mem (s.th t) l' x') (b : Title) :
    (l'.copies b).toInt + ∑ u, ((Function.update s.th t x' u).held b).toInt = 20 := by
  have hsum := sum_update_add s.th t x' fun x => (x.held b).toInt
  have hbalance := hk.balance b
  have hall := h.conserved b
  omega

theorem Inv.step (h : Inv times s)
    (hstep : randomBench1 times t choice s.mem (s.th t) = .next l' x') :
    Inv times ⟨l', Function.update s.th t x'⟩ := by
  obtain ⟨hlt, hround⟩ := randomBench1_cases hstep
  have hk := hround.kept (h.reader t) h.stock (h.held_le t) hlt
  refine ⟨hk.stock, h.conserved_update hk, fun u => ?_, fun hsome => ?_, fun hone u => ?_⟩
  · by_cases hu : u = t
    · subst hu
      simpa only [Function.update_self] using hk.reader
    · simpa only [Function.update_of_ne hu] using h.reader u
  · obtain ⟨d, hd⟩ | ⟨hgo, d, hd⟩ | ⟨rfl, hi, hheld⟩ := hk.reserve
    · exact ⟨d, .inl hd⟩
    · exact ⟨d, .inr ⟨t, by simpa only [Function.update_self] using ⟨hgo, hd⟩⟩⟩
    · -- nothing has changed hands
      obtain ⟨d, hd | ⟨u, hgo, hd⟩⟩ := h.reserve ⟨t, hlt⟩
      · exact ⟨d, .inl hd⟩
      · refine ⟨d, .inr ⟨u, ?_⟩⟩
        by_cases hu : u = t
        · subst hu
          simp only [Function.update_self, hi, hheld]
          exact ⟨hgo, hd⟩
        · simpa only [Function.update_of_ne hu] using ⟨hgo, hd⟩
  · -- a thread alone has what the library has not
    subst hone
    obtain rfl : u = t := Subsingleton.elim u t
    simp only [Function.update_self]
    rcases hk.fails with hsame | ⟨d, hout, hnone⟩
    · rw [hsame]
      exact h.alone rfl u
    · have hall := h.conserved d
      rw [Fin.sum_univ_one, show (0 : Fin 1) = u from Subsingleton.elim _ _] at hall
      omega

theorem inv_of_run {es : List (Fin n × Int32)}
    (h : run (randomBench1 times) (init n) es = some s) : Inv times s := by
  refine run_induction (motive := fun _ v => Inv times v) (inv_init n times) ?_ es s h
  rintro es ⟨t, choice⟩ v w - ih hf
  obtain ⟨l', x', hstep, rfl⟩ := fire_eq_some.mp hf
  exact ih.step hstep

/-! ## The numbers that are reported -/

theorem foldl_lends (junk : Counters) (x : Fin n → Reader)
    (h : ∀ t, (x t).data.successfulLends = .ofNat (x t).lends ∧
      (x t).data.failedTurns = .ofNat (x t).fails) (ts : List (Fin n)) :
    ts.foldl (fun r i =>
        { successfulLends := r.successfulLends + (x i).data.successfulLends
          failedTurns := r.failedTurns + (x i).data.failedTurns : Counters }) junk =
      ⟨junk.failedTurns + .ofNat (ts.map fun t => (x t).fails).sum,
        junk.successfulLends + .ofNat (ts.map fun t => (x t).lends).sum⟩ := by
  induction ts generalizing junk with
  | nil =>
      cases junk
      simp
  | cons t ts ih =>
      rw [List.foldl_cons, ih, (h t).1, (h t).2]
      simp only [List.map_cons, List.sum_cons, Int32.ofNat_add, Int32.add_assoc]

theorem reduce_eq (junk : Counters) (x : Fin n → Reader)
    (h : ∀ t, (x t).data.successfulLends = .ofNat (x t).lends ∧
      (x t).data.failedTurns = .ofNat (x t).fails) :
    reduce junk (fun t => (x t).data) =
      ⟨junk.failedTurns + .ofNat (∑ t, (x t).fails),
        junk.successfulLends + .ofNat (∑ t, (x t).lends)⟩ := by
  rw [reduce, foldl_lends junk x h, Fin.sum_univ_def, Fin.sum_univ_def]

/-- All copies that are not in the library are with the threads. -/
theorem Inv.sum_out (h : Inv times s) :
    ∑ t, (s.th t).out = 40 - s.mem.artOfMultiprocessorProgramming.toInt -
      s.mem.theCProgrammingLanguage.toInt := by
  have hfirst := h.conserved .artOfMultiprocessorProgramming
  have hsecond := h.conserved .theCProgrammingLanguage
  simp only [OneThreadLibrary.copies] at hfirst hsecond
  simp only [Reader.out, Finset.sum_add_distrib]
  omega

/-- **The library loses no copy.**  In every interleaving of the critical sections, whatever the
threads draw, no stock is negative and the copies of each book in the library and with the threads are
20.  When all threads have finished, they have lent what they have returned and what they have kept;
`result` is not initialised, so its counters are off by what was there before. -/
theorem library_conserves {es : List (Fin n × Int32)}
    (h : run (randomBench1 times) (init n) es = some s) :
    (∀ b, 0 ≤ (s.mem.copies b).toInt ∧
      (s.mem.copies b).toInt + ∑ t, ((s.th t).held b).toInt = 20) ∧
    (∀ t b, 0 ≤ ((s.th t).held b).toInt) ∧
    ((∀ t, ¬ (s.th t).i < times) → ∀ junk,
      (reduce junk fun t => (s.th t).data).successfulLends = junk.successfulLends +
        .ofInt (n * max 0 times.toInt + (40 - s.mem.artOfMultiprocessorProgramming.toInt -
          s.mem.theCProgrammingLanguage.toInt)) ∧
      (n = 1 → (reduce junk fun t => (s.th t).data).failedTurns = junk.failedTurns)) := by
  have hI := inv_of_run h
  refine ⟨fun b => ⟨hI.stock b, hI.conserved b⟩, fun t => (hI.reader t).held,
    fun hdone junk => ?_⟩
  rw [reduce_eq junk s.th fun t => ⟨(hI.reader t).successfulLends, (hI.reader t).failedTurns⟩]
  have hindex : ∀ t, (s.th t).i.toInt = max 0 times.toInt := by
    intro t
    have hle := (hI.reader t).index
    have hge := hdone t
    rw [Int32.lt_iff_toInt_lt] at hge
    omega
  have hlends : ((∑ t, (s.th t).lends : Nat) : Int) = n * max 0 times.toInt +
      (40 - s.mem.artOfMultiprocessorProgramming.toInt -
        s.mem.theCProgrammingLanguage.toInt) := by
    rw [← hI.sum_out]
    push_cast
    simp only [fun t => (hI.reader t).lends, hindex, Finset.sum_add_distrib, Finset.sum_const,
      Finset.card_univ, Fintype.card_fin, nsmul_eq_mul]
    omega
  refine ⟨?_, fun hone => ?_⟩
  · rw [← hlends, Int32.ofInt_eq_ofNat]
  · rw [Finset.sum_eq_zero fun t _ => hI.alone hone t]
    simp

/-- A thread alone lends the 20 copies of the first book and returns one. -/
theorem library_conserves_single :
    ∃ s, run (randomBench1 1) (init 1) (List.replicate 21 (0, 2147483647)) = some s ∧
      (reduce ⟨7, 5⟩ fun t => (s.th t).data).successfulLends = 25 ∧
      (reduce ⟨7, 5⟩ fun t => (s.th t).data).failedTurns = 7 := by
  obtain ⟨s, hs⟩ : ∃ s, run (randomBench1 1) (init 1) (List.replicate 21 (0, 2147483647)) = some s :=
    ⟨_, rfl⟩
  have hi : (s.th 0).i = 1 := run_observe hs (fun s => (s.th 0).i) rfl
  have hfirst : s.mem.artOfMultiprocessorProgramming = 1 :=
    run_observe hs (fun s => s.mem.artOfMultiprocessorProgramming) rfl
  have hsecond : s.mem.theCProgrammingLanguage = 20 :=
    run_observe hs (fun s => s.mem.theCProgrammingLanguage) rfl
  obtain ⟨-, -, hend⟩ := library_conserves hs
  obtain ⟨hlends, hfails⟩ := hend
    (Fin.forall_fin_one.mpr (by rw [hi]; decide)) ⟨7, 5⟩
  rw [hfirst, hsecond] at hlends
  exact ⟨s, hs, hlends, hfails rfl⟩

/-! ## Somebody can always go on -/

/-- A result of `random_r` that stands for the book. -/
def choiceOf : Title → Int32
  | .artOfMultiprocessorProgramming => 2147483647
  | .theCProgrammingLanguage => 0

theorem pick_choiceOf (b : Title) : pick (choiceOf b) = b := by cases b <;> rfl

theorem exists_round (h : Inv times s) (b : Title) (hlt : (s.th t).i < times) :
    ∃ l' x', fire (randomBench1 times) s (t, choiceOf b) =
        some ⟨l', Function.update s.th t x'⟩ ∧
      Round b s.mem (s.th t) l' x' ∧ Inv times ⟨l', Function.update s.th t x'⟩ := by
  have hstep := @randomBench1_eq n times t s.mem (s.th t) (choiceOf b) hlt
  rw [pick_choiceOf] at hstep
  exact ⟨_, _, fire_eq_some.mpr ⟨_, _, hstep, rfl⟩, turn_round b s.mem (s.th t), h.step hstep⟩

/-- A thread that can have a copy of `b` lends what is left of them and then returns one. -/
theorem exists_return (k : Nat) (h : Inv times s) (hk : (s.mem.copies b).toInt = k)
    (hlt : (s.th t).i < times) (hsome : 0 < k ∨ 0 < ((s.th t).held b).toInt) :
    ∃ es l' x', run (randomBench1 times) s es = some ⟨l', Function.update s.th t x'⟩ ∧
      Inv times ⟨l', Function.update s.th t x'⟩ ∧ x'.i.toInt = (s.th t).i.toInt + 1 := by
  induction k generalizing s with
  | zero =>
      obtain ⟨l', x', hf, hround, hI⟩ := exists_round h b hlt
      cases hround with
      | lend hstock => omega
      | giveBack hout hpos =>
          have hi := Int32.lt_iff_toInt_lt.mp hlt
          have htop := times.toInt_lt
          exact ⟨_, _, _, run_singleton.mpr hf, hI, toInt_add_one (by omega)⟩
      | fail hout hnone => omega
  | succ k ih =>
      obtain ⟨l', x', hf, hround, hI⟩ := exists_round h b hlt
      cases hround with
      | lend hstock =>
          have hle := h.held_le t b
          have hheld := (h.reader t).held b
          have hone : (s.mem.copies b - 1).toInt = k := by
            rw [toInt_sub_one hstock]
            omega
          have hsucc : ((s.th t).held b + 1).toInt = ((s.th t).held b).toInt + 1 :=
            toInt_add_one (by omega)
          obtain ⟨es, l'', x'', hrun, hI', hi⟩ := ih hI
            (by rw [copies_setCopies_self]; exact hone)
            (by
              simp only [Function.update_self]
              exact hlt)
            (.inr (by simp only [Function.update_self, held_lent, if_true]; omega))
          simp only [Function.update_idem, Function.update_self] at hrun hI' hi
          exact ⟨_, l'', x'', run_cons.mpr ⟨_, hf, hrun⟩, hI', hi⟩
      | giveBack hout hpos => omega
      | fail hout hnone => omega

/-- The returns that are left. -/
def Reader.left (times : Int32) (x : Reader) : Nat := (times.toInt - x.i.toInt).toNat

/-- Of the threads that have not finished, one can make a return. -/
theorem exists_progress (h : Inv times s) (hsome : ∃ t, (s.th t).i < times) :
    ∃ es s', run (randomBench1 times) s es = some s' ∧ Inv times s' ∧
      ∑ t, (s'.th t).left times < ∑ t, (s.th t).left times := by
  have hreach : ∃ t b, (s.th t).i < times ∧
      (0 < (s.mem.copies b).toInt ∨ 0 < ((s.th t).held b).toInt) := by
    obtain ⟨b, hstock | ⟨t, hlt, hheld⟩⟩ := h.reserve hsome
    · obtain ⟨t, hlt⟩ := hsome
      exact ⟨t, b, hlt, .inl hstock⟩
    · exact ⟨t, b, hlt, .inr hheld⟩
  obtain ⟨t, b, hlt, hcan⟩ := hreach
  have hstock := h.stock b
  obtain ⟨es, l', x', hrun, hI, hi⟩ := exists_return (s.mem.copies b).toInt.toNat h
    (Int.toNat_of_nonneg hstock).symm hlt (by omega)
  refine ⟨es, _, hrun, hI, ?_⟩
  have hsum := sum_update_add s.th t x' (Reader.left times)
  have hlt' := Int32.lt_iff_toInt_lt.mp hlt
  have hless : x'.left times < (s.th t).left times := by
    unfold Reader.left
    omega
  simp only at hsum ⊢
  omega

/-- **Somebody can always go on.**  From every state that the critical sections can reach, whatever
copies the finished threads have kept, there is a schedule on which all threads finish. -/
theorem library_can_finish {es : List (Fin n × Int32)}
    (h : run (randomBench1 times) (init n) es = some s) :
    ∃ fs s', run (randomBench1 times) s fs = some s' ∧ ∀ t, ¬ (s'.th t).i < times := by
  have hI := inv_of_run h
  clear h
  generalize hk : ∑ t, (s.th t).left times = k
  induction k using Nat.strongRecOn generalizing s with
  | ind k ih =>
      by_cases hsome : ∃ t, (s.th t).i < times
      · obtain ⟨es, v, hrun, hI', hless⟩ := exists_progress hI hsome
        obtain ⟨fs, s', hrun', hdone⟩ := ih _ (hk ▸ hless) hI' rfl
        exact ⟨es ++ fs, s', run_append.mpr ⟨v, hrun, hrun'⟩, hdone⟩
      · exact ⟨[], s, rfl, fun t hlt => hsome ⟨t, hlt⟩⟩

/-- Thread 0 has finished with 19 copies of the first book; thread 1 can still finish. -/
theorem library_can_finish_depleted :
    ∃ s, run (randomBench1 1) (init 2) (List.replicate 21 (0, 2147483647)) = some s ∧
      s.mem.artOfMultiprocessorProgramming = 1 ∧
      ∃ fs s', run (randomBench1 1) s fs = some s' ∧ ∀ t, ¬ (s'.th t).i < 1 := by
  obtain ⟨s, hs⟩ : ∃ s, run (randomBench1 1) (init 2) (List.replicate 21 (0, 2147483647)) = some s :=
    ⟨_, rfl⟩
  have hfirst : s.mem.artOfMultiprocessorProgramming = 1 :=
    run_observe hs (fun s => s.mem.artOfMultiprocessorProgramming) rfl
  exact ⟨s, hs, hfirst, library_can_finish hs⟩

end ConcurrentQueues.Library
