import ConcurrentQueues.Bench.Printing

/-!
# Scripts — the batch sizes of `bench.sh`

In variant a every thread enqueues and dequeues in batches of one size.  The lists of the other
variants give every thread one of the two roles and the size 0 for the other.
-/

namespace ConcurrentQueues.Bench

open Reasoning

variable {fuel p : Nat} {b : Int32} {x : Text}

/-- `"0"` in `enq_vals` and `deq_vals`. -/
def zeroText : Text := ['0'.toUInt8]

/-- What is printed by the functions below: two lists with a bar between them.  `enqueues i` is the
condition in the loop, `b` the text of the batch size. -/
def mkLists (enqueues : Nat → Bool) (p : Nat) (b : Text) : Text :=
  mkList ((List.range p).map fun i => if enqueues i then b else zeroText) ++ '|'.toUInt8 ::
    mkList ((List.range p).map fun i => if enqueues i then zeroText else b)

/-- `mk_lists_one_enq_rest_deq`. -/
def mkListsOneEnqRestDeq (p : Nat) (b : Text) : Text := mkLists (· == 0) p b

/-- `mk_lists_half_enq_half_deq`. -/
def mkListsHalfEnqHalfDeq (p : Nat) (b : Text) : Text := mkLists (· < p / 2) p b

/-- `mk_lists_even_enq_odd_deq`. -/
def mkListsEvenEnqOddDeq (p : Nat) (b : Text) : Text := mkLists (· % 2 == 0) p b

/-- `IFS='|' read -r enq deq`, on a line with one bar. -/
def readLists (line : Text) : Text × Text :=
  (line.takeWhile (· != '|'.toUInt8), (line.dropWhile (· != '|'.toUInt8)).tail)

/-- The batch size of a thread in one of the two loops. -/
def roleSpec (active : Bool) (b : Int32) : BatchSpec :=
  if active then ⟨.fixed, b, b⟩ else ⟨.fixed, 0, 0⟩

theorem roleSpec_parsed (hb : 0 ≤ b.toInt) (active : Bool) : Parsed (roleSpec active b) := by
  cases active with
  | true => exact ⟨⟨hb, le_rfl⟩, fun _ => rfl⟩
  | false => exact ⟨⟨le_rfl, le_rfl⟩, fun _ => rfl⟩

theorem roleSpec_sample (active : Bool) (b : Int32) (r : UInt32) :
    (roleSpec active b).sample r = if active then b else 0 := by
  cases active <;> rfl

theorem printBatchSpec_roleSpec (active : Bool) (b : Int32) :
    printBatchSpec (some (roleSpec active b)) = if active then printInt b.toInt else zeroText := by
  cases active with
  | true => rfl
  | false =>
      show printInt (0 : Int32).toInt = zeroText
      decide

/-! ## The bar between the lists -/

theorem mem_joinList {c : UInt8} {ts : List Text} (h : c ∈ joinList ts) :
    c = ','.toUInt8 ∨ ∃ t ∈ ts, c ∈ t := by
  induction ts with
  | nil => cases h
  | cons t ts ih =>
      cases ts with
      | nil => exact .inr ⟨t, List.mem_singleton_self t, h⟩
      | cons t' ts =>
          rw [joinList, List.mem_append, List.mem_cons] at h
          rcases h with h | h | h
          · exact .inr ⟨t, List.mem_cons_self, h⟩
          · exact .inl h
          · rcases ih h with h | ⟨t'', ht'', h⟩
            · exact .inl h
            · exact .inr ⟨t'', List.mem_cons_of_mem t ht'', h⟩

theorem bar_not_mem_printInt {z : Int} (hz : 0 ≤ z) : '|'.toUInt8 ∉ printInt z := by
  unfold printInt
  rw [if_neg (Int.not_lt.mpr hz)]
  intro hmem
  have hdigit := (digits_printDigits z.natAbs).isDigit _ hmem
  cases hdigit

/-- A list of sizes holds no bar. -/
theorem bar_not_mem_mkList {ts : List Text} (h : ∀ t ∈ ts, '|'.toUInt8 ∉ t) :
    ∀ c ∈ mkList ts, (c != '|'.toUInt8) = true := by
  intro c hc
  apply bne_iff_ne.mpr
  rintro rfl
  rcases List.mem_cons.mp hc with hc | hc
  · cases hc
  · rcases List.mem_append.mp hc with hc | hc
    · rcases mem_joinList hc with hc | ⟨t, ht, hc⟩
      · cases hc
      · exact h t ht hc
    · cases List.mem_singleton.mp hc

theorem readLists_append {y : Text} (h : ∀ c ∈ x, (c != '|'.toUInt8) = true) :
    readLists (x ++ '|'.toUInt8 :: y) = (x, y) := by
  unfold readLists
  rw [List.takeWhile_append_of_pos h, List.dropWhile_append_of_pos h]
  simp

/-! ## Reading the lists -/

/-- The list of a role is the printed list of its specs. -/
theorem mkList_role (enqueues : Nat → Bool) (p : Nat) (b : Int32) :
    mkList ((List.range p).map fun i => if enqueues i then printInt b.toInt else zeroText) =
      mkList (((List.range p).map fun i => roleSpec (enqueues i) b).map fun e =>
        printBatchSpec (some e)) := by
  rw [List.map_map]
  refine congrArg mkList (List.map_congr_left fun i _ => ?_)
  exact (printBatchSpec_roleSpec (enqueues i) b).symm

theorem parse_role (hp : 0 < p) (hp' : p ≤ 2 ^ 30) (hb : 0 ≤ b.toInt) (enqueues : Nat → Bool)
    (hx : x = mkList ((List.range p).map fun i =>
      if enqueues i then printInt b.toInt else zeroText)) (hfuel : x.length ≤ fuel) :
    parseBatchSizePattern fuel (some (x ++ [0])) (.ofNat p) =
      .ok ((List.range p).map fun i => roleSpec (enqueues i) b) := by
  have hes : ∀ e ∈ (List.range p).map fun i => roleSpec (enqueues i) b, Parsed e := by
    intro e he
    obtain ⟨i, -, rfl⟩ := List.mem_map.mp he
    exact roleSpec_parsed hb _
  have hlen : ((List.range p).map fun i => roleSpec (enqueues i) b).length = p := by simp
  have hne : (List.range p).map (fun i => roleSpec (enqueues i) b) ≠ [] := by
    intro hnil
    rw [hnil] at hlen
    exact Nat.ne_of_lt hp hlen
  rw [mkList_role, ← tokens_flatten] at hx
  subst hx
  refine (roundTrips_of_le hes hne (hlen.trans_le hp')).1 _ (spread_flatten _) _ ?_ _ hfuel
  rw [hlen, Int32.toInt_ofNat_of_lt (by omega)]

/-- What is before the bar, and what is behind it. -/
theorem readLists_mkLists (hb : 0 ≤ b.toInt) (enqueues : Nat → Bool) :
    readLists (mkLists enqueues p (printInt b.toInt)) =
      (mkList ((List.range p).map fun i => if enqueues i then printInt b.toInt else zeroText),
        mkList ((List.range p).map fun i => if enqueues i then zeroText else printInt b.toInt)) := by
  have hbar : ∀ t ∈ (List.range p).map fun i =>
      if enqueues i then printInt b.toInt else zeroText, '|'.toUInt8 ∉ t := by
    intro t ht
    obtain ⟨i, -, rfl⟩ := List.mem_map.mp ht
    split
    · exact bar_not_mem_printInt hb
    · decide
  rw [mkLists, readLists_append (bar_not_mem_mkList hbar)]

/-- **The lists of the scripts.**  What `mk_lists_*` prints is split and parsed to the roles of the
threads: a thread that enqueues does not dequeue, and the other way round. -/
theorem parse_readLists (hp : 0 < p) (hp' : p ≤ 2 ^ 30) (hb : 0 ≤ b.toInt) (enqueues : Nat → Bool)
    (henq : (readLists (mkLists enqueues p (printInt b.toInt))).1.length ≤ fuel)
    (hdeq : (readLists (mkLists enqueues p (printInt b.toInt))).2.length ≤ fuel) :
    parseBatchSizePattern fuel
        (some ((readLists (mkLists enqueues p (printInt b.toInt))).1 ++ [0])) (.ofNat p) =
      .ok ((List.range p).map fun i => roleSpec (enqueues i) b) ∧
    parseBatchSizePattern fuel
        (some ((readLists (mkLists enqueues p (printInt b.toInt))).2 ++ [0])) (.ofNat p) =
      .ok ((List.range p).map fun i => roleSpec (!enqueues i) b) := by
  rw [readLists_mkLists hb] at henq hdeq ⊢
  constructor
  · exact parse_role hp hp' hb enqueues rfl henq
  · apply parse_role hp hp' hb (fun i => !enqueues i) _ hdeq
    refine congrArg mkList (List.map_congr_left fun i _ => ?_)
    cases enqueues i <;> rfl

/-- Neither of the two lists is longer than the line. -/
theorem parse_mkLists (hp : 0 < p) (hp' : p ≤ 2 ^ 30) (hb : 0 ≤ b.toInt) (enqueues : Nat → Bool)
    (hfuel : (mkLists enqueues p (printInt b.toInt)).length ≤ fuel) :
    parseBatchSizePattern fuel
        (some ((readLists (mkLists enqueues p (printInt b.toInt))).1 ++ [0])) (.ofNat p) =
      .ok ((List.range p).map fun i => roleSpec (enqueues i) b) ∧
    parseBatchSizePattern fuel
        (some ((readLists (mkLists enqueues p (printInt b.toInt))).2 ++ [0])) (.ofNat p) =
      .ok ((List.range p).map fun i => roleSpec (!enqueues i) b) := by
  rw [mkLists, List.length_append, List.length_cons] at hfuel
  apply parse_readLists hp hp' hb enqueues
  · rw [readLists_mkLists hb]
    show (mkList _).length ≤ fuel
    omega
  · rw [readLists_mkLists hb]
    show (mkList _).length ≤ fuel
    omega

/-- In variant a the pattern is a number. -/
theorem parse_number {numThreads : Int32} (hn : 0 < numThreads) (hb : 0 ≤ b.toInt)
    (hfuel : (printInt b.toInt).length ≤ fuel) :
    parseBatchSizePattern fuel (some (printInt b.toInt ++ [0])) numThreads =
      .ok (List.replicate numThreads.toInt.toNat (roleSpec true b)) := by
  have hnil : Spaces [] := fun _ h => nomatch h
  have hsize : SizeText (printInt b.toInt) b := sizeText_printInt (w := []) hnil hb
  have hdenotes : Denotes numThreads.toInt.toNat (printInt b.toInt)
      (List.replicate numThreads.toInt.toNat (roleSpec true b)) := by
    have h := Denotes.single (n := numThreads.toInt.toNat) [] _ [] _ hnil (.fixed _ b hsize) hnil
    rwa [List.nil_append, List.append_nil] at h
  refine parsePattern_denotes hdenotes ?_ hn hfuel
  -- a number has no opening bracket
  rintro ⟨w, c, y, u, es, heq, -, hc, -⟩
  have hmem : c ∈ printInt b.toInt := by rw [heq]; simp
  unfold printInt at hmem
  rw [if_neg (Int.not_lt.mpr hb)] at hmem
  have hdigit := (digits_printDigits _).isDigit c hmem
  rcases hc with rfl | rfl <;> cases hdigit

end ConcurrentQueues.Bench
