import ConcurrentQueues.Bench.Language

/-!
# Printing — batch sizes written out and read back

`print_batch_spec` writes one batch size, and `mk_list` of the scripts joins such texts to a list.
-/

namespace ConcurrentQueues.Bench

open Reasoning

variable {w x y : Text} {e : BatchSpec} {es : List BatchSpec} {ts : List Text} {c : UInt8}
  {fuel : Nat} {numThreads : Int32}

/-- `print_batch_spec`; a `NULL` spec is `none`.  There are only the two kinds of
`batch_spec_kind_t`, so the branch for an unknown one is not reached. -/
def printBatchSpec : Option BatchSpec → Text
  | none => "(null)".toList.map fun c => c.toNat.toUInt8
  | some spec =>
      match spec.kind with
      | .fixed => printInt spec.min.toInt
      | .range =>
          '('.toUInt8 :: (printInt spec.min.toInt ++ ','.toUInt8 :: (printInt spec.max.toInt ++
            [')'.toUInt8]))

/-- The loop of `mk_list`: a comma behind each text but the last. -/
def joinList : List Text → Text
  | [] => []
  | [x] => x
  | x :: y :: xs => x ++ ','.toUInt8 :: joinList (y :: xs)

/-- `mk_list`. -/
def mkList (vals : List Text) : Text := '\x7b'.toUInt8 :: (joinList vals ++ ['\x7d'.toUInt8])

/-! ## Spaces between the tokens -/

/-- The numbers, commas and parentheses of a batch size. -/
def specTokens (e : BatchSpec) : List Text :=
  match e.kind with
  | .fixed => [printInt e.min.toInt]
  | .range =>
      [['('.toUInt8], printInt e.min.toInt, [','.toUInt8], printInt e.max.toInt, [')'.toUInt8]]

def listTokens : List BatchSpec → List Text
  | [] => []
  | [e] => specTokens e
  | e :: e' :: es => specTokens e ++ [','.toUInt8] :: listTokens (e' :: es)

/-- The tokens of a list in brackets. -/
def tokens (openCh closeCh : UInt8) (es : List BatchSpec) : List Text :=
  [openCh] :: (listTokens es ++ [[closeCh]])

/-- The tokens with spaces between them, in front and behind. -/
inductive Spread : List Text → Text → Prop
  | nil (w : Text) (hw : Spaces w) : Spread [] w
  | cons (w t x : Text) (ts : List Text) (hw : Spaces w) (h : Spread ts x) :
      Spread (t :: ts) (w ++ (t ++ x))

theorem specTokens_flatten (e : BatchSpec) : (specTokens e).flatten = printBatchSpec (some e) := by
  obtain ⟨kind, a, b⟩ := e
  cases kind with
  | fixed => exact List.append_nil _
  | range => rfl

theorem listTokens_flatten (es : List BatchSpec) :
    (listTokens es).flatten = joinList (es.map fun e => printBatchSpec (some e)) := by
  induction es with
  | nil => rfl
  | cons e es ih =>
      cases es with
      | nil => exact specTokens_flatten e
      | cons e' es =>
          simp only [List.map_cons] at ih
          simp only [listTokens, List.flatten_append, List.flatten_cons, specTokens_flatten, ih,
            List.map_cons, joinList, List.cons_append, List.nil_append]

/-- The tokens are those of the printed list. -/
theorem tokens_flatten (es : List BatchSpec) :
    (tokens '\x7b'.toUInt8 '\x7d'.toUInt8 es).flatten =
      mkList (es.map fun e => printBatchSpec (some e)) := by
  simp [tokens, mkList, listTokens_flatten]

theorem spread_flatten (ts : List Text) : Spread ts ts.flatten := by
  induction ts with
  | nil => exact .nil [] fun _ h => nomatch h
  | cons t ts ih => exact .cons [] t ts.flatten ts (fun _ h => nomatch h) ih

/-! ## Reading them back -/

/-- The specs the parser makes. -/
structure Parsed (e : BatchSpec) : Prop where
  valid : e.Valid
  fixed : e.kind = .fixed → e.max = e.min

theorem sizeText_printInt (hw : Spaces w) {v : Int32} (hv : 0 ≤ v.toInt) :
    SizeText (w ++ printInt v.toInt) v := by
  have hsize := SizeText.intro v.toInt ((numeral_printInt v.toInt).prepend hw) hv
    (by have hlt : v.toInt < 2147483648 := v.toInt_lt; omega)
  rwa [Int32.ofInt_toInt] at hsize

theorem Spread.uncons {t : Text} (h : Spread (t :: ts) x) :
    ∃ w y, x = w ++ (t ++ y) ∧ Spaces w ∧ Spread ts y := by
  cases h with
  | cons w t y ts hw h => exact ⟨w, y, rfl, hw, h⟩

/-- The tokens of a batch size are a text for it. -/
theorem Spread.spec (he : Parsed e) (h : Spread (specTokens e ++ ts) x) :
    ∃ y z, x = y ++ z ∧ SpecText y e ∧ Spread ts z := by
  obtain ⟨kind, a, b⟩ := e
  have hlow := he.valid.nonneg
  have hle := he.valid.le
  cases kind with
  | fixed =>
      obtain rfl : b = a := he.fixed rfl
      obtain ⟨w, z, rfl, hw, hz⟩ := h.uncons
      exact ⟨w ++ printInt b.toInt, z, by simp, .fixed _ b (sizeText_printInt hw hlow), hz⟩
  | range =>
      obtain ⟨w, x₁, rfl, hw, h₁⟩ := h.uncons
      obtain ⟨w₁, x₂, rfl, hw₁, h₂⟩ := h₁.uncons
      obtain ⟨w₂, x₃, rfl, hw₂, h₃⟩ := h₂.uncons
      obtain ⟨w₃, x₄, rfl, hw₃, h₄⟩ := h₃.uncons
      obtain ⟨w₄, z, rfl, hw₄, hz⟩ := h₄.uncons
      have ha := sizeText_printInt hw₁ hlow
      have hb := sizeText_printInt hw₃ (hlow.trans hle)
      refine ⟨_, z, ?_,
        .range w _ w₂ _ w₄ a b hw ha hw₂ hb hw₄ (Int32.le_iff_toInt_le.mpr hle), hz⟩
      simp only [List.append_assoc, List.cons_append, List.nil_append]

/-- The tokens of a list are a text for it. -/
theorem Spread.list (hes : ∀ e ∈ es, Parsed e) (hne : es ≠ [])
    (h : Spread (listTokens es ++ [[c]]) x) :
    ∃ y w, x = y ++ c :: w ∧ ListText y es ∧ Spaces w := by
  induction es generalizing x with
  | nil => exact absurd rfl hne
  | cons e es ih =>
      have he := hes e List.mem_cons_self
      cases es with
      | nil =>
          obtain ⟨y, z, rfl, hy, hz⟩ := Spread.spec he h
          obtain ⟨w, u, rfl, hw, hu⟩ := hz.uncons
          cases hu with
          | nil u hw' => exact ⟨y ++ w, u, by simp, .intro [] y w [] e .nil hy hw, hw'⟩
      | cons e' es =>
          simp only [listTokens, List.append_assoc, List.cons_append] at h
          obtain ⟨y, z, rfl, hy, hz⟩ := Spread.spec he h
          obtain ⟨w, u, rfl, hw, hu⟩ := hz.uncons
          obtain ⟨y', w', rfl, hy', hw'⟩ :=
            ih (fun e he => hes e (List.mem_cons_of_mem _ he)) (List.cons_ne_nil _ _) hu
          exact ⟨_, w', by simp, hy'.cons hy hw, hw'⟩

/-- What a round trip is: in braces the list comes back for as many threads as it has elements, in
square brackets it repeats for any number of threads; spaces may stand anywhere between the
tokens. -/
def RoundTrips (es : List BatchSpec) : Prop :=
  (∀ x, Spread (tokens '{'.toUInt8 '}'.toUInt8 es) x → ∀ numThreads : Int32,
    numThreads.toInt = es.length → ∀ fuel, x.length ≤ fuel →
      parseBatchSizePattern fuel (some (x ++ [0])) numThreads = .ok es) ∧
  ∀ x, Spread (tokens '['.toUInt8 ']'.toUInt8 es) x → ∀ numThreads : Int32, 0 < numThreads →
    ∀ fuel, x.length ≤ fuel → ∃ specs,
      parseBatchSizePattern fuel (some (x ++ [0])) numThreads = .ok specs ∧
      specs.length = numThreads.toInt.toNat ∧
      ∀ t < numThreads.toInt.toNat, specs[t]? = es[t % es.length]?

/-- A spread list is a text for it in its brackets, and the loop has rounds enough. -/
theorem Spread.pattern {openCh closeCh : UInt8} (hes : ∀ e ∈ es, Parsed e) (hne : es ≠ [])
    (h : Spread (tokens openCh closeCh es) x) (hfuel : x.length ≤ fuel) :
    ∃ w y w', x = w ++ openCh :: (y ++ closeCh :: w') ∧ Spaces w ∧ ListText y es ∧ Spaces w' ∧
      es.length ≤ fuel := by
  obtain ⟨w, u, rfl, hw, hu⟩ := h.uncons
  obtain ⟨y, w', rfl, hy, hw'⟩ := hu.list hes hne
  refine ⟨w, y, w', rfl, hw, hy, hw', ?_⟩
  have hle := hy.length_le
  simp only [List.length_append, List.length_cons] at hfuel
  omega

theorem roundTrips_of_le (hes : ∀ e ∈ es, Parsed e) (hne : es ≠ []) (hlen : es.length ≤ 2 ^ 30) :
    RoundTrips es := by
  have hpos : 0 < es.length := List.length_pos_iff.mpr hne
  constructor
  · intro x hx numThreads hn fuel hfuel
    obtain ⟨w, y, w', rfl, hw, hy, hw', hrounds⟩ := hx.pattern hes hne hfuel
    have hn' : 0 < numThreads := by
      rw [Int32.lt_iff_toInt_lt, Int32.toInt_zero]
      omega
    have hcount : es.length = numThreads.toInt.toNat := by omega
    rw [parsePattern_brace hn' hw, parseSpecList_list closing_brace rfl hy hlen hrounds hw',
      ok_bind, if_neg (not_not.mpr hcount), perThread_id hcount]
  · intro x hx numThreads hn fuel hfuel
    obtain ⟨w, y, w', rfl, hw, hy, hw', hrounds⟩ := hx.pattern hes hne hfuel
    obtain ⟨out, hok, hout, hget⟩ := perThread_repeating (n := numThreads.toInt.toNat) hpos
    refine ⟨out, ?_, hout, hget⟩
    rw [parsePattern_bracket hn hw, parseSpecList_list closing_bracket rfl hy hlen hrounds hw',
      ok_bind, hok]

/-- A longer list overflows the capacity. -/
theorem not_roundTrips_of_lt (hes : ∀ e ∈ es, Parsed e) (hlen : 2 ^ 30 < es.length) :
    ¬ RoundTrips es := by
  have hne : es ≠ [] := by
    rintro rfl
    exact absurd hlen (by decide)
  intro h
  have hx := spread_flatten (tokens '['.toUInt8 ']'.toUInt8 es)
  obtain ⟨specs, hok, -⟩ := h.2 _ hx 1 (by decide) _ le_rfl
  obtain ⟨w, y, w', heq, hw, hy, -, -⟩ := hx.pattern hes hne le_rfl
  rw [heq] at hok
  have hlong := overlong_of_list hw (.inl rfl) hy hlen (']'.toUInt8 :: w')
  rw [parsePattern_overlong hlong (by decide) le_rfl] at hok
  cases hok

/-- **Printing and parsing.**  The text of a list is what `print_batch_spec` and `mk_list` make of
it, and every list of specs the parser can make comes back, with any spaces between its tokens,
exactly if it has at most `2 ^ 30` elements. -/
theorem printed_roundTrips_iff (hes : ∀ e ∈ es, Parsed e) (hne : es ≠ []) :
    (tokens '{'.toUInt8 '}'.toUInt8 es).flatten =
        mkList (es.map fun e => printBatchSpec (some e)) ∧
      (RoundTrips es ↔ es.length ≤ 2 ^ 30) :=
  ⟨tokens_flatten es, fun h => Nat.not_lt.mp fun hlt => not_roundTrips_of_lt hes hlt h,
    roundTrips_of_le hes hne⟩

/-- `{5,(3,3)}` -/
theorem printed_roundTrips_iff_small :
    mkList ([⟨.fixed, 5, 5⟩, ⟨.range, 3, 3⟩].map fun e => printBatchSpec (some e)) =
        [123, 53, 44, 40, 51, 44, 51, 41, 125] ∧
      RoundTrips [⟨.fixed, 5, 5⟩, ⟨.range, 3, 3⟩] := by
  have hes : ∀ e ∈ [(⟨.fixed, 5, 5⟩ : BatchSpec), ⟨.range, 3, 3⟩], Parsed e :=
    List.forall_mem_cons.mpr ⟨⟨⟨by decide, by decide⟩, fun _ => rfl⟩,
      List.forall_mem_singleton.mpr ⟨⟨by decide, by decide⟩, fun h => nomatch h⟩⟩
  exact ⟨rfl, (printed_roundTrips_iff hes (List.cons_ne_nil _ _)).2.mpr (by decide)⟩

/-- `2 ^ 30 + 1` times the size 0. -/
theorem not_roundTrips_zeros :
    Parsed ⟨.fixed, 0, 0⟩ ∧ ¬ RoundTrips (List.replicate (2 ^ 30 + 1) ⟨.fixed, 0, 0⟩) := by
  have hzero : Parsed ⟨.fixed, 0, 0⟩ := ⟨⟨by decide, by decide⟩, fun _ => rfl⟩
  refine ⟨hzero, not_roundTrips_of_lt (fun e he => ?_) ?_⟩
  · rwa [List.eq_of_mem_replicate he]
  · rw [List.length_replicate]
    omega

end ConcurrentQueues.Bench
