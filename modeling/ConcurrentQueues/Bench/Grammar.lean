import ConcurrentQueues.Bench.Pattern

/-!
# Grammar — the batch size patterns

What the patterns of the documentation denote, and how the parser reads a batch size.
-/

namespace ConcurrentQueues.Bench

open Reasoning

/-- A size: a numeral with a value in `0 .. 2147483647`. -/
inductive SizeText (x : Text) : Int32 → Prop
  | intro (z : Int) (h : Numeral x z) (hlow : 0 ≤ z) (hhigh : z ≤ 2147483647) :
      SizeText x (Int32.ofInt z)

/-- `x`, or `(x,y)`. -/
inductive SpecText : Text → BatchSpec → Prop
  | fixed (x : Text) (v : Int32) (h : SizeText x v) : SpecText x ⟨.fixed, v, v⟩
  | range (w x w₁ y w₂ : Text) (a b : Int32) (hw : Spaces w) (ha : SizeText x a) (hw₁ : Spaces w₁)
      (hb : SizeText y b) (hw₂ : Spaces w₂) (hle : a ≤ b) :
      SpecText (w ++ '('.toUInt8 :: (x ++ (w₁ ++ ','.toUInt8 :: (y ++ (w₂ ++ [')'.toUInt8])))))
        ⟨.range, a, b⟩

/-- `x0, x1, ..`, with a comma behind each. -/
inductive CommaText : Text → List BatchSpec → Prop
  | nil : CommaText [] []
  | cons (x w y : Text) (e : BatchSpec) (es : List BatchSpec) (hx : SpecText x e) (hw : Spaces w)
      (hy : CommaText y es) : CommaText (x ++ (w ++ ','.toUInt8 :: y)) (e :: es)

/-- `x0, x1, .. xk`. -/
inductive ListText : Text → List BatchSpec → Prop
  | intro (y x w : Text) (es : List BatchSpec) (e : BatchSpec) (hy : CommaText y es)
      (hx : SpecText x e) (hw : Spaces w) : ListText (y ++ (x ++ w)) (es ++ [e])

/-- The specs that a pattern denotes for `n` threads. -/
inductive Denotes (n : Nat) : Text → List BatchSpec → Prop
  | single (w x w₁ : Text) (e : BatchSpec) (hw : Spaces w) (hx : SpecText x e) (hw₁ : Spaces w₁) :
      Denotes n (w ++ (x ++ w₁)) (List.replicate n e)
  | repeating (w y w₁ : Text) (es out : List BatchSpec) (hw : Spaces w) (hy : ListText y es)
      (hw₁ : Spaces w₁) (hlen : out.length = n) (hout : ∀ t < n, out[t]? = es[t % es.length]?) :
      Denotes n (w ++ '['.toUInt8 :: (y ++ ']'.toUInt8 :: w₁)) out
  | explicit (w y w₁ : Text) (es : List BatchSpec) (hw : Spaces w) (hy : ListText y es)
      (hw₁ : Spaces w₁) (hlen : es.length = n) :
      Denotes n (w ++ '\x7b'.toUInt8 :: (y ++ '\x7d'.toUInt8 :: w₁)) es

/-! ## Reading strings with their terminator -/

variable {A B : Type} {t u w x y z : Text} {c : UInt8} {v a b : Int32} {e : BatchSpec}
  {es : List BatchSpec} {msg : String}

@[simp] theorem ok_bind (x : A) (f : A → Parse B) : (Except.ok x >>= f) = f x := rfl

@[simp] theorem error_bind (h : Halt) (f : A → Parse B) :
    ((Except.error h : Parse A) >>= f) = .error h := rfl

@[simp] theorem deref_cons (c : UInt8) (s : Text) : deref (c :: s) = .ok c := rfl

theorem skipWs_append (t : Text) : skipWs (t ++ [0]) = .ok (t.dropWhile isSpace ++ [0]) := by
  induction t with
  | nil => rfl
  | cons c t ih =>
      rw [List.cons_append, skipWs, List.dropWhile_cons]
      by_cases hc : isSpace c = true
      · have hne : c ≠ 0 := by
          rintro rfl
          exact absurd hc (by decide)
        rw [if_pos ⟨hne, hc⟩, if_pos hc, ih]
      · rw [if_neg fun h => hc h.2, if_neg hc]
        rfl

theorem skipWs_spaces (hw : Spaces w) (hc : isSpace c = false) (u : Text) :
    skipWs (w ++ c :: u ++ [0]) = .ok (c :: (u ++ [0])) := by
  rw [skipWs_append, List.dropWhile_append_of_pos hw, List.dropWhile_cons_of_neg (by simp [hc])]
  rfl

theorem skipWs_end (hw : Spaces w) : skipWs (w ++ [0]) = .ok [0] := by
  have hdrop : w.dropWhile isSpace = [] := List.dropWhile_eq_nil_iff.mpr hw
  rw [skipWs_append, hdrop]
  rfl

theorem ne_zero_of_not_mem (h0 : 0 ∉ w ++ c :: u) : c ≠ 0 := by
  rintro rfl
  exact h0 (List.mem_append_right w List.mem_cons_self)

/-- Behind the spaces the string ends, or there is the next character. -/
theorem skipWs_cases (t : Text) :
    Spaces t ∨ ∃ w c u, t = w ++ c :: u ∧ Spaces w ∧ isSpace c = false := by
  induction t with
  | nil => exact .inl fun _ h => nomatch h
  | cons c t ih =>
      by_cases hc : isSpace c = true
      · rcases ih with hw | ⟨w, d, u, rfl, hw, hd⟩
        · exact .inl (List.forall_mem_cons.mpr ⟨hc, hw⟩)
        · exact .inr ⟨c :: w, d, u, rfl, List.forall_mem_cons.mpr ⟨hc, hw⟩, hd⟩
      · exact .inr ⟨[], c, t, rfl, fun _ h => (nomatch h), by simpa using hc⟩

/-! ## A size -/

theorem ne_zero_of_startsNumeral (h : startsNumeral c = true) : c ≠ 0 := by
  rintro rfl
  exact absurd h (by decide)

/-- `parse_int_token` at a size. -/
theorem parseIntToken_size (h : SizeText x v) (ht : Stops t) :
    parseIntToken (x ++ t ++ [0]) = .ok (some (v, t ++ [0])) := by
  cases h with
  | intro z hz hlow hhigh =>
      obtain ⟨w, c, u, rfl, hw, hc, hz⟩ := hz.exists_split
      have hskip : skipWs (w ++ c :: u ++ t ++ [0]) = .ok (c :: (u ++ t ++ [0])) := by
        have hspaces := skipWs_spaces hw (not_space_of_startsNumeral hc) (u ++ t)
        simpa only [List.append_assoc, List.cons_append] using hspaces
      have hmoved : t ++ [0] ≠ c :: (u ++ t ++ [0]) := by
        intro he
        have hlen := congrArg List.length he
        simp only [List.length_append, List.length_cons] at hlen
        omega
      have hsmall : ¬ (z < 0 ∨ 2147483647 < z) := by omega
      have hstrtol : strtol (c :: (u ++ t ++ [0])) = some ⟨z, false, t ++ [0]⟩ := by
        have hread := strtol_numeral hz ht
        rwa [Strtol.ofInt_eq (by unfold longMax; omega) (by unfold longMax; omega)] at hread
      simp only [parseIntToken, hskip, hstrtol, ok_bind, deref_cons, inBounds,
        if_neg (ne_zero_of_startsNumeral hc)]
      rw [if_neg hmoved, if_neg Bool.false_ne_true, if_neg hsmall]
      rfl

/-- `parse_int_token` finds no integer, dies, or reads a size. -/
theorem parseIntToken_cases (h0 : 0 ∉ t) :
    parseIntToken (t ++ [0]) = .ok none ∨ (∃ msg, parseIntToken (t ++ [0]) = dies msg) ∨
    ∃ x u v, t = x ++ u ∧ SizeText x v ∧ parseIntToken (t ++ [0]) = .ok (some (v, u ++ [0])) := by
  rcases skipWs_cases t with hw | ⟨w, c, d, rfl, hw, hc⟩
  · left
    simp only [parseIntToken, skipWs_end hw, ok_bind, deref_cons]
    rfl
  have hne := ne_zero_of_not_mem h0
  simp only [parseIntToken, skipWs_spaces hw hc, ok_bind, deref_cons, if_neg hne]
  rcases strtol_cases (c :: d) with hnone | ⟨x, u, z, hsplit, hx, hz, hsome⟩
  · left
    rw [List.cons_append] at hnone
    simp only [hnone, inBounds, ok_bind, if_true]
    rfl
  rw [List.cons_append] at hsome
  obtain ⟨hrest, hof⟩ := Strtol.ofInt_cases z (u ++ [0])
  have hmoved : (Strtol.ofInt z (u ++ [0])).rest ≠ c :: (d ++ [0]) := by
    rw [hrest, ← List.cons_append, hsplit]
    intro he
    have hlen := congrArg List.length he
    have hpos := List.length_pos_iff.mpr hx
    simp only [List.length_append] at hlen
    omega
  simp only [hsome, inBounds, ok_bind, if_neg hmoved]
  rcases hof with herange | hof
  · exact .inr (.inl ⟨_, by rw [if_pos herange]⟩)
  rw [hof, if_neg Bool.false_ne_true]
  by_cases hrange : z < 0 ∨ 2147483647 < z
  · exact .inr (.inl ⟨_, by rw [if_pos hrange]⟩)
  rw [if_neg hrange]
  refine .inr (.inr ⟨w ++ x, u, Int32.ofInt z, ?_, ?_, rfl⟩)
  · rw [hsplit, List.append_assoc]
  · exact .intro z (hz.prepend hw) (by omega) (by omega)

/-- From every string, `f` dies or reads a text of `R` in front. -/
def Scans (f : Text → Parse (A × Text)) (R : Text → A → Prop) : Prop :=
  ∀ t, 0 ∉ t → (∃ msg, f (t ++ [0]) = dies msg) ∨
    ∃ x u a, t = x ++ u ∧ R x a ∧ f (t ++ [0]) = .ok (a, u ++ [0])

theorem intOrDie_size (msg : String) (h : SizeText x v) (ht : Stops t) :
    intOrDie msg (x ++ t ++ [0]) = .ok (v, t ++ [0]) := by
  simp only [intOrDie, parseIntToken_size h ht, ok_bind]
  rfl

theorem scans_size (msg : String) : Scans (intOrDie msg) SizeText := by
  intro t h0
  rcases parseIntToken_cases h0 with hnone | ⟨m, hdie⟩ | ⟨x, u, v, rfl, hx, hok⟩
  · exact .inl ⟨msg, by simp only [intOrDie, hnone, ok_bind]⟩
  · exact .inl ⟨m, by simp only [intOrDie, hdie, dies, error_bind]⟩
  · exact .inr ⟨x, u, v, rfl, hx, by simp only [intOrDie, hok, ok_bind]; rfl⟩

theorem SizeText.prepend (hw : Spaces w) (h : SizeText x v) : SizeText (w ++ x) v := by
  cases h with
  | intro z hz hlow hhigh => exact .intro z (hz.prepend hw) hlow hhigh

theorem SizeText.exists_split (h : SizeText x v) :
    ∃ w c u, x = w ++ c :: u ∧ Spaces w ∧ startsNumeral c = true ∧ SizeText (c :: u) v := by
  cases h with
  | intro z hz hlow hhigh =>
      obtain ⟨w, c, u, rfl, hw, hc, hz⟩ := hz.exists_split
      exact ⟨w, c, u, rfl, hw, hc, .intro z hz hlow hhigh⟩

theorem SizeText.nonneg (h : SizeText x v) : 0 ≤ v.toInt := by
  cases h with
  | intro z hz hlow hhigh =>
      rw [Int32.toInt_ofInt_of_le (by omega) (by omega)]
      exact hlow

/-- The test for negative sizes never succeeds. -/
theorem SizeText.not_neg (ha : SizeText x a) (hb : SizeText y b) : ¬ (a < 0 ∨ b < 0) := by
  have ha₀ := ha.nonneg
  have hb₀ := hb.nonneg
  rw [Int32.lt_iff_toInt_lt, Int32.lt_iff_toInt_lt, Int32.toInt_zero]
  omega

/-! ## A batch size -/

/-- The tuple behind its opening parenthesis. -/
theorem parseTuple_range {w₁ w₂ : Text} (ha : SizeText x a) (hw₁ : Spaces w₁)
    (hb : SizeText y b) (hw₂ : Spaces w₂) (hle : a ≤ b) (t : Text) :
    parseTuple (x ++ (w₁ ++ ','.toUInt8 :: (y ++ (w₂ ++ ')'.toUInt8 :: t))) ++ [0]) =
      .ok (⟨.range, a, b⟩, t ++ [0]) := by
  have hmin := fun msg => intOrDie_size msg ha
    (hw₁.stops (stops_cons (c := ','.toUInt8) rfl (y ++ (w₂ ++ ')'.toUInt8 :: t))))
  have hcomma := skipWs_spaces hw₁ (c := ','.toUInt8) rfl (y ++ (w₂ ++ ')'.toUInt8 :: t))
  have hmax := fun msg => intOrDie_size msg hb
    (hw₂.stops (stops_cons (c := ')'.toUInt8) rfl t))
  have hclose := skipWs_spaces hw₂ (c := ')'.toUInt8) rfl t
  simp only [parseTuple, hmin, ok_bind, hcomma, deref_cons, ne_eq, not_true_eq_false,
    if_false, List.tail_cons, hmax, hclose, if_neg (ha.not_neg hb),
    if_neg (Int32.not_lt.mpr hle)]
  rfl

/-- `skip_ws` and the test for the character `d`. -/
theorem next_char (d : UInt8) (hd : d ≠ 0) (t : Text) :
    (∃ s c, skipWs (t ++ [0]) = .ok s ∧ deref s = .ok c ∧ c ≠ d) ∨
    ∃ w u, t = w ++ d :: u ∧ Spaces w ∧ skipWs (t ++ [0]) = .ok (d :: (u ++ [0])) := by
  rcases skipWs_cases t with hw | ⟨w, c, u, rfl, hw, hc⟩
  · exact .inl ⟨[0], 0, skipWs_end hw, rfl, hd.symm⟩
  by_cases hcd : c = d
  · subst hcd
    exact .inr ⟨w, u, rfl, hw, skipWs_spaces hw hc u⟩
  · exact .inl ⟨_, c, skipWs_spaces hw hc u, rfl, hcd⟩

theorem scans_tuple : Scans parseTuple fun x e => SpecText ('('.toUInt8 :: x) e := by
  intro t h0
  rcases scans_size "expected integer min in tuple '(min,max)' " t h0 with
    ⟨m, hdie⟩ | ⟨x, u, a, rfl, ha, hmin⟩
  · exact .inl ⟨m, by simp only [parseTuple, hdie, dies, error_bind]⟩
  rcases next_char ','.toUInt8 (by decide) u with
    ⟨s, c, hskip, hc, hne⟩ | ⟨w₁, u, rfl, hw₁, hcomma⟩
  · exact .inl ⟨_, by simp only [parseTuple, hmin, ok_bind, hskip, hc, if_pos hne]; rfl⟩
  have hu : 0 ∉ u := fun h => h0 (by simp [h])
  rcases scans_size "expected integer max in tuple '(min,max)'" u hu with
    ⟨m, hdie⟩ | ⟨y, u, b, rfl, hb, hmax⟩
  · exact .inl ⟨m, by
      simp only [parseTuple, hmin, ok_bind, hcomma, deref_cons, ne_eq, not_true_eq_false, if_false,
        List.tail_cons, hdie, dies, error_bind]⟩
  rcases next_char ')'.toUInt8 (by decide) u with
    ⟨s, c, hskip, hc, hne⟩ | ⟨w₂, u, rfl, hw₂, hclose⟩
  · exact .inl ⟨_, by
      simp only [parseTuple, hmin, ok_bind, hcomma, deref_cons, ne_eq, not_true_eq_false, if_false,
        List.tail_cons, hmax, hskip, hc, hne, not_false_eq_true, if_true]; rfl⟩
  by_cases hle : a ≤ b
  · refine .inr ⟨_, u, ⟨.range, a, b⟩, ?_,
      .range [] x w₁ y w₂ a b (fun _ h => nomatch h) ha hw₁ hb hw₂ hle, ?_⟩
    · simp
    · exact parseTuple_range ha hw₁ hb hw₂ hle u
  · exact .inl ⟨_, by
      simp only [parseTuple, hmin, ok_bind, hcomma, deref_cons, ne_eq, not_true_eq_false, if_false,
        List.tail_cons, hmax, hclose, if_neg (ha.not_neg hb), if_pos (Int32.not_le.mp hle)]; rfl⟩

theorem SpecText.prepend (hw : Spaces w) (h : SpecText x e) : SpecText (w ++ x) e := by
  cases h with
  | fixed x v h => exact .fixed (w ++ x) v (h.prepend hw)
  | range w' x w₁ y w₂ a b hw' ha hw₁ hb hw₂ hle =>
      rw [← List.append_assoc]
      exact .range (w ++ w') x w₁ y w₂ a b (hw.append hw') ha hw₁ hb hw₂ hle

/-- How a batch size without spaces begins. -/
def startsSpec (c : UInt8) : Bool := startsNumeral c || c == '('.toUInt8

/-- The spaces of a batch size can be split off. -/
theorem SpecText.exists_split (h : SpecText x e) :
    ∃ w c u, x = w ++ c :: u ∧ Spaces w ∧ isSpace c = false ∧ startsSpec c = true := by
  cases h with
  | fixed x v h =>
      obtain ⟨w, c, u, rfl, hw, hc, -⟩ := h.exists_split
      exact ⟨w, c, u, rfl, hw, not_space_of_startsNumeral hc, by simp [startsSpec, hc]⟩
  | range w x w₁ y w₂ a b hw ha hw₁ hb hw₂ hle => exact ⟨w, _, _, rfl, hw, rfl, rfl⟩

/-- `parse_spec` at a batch size. -/
theorem parseSpec_spec (h : SpecText x e) (ht : Stops t) :
    parseSpec (x ++ t ++ [0]) = .ok (e, t ++ [0]) := by
  cases h with
  | fixed x v h =>
      obtain ⟨w, c, u, rfl, hw, hc, h⟩ := h.exists_split
      have hskip := skipWs_spaces hw (not_space_of_startsNumeral hc) (u ++ t)
      have hsize := fun msg => intOrDie_size msg h ht
      have hopen : c ≠ '('.toUInt8 := by
        rintro rfl
        exact absurd hc (by decide)
      simp only [List.append_assoc, List.cons_append] at hskip hsize ⊢
      simp only [parseSpec, hskip, ok_bind, deref_cons, if_neg (ne_zero_of_startsNumeral hc),
        if_neg hopen, hsize]
      rfl
  | range w x w₁ y w₂ a b hw ha hw₁ hb hw₂ hle =>
      have hopen := skipWs_spaces hw (c := '('.toUInt8) rfl
        (x ++ (w₁ ++ ','.toUInt8 :: (y ++ (w₂ ++ ')'.toUInt8 :: t))))
      have htuple := parseTuple_range ha hw₁ hb hw₂ hle t
      simp only [List.append_assoc, List.cons_append, List.nil_append] at hopen htuple ⊢
      simp only [parseSpec, hopen, ok_bind, deref_cons, List.tail_cons, htuple, if_true]
      rfl

theorem scans_spec : Scans parseSpec SpecText := by
  intro t h0
  rcases skipWs_cases t with hw | ⟨w, c, d, rfl, hw, hc⟩
  · exact .inl ⟨_, by simp only [parseSpec, skipWs_end hw, ok_bind, deref_cons, if_true]; rfl⟩
  have hne := ne_zero_of_not_mem h0
  by_cases hopen : c = '('.toUInt8
  · subst hopen
    have hd : 0 ∉ d := fun h => h0 (by simp [h])
    have hparse : parseSpec (w ++ '('.toUInt8 :: d ++ [0]) = parseTuple (d ++ [0]) := by
      simp only [parseSpec, skipWs_spaces hw hc, ok_bind, deref_cons, if_neg hne, if_true,
        List.tail_cons]
    rcases scans_tuple d hd with ⟨m, hdie⟩ | ⟨x, u, e, rfl, hx, hok⟩
    · exact .inl ⟨m, hparse.trans hdie⟩
    · exact .inr ⟨w ++ '('.toUInt8 :: x, u, e, by simp, hx.prepend hw, hparse.trans hok⟩
  have hcd : 0 ∉ c :: d := fun h => h0 (List.mem_append_right w h)
  rcases scans_size "expected integer or tuple '(min,max)'" (c :: d) hcd with
    ⟨m, hdie⟩ | ⟨x, u, v, hsplit, hx, hok⟩
  · rw [List.cons_append] at hdie
    exact .inl ⟨m, by
      simp only [parseSpec, skipWs_spaces hw hc, ok_bind, deref_cons, if_neg hne, if_neg hopen,
        hdie, dies, error_bind]⟩
  · rw [List.cons_append] at hok
    refine .inr ⟨w ++ x, u, ⟨.fixed, v, v⟩, by rw [hsplit, List.append_assoc],
      .fixed (w ++ x) v (hx.prepend hw), ?_⟩
    simp only [parseSpec, skipWs_spaces hw hc, ok_bind, deref_cons, if_neg hne, if_neg hopen, hok]
    rfl

/-- Spaces in front of a batch size do not matter. -/
theorem parseSpec_skip (hw : Spaces w) (t : Text) :
    parseSpec (w ++ t ++ [0]) = parseSpec (t ++ [0]) := by
  have hskip : skipWs (w ++ t ++ [0]) = skipWs (t ++ [0]) := by
    rw [skipWs_append, skipWs_append, List.dropWhile_append_of_pos hw]
  simp only [parseSpec, hskip]

/-- A pattern has only valid batch sizes. -/
theorem SpecText.valid (h : SpecText x e) : e.Valid := by
  cases h with
  | fixed x v h => exact ⟨h.nonneg, le_rfl⟩
  | range w x w₁ y w₂ a b hw ha hw₁ hb hw₂ hle => exact ⟨ha.nonneg, Int32.le_iff_toInt_le.mp hle⟩

end ConcurrentQueues.Bench
