import ConcurrentQueues.Bench.Parser

/-!
# Language — the patterns that `parse_batch_size_pattern` accepts

The parser accepts the patterns of the grammar and yields the batch sizes they denote, as long as no
list goes on behind `2 ^ 30` elements.
-/

namespace ConcurrentQueues.Bench

open Reasoning

variable {str d u w x y : Text} {c : UInt8} {e : BatchSpec} {es specs : List BatchSpec}
  {fuel n : Nat} {numThreads : Int32}

/-- The pattern is a list that goes on behind `2 ^ 30` elements. -/
def Overlong (str : Text) : Prop :=
  ∃ w c y u es, str = w ++ c :: (y ++ u) ∧ Spaces w ∧ (c = '['.toUInt8 ∨ c = '\x7b'.toUInt8) ∧
    CommaText y es ∧ es.length = 2 ^ 30

/-- What is expected of the parser: it dies or returns a batch size for each thread, and it returns
exactly what the pattern denotes. -/
def ParsesPattern (str : Text) (numThreads : Int32) : Prop :=
  ∀ fuel, str.length ≤ fuel →
    ((∃ msg, parseBatchSizePattern fuel (some (str ++ [0])) numThreads = dies msg) ∨
      ∃ specs, parseBatchSizePattern fuel (some (str ++ [0])) numThreads = .ok specs ∧
        specs.length = numThreads.toInt.toNat) ∧
    ∀ specs, parseBatchSizePattern fuel (some (str ++ [0])) numThreads = .ok specs ↔
      Denotes numThreads.toInt.toNat str specs

/-! ## The three forms -/

theorem parsePattern_single (hn : 0 < numThreads) (hw : Spaces w) (hc : isSpace c = false)
    (h0 : c ≠ 0) (hbracket : c ≠ '['.toUInt8) (hbrace : c ≠ '\x7b'.toUInt8) (d : Text) :
    parseBatchSizePattern fuel (some (w ++ c :: d ++ [0])) numThreads =
      parseSpec (c :: d ++ [0]) >>= fun r =>
        finish (List.replicate numThreads.toInt.toNat r.1) r.2 := by
  simp only [parseBatchSizePattern, if_neg (Int32.not_le.mpr hn), skipWs_spaces hw hc, ok_bind,
    deref_cons, if_neg h0, if_pos (And.intro hbracket hbrace)]
  rfl

theorem parsePattern_bracket (hn : 0 < numThreads) (hw : Spaces w) (d : Text) :
    parseBatchSizePattern fuel (some (w ++ '['.toUInt8 :: d ++ [0])) numThreads =
      parseSpecList fuel ('['.toUInt8 :: d ++ [0]) '['.toUInt8 ']'.toUInt8 >>= fun elems =>
        perThread numThreads.toInt.toNat elems (· % elems.length) := by
  have hskip := skipWs_spaces hw (c := '['.toUInt8) rfl d
  simp only [parseBatchSizePattern, if_neg (Int32.not_le.mpr hn), hskip, ok_bind, deref_cons]
  rfl

theorem parsePattern_brace (hn : 0 < numThreads) (hw : Spaces w) (d : Text) :
    parseBatchSizePattern fuel (some (w ++ '\x7b'.toUInt8 :: d ++ [0])) numThreads =
      parseSpecList fuel ('\x7b'.toUInt8 :: d ++ [0]) '\x7b'.toUInt8 '\x7d'.toUInt8 >>=
        fun elems =>
          if elems.length ≠ numThreads.toInt.toNat then
            dies "explicit per-thread list must have exactly num_threads elements"
          else perThread numThreads.toInt.toNat elems id := by
  have hskip := skipWs_spaces hw (c := '\x7b'.toUInt8) rfl d
  simp only [parseBatchSizePattern, if_neg (Int32.not_le.mpr hn), hskip, ok_bind, deref_cons]
  rfl

/-! ## Lists and their lengths -/

theorem SpecText.length_pos (h : SpecText x e) : 0 < x.length := by
  obtain ⟨w, c, u, rfl, -⟩ := h.exists_split
  rw [List.length_append, List.length_cons]
  omega

theorem CommaText.length_le (h : CommaText y es) : es.length ≤ y.length := by
  induction h with
  | nil => exact le_rfl
  | cons x w y e es hx hw _ ih =>
      simp only [List.length_append, List.length_cons]
      omega

theorem ListText.length_le (h : ListText y es) : es.length ≤ y.length := by
  cases h with
  | intro y x w es e hy hx hw =>
      have hle := hy.length_le
      have hpos := hx.length_pos
      simp only [List.length_append, List.length_singleton]
      omega

theorem ListText.length_pos (h : ListText y es) : 0 < es.length := by
  cases h with
  | intro y x w es e hy hx hw => simp

theorem CommaText.take (h : CommaText y es) (k : Nat) :
    ∃ y₁ y₂, y = y₁ ++ y₂ ∧ CommaText y₁ (es.take k) := by
  induction h generalizing k with
  | nil => exact ⟨[], [], rfl, by rw [List.take_nil]; exact .nil⟩
  | cons x w y e es hx hw _ ih =>
      cases k with
      | zero => exact ⟨[], _, rfl, .nil⟩
      | succ k =>
          obtain ⟨y₁, y₂, rfl, hy₁⟩ := ih k
          exact ⟨_, y₂, by simp, .cons x w y₁ e _ hx hw hy₁⟩

/-- A list of more elements is overlong. -/
theorem overlong_of_list (hw : Spaces w) (hc : c = '['.toUInt8 ∨ c = '\x7b'.toUInt8)
    (h : ListText y es) (hlen : 2 ^ 30 < es.length) (u : Text) :
    Overlong (w ++ c :: (y ++ u)) := by
  cases h with
  | intro y x w₁ es e hy hx hw₁ =>
      rw [List.length_append, List.length_singleton] at hlen
      obtain ⟨y₁, y₂, rfl, hy₁⟩ := hy.take (2 ^ 30)
      refine ⟨w, c, y₁, y₂ ++ (x ++ w₁) ++ u, es.take (2 ^ 30), ?_, hw, hc, hy₁, ?_⟩
      · simp only [List.append_assoc]
      · rw [List.length_take, Nat.min_eq_left (by omega)]

/-- The loop has enough rounds for a list that is not overlong. -/
theorem bounds_of_short (hw : Spaces w) (hc : c = '['.toUInt8 ∨ c = '\x7b'.toUInt8)
    (h : ListText y es) (hshort : ¬ Overlong (w ++ c :: (y ++ u)))
    (hfuel : (w ++ c :: (y ++ u)).length ≤ fuel) : es.length ≤ 2 ^ 30 ∧ es.length ≤ fuel := by
  refine ⟨Nat.not_lt.mp fun hgt => hshort (overlong_of_list hw hc h hgt u), ?_⟩
  have hle := h.length_le
  simp only [List.length_append, List.length_cons] at hfuel
  omega

/-! ## The parser and the grammar -/

theorem perThread_repeating (hpos : 0 < es.length) :
    ∃ out, perThread n es (· % es.length) = .ok out ∧ out.length = n ∧
      ∀ t < n, out[t]? = es[t % es.length]? :=
  perThread_ok _ fun t _ => Nat.mod_lt t hpos

theorem perThread_id (hlen : es.length = n) : perThread n es id = .ok es := by
  have hin : ∀ t < n, id t < es.length := fun t ht => hlen ▸ ht
  obtain ⟨out, hout, hlen', hget⟩ := perThread_ok id hin
  rw [hout]
  congr 1
  refine List.ext_getElem? fun t => ?_
  rcases Nat.lt_or_ge t n with ht | ht
  · exact hget t ht
  · rw [List.getElem?_eq_none (hlen' ▸ ht), List.getElem?_eq_none (hlen ▸ ht)]

/-- The parser dies, returns what the pattern denotes, or overflows the capacity. -/
theorem parsePattern_cases (h0 : 0 ∉ str) (hn : 0 < numThreads) (hfuel : str.length ≤ fuel) :
    (∃ msg, parseBatchSizePattern fuel (some (str ++ [0])) numThreads = dies msg) ∨
    (∃ specs, specs.length = numThreads.toInt.toNat ∧
      Denotes numThreads.toInt.toNat str specs ∧
      parseBatchSizePattern fuel (some (str ++ [0])) numThreads = .ok specs) ∨
    Overlong str ∧
      parseBatchSizePattern fuel (some (str ++ [0])) numThreads = .error .overflow := by
  rcases skipWs_cases str with hw | ⟨w, c, d, rfl, hw, hc⟩
  · refine .inl ⟨"empty pattern", ?_⟩
    simp only [parseBatchSizePattern, if_neg (Int32.not_le.mpr hn), skipWs_end hw, ok_bind,
      deref_cons, if_true]
  have hne := ne_zero_of_not_mem h0
  have hd : 0 ∉ d := fun h => h0 (by simp [h])
  have hlt : d.length < fuel := by
    rw [List.length_append, List.length_cons] at hfuel
    omega
  by_cases hbracket : c = '['.toUInt8
  · subst hbracket
    rw [parsePattern_bracket hn hw]
    rcases parseSpecList_cases closing_bracket hc hd hlt with
      ⟨m, hdie⟩ | ⟨y, w₁, es, rfl, hy, hw₁, hok⟩ | ⟨y, u, es, rfl, hy, hlen, hover⟩
    · exact .inl ⟨m, by rw [hdie]; rfl⟩
    · obtain ⟨out, hout, hlen, hget⟩ := perThread_repeating (n := numThreads.toInt.toNat)
        hy.length_pos
      refine .inr (.inl ⟨out, hlen, .repeating w y w₁ es out hw hy hw₁ hlen hget, ?_⟩)
      rw [hok, ok_bind, hout]
    · refine .inr (.inr ⟨⟨w, _, y, u, es, rfl, hw, .inl rfl, hy, hlen⟩, ?_⟩)
      rw [hover]
      rfl
  by_cases hbrace : c = '\x7b'.toUInt8
  · subst hbrace
    rw [parsePattern_brace hn hw]
    rcases parseSpecList_cases closing_brace hc hd hlt with
      ⟨m, hdie⟩ | ⟨y, w₁, es, rfl, hy, hw₁, hok⟩ | ⟨y, u, es, rfl, hy, hlen, hover⟩
    · exact .inl ⟨m, by rw [hdie]; rfl⟩
    · rw [hok, ok_bind]
      by_cases hlen : es.length = numThreads.toInt.toNat
      · refine .inr (.inl ⟨es, hlen, .explicit w y w₁ es hw hy hw₁ hlen, ?_⟩)
        rw [if_neg (not_not.mpr hlen), perThread_id hlen]
      · exact .inl ⟨_, if_pos hlen⟩
    · refine .inr (.inr ⟨⟨w, _, y, u, es, rfl, hw, .inr rfl, hy, hlen⟩, ?_⟩)
      rw [hover]
      rfl
  rw [parsePattern_single hn hw hc hne hbracket hbrace]
  have hcd : 0 ∉ c :: d := fun h => h0 (List.mem_append_right w h)
  rcases scans_spec (c :: d) hcd with ⟨m, hdie⟩ | ⟨x, u, e, hsplit, hx, hok⟩
  · exact .inl ⟨m, by rw [hdie]; rfl⟩
  rw [hok, ok_bind]
  have hu : 0 ∉ u := fun h => hcd (by simp [hsplit, h])
  rcases finish_cases (List.replicate numThreads.toInt.toNat e) hu with hdie | hw₁
  · exact .inl hdie
  · refine .inr (.inl ⟨_, List.length_replicate, ?_, finish_spaces hw₁⟩)
    rw [hsplit]
    exact .single w x u e hw hx hw₁

theorem parsePattern_denotes (h : Denotes numThreads.toInt.toNat str specs)
    (hshort : ¬ Overlong str) (hn : 0 < numThreads) (hfuel : str.length ≤ fuel) :
    parseBatchSizePattern fuel (some (str ++ [0])) numThreads = .ok specs := by
  cases h with
  | single w x w₁ e hw hx hw₁ =>
      have hspec := parseSpec_spec hx (t := w₁) (by simpa using hw₁.stops stops_nil)
      obtain ⟨w', c, u, rfl, hw', hc, hstarts⟩ := hx.exists_split
      have hne : c ≠ 0 ∧ c ≠ '['.toUInt8 ∧ c ≠ '\x7b'.toUInt8 := by
        refine ⟨?_, ?_, ?_⟩ <;>
        · rintro rfl
          exact absurd hstarts (by decide)
      have htext : w ++ (w' ++ c :: u ++ w₁) = w ++ w' ++ c :: (u ++ w₁) := by
        simp only [List.append_assoc, List.cons_append]
      have hskip : parseSpec (w' ++ c :: u ++ w₁ ++ [0]) = parseSpec (c :: (u ++ w₁) ++ [0]) := by
        have hsplit := parseSpec_skip hw' (c :: (u ++ w₁))
        simpa only [List.append_assoc, List.cons_append] using hsplit
      rw [htext, parsePattern_single hn (hw.append hw') hc hne.1 hne.2.1 hne.2.2, ← hskip, hspec,
        ok_bind]
      exact finish_spaces hw₁
  | repeating w y w₁ es _ hw hy hw₁ hlen hout =>
      obtain ⟨hle, hrounds⟩ := bounds_of_short hw (.inl rfl) hy hshort hfuel
      obtain ⟨out', hok, hlen', hout'⟩ := perThread_repeating (n := numThreads.toInt.toNat)
        hy.length_pos
      have hsame : out' = specs := by
        refine List.ext_getElem? fun t => ?_
        rcases Nat.lt_or_ge t numThreads.toInt.toNat with ht | ht
        · rw [hout' t ht, hout t ht]
        · rw [List.getElem?_eq_none (hlen' ▸ ht), List.getElem?_eq_none (hlen ▸ ht)]
      rw [parsePattern_bracket hn hw, parseSpecList_list closing_bracket rfl hy hle hrounds hw₁,
        ok_bind, hok, hsame]
  | explicit w y w₁ _ hw hy hw₁ hlen =>
      obtain ⟨hle, hrounds⟩ := bounds_of_short hw (.inr rfl) hy hshort hfuel
      rw [parsePattern_brace hn hw, parseSpecList_list closing_brace rfl hy hle hrounds hw₁,
        ok_bind, if_neg (not_not.mpr hlen), perThread_id hlen]

/-- An overlong list overflows the capacity. -/
theorem parsePattern_overlong (h : Overlong str) (hn : 0 < numThreads)
    (hfuel : str.length ≤ fuel) :
    parseBatchSizePattern fuel (some (str ++ [0])) numThreads = .error .overflow := by
  obtain ⟨w, c, y, u, es, rfl, hw, hc, hy, hlen⟩ := h
  have hrounds : es.length < fuel := by
    have hley := hy.length_le
    simp only [List.length_append, List.length_cons] at hfuel
    omega
  rcases hc with rfl | rfl
  · rw [parsePattern_bracket hn hw, parseSpecList_full closing_bracket rfl hy hlen hrounds]
    rfl
  · rw [parsePattern_brace hn hw, parseSpecList_full closing_brace rfl hy hlen hrounds]
    rfl

theorem not_parsesPattern_of_overlong (h : Overlong str) (hn : 0 < numThreads) :
    ¬ ParsesPattern str numThreads := by
  intro hparses
  have hover := parsePattern_overlong h hn le_rfl
  rcases (hparses str.length le_rfl).1 with ⟨m, hdie⟩ | ⟨specs, hok, -⟩
  · rw [hover] at hdie
    cases hdie
  · rw [hover] at hok
    cases hok

/-! ## The batch sizes are valid -/

theorem CommaText.valid (h : CommaText y es) : ∀ e ∈ es, e.Valid := by
  induction h with
  | nil => exact fun _ h => nomatch h
  | cons x w y e es hx hw _ ih => exact List.forall_mem_cons.mpr ⟨hx.valid, ih⟩

theorem ListText.valid (h : ListText y es) : ∀ e ∈ es, e.Valid := by
  cases h with
  | intro y x w es e hy hx hw =>
      intro e' he
      rcases List.mem_append.mp he with he | he
      · exact hy.valid e' he
      · rw [List.mem_singleton.mp he]
        exact hx.valid

/-- What the parser returns is what `batch_spec_sample` relies on. -/
theorem parsePattern_valid (h0 : 0 ∉ str) (hn : 0 < numThreads) (hfuel : str.length ≤ fuel)
    (hok : parseBatchSizePattern fuel (some (str ++ [0])) numThreads = .ok specs) :
    ∀ e ∈ specs, e.Valid := by
  rcases parsePattern_cases h0 hn hfuel with ⟨m, hdie⟩ | ⟨specs', -, hspecs, hok'⟩ | ⟨-, hover⟩
  · rw [hok] at hdie
    cases hdie
  · rw [hok] at hok'
    cases hok'
    cases hspecs with
    | single w x w₁ e hw hx hw₁ =>
        intro e' he
        rw [List.eq_of_mem_replicate he]
        exact hx.valid
    | repeating w y w₁ es _ hw hy hw₁ hlen hout =>
        intro e he
        obtain ⟨t, ht⟩ := List.mem_iff_getElem?.mp he
        have hlt : t < numThreads.toInt.toNat := by
          rw [← hlen]
          exact (List.getElem?_eq_some_iff.mp ht).1
        rw [hout t hlt] at ht
        exact hy.valid e (List.mem_of_getElem? ht)
    | explicit w y w₁ _ hw hy hw₁ hlen => exact hy.valid
  · rw [hok] at hover
    cases hover

/-- **The language of the parser.**  The parser does what is expected of it exactly on the patterns
whose list does not go on behind `2 ^ 30` elements. -/
theorem parsesPattern_iff (str : Text) (h0 : 0 ∉ str) (numThreads : Int32)
    (hn : 0 < numThreads) : ParsesPattern str numThreads ↔ ¬ Overlong str := by
  constructor
  · exact fun h hlong => not_parsesPattern_of_overlong hlong hn h
  · intro hshort fuel hfuel
    have hdenotes (specs : List BatchSpec) (h : Denotes numThreads.toInt.toNat str specs) :=
      parsePattern_denotes h hshort hn hfuel
    rcases parsePattern_cases h0 hn hfuel with ⟨m, hdie⟩ | ⟨specs, hlen, hspecs, hok⟩ | ⟨hlong, -⟩
    · refine ⟨.inl ⟨m, hdie⟩, fun specs => ⟨fun hok => ?_, hdenotes specs⟩⟩
      rw [hdie] at hok
      cases hok
    · refine ⟨.inr ⟨specs, hok, hlen⟩, fun specs' => ⟨fun hok' => ?_, hdenotes specs'⟩⟩
      rw [hok] at hok'
      cases hok'
      exact hspecs
    · exact absurd hlong hshort

/-- An overlong pattern has more than `2 ^ 30` characters. -/
theorem Overlong.lt_length (h : Overlong str) : 2 ^ 30 < str.length := by
  obtain ⟨w, c, y, u, es, rfl, hw, hc, hy, hlen⟩ := h
  have hley := hy.length_le
  simp only [List.length_append, List.length_cons]
  omega

/-- `[5,(0,2)]` for three threads. -/
theorem parsesPattern_iff_repeating :
    ParsesPattern [91, 53, 44, 40, 48, 44, 50, 41, 93] 3 ∧
    Denotes 3 [91, 53, 44, 40, 48, 44, 50, 41, 93]
      [⟨.fixed, 5, 5⟩, ⟨.range, 0, 2⟩, ⟨.fixed, 5, 5⟩] := by
  have hparses : ParsesPattern [91, 53, 44, 40, 48, 44, 50, 41, 93] 3 :=
    (parsesPattern_iff _ (by decide) 3 (by decide)).mpr fun hlong =>
      absurd hlong.lt_length (by decide)
  refine ⟨hparses, ((hparses 9 le_rfl).2 _).mp ?_⟩
  decide

/-- `[0,0,..,0]` with `k + 1` elements. -/
def zeros (k : Nat) : Text :=
  '['.toUInt8 :: ((List.replicate k ['0'.toUInt8, ','.toUInt8]).flatten ++
    ['0'.toUInt8, ']'.toUInt8])

theorem commaText_zeros (k : Nat) :
    CommaText (List.replicate k ['0'.toUInt8, ','.toUInt8]).flatten
      (List.replicate k ⟨.fixed, 0, 0⟩) := by
  have hzero : SpecText ['0'.toUInt8] ⟨.fixed, 0, 0⟩ :=
    .fixed _ _ (.intro 0 (.unsigned [] ['0'.toUInt8] (fun _ h => nomatch h)
      ⟨List.cons_ne_nil _ _, List.forall_mem_singleton.mpr rfl⟩) le_rfl (by decide))
  induction k with
  | zero => exact .nil
  | succ k ih =>
      rw [List.replicate_succ, List.replicate_succ, List.flatten_cons]
      exact .cons ['0'.toUInt8] [] _ _ _ hzero (fun _ h => nomatch h) ih

theorem zero_not_mem_zeros (k : Nat) : 0 ∉ zeros k := by
  have hchars : ∀ c ∈ ['0'.toUInt8, ','.toUInt8], c ≠ 0 :=
    List.forall_mem_cons.mpr ⟨by decide, List.forall_mem_singleton.mpr (by decide)⟩
  have hmem : ∀ c ∈ (List.replicate k ['0'.toUInt8, ','.toUInt8]).flatten, c ≠ 0 := by
    intro c hc
    obtain ⟨l, hl, hc⟩ := List.mem_flatten.mp hc
    rw [List.eq_of_mem_replicate hl] at hc
    exact hchars c hc
  intro h
  rcases List.mem_cons.mp h with h | h
  · exact absurd h (by decide)
  rcases List.mem_append.mp h with h | h
  · exact hmem 0 h rfl
  · exact absurd h (by decide)

/-- One element more than `2 ^ 30`. -/
theorem not_parsesPattern_zeros :
    0 ∉ zeros (2 ^ 30) ∧ ¬ ParsesPattern (zeros (2 ^ 30)) 1 := by
  refine ⟨zero_not_mem_zeros _, not_parsesPattern_of_overlong ?_ (by decide)⟩
  exact ⟨[], '['.toUInt8, _, _, _, rfl, fun _ h => (nomatch h), .inl rfl, commaText_zeros (2 ^ 30),
    List.length_replicate⟩

end ConcurrentQueues.Bench
