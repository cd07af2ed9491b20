import ConcurrentQueues.Bench.Grammar

/-!
# Parser — which patterns the parser accepts

`int cap` doubles up to `2 ^ 30`; a list that goes on behind so many batch sizes overflows it.
-/

namespace ConcurrentQueues.Bench

open Reasoning

variable {A : Type} {t u w x y : Text} {c closeCh openCh : UInt8} {e : BatchSpec}
  {es elems : List BatchSpec} {fuel len cap cap' n : Nat}

/-! ## The capacity -/

/-- The capacity has been doubled a few times, and the elements fit. -/
structure Room (len cap : Nat) : Prop where
  le : len ≤ cap
  doubled : ∃ k ≤ 27, cap = 8 * 2 ^ k

theorem room_start : Room ([] : List BatchSpec).length 8 := ⟨by decide, 0, by decide, rfl⟩

theorem Room.cap_le (h : Room len cap) : cap ≤ 2 ^ 30 := by
  obtain ⟨k, hk, rfl⟩ := h.doubled
  have hpow : 2 ^ k ≤ 2 ^ 27 := Nat.pow_le_pow_right (by decide) hk
  omega

theorem Room.grow (h : Room len cap) (hlen : len < 2 ^ 30) :
    ∃ cap', grow len cap = .ok cap' ∧ Room (len + 1) cap' := by
  by_cases hfull : len = cap
  · obtain ⟨k, hk, hcap⟩ := h.doubled
    have hlt : k < 27 := by
      by_contra hge
      obtain rfl : k = 27 := by omega
      omega
    have hsmall : cap * 2 < 2 ^ 31 := by omega
    have hpos : 0 < cap := hcap ▸ Nat.mul_pos (by decide) (Nat.two_pow_pos k)
    refine ⟨cap * 2, by rw [Bench.grow, if_pos hfull, if_pos hsmall], by omega, k + 1, hlt, ?_⟩
    rw [hcap, pow_succ, Nat.mul_assoc]
  · have hle := h.le
    exact ⟨cap, by rw [Bench.grow, if_neg hfull], by omega, h.doubled⟩

theorem Room.grow_full (h : Room (2 ^ 30) cap) : Bench.grow (2 ^ 30) cap = .error .overflow := by
  have hcap : 2 ^ 30 = cap := Nat.le_antisymm h.le h.cap_le
  rw [Bench.grow, if_pos hcap, ← hcap, if_neg (by decide)]

/-! ## A list -/

/-- A closing bracket. -/
structure Closing (c : UInt8) : Prop where
  ne_zero : c ≠ 0
  not_space : isSpace c = false
  not_comma : c ≠ ','.toUInt8
  not_spec : startsSpec c = false
  not_digit : isDigit c = false

theorem closing_bracket : Closing ']'.toUInt8 := by constructor <;> decide

theorem closing_brace : Closing '\x7d'.toUInt8 := by constructor <;> decide

/-- Spaces in front of the list do not matter. -/
theorem parseElems_skip (hw : Spaces w) (t : Text) :
    parseElems closeCh fuel elems cap (w ++ t ++ [0]) =
      parseElems closeCh fuel elems cap (t ++ [0]) := by
  cases fuel with
  | zero => rfl
  | succ fuel => simp only [parseElems, parseSpec_skip hw]

theorem parseElems_dropWhile (t : Text) :
    parseElems closeCh fuel elems cap (t.dropWhile isSpace ++ [0]) =
      parseElems closeCh fuel elems cap (t ++ [0]) := by
  have hskip :
      parseElems closeCh fuel elems cap (t.takeWhile isSpace ++ t.dropWhile isSpace ++ [0]) = _ :=
    parseElems_skip (spaces_takeWhile t) (t.dropWhile isSpace)
  rw [← hskip, List.takeWhile_append_dropWhile]

/-- A round that ends at a comma. -/
theorem parseElems_round (closeCh : UInt8) (fuel : Nat) (hgrow : grow elems.length cap = .ok cap')
    (hspec : parseSpec (t ++ [0]) = .ok (e, w ++ ','.toUInt8 :: u ++ [0])) (hw : Spaces w) :
    parseElems closeCh (fuel + 1) elems cap (t ++ [0]) =
      parseElems closeCh fuel (elems ++ [e]) cap' (u ++ [0]) := by
  have hcomma := skipWs_spaces hw (c := ','.toUInt8) rfl u
  simp only [parseElems, hgrow, hspec, ok_bind, hcomma, deref_cons, if_true, List.tail_cons,
    skipWs_append]
  exact parseElems_dropWhile u

/-- The round that ends at the closing bracket. -/
theorem parseElems_last (fuel : Nat) (hclose : Closing closeCh)
    (hgrow : grow elems.length cap = .ok cap')
    (hspec : parseSpec (t ++ [0]) = .ok (e, w ++ closeCh :: u ++ [0])) (hw : Spaces w) :
    parseElems closeCh (fuel + 1) elems cap (t ++ [0]) = .ok (elems ++ [e], u ++ [0]) := by
  have hend := skipWs_spaces hw hclose.not_space u
  simp only [parseElems, hgrow, hspec, ok_bind, hend, deref_cons, if_neg hclose.not_comma, if_true,
    List.tail_cons]
  rfl

theorem parseElems_comma (closeCh : UInt8) (h : CommaText y es) :
    ∀ {elems : List BatchSpec} {cap : Nat}, Room elems.length cap →
      elems.length + es.length ≤ 2 ^ 30 → ∃ cap', Room (elems.length + es.length) cap' ∧
        ∀ fuel t, parseElems closeCh (fuel + es.length) elems cap (y ++ t ++ [0]) =
          parseElems closeCh fuel (elems ++ es) cap' (t ++ [0]) := by
  induction h with
  | nil =>
      intro elems cap hroom _
      exact ⟨cap, hroom, fun fuel t => by rw [List.append_nil]; rfl⟩
  | cons x w y e es hx hw _ ih =>
      intro elems cap hroom hlen
      rw [List.length_cons] at hlen
      obtain ⟨cap₁, hgrow, hroom₁⟩ := hroom.grow (by omega)
      have hroom₁' : Room (elems ++ [e]).length cap₁ := by simpa using hroom₁
      obtain ⟨cap₂, hroom₂, hrest⟩ := ih hroom₁' (by
        rw [List.length_append, List.length_singleton]
        omega)
      refine ⟨cap₂, by simpa [Nat.add_assoc, Nat.add_comm 1] using hroom₂, fun fuel t => ?_⟩
      have hspec := parseSpec_spec hx (hw.stops (stops_cons (c := ','.toUInt8) rfl (y ++ t)))
      have hround := parseElems_round closeCh (fuel + es.length) hgrow hspec hw
      rw [hrest] at hround
      simpa only [List.append_assoc, List.cons_append, List.length_cons, List.nil_append,
        ← Nat.add_assoc] using hround

/-- The loop reads every list that is short enough. -/
theorem parseElems_list (hclose : Closing closeCh) (h : ListText y es)
    (hroom : Room elems.length cap) (hlen : elems.length + es.length ≤ 2 ^ 30)
    (hfuel : es.length ≤ fuel) (u : Text) :
    parseElems closeCh fuel elems cap (y ++ closeCh :: u ++ [0]) =
      .ok (elems ++ es, u ++ [0]) := by
  cases h with
  | intro y x w es e hy hx hw =>
      rw [List.length_append, List.length_singleton] at hlen hfuel
      obtain ⟨cap₁, hroom₁, hcommas⟩ := parseElems_comma closeCh hy hroom (by omega)
      have hroom₁' : Room (elems ++ es).length cap₁ := by rwa [List.length_append]
      obtain ⟨cap₂, hgrow, -⟩ := hroom₁'.grow (by rw [List.length_append]; omega)
      have hspec := parseSpec_spec hx (hw.stops (stops_cons hclose.not_digit u))
      obtain ⟨k, rfl⟩ : ∃ k, fuel = k + 1 + es.length := ⟨fuel - 1 - es.length, by omega⟩
      have hlast := parseElems_last k hclose hgrow hspec hw
      rw [← hcommas (k + 1)] at hlast
      simpa only [List.append_assoc, List.cons_append] using hlast

/-- Behind `2 ^ 30` batch sizes with a comma each, the capacity overflows. -/
theorem parseElems_full (closeCh : UInt8) (h : CommaText y es) (hroom : Room elems.length cap)
    (hlen : elems.length + es.length = 2 ^ 30) (hfuel : es.length < fuel) (u : Text) :
    parseElems closeCh fuel elems cap (y ++ u ++ [0]) = .error .overflow := by
  obtain ⟨cap₁, hroom₁, hcommas⟩ := parseElems_comma closeCh h hroom hlen.le
  obtain ⟨k, rfl⟩ : ∃ k, fuel = k + 1 + es.length := ⟨fuel - 1 - es.length, by omega⟩
  rw [hlen] at hroom₁
  rw [hcommas, parseElems, List.length_append, hlen, hroom₁.grow_full]
  rfl

theorem ListText.cons (hx : SpecText x e) (hw : Spaces w) (h : ListText y es) :
    ListText (x ++ (w ++ ','.toUInt8 :: y)) (e :: es) := by
  cases h with
  | intro y x' w' es e' hy hx' hw' =>
      have hall : ListText _ _ := .intro _ x' w' _ e' (.cons x w y e es hx hw hy) hx' hw'
      simpa only [List.append_assoc, List.cons_append] using hall

/-- The loop dies, reads a list, or finds `2 ^ 30` batch sizes with a comma each. -/
theorem parseElems_cases (hclose : Closing closeCh) :
    ∀ (fuel : Nat) (elems : List BatchSpec) (cap : Nat) (t : Text), 0 ∉ t → t.length < fuel →
      Room elems.length cap →
      (∃ msg, parseElems closeCh fuel elems cap (t ++ [0]) = dies msg) ∨
      (∃ y u es, t = y ++ closeCh :: u ∧ ListText y es ∧
        parseElems closeCh fuel elems cap (t ++ [0]) = .ok (elems ++ es, u ++ [0])) ∨
      ∃ y u es, t = y ++ u ∧ CommaText y es ∧ elems.length + es.length = 2 ^ 30 ∧
        parseElems closeCh fuel elems cap (t ++ [0]) = .error .overflow := by
  intro fuel
  induction fuel with
  | zero => exact fun _ _ t _ hfuel => absurd hfuel (Nat.not_lt_zero _)
  | succ fuel ih =>
      intro elems cap t h0 hfuel hroom
      rcases Nat.lt_or_ge elems.length (2 ^ 30) with hlt | hge
      swap
      · have hlen : elems.length + 0 = 2 ^ 30 := Nat.le_antisymm (hroom.le.trans hroom.cap_le) hge
        refine .inr (.inr ⟨[], t, [], rfl, .nil, hlen, ?_⟩)
        exact parseElems_full closeCh .nil hroom hlen (Nat.succ_pos fuel) t
      obtain ⟨cap₁, hgrow, hroom₁⟩ := hroom.grow hlt
      rcases scans_spec t h0 with ⟨m, hdie⟩ | ⟨x, u, e, rfl, hx, hspec⟩
      · exact .inl ⟨m, by simp only [parseElems, hgrow, ok_bind, hdie, dies, error_bind]⟩
      rcases skipWs_cases u with hw | ⟨w, c, d, rfl, hw, hc⟩
      · refine .inl ⟨"expected ',' or closing bracket", ?_⟩
        simp only [parseElems, hgrow, ok_bind, hspec, skipWs_end hw, deref_cons,
          if_neg hclose.ne_zero.symm]
        rfl
      by_cases hcomma : c = ','.toUInt8
      · subst hcomma
        have hround := parseElems_round closeCh fuel hgrow hspec hw
        have hroom₁' : Room (elems ++ [e]).length cap₁ := by simpa using hroom₁
        have hd : 0 ∉ d := fun h => h0 (by simp [h])
        have hlen : d.length < fuel := by
          simp only [List.length_append, List.length_cons] at hfuel
          omega
        rw [hround]
        rcases ih (elems ++ [e]) cap₁ d hd hlen hroom₁' with
          hdie | ⟨y, u, es, rfl, hy, hok⟩ | ⟨y, u, es, rfl, hy, hfull, hover⟩
        · exact .inl hdie
        · refine .inr (.inl ⟨_, u, e :: es, ?_, hy.cons hx hw, ?_⟩)
          · simp only [List.append_assoc, List.cons_append]
          · rw [hok, List.append_assoc, List.singleton_append]
        · refine .inr (.inr ⟨_, u, e :: es, ?_, .cons x w y e es hx hw hy, ?_, hover⟩)
          · simp only [List.append_assoc, List.cons_append]
          · rw [List.length_append, List.length_singleton] at hfull
            rw [List.length_cons]
            omega
      by_cases hend : c = closeCh
      · subst hend
        refine .inr (.inl ⟨x ++ w, d, [e], by rw [List.append_assoc], ?_, ?_⟩)
        · exact .intro [] x w [] e .nil hx hw
        · exact parseElems_last fuel hclose hgrow hspec hw
      · refine .inl ⟨"expected ',' or closing bracket", ?_⟩
        simp only [parseElems, hgrow, ok_bind, hspec, skipWs_spaces hw hc, deref_cons,
          if_neg hcomma, if_neg hend]

/-! ## Behind an opening bracket -/

/-- `t` begins with a batch size. -/
def Opens (t : Text) : Prop :=
  ∃ w c u, t = w ++ c :: u ∧ Spaces w ∧ isSpace c = false ∧ startsSpec c = true

theorem Opens.append (h : Opens t) (u : Text) : Opens (t ++ u) := by
  obtain ⟨w, c, v, rfl, hw, hc, hspec⟩ := h
  exact ⟨w, c, v ++ u, by simp, hw, hc, hspec⟩

theorem SpecText.opens (h : SpecText x e) : Opens x := h.exists_split

theorem CommaText.opens (h : CommaText y es) (hes : es ≠ []) : Opens y := by
  cases h with
  | nil => exact absurd rfl hes
  | cons x w y e es hx hw hy => exact hx.opens.append _

theorem ListText.opens (h : ListText y es) : Opens y := by
  cases h with
  | intro y x w es e hy hx hw =>
      cases hy with
      | nil => exact hx.opens.append w
      | cons x' w' y e' es hx' hw' hy =>
          rw [List.append_assoc]
          exact hx'.opens.append _

/-- The end of `parse_spec_list`. -/
def finish (elems : List BatchSpec) (s : Text) : Parse (List BatchSpec) := do
  let s ← skipWs s
  let c ← deref s
  if c ≠ 0 then dies "trailing characters after pattern" else return elems

theorem finish_spaces (hw : Spaces w) : finish es (w ++ [0]) = .ok es := by
  simp only [finish, skipWs_end hw, ok_bind, deref_cons, ne_eq, not_true_eq_false, if_false]
  rfl

theorem finish_cases (es : List BatchSpec) (h0 : 0 ∉ t) :
    (∃ msg, finish es (t ++ [0]) = dies msg) ∨ Spaces t := by
  rcases skipWs_cases t with hw | ⟨w, c, u, rfl, hw, hc⟩
  · exact .inr hw
  · have hne := ne_zero_of_not_mem h0
    exact .inl ⟨_, by simp only [finish, skipWs_spaces hw hc, ok_bind, deref_cons, if_pos hne]; rfl⟩

/-- `parse_spec_list` at its opening bracket. -/
theorem parseSpecList_eq (hclose : Closing closeCh) (hopen : isSpace openCh = false) (t : Text) :
    parseSpecList fuel (openCh :: t ++ [0]) openCh closeCh =
      if (t.dropWhile isSpace).head? = some closeCh then dies "empty list is not allowed"
      else parseElems closeCh fuel [] 8 (t ++ [0]) >>= fun r => finish r.1 r.2 := by
  have hbracket : skipWs (openCh :: t ++ [0]) = .ok (openCh :: (t ++ [0])) :=
    skipWs_spaces (w := []) (fun _ h => nomatch h) hopen t
  rcases skipWs_cases t with hw | ⟨w, c, u, rfl, hw, hc⟩
  · have hdrop : t.dropWhile isSpace = [] := List.dropWhile_eq_nil_iff.mpr hw
    have hskip : parseElems closeCh fuel [] 8 (t ++ [] ++ [0]) = parseElems closeCh fuel [] 8 [0] :=
      parseElems_skip hw []
    rw [List.append_nil] at hskip
    simp only [parseSpecList, hbracket, ok_bind, deref_cons, ne_eq, not_true_eq_false, if_false,
      List.tail_cons, skipWs_end hw, if_neg hclose.ne_zero.symm, hdrop, hskip]
    rfl
  · have hdrop : (w ++ c :: u).dropWhile isSpace = c :: u := by
      rw [List.dropWhile_append_of_pos hw, List.dropWhile_cons_of_neg (by simp [hc])]
    have hskip : parseElems closeCh fuel [] 8 (w ++ c :: u ++ [0]) =
        parseElems closeCh fuel [] 8 (c :: (u ++ [0])) := parseElems_skip hw (c :: u)
    simp only [parseSpecList, hbracket, ok_bind, deref_cons, ne_eq, not_true_eq_false, if_false,
      List.tail_cons, skipWs_spaces hw hc, hdrop, hskip, List.head?_cons, Option.some.injEq]
    rfl

theorem parseSpecList_opens (hclose : Closing closeCh) (hopen : isSpace openCh = false)
    (ht : Opens t) :
    parseSpecList fuel (openCh :: t ++ [0]) openCh closeCh =
      parseElems closeCh fuel [] 8 (t ++ [0]) >>= fun r => finish r.1 r.2 := by
  rw [parseSpecList_eq hclose hopen, if_neg]
  obtain ⟨w, c, u, rfl, hw, hc, hspec⟩ := ht
  rw [List.dropWhile_append_of_pos hw, List.dropWhile_cons_of_neg (by simp [hc])]
  intro he
  obtain rfl : c = closeCh := Option.some.inj he
  rw [hclose.not_spec] at hspec
  cases hspec

theorem parseSpecList_list (hclose : Closing closeCh) (hopen : isSpace openCh = false)
    (h : ListText y es) (hlen : es.length ≤ 2 ^ 30) (hfuel : es.length ≤ fuel) (hw : Spaces w) :
    parseSpecList fuel (openCh :: (y ++ closeCh :: w) ++ [0]) openCh closeCh = .ok es := by
  have helems := parseElems_list hclose h room_start (by simpa using hlen) hfuel w
  rw [parseSpecList_opens hclose hopen (h.opens.append _), helems, ok_bind]
  exact finish_spaces hw

theorem parseSpecList_full (hclose : Closing closeCh) (hopen : isSpace openCh = false)
    (h : CommaText y es) (hlen : es.length = 2 ^ 30) (hfuel : es.length < fuel) (u : Text) :
    parseSpecList fuel (openCh :: (y ++ u) ++ [0]) openCh closeCh = .error .overflow := by
  have hne : es ≠ [] := by
    rintro rfl
    exact absurd hlen (by decide)
  have helems := parseElems_full closeCh h room_start (by simpa using hlen) hfuel u
  rw [parseSpecList_opens hclose hopen ((h.opens hne).append u), helems]
  rfl

/-- `parse_spec_list` dies, returns a list, or overflows the capacity. -/
theorem parseSpecList_cases (hclose : Closing closeCh) (hopen : isSpace openCh = false)
    (h0 : 0 ∉ t) (hfuel : t.length < fuel) :
    (∃ msg, parseSpecList fuel (openCh :: t ++ [0]) openCh closeCh = dies msg) ∨
    (∃ y w es, t = y ++ closeCh :: w ∧ ListText y es ∧ Spaces w ∧
      parseSpecList fuel (openCh :: t ++ [0]) openCh closeCh = .ok es) ∨
    ∃ y u es, t = y ++ u ∧ CommaText y es ∧ es.length = 2 ^ 30 ∧
      parseSpecList fuel (openCh :: t ++ [0]) openCh closeCh = .error .overflow := by
  rw [parseSpecList_eq hclose hopen]
  by_cases hempty : (t.dropWhile isSpace).head? = some closeCh
  · exact .inl ⟨_, if_pos hempty⟩
  rw [if_neg hempty]
  rcases parseElems_cases hclose fuel [] 8 t h0 hfuel room_start with
    ⟨m, hdie⟩ | ⟨y, u, es, rfl, hy, hok⟩ | ⟨y, u, es, rfl, hy, hlen, hover⟩
  · exact .inl ⟨m, by simp only [hdie, dies, error_bind]⟩
  · have hu : 0 ∉ u := fun h => h0 (by simp [h])
    rw [hok, ok_bind]
    rcases finish_cases ([] ++ es) hu with hdie | hw
    · exact .inl hdie
    · exact .inr (.inl ⟨y, u, es, rfl, hy, hw, finish_spaces hw⟩)
  · refine .inr (.inr ⟨y, u, es, rfl, hy, by simpa using hlen, ?_⟩)
    rw [hover]
    rfl

/-! ## The sizes of the threads -/

theorem mapM_inBounds (l : List Nat) (f : Nat → Option A) (h : ∀ t ∈ l, f t ≠ none) :
    ∃ out, l.mapM (fun t => inBounds (f t)) = .ok out ∧ out.map some = l.map f := by
  induction l with
  | nil => exact ⟨[], rfl, rfl⟩
  | cons t l ih =>
      obtain ⟨a, ha⟩ := Option.ne_none_iff_exists'.mp (h t List.mem_cons_self)
      obtain ⟨out, hout, hmap⟩ := ih fun u hu => h u (List.mem_cons_of_mem t hu)
      refine ⟨a :: out, ?_, by rw [List.map_cons, List.map_cons, ha, hmap]⟩
      simp only [List.mapM_cons, ha, inBounds, ok_bind] at hout ⊢
      rw [hout]
      rfl

/-- The loop that fills `per_thread`. -/
theorem perThread_ok (index : Nat → Nat) (h : ∀ t < n, index t < es.length) :
    ∃ out, perThread n es index = .ok out ∧ out.length = n ∧
      ∀ t < n, out[t]? = es[index t]? := by
  obtain ⟨out, hout, hmap⟩ := mapM_inBounds (List.range n) (fun t => es[index t]?) (by
    intro t ht
    rw [List.getElem?_eq_getElem (h t (List.mem_range.mp ht))]
    exact Option.some_ne_none _)
  refine ⟨out, hout, by simpa using congrArg List.length hmap, fun t ht => ?_⟩
  have hget := congrArg (·[t]?) hmap
  rw [List.getElem?_map, List.getElem?_map, List.getElem?_range ht] at hget
  cases hout : out[t]? with
  | none => simp [hout] at hget
  | some e => simpa [hout] using hget

end ConcurrentQueues.Bench
