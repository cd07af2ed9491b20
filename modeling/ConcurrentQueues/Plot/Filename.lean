import ConcurrentQueues.Reasoning.Regex
import Mathlib.Data.Nat.Digits.Defs

/-!
# Filename — what `plot.py` reads from the name of a results file

The expression has one alternative for the concurrent variants and one for the sequential queue; the
branch is chosen by whether the group of the first is set.
-/

namespace ConcurrentQueues.Plot

open Reasoning.Regex

inductive Group
  | exercise | variant | p | b | s | r
  | exercise2 | p2 | b2 | s2 | r2
  deriving DecidableEq

/-- `(?P<x>\d+)`. -/
def number (x : Group) : Re Group := .group x (.plus decimalDigit)

def concurrentRe : Re Group :=
  all [.bol, text "ex".toList, number .exercise, text "_".toList, .group .variant (.plus letter),
    text "_p".toList, number .p, text "_b".toList, number .b, text "_s".toList, number .s,
    text "_r".toList, number .r, text ".csv".toList, .eol]

def sequentialRe : Re Group :=
  all [.bol, text "ex".toList, number .exercise2, text "_seq_p".toList, number .p2,
    text "_b".toList, number .b2, text "_s".toList, number .s2, text "_r".toList, number .r2,
    text ".csv".toList, .eol, .eol]

/-- `FILENAME_RE`. -/
def filenameRe : Re Group := .alt concurrentRe sequentialRe

inductive Mode
  | concurrent
  | sequential
  deriving DecidableEq

@[ext] structure Metadata where
  file : List Char
  exercise : Nat
  variant : List Char
  pFromName : Nat
  batch : Nat
  s : Nat
  rFromName : Nat
  mode : Mode
  deriving DecidableEq

inductive Error
  | valueError (message : List Char)
  /-- A number has more digits than the interpreter converts. -/
  | tooManyDigits (digits : Nat)
  /-- A group that has matched nothing is used. -/
  | missing (x : Group)
  | fileNotFound (message : List Char)
  deriving DecidableEq

def maxStrDigits : Nat := 4300

/-- `int`, of a row of decimal digits. -/
def int (ds : List Char) : Except Error Nat :=
  if maxStrDigits < ds.length then .error (.tooManyDigits ds.length)
  else match ds.foldlM (fun v c => (decimalValue c).map (10 * v + ·)) 0 with
    | some v => .ok v
    | none => .error (.valueError ("invalid literal for int() with base 10: ".toList ++ ds))

/-- `str.lower`, of what `[a-z]` matches. -/
def lower (t : List Char) : List Char :=
  t.flatMap fun c => if c = '\u0130' then ['i', '\u0307'] else [fold c]

def lookup (g : Group → Option (List Char)) (x : Group) : Except Error (List Char) :=
  match g x with
  | some t => .ok t
  | none => .error (.missing x)

def parseFilename (name : List Char) : Except Error Metadata := do
  match filenameRe.groupdict name with
  | none => throw (.valueError ("Unrecognized filename format: ".toList ++ name))
  | some g =>
      if (g .exercise).isSome then
        let exercise ← int (← lookup g .exercise)
        let variant := lower (← lookup g .variant)
        let p ← int (← lookup g .p)
        let b ← int (← lookup g .b)
        let s ← int (← lookup g .s)
        let r ← int (← lookup g .r)
        return ⟨name, exercise, variant, p, b, s, r, .concurrent⟩
      else
        let exercise ← int (← lookup g .exercise2)
        let variant := "seq".toList
        let p ← int (← lookup g .p2)
        let b ← int (← lookup g .b2)
        let s ← int (← lookup g .s2)
        let r ← int (← lookup g .r2)
        return ⟨name, exercise, variant, p, b, s, r, .sequential⟩

/-! ## The naming scheme -/

/-- A number in decimal, short enough to be converted. -/
structure Numeral where
  digits : List Char
  ne_nil : digits ≠ []
  isDigit : ∀ c ∈ digits, c.isDigit = true
  short : digits.length ≤ maxStrDigits

structure Word where
  letters : List Char
  ne_nil : letters ≠ []
  isLower : ∀ c ∈ letters, c.isLower = true

/-- What a results file is named after. -/
structure Fields where
  exercise : Numeral
  variant : Word
  p : Numeral
  b : Numeral
  s : Numeral
  r : Numeral

def Numeral.value (x : Numeral) : Nat := Nat.ofDigitChars 10 x.digits 0

/-- `ex<exercise>_<variant>_p<p>_b<b>_s<s>_r<r>.csv`. -/
def Fields.fileName (f : Fields) : List Char :=
  ["ex".toList, f.exercise.digits, "_".toList, f.variant.letters, "_p".toList, f.p.digits,
    "_b".toList, f.b.digits, "_s".toList, f.s.digits, "_r".toList, f.r.digits,
    ".csv".toList].flatten

/-- The mode the variant stands for. -/
def Word.mode (w : Word) : Mode := if w.letters = "seq".toList then .sequential else .concurrent

def Fields.metadata (f : Fields) (name : List Char) (mode : Mode) : Metadata :=
  ⟨name, f.exercise.value, f.variant.letters, f.p.value, f.b.value, f.s.value, f.r.value, mode⟩

variable {f : Fields} {name t ds w : List Char} {a : Char}

/-- A text without small letters is written in one way only. -/
theorem eq_of_map_toLower (h : t.map Char.toLower = ds) (hds : ∀ c ∈ ds, c.isLower = false) :
    t = ds := by
  induction t generalizing ds with
  | nil => exact h
  | cons c t ih =>
      subst h
      rw [List.map_cons] at hds ⊢
      rw [← ih rfl fun d hd => hds d (List.mem_cons_of_mem _ hd)]
      rw [← eq_of_toLower rfl (hds _ List.mem_cons_self)]

theorem isLower_of_isDigit (h : a.isDigit = true) : a.isLower = false := by
  have hrange : 48 ≤ a.toNat ∧ a.toNat ≤ 57 := by
    simpa [Char.isDigit, UInt32.le_iff_toNat_le] using h
  refine Bool.eq_false_iff.mpr fun hlower => ?_
  have hletter := isLower_iff.mp hlower
  omega

theorem Numeral.eq_of_map (x : Numeral) (h : t.map Char.toLower = x.digits) : t = x.digits :=
  eq_of_map_toLower h fun c hc => isLower_of_isDigit (x.isDigit c hc)

theorem Numeral.decimalDigit (x : Numeral) :
    ∀ c ∈ x.digits, Reasoning.Regex.decimalDigit c = true := by
  intro c hc
  rw [Reasoning.Regex.decimalDigit, decimalValue_of_isDigit (x.isDigit c hc), Option.isSome_some]

theorem foldlM_digits (hds : ∀ c ∈ ds, c.isDigit = true) (v : Nat) :
    ds.foldlM (fun v c => (decimalValue c).map (10 * v + ·)) v =
      some (Nat.ofDigitChars 10 ds v) := by
  induction ds generalizing v with
  | nil => rfl
  | cons c ds ih =>
      rw [List.foldlM_cons, decimalValue_of_isDigit (hds c List.mem_cons_self), Option.map_some,
        Option.bind_eq_bind, Option.bind_some, ih fun d hd => hds d (List.mem_cons_of_mem c hd),
        Nat.ofDigitChars_cons]

theorem int_digits (x : Numeral) : int x.digits = .ok x.value := by
  rw [int, if_neg (Nat.not_lt.mpr x.short), foldlM_digits x.isDigit]
  rfl

theorem Word.lower_eq (x : Word) (h : t.map Char.toLower = x.letters) : lower t = x.letters := by
  have hlower : ∀ c ∈ t, c.toLower.isLower = true := fun c hc =>
    x.isLower _ (h ▸ List.mem_map_of_mem hc)
  rw [← h]
  clear h
  induction t with
  | nil => rfl
  | cons c t ih =>
      have hc := hlower c List.mem_cons_self
      have hi : c ≠ '\u0130' := by
        rintro rfl
        exact absurd hc (by decide)
      have hfold : fold c = c.toLower := by rw [← fold_toLower, fold_of_isLower hc]
      rw [lower, List.flatMap_cons, if_neg hi, hfold]
      exact congrArg (c.toLower :: ·) (ih fun d hd => hlower d (List.mem_cons_of_mem c hd))

/-- What the groups of the first alternative match; the variant may be written with capitals. -/
def Fields.groups (f : Fields) (w : List Char) : Group → Option (List Char)
  | .exercise => some f.exercise.digits
  | .variant => some w
  | .p => some f.p.digits
  | .b => some f.b.digits
  | .s => some f.s.digits
  | .r => some f.r.digits
  | _ => none

/-- One field with the text before it; it is read up to a separator, which begins with `a`. -/
theorem prefers_field {p : Char → Bool} {tag sep rest : List Char} (y : Group)
    (h : t.map Char.toLower = tag ++ (ds ++ (sep ++ rest))) (hds : ds ≠ [])
    (hp : ∀ w : List Char, w.map Char.toLower = ds → ∀ c ∈ w, p c = true)
    (hsep : sep.head? = some a) (ha : a.isLower = false) (hpa : p a = false) :
    ∃ (w u : List Char) (n : Nat), w.map Char.toLower = ds ∧ u.map Char.toLower = sep ++ rest ∧
      ∀ i g b s', Prefers b ⟨i + n, u, Function.update g y (some w)⟩ s' →
        Prefers (.seq (text tag) (.seq (.group y (.plus p)) b)) ⟨i, t, g⟩ s' := by
  obtain ⟨e, t, rfl, rfl, hrest⟩ := List.map_eq_append_iff.mp h
  obtain ⟨w, u, rfl, hw, hu⟩ := List.map_eq_append_iff.mp hrest
  have hne : w ≠ [] := by
    rintro rfl
    exact hds hw.symm
  have hstop : ∀ c ∈ u.head?, p c = false := by
    intro c hc
    have hhead : (u.map Char.toLower).head? = some a := by
      rw [hu, List.head?_append, hsep, Option.some_or]
    rw [List.head?_map, Option.mem_def.mp hc] at hhead
    rw [eq_of_toLower (Option.some.inj hhead) ha, hpa]
  refine ⟨w, u, e.length + w.length, hw, hu, fun i g b s' hb => ?_⟩
  rw [← Nat.add_assoc] at hb
  exact Prefers.seq Prefers.text (Prefers.seq (Prefers.group (Prefers.plus hne (hp w hw) hstop)) hb)

theorem prefers_number (x : Numeral) {tag sep rest : List Char} (y : Group)
    (h : t.map Char.toLower = tag ++ (x.digits ++ (sep ++ rest)))
    (hsep : sep.head? = some a) (ha : a.isLower = false) (hpa : decimalDigit a = false) :
    ∃ (u : List Char) (n : Nat), u.map Char.toLower = sep ++ rest ∧
      ∀ i g b s', Prefers b ⟨i + n, u, Function.update g y (some x.digits)⟩ s' →
        Prefers (.seq (text tag) (.seq (number y) b)) ⟨i, t, g⟩ s' := by
  have hdigit : ∀ w : List Char, w.map Char.toLower = x.digits →
      ∀ c ∈ w, decimalDigit c = true := by
    intro w hw
    rw [x.eq_of_map hw]
    exact x.decimalDigit
  obtain ⟨w, u, n, hw, hu, hnext⟩ := prefers_field y h x.ne_nil hdigit hsep ha hpa
  rw [x.eq_of_map hw] at hnext
  exact ⟨u, n, hu, hnext⟩

/-- The first alternative matches every file name, the sequential queue's included. -/
theorem concurrent_prefers (h : name.map Char.toLower = f.fileName) :
    ∃ (w : List Char) (i : Nat), w.map Char.toLower = f.variant.letters ∧
      Prefers concurrentRe (start name) ⟨i, [], f.groups w⟩ := by
  have hletter : ∀ w : List Char, w.map Char.toLower = f.variant.letters →
      ∀ c ∈ w, letter c = true :=
    fun w hw c hc => letter_of_toLower (f.variant.isLower _ (hw ▸ List.mem_map_of_mem hc))
  simp only [Fields.fileName, List.flatten_cons, List.flatten_nil] at h
  obtain ⟨_, _, h, hexercise⟩ :=
    prefers_number f.exercise .exercise h rfl (by decide) (by decide)
  obtain ⟨w, _, _, hw, h, hvariant⟩ :=
    prefers_field .variant h f.variant.ne_nil hletter rfl (by decide) (by decide)
  obtain ⟨_, _, h, hp⟩ := prefers_number f.p .p h rfl (by decide) (by decide)
  obtain ⟨_, _, h, hb⟩ := prefers_number f.b .b h rfl (by decide) (by decide)
  obtain ⟨_, _, h, hs⟩ := prefers_number f.s .s h rfl (by decide) (by decide)
  obtain ⟨csv, _, h, hr⟩ := prefers_number f.r .r h rfl (by decide) (by decide)
  rw [List.append_nil] at h
  have hcsv : ∀ (i : Nat) (g : Group → Option (List Char)),
      Prefers (all [text ".csv".toList, .eol]) ⟨i, csv, g⟩ ⟨i + csv.length, [], g⟩ := by
    intro i g
    have htext : Prefers (text (csv.map Char.toLower)) ⟨i, csv ++ [], g⟩
        ⟨i + csv.length, [], g⟩ := Prefers.text
    rw [h, List.append_nil] at htext
    exact Prefers.seq htext (Prefers.seq Prefers.eol Prefers.empty)
  have hgroups : f.groups w = Function.update (Function.update (Function.update (Function.update
      (Function.update (Function.update (fun _ => none) .exercise (some f.exercise.digits))
        .variant (some w)) .p (some f.p.digits)) .b (some f.b.digits)) .s (some f.s.digits))
      .r (some f.r.digits) := by
    funext x
    cases x <;> rfl
  have hmatch : Prefers concurrentRe (start name) _ :=
    Prefers.seq Prefers.bol <| hexercise _ _ _ _ <| hvariant _ _ _ _ <| hp _ _ _ _ <|
      hb _ _ _ _ <| hs _ _ _ _ <| hr _ _ _ _ <| hcsv _ _
  rw [← hgroups] at hmatch
  exact ⟨w, _, hw, hmatch⟩

theorem parseFilename_eq (h : name.map Char.toLower = f.fileName) :
    parseFilename name = .ok (f.metadata name .concurrent) := by
  obtain ⟨w, i, hw, hmatch⟩ := concurrent_prefers h
  have hgroups : filenameRe.groupdict name = some (f.groups w) :=
    Prefers.groupdict (Prefers.alt hmatch)
  simp only [parseFilename, hgroups, Fields.groups, lookup, Option.isSome_some, if_true, int_digits,
    f.variant.lower_eq hw, bind, Except.bind, pure, Except.pure, Fields.metadata]

/-- A name of the scheme is read back unless its variant is that of the sequential queue. -/
theorem parseFilename_iff (f : Fields) (name : List Char)
    (h : name.map Char.toLower = f.fileName) :
    parseFilename name = .ok (f.metadata name f.variant.mode) ↔
      f.variant.letters ≠ "seq".toList := by
  rw [parseFilename_eq h, Word.mode]
  constructor
  · intro heq hseq
    rw [if_pos hseq] at heq
    cases congrArg (Except.map Metadata.mode) heq
  · intro hseq
    rw [if_neg hseq]

def seqFields : Fields where
  exercise := ⟨['1'], by decide, by simp, by decide⟩
  variant := ⟨['s', 'e', 'q'], by decide, by simp⟩
  p := ⟨['1'], by decide, by simp, by decide⟩
  b := ⟨['1', '0', '0', '0'], by decide, by simp, by decide⟩
  s := ⟨['5'], by decide, by simp, by decide⟩
  r := ⟨['1', '0'], by decide, by simp, by decide⟩

def capitalFields : Fields where
  exercise := ⟨['5'], by decide, by simp, by decide⟩
  variant := ⟨['a'], by decide, by simp⟩
  p := ⟨['6', '4'], by decide, by simp, by decide⟩
  b := ⟨['1'], by decide, by simp, by decide⟩
  s := ⟨['1'], by decide, by simp, by decide⟩
  r := ⟨['0', '2'], by decide, by simp, by decide⟩

theorem parseFilename_iff_capital :
    "EX5_A_P64_b1_s1_r02.csv".toList.map Char.toLower = capitalFields.fileName ∧
      (parseFilename "EX5_A_P64_b1_s1_r02.csv".toList = .ok
        ⟨"EX5_A_P64_b1_s1_r02.csv".toList, 5, ['a'], 64, 1, 1, 2, .concurrent⟩ ↔
        ['a'] ≠ "seq".toList) :=
  ⟨rfl, parseFilename_iff capitalFields "EX5_A_P64_b1_s1_r02.csv".toList rfl⟩

/-- A file of the sequential queue is taken for one of a concurrent variant. -/
theorem seq_misread :
    parseFilename "ex1_seq_p1_b1000_s5_r10.csv".toList = .ok
      ⟨"ex1_seq_p1_b1000_s5_r10.csv".toList, 1, "seq".toList, 1, 1000, 5, 10, .concurrent⟩ ∧
    ¬ ∀ (f : Fields) (name : List Char), name.map Char.toLower = f.fileName →
      parseFilename name = .ok (f.metadata name f.variant.mode) := by
  have hread : parseFilename "ex1_seq_p1_b1000_s5_r10.csv".toList = .ok
      (seqFields.metadata "ex1_seq_p1_b1000_s5_r10.csv".toList .concurrent) :=
    parseFilename_eq rfl
  refine ⟨hread, fun h => ?_⟩
  have hclaimed := h seqFields "ex1_seq_p1_b1000_s5_r10.csv".toList rfl
  rw [hread] at hclaimed
  cases congrArg (Except.map Metadata.mode) hclaimed

/-! ## The second alternative -/

theorem letter_of_literal {c : Char} (h : literal a c = true) (ha : (fold a).isLower = true) :
    letter c = true := by
  simp only [literal, Bool.or_eq_true, Bool.and_eq_true, beq_iff_eq] at h
  rw [letter, Bool.or_eq_true, Bool.or_eq_true, beq_iff_eq, beq_iff_eq]
  rcases h with (h | ⟨-, h⟩) | ⟨-, h⟩
  · exact .inl (.inl (by rw [h, ha]))
  · exact .inl (.inr h)
  · exact .inr h

/-- The word of the sequential queue is a word of letters. -/
theorem spans_seq {x y : Nat × List Char} (h : Spans (text "_seq_p".toList : Re Group) x y) :
    ∃ u v, Spans (text "_".toList : Re Group) x u ∧ Spans (.plus letter : Re Group) u v ∧
      Spans (text "_p".toList : Re Group) v y := by
  obtain ⟨_, ⟨h₀, rfl⟩, _, ⟨h₁, rfl⟩, _, ⟨h₂, rfl⟩, _, ⟨h₃, rfl⟩, h⟩ := h
  obtain ⟨i, _ | ⟨c₀, _ | ⟨c₁, _ | ⟨c₂, _ | ⟨c₃, t⟩⟩⟩⟩⟩ := x
  · cases h₀
  · cases h₁
  · cases h₂
  · cases h₃
  have hs : letter c₁ = true := letter_of_literal h₁ (by decide)
  have he : letter c₂ = true := letter_of_literal h₂ (by decide)
  have hq : letter c₃ = true := letter_of_literal h₃ (by decide)
  have hlen : 2 < ((c₁ :: c₂ :: c₃ :: t).takeWhile letter).length := by
    rw [List.takeWhile_cons_of_pos hs, List.takeWhile_cons_of_pos he,
      List.takeWhile_cons_of_pos hq]
    simp only [List.length_cons]
    omega
  exact ⟨_, _, ⟨_, ⟨h₀, rfl⟩, rfl⟩, ⟨2, hlen, rfl⟩, h⟩

/-- Whatever the second alternative matches, the first does. -/
theorem spans_concurrent {x y : Nat × List Char} (h : Spans sequentialRe x y) :
    ∃ z, Spans concurrentRe x z := by
  obtain ⟨_, hbol, _, hex, _, hnumber, _, hseq, _, hp, _, hub, _, hb, _, hus, _, hs, _, hur, _, hr,
    _, hcsv, _, heol, -⟩ := h
  obtain ⟨u, v, hu, hvariant, hup⟩ := spans_seq hseq
  exact ⟨_, _, hbol, _, hex, _, hnumber, _, hu, _, hvariant, _, hup, _, hp, _, hub, _, hb, _, hus,
    _, hs, _, hur, _, hr, _, hcsv, _, heol, rfl⟩

theorem filenameRe_groupdict (name : List Char) :
    filenameRe.groupdict name = concurrentRe.groupdict name :=
  groupdict_alt fun _ => spans_concurrent

theorem exercise_isSome {g : Group → Option (List Char)}
    (h : filenameRe.groupdict name = some g) : (g .exercise).isSome = true := by
  rw [filenameRe_groupdict] at h
  obtain ⟨s', hsteps, hg⟩ := run_sound h
  obtain ⟨_, hbol, _, hex, m, hnumber, hrest⟩ := hsteps
  rw [← Option.some.inj hg]
  refine hrest.isSome_groups ?_
  obtain ⟨u, -, rfl⟩ := hnumber
  rw [Place.capture_self, Option.isSome_some]

theorem exists_of_bind {α β : Type} {x : Except Error α} {k : α → Except Error β} {y : β}
    (h : x >>= k = .ok y) : ∃ z, x = .ok z ∧ k z = .ok y := by
  cases x with
  | error e => cases h
  | ok z => exact ⟨z, rfl, h⟩

theorem file_mode {m : Metadata} (h : parseFilename name = .ok m) :
    m.file = name ∧ m.mode = .concurrent := by
  unfold parseFilename at h
  cases hmatch : filenameRe.groupdict name with
  | none =>
      rw [hmatch] at h
      cases h
  | some g =>
      rw [hmatch] at h
      simp only [exercise_isSome hmatch, if_true] at h
      -- six groups are looked up, and five of them converted
      iterate 11 obtain ⟨_, -, h⟩ := exists_of_bind h
      cases h
      exact ⟨rfl, rfl⟩

end ConcurrentQueues.Plot
