import Mathlib.Data.List.TakeWhile

/-!
# Strings — NUL-terminated byte strings

A pointer into a string is the list of the bytes from it to the end of the object, and a string `t`
with its terminator is `t ++ [0]`.  A function that would read beyond the end gives `none`.
-/

namespace ConcurrentQueues.Reasoning

abbrev Text := List UInt8

variable {s t u w x ds : Text} {c : UInt8} {v : Int}

/-- `isspace` in the C locale. -/
def isSpace (c : UInt8) : Bool := c == ' '.toUInt8 || (9 ≤ c && c ≤ 13)

def isDigit (c : UInt8) : Bool := '0'.toUInt8 ≤ c && c ≤ '9'.toUInt8

/-! ## `strtol` -/

def skipSpace : Text → Option Text
  | [] => none
  | c :: s => if isSpace c then skipSpace s else some (c :: s)

/-- An optional sign; the flag says whether it is a minus. -/
def readSign : Text → Option (Bool × Text)
  | [] => none
  | c :: s =>
      if c = '-'.toUInt8 then some (true, s)
      else if c = '+'.toUInt8 then some (false, s)
      else some (false, c :: s)

def digit (v : Nat) (c : UInt8) : Nat := 10 * v + (c.toNat - '0'.toNat)

def readDigits (v : Nat) : Text → Option (Nat × Text)
  | [] => none
  | c :: s => if isDigit c then readDigits (digit v c) s else some (v, c :: s)

/-- What `strtol` returns, whether it has set `errno`, and `*endptr`. -/
@[ext] structure Strtol where
  value : Int
  erange : Bool
  rest : Text
  deriving DecidableEq

/-- `LONG_MAX`, for 64 bits. -/
def longMax : Int := 9223372036854775807

/-- A value as a `long`. -/
def Strtol.ofInt (v : Int) (rest : Text) : Strtol :=
  if v < -longMax - 1 then ⟨-longMax - 1, true, rest⟩
  else if longMax < v then ⟨longMax, true, rest⟩
  else ⟨v, false, rest⟩

theorem Strtol.ofInt_cases (v : Int) (rest : Text) :
    (Strtol.ofInt v rest).rest = rest ∧
      ((Strtol.ofInt v rest).erange = true ∨ Strtol.ofInt v rest = ⟨v, false, rest⟩) := by
  unfold Strtol.ofInt
  split
  · exact ⟨rfl, .inl rfl⟩
  split
  · exact ⟨rfl, .inl rfl⟩
  · exact ⟨rfl, .inr rfl⟩

theorem Strtol.ofInt_eq (hlow : -longMax - 1 ≤ v) (hhigh : v ≤ longMax) (rest : Text) :
    Strtol.ofInt v rest = ⟨v, false, rest⟩ := by
  rw [Strtol.ofInt, if_neg (Int.not_lt.mpr hlow), if_neg (Int.not_lt.mpr hhigh)]

def signed (neg : Bool) (v : Nat) : Int := if neg then -v else v

/-- `strtol(s, &end, 10)`. -/
def strtol (s : Text) : Option Strtol := do
  let u ← skipSpace s
  let (neg, u) ← readSign u
  let (v, rest) ← readDigits 0 u
  -- without a digit nothing is converted
  return if rest = u then ⟨0, false, s⟩ else .ofInt (signed neg v) rest

/-! ## Strings with their terminator -/

/-- A digit is neither a space nor a sign. -/
theorem not_space_of_digit (h : isDigit c = true) :
    isSpace c = false ∧ c ≠ '-'.toUInt8 ∧ c ≠ '+'.toUInt8 := by
  refine ⟨?_, ?_, ?_⟩
  · simp only [isDigit, Bool.and_eq_true, decide_eq_true_eq, UInt8.le_iff_toNat_le] at h
    have hlow : 48 ≤ c.toNat := h.1
    by_contra hspace
    simp only [isSpace, Bool.not_eq_false, Bool.or_eq_true, beq_iff_eq, Bool.and_eq_true,
      decide_eq_true_eq, UInt8.le_iff_toNat_le] at hspace
    rcases hspace with rfl | ⟨-, hhigh⟩
    · exact absurd hlow (by decide)
    · have hhigh' : c.toNat ≤ 13 := hhigh
      omega
  · rintro rfl
    exact absurd h (by decide)
  · rintro rfl
    exact absurd h (by decide)

theorem skipSpace_append (t : Text) :
    skipSpace (t ++ [0]) = some (t.dropWhile isSpace ++ [0]) := by
  induction t with
  | nil => rfl
  | cons c t ih =>
      rw [List.cons_append, skipSpace, List.dropWhile_cons]
      split
      · exact ih
      · rfl

theorem readDigits_append (t : Text) (v : Nat) :
    readDigits v (t ++ [0]) =
      some ((t.takeWhile isDigit).foldl digit v, t.dropWhile isDigit ++ [0]) := by
  induction t generalizing v with
  | nil => rfl
  | cons c t ih =>
      rw [List.cons_append, readDigits, List.takeWhile_cons, List.dropWhile_cons]
      split
      · exact ih (digit v c)
      · rfl

/-- The value of a row of digits. -/
def decimal (ds : Text) : Nat := ds.foldl digit 0

theorem strtol_append {neg : Bool}
    (hsign : readSign (t.dropWhile isSpace ++ [0]) = some (neg, u ++ [0])) :
    strtol (t ++ [0]) =
      some (if u.takeWhile isDigit = [] then ⟨0, false, t ++ [0]⟩
        else .ofInt (signed neg (decimal (u.takeWhile isDigit))) (u.dropWhile isDigit ++ [0])) := by
  have hsplit : u.dropWhile isDigit ++ [0] = u ++ [0] ↔ u.takeWhile isDigit = [] := by
    rw [List.append_left_inj]
    constructor
    · intro h
      have hlen := congrArg List.length (List.takeWhile_append_dropWhile (p := isDigit) (l := u))
      rw [List.length_append, h] at hlen
      exact List.eq_nil_of_length_eq_zero (by omega)
    · intro h
      have hall := List.takeWhile_append_dropWhile (p := isDigit) (l := u)
      rwa [h, List.nil_append] at hall
  simp only [strtol, skipSpace_append, hsign, readDigits_append, Option.bind_eq_bind,
    Option.bind_some, hsplit]
  rfl

/-! ## Numerals -/

def Spaces (w : Text) : Prop := ∀ c ∈ w, isSpace c = true

structure Digits (ds : Text) : Prop where
  ne_nil : ds ≠ []
  isDigit : ∀ c ∈ ds, isDigit c = true

/-- Spaces, an optional sign and digits, with their value. -/
inductive Numeral : Text → Int → Prop
  | unsigned (w ds : Text) (hw : Spaces w) (hds : Digits ds) : Numeral (w ++ ds) (decimal ds)
  | plus (w ds : Text) (hw : Spaces w) (hds : Digits ds) :
      Numeral (w ++ '+'.toUInt8 :: ds) (decimal ds)
  | minus (w ds : Text) (hw : Spaces w) (hds : Digits ds) :
      Numeral (w ++ '-'.toUInt8 :: ds) (-decimal ds)

theorem Spaces.append (hw : Spaces w) (hu : Spaces u) : Spaces (w ++ u) :=
  fun c hc => (List.mem_append.mp hc).elim (hw c) (hu c)

theorem Numeral.prepend (hw : Spaces w) (h : Numeral x v) : Numeral (w ++ x) v := by
  cases h with
  | unsigned w' ds hw' hds =>
      rw [← List.append_assoc]
      exact .unsigned (w ++ w') ds (hw.append hw') hds
  | plus w' ds hw' hds =>
      rw [← List.append_assoc]
      exact .plus (w ++ w') ds (hw.append hw') hds
  | minus w' ds hw' hds =>
      rw [← List.append_assoc]
      exact .minus (w ++ w') ds (hw.append hw') hds

/-- How a numeral without spaces begins. -/
def startsNumeral (c : UInt8) : Bool := isDigit c || c == '+'.toUInt8 || c == '-'.toUInt8

theorem not_space_of_startsNumeral (h : startsNumeral c = true) : isSpace c = false := by
  simp only [startsNumeral, Bool.or_eq_true, beq_iff_eq] at h
  obtain (h | rfl) | rfl := h
  · exact (not_space_of_digit h).1
  · rfl
  · rfl

/-- The spaces of a numeral can be split off. -/
theorem Numeral.exists_split (h : Numeral x v) :
    ∃ w c u, x = w ++ c :: u ∧ Spaces w ∧ startsNumeral c = true ∧ Numeral (c :: u) v := by
  have hnil : Spaces [] := fun _ h => nomatch h
  cases h with
  | unsigned w ds hw hds =>
      obtain ⟨c, ds, rfl⟩ := List.exists_cons_of_ne_nil hds.ne_nil
      have hc := hds.isDigit c List.mem_cons_self
      exact ⟨w, c, ds, rfl, hw, by simp [startsNumeral, hc], .unsigned [] (c :: ds) hnil hds⟩
  | plus w ds hw hds => exact ⟨w, _, ds, rfl, hw, rfl, .plus [] ds hnil hds⟩
  | minus w ds hw hds => exact ⟨w, _, ds, rfl, hw, rfl, .minus [] ds hnil hds⟩

/-- `t` does not go on with a digit. -/
def Stops (t : Text) : Prop := ∀ c ∈ t.head?, isDigit c = false

theorem stops_nil : Stops [] := fun _ h => nomatch h

theorem stops_cons (hc : isDigit c = false) (u : Text) : Stops (c :: u) :=
  fun _ hd => Option.some.inj hd ▸ hc

theorem Spaces.stops (hw : Spaces w) (hu : Stops u) : Stops (w ++ u) := by
  cases w with
  | nil => exact hu
  | cons d w =>
      refine stops_cons (Bool.eq_false_iff.mpr fun hd => ?_) (w ++ u)
      have hspace := (not_space_of_digit hd).1
      rw [hw d List.mem_cons_self] at hspace
      cases hspace

theorem takeWhile_digits (h : Digits ds) (ht : Stops t) :
    (ds ++ t).takeWhile isDigit = ds ∧ (ds ++ t).dropWhile isDigit = t := by
  rw [List.takeWhile_append_of_pos h.isDigit, List.dropWhile_append_of_pos h.isDigit]
  cases t with
  | nil => exact ⟨List.append_nil ds, rfl⟩
  | cons c t =>
      have hc : isDigit c = false := ht c rfl
      simp [hc]

theorem strtol_of_sign (neg : Bool) (y : Text) (hw : Spaces w) (hy : y.dropWhile isSpace = y)
    (hds : Digits ds) (ht : Stops t)
    (hsign : readSign (y ++ [0]) = some (neg, ds ++ t ++ [0])) :
    strtol (w ++ y ++ [0]) = some (.ofInt (signed neg (decimal ds)) (t ++ [0])) := by
  have hskip : (w ++ y).dropWhile isSpace = y := by rw [List.dropWhile_append_of_pos hw, hy]
  obtain ⟨htake, hdrop⟩ := takeWhile_digits hds ht
  rw [strtol_append (by rw [hskip]; exact hsign), htake, hdrop, if_neg hds.ne_nil]

/-- `strtol` reads every numeral. -/
theorem strtol_numeral (h : Numeral x v) (ht : Stops t) :
    strtol (x ++ t ++ [0]) = some (.ofInt v (t ++ [0])) := by
  cases h with
  | unsigned w ds hw hds =>
      have hsign : readSign (ds ++ t ++ [0]) = some (false, ds ++ t ++ [0]) := by
        obtain ⟨c, ds', rfl⟩ := List.exists_cons_of_ne_nil hds.ne_nil
        obtain ⟨-, hminus, hplus⟩ := not_space_of_digit (hds.isDigit c List.mem_cons_self)
        simp only [List.cons_append, readSign, if_neg hminus, if_neg hplus]
      have hskip : (ds ++ t).dropWhile isSpace = ds ++ t := by
        obtain ⟨c, ds', rfl⟩ := List.exists_cons_of_ne_nil hds.ne_nil
        have hspace := (not_space_of_digit (hds.isDigit c List.mem_cons_self)).1
        rw [List.cons_append, List.dropWhile_cons_of_neg (by simp [hspace])]
      rw [List.append_assoc w]
      exact strtol_of_sign false (ds ++ t) hw hskip hds ht hsign
  | plus w ds hw hds =>
      rw [List.append_assoc w]
      exact strtol_of_sign false ('+'.toUInt8 :: (ds ++ t)) hw rfl hds ht rfl
  | minus w ds hw hds =>
      rw [List.append_assoc w]
      exact strtol_of_sign true ('-'.toUInt8 :: (ds ++ t)) hw rfl hds ht rfl

theorem readSign_append (u : Text) :
    ∃ neg z, readSign (u ++ [0]) = some (neg, z ++ [0]) ∧
      (u = z ∧ neg = false ∨ u = '+'.toUInt8 :: z ∧ neg = false ∨
        u = '-'.toUInt8 :: z ∧ neg = true) := by
  cases u with
  | nil => exact ⟨false, [], rfl, .inl ⟨rfl, rfl⟩⟩
  | cons c z =>
      rw [List.cons_append, readSign]
      by_cases hminus : c = '-'.toUInt8
      · exact ⟨true, z, by rw [if_pos hminus], .inr (.inr ⟨by rw [hminus], rfl⟩)⟩
      rw [if_neg hminus]
      by_cases hplus : c = '+'.toUInt8
      · exact ⟨false, z, by rw [if_pos hplus], .inr (.inl ⟨by rw [hplus], rfl⟩)⟩
      · exact ⟨false, c :: z, by rw [if_neg hplus]; rfl, .inl ⟨rfl, rfl⟩⟩

theorem spaces_takeWhile (t : Text) : Spaces (t.takeWhile isSpace) :=
  fun _ hc => List.mem_takeWhile_imp hc

/-- `strtol` converts nothing or the numeral in front. -/
theorem strtol_cases (t : Text) :
    strtol (t ++ [0]) = some ⟨0, false, t ++ [0]⟩ ∨
    ∃ x u v, t = x ++ u ∧ x ≠ [] ∧ Numeral x v ∧
      strtol (t ++ [0]) = some (.ofInt v (u ++ [0])) := by
  obtain ⟨neg, z, hsign, hz⟩ := readSign_append (t.dropWhile isSpace)
  have hstrtol := strtol_append hsign
  have hw := spaces_takeWhile t
  have ht : t = t.takeWhile isSpace ++ t.dropWhile isSpace :=
    (List.takeWhile_append_dropWhile).symm
  have hsplit : z = z.takeWhile isDigit ++ z.dropWhile isDigit :=
    (List.takeWhile_append_dropWhile).symm
  by_cases hds : z.takeWhile isDigit = []
  · rw [if_pos hds] at hstrtol
    exact .inl hstrtol
  rw [if_neg hds] at hstrtol
  have hdigits : Digits (z.takeWhile isDigit) := ⟨hds, fun _ hc => List.mem_takeWhile_imp hc⟩
  generalize t.takeWhile isSpace = w at hw ht
  generalize z.takeWhile isDigit = ds at hdigits hsplit hstrtol hds
  generalize z.dropWhile isDigit = u at hsplit hstrtol
  refine .inr ?_
  rcases hz with ⟨hz, rfl⟩ | ⟨hz, rfl⟩ | ⟨hz, rfl⟩
  · exact ⟨w ++ ds, u, _, by rw [ht, hz, hsplit, List.append_assoc], by simp [hds],
      .unsigned w ds hw hdigits, hstrtol⟩
  · exact ⟨w ++ '+'.toUInt8 :: ds, u, _, by rw [ht, hz, hsplit]; simp, by simp,
      .plus w ds hw hdigits, hstrtol⟩
  · exact ⟨w ++ '-'.toUInt8 :: ds, u, _, by rw [ht, hz, hsplit]; simp, by simp,
      .minus w ds hw hdigits, hstrtol⟩

/-! ## Printing -/

/-- The decimal digits of a number. -/
def printDigits (k : Nat) : Text := (Nat.toDigits 10 k).map fun d => d.toNat.toUInt8

/-- `printf("%d", z)`. -/
def printInt (z : Int) : Text :=
  if z < 0 then '-'.toUInt8 :: printDigits z.natAbs else printDigits z.natAbs

/-- A decimal digit as a byte. -/
theorem toNat_digitByte {d : Char} (h : d.isDigit = true) :
    isDigit d.toNat.toUInt8 = true ∧ d.toNat.toUInt8.toNat = d.toNat := by
  have hrange : 48 ≤ d.toNat ∧ d.toNat ≤ 57 := by
    simpa [Char.isDigit, UInt32.le_iff_toNat_le] using h
  have hbyte : d.toNat.toUInt8.toNat = d.toNat := by
    rw [Nat.toUInt8, UInt8.toNat_ofNat_of_lt' (by rw [UInt8.size]; omega)]
  refine ⟨?_, hbyte⟩
  simp only [isDigit, Bool.and_eq_true, decide_eq_true_eq, UInt8.le_iff_toNat_le, hbyte]
  exact hrange

theorem isDigit_of_mem_toDigits {k : Nat} {d : Char} (h : d ∈ Nat.toDigits 10 k) :
    d.isDigit = true := Nat.isDigit_of_mem_toDigits (by decide) (by decide) h

theorem digits_printDigits (k : Nat) : Digits (printDigits k) where
  ne_nil := by simp [printDigits, Nat.toDigits_ne_nil]
  isDigit := by
    intro c hc
    obtain ⟨d, hd, rfl⟩ := List.mem_map.mp hc
    exact (toNat_digitByte (isDigit_of_mem_toDigits hd)).1

theorem foldl_digit (ds : List Char) (hds : ∀ d ∈ ds, d.isDigit = true) (v : Nat) :
    (ds.map fun d => d.toNat.toUInt8).foldl digit v = Nat.ofDigitChars 10 ds v := by
  induction ds generalizing v with
  | nil => rfl
  | cons d ds ih =>
      have hd := (toNat_digitByte (hds d List.mem_cons_self)).2
      rw [List.map_cons, List.foldl_cons, Nat.ofDigitChars_cons, digit, hd]
      exact ih (fun e he => hds e (List.mem_cons_of_mem d he)) _

theorem decimal_printDigits (k : Nat) : decimal (printDigits k) = k := by
  rw [decimal, printDigits, foldl_digit _ (fun d hd => isDigit_of_mem_toDigits hd)]
  exact Nat.ofDigitChars_ten_toDigits

/-- What is printed is read back. -/
theorem numeral_printInt (z : Int) : Numeral (printInt z) z := by
  have hnil : Spaces [] := fun _ h => nomatch h
  have hds := digits_printDigits z.natAbs
  unfold printInt
  split
  next hneg =>
    have hnum := Numeral.minus [] _ hnil hds
    rwa [decimal_printDigits, show -(z.natAbs : Int) = z by omega] at hnum
  next hpos =>
    have hnum := Numeral.unsigned [] _ hnil hds
    rwa [decimal_printDigits, show (z.natAbs : Int) = z by omega] at hnum

end ConcurrentQueues.Reasoning
