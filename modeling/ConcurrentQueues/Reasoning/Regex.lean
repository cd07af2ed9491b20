import Mathlib.Data.List.TakeWhile
import Mathlib.Logic.Function.Basic

/-!
# Regex — patterns matched by backtracking

A pattern is matched from a place in a text, and the continuation says what has to follow.  Of the
ways to match, the first in the order of the alternatives counts; a repetition tries its longest run
first.
-/

namespace ConcurrentQueues.Reasoning.Regex

inductive Re (γ : Type)
  | empty
  | chr (p : Char → Bool)
  | plus (p : Char → Bool)
  | bol
  | eol
  | seq (a b : Re γ)
  | alt (a b : Re γ)
  | group (x : γ) (a : Re γ)

/-- How far a match has come, and what its groups have matched. -/
structure Place (γ : Type) where
  pos : Nat
  rest : List Char
  groups : γ → Option (List Char)

variable {γ β : Type} {a b : Re γ} {s s' m : Place γ} {p : Char → Bool}

/-- Patterns one after another. -/
def all (l : List (Re γ)) : Re γ := l.foldr .seq .empty

@[simp] theorem all_nil : all ([] : List (Re γ)) = .empty := rfl

@[simp] theorem all_cons (l : List (Re γ)) : all (a :: l) = .seq a (all l) := rfl

def Place.read (s : Place γ) (n : Nat) : Place γ := ⟨s.pos + n, s.rest.drop n, s.groups⟩

/-- The text between two places. -/
def Place.upTo (s s' : Place γ) : List Char := s.rest.take (s'.pos - s.pos)

/-- Read `n` characters, or one less, down to one. -/
def longest (k : Place γ → Option β) (s : Place γ) : Nat → Option β
  | 0 => none
  | n + 1 => (k (s.read (n + 1))).or (longest k s n)

theorem longest_sound {k : Place γ → Option β} {y : β} {n : Nat} (h : longest k s n = some y) :
    ∃ i < n, k (s.read (i + 1)) = some y := by
  induction n with
  | zero => cases h
  | succ n ih =>
      rcases Option.or_eq_some_iff.mp h with hk | ⟨-, hl⟩
      · exact ⟨n, Nat.lt_succ_self n, hk⟩
      · obtain ⟨i, hi, hk⟩ := ih hl
        exact ⟨i, Nat.lt_succ_of_lt hi, hk⟩

theorem longest_complete {k : Place γ → Option β} {n i : Nat} (hi : i < n)
    (hk : (k (s.read (i + 1))).isSome = true) : (longest k s n).isSome = true := by
  induction n with
  | zero => exact absurd hi (Nat.not_lt_zero i)
  | succ n ih =>
      rw [longest, Option.isSome_or, Bool.or_eq_true]
      rcases Nat.lt_succ_iff_lt_or_eq.mp hi with hlt | rfl
      · exact .inr (ih hlt)
      · exact .inl hk

variable [DecidableEq γ]

def Place.capture (s : Place γ) (x : γ) (t : List Char) : Place γ :=
  ⟨s.pos, s.rest, Function.update s.groups x (some t)⟩

theorem Place.capture_self (s : Place γ) (x : γ) (t : List Char) :
    (s.capture x t).groups x = some t := Function.update_self x _ _

theorem Place.capture_of_ne (s : Place γ) {x y : γ} (t : List Char) (h : x ≠ y) :
    (s.capture y t).groups x = s.groups x := Function.update_of_ne h _ _

def run : Re γ → Place γ → (Place γ → Option β) → Option β
  | .empty, s, k => k s
  | .chr p, s, k => if s.rest.head?.any p then k (s.read 1) else none
  | .plus p, s, k => longest k s (s.rest.takeWhile p).length
  | .bol, s, k => if s.pos = 0 then k s else none
  -- also before the line feed that ends the text
  | .eol, s, k => if s.rest = [] ∨ s.rest = ['\n'] then k s else none
  | .seq a b, s, k => run a s fun m => run b m k
  | .alt a b, s, k => (run a s k).or (run b s k)
  | .group x a, s, k => run a s fun m => k (m.capture x (s.upTo m))

def start (t : List Char) : Place γ := ⟨0, t, fun _ => none⟩

/-- The groups of the match from the start of a text. -/
def Re.groupdict (a : Re γ) (t : List Char) : Option (γ → Option (List Char)) :=
  run a (start t) fun s => some s.groups

/-! ## Characters -/

/-- The lower case of a character, as far as it is a letter of ASCII. -/
def fold (c : Char) : Char :=
  if c = '\u0130' then 'i' else if c = '\u212a' then 'k' else c.toLower

/-- `a` where case is ignored. -/
def literal (a c : Char) : Bool :=
  fold c == fold a || (fold a == 's' && c == '\u017f') || (fold a == 'i' && c == '\u0131')

/-- `[a-z]` where case is ignored. -/
def letter (c : Char) : Bool := (fold c).isLower || c == '\u017f' || c == '\u0131'

/-- The code points of the zeros of Unicode 14; each is followed by its other digits. -/
def zeros : List Nat :=
  [0x30, 0x660, 0x6f0, 0x7c0, 0x966, 0x9e6, 0xa66, 0xae6, 0xb66, 0xbe6, 0xc66, 0xce6, 0xd66,
   0xde6, 0xe50, 0xed0, 0xf20, 0x1040, 0x1090, 0x17e0, 0x1810, 0x1946, 0x19d0, 0x1a80, 0x1a90,
   0x1b50, 0x1bb0, 0x1c40, 0x1c50, 0xa620, 0xa8d0, 0xa900, 0xa9d0, 0xa9f0, 0xaa50, 0xabf0,
   0xff10, 0x104a0, 0x10d30, 0x11066, 0x110f0, 0x11136, 0x111d0, 0x112f0, 0x11450, 0x114d0,
   0x11650, 0x116c0, 0x11730, 0x118e0, 0x11950, 0x11c50, 0x11d50, 0x11da0, 0x16a60, 0x16ac0,
   0x16b50, 0x1d7ce, 0x1d7d8, 0x1d7e2, 0x1d7ec, 0x1d7f6, 0x1e140, 0x1e2f0, 0x1e950, 0x1fbf0]

/-- The value of a decimal digit. -/
def decimalValue (c : Char) : Option Nat :=
  (zeros.find? fun z => z ≤ c.toNat && c.toNat < z + 10).map (c.toNat - ·)

/-- `\d`. -/
def decimalDigit (c : Char) : Bool := (decimalValue c).isSome

/-- A text where case is ignored. -/
def text {γ : Type} (t : List Char) : Re γ := all (t.map fun a => .chr (literal a))

/-- Only capital letters have another lower case. -/
theorem toLower_cases (c : Char) :
    c.toLower = c ∨ (65 ≤ c.toNat ∧ c.toNat ≤ 90) ∧ c.toLower.toNat = c.toNat + 32 := by
  unfold Char.toLower
  split
  next h =>
    have hrange : 65 ≤ c.toNat ∧ c.toNat ≤ 90 := by simpa [UInt32.le_iff_toNat_le] using h
    refine .inr ⟨hrange, ?_⟩
    have hval : c.val.toNat = c.toNat := rfl
    have hshift : (32 : UInt32).toNat = 32 := rfl
    change (c.val + 32).toNat = c.val.toNat + 32
    rw [UInt32.toNat_add]
    omega
  next => exact .inl rfl

theorem isLower_iff {c : Char} : c.isLower = true ↔ 97 ≤ c.toNat ∧ c.toNat ≤ 122 := by
  change (decide (97 ≤ c.val) && decide (c.val ≤ 122)) = true ↔ _
  rw [Bool.and_eq_true, decide_eq_true_eq, decide_eq_true_eq, UInt32.le_iff_toNat_le,
    UInt32.le_iff_toNat_le]
  rfl

theorem fold_of_isLower {c : Char} (h : c.isLower = true) : fold c = c := by
  have hrange := isLower_iff.mp h
  have hlower : c.toLower = c := by
    rcases toLower_cases c with h | ⟨hc, -⟩
    · exact h
    · omega
  have hi : c ≠ '\u0130' := by
    rintro rfl
    exact absurd hrange.2 (by decide)
  have hk : c ≠ '\u212a' := by
    rintro rfl
    exact absurd hrange.2 (by decide)
  rw [fold, if_neg hi, if_neg hk, hlower]

theorem isLower_toLower {c : Char} (h : c.toLower ≠ c) : c.toLower.isLower = true := by
  rcases toLower_cases c with hc | ⟨hc, hlow⟩
  · exact absurd hc h
  · rw [isLower_iff, hlow]
    omega

theorem fold_toLower (c : Char) : fold c.toLower = fold c := by
  by_cases h : c.toLower = c
  · rw [h]
  · have hi : c ≠ '\u0130' := by
      rintro rfl
      exact h (by decide)
    have hk : c ≠ '\u212a' := by
      rintro rfl
      exact h (by decide)
    rw [fold_of_isLower (isLower_toLower h), fold, if_neg hi, if_neg hk]

theorem literal_toLower (c : Char) : literal c.toLower c = true := by
  rw [literal, fold_toLower, beq_self_eq_true, Bool.true_or, Bool.true_or]

theorem letter_of_toLower {c : Char} (h : c.toLower.isLower = true) : letter c = true := by
  rw [letter, ← fold_toLower, fold_of_isLower h, h, Bool.true_or, Bool.true_or]

/-- A character that is no letter is the lower case of itself only. -/
theorem eq_of_toLower {a c : Char} (h : c.toLower = a) (ha : a.isLower = false) : c = a := by
  by_cases hc : c.toLower = c
  · rw [← h, hc]
  · rw [← h, isLower_toLower hc] at ha
    cases ha

theorem decimalValue_of_isDigit {c : Char} (h : c.isDigit = true) :
    decimalValue c = some (c.toNat - '0'.toNat) := by
  have hrange : 48 ≤ c.toNat ∧ c.toNat ≤ 57 := by
    simpa [Char.isDigit, UInt32.le_iff_toNat_le] using h
  have hfind : (zeros.find? fun z => z ≤ c.toNat && c.toNat < z + 10) = some 0x30 := by
    refine List.find?_cons_of_pos ?_
    rw [Bool.and_eq_true, decide_eq_true_eq, decide_eq_true_eq]
    omega
  rw [decimalValue, hfind]
  rfl

/-! ## Which texts match -/

def Steps : Re γ → Place γ → Place γ → Prop
  | .empty, s, s' => s' = s
  | .chr p, s, s' => s.rest.head?.any p = true ∧ s' = s.read 1
  | .plus p, s, s' => ∃ n < (s.rest.takeWhile p).length, s' = s.read (n + 1)
  | .bol, s, s' => s.pos = 0 ∧ s' = s
  | .eol, s, s' => (s.rest = [] ∨ s.rest = ['\n']) ∧ s' = s
  | .seq a b, s, s' => ∃ m, Steps a s m ∧ Steps b m s'
  | .alt a b, s, s' => Steps a s s' ∨ Steps b s s'
  | .group x a, s, s' => ∃ m, Steps a s m ∧ s' = m.capture x (s.upTo m)

theorem run_sound {k : Place γ → Option β} {y : β} (h : run a s k = some y) :
    ∃ s', Steps a s s' ∧ k s' = some y := by
  induction a generalizing s k with
  | empty => exact ⟨s, rfl, h⟩
  | chr p =>
      rw [run] at h
      split at h
      next hp => exact ⟨s.read 1, ⟨hp, rfl⟩, h⟩
      next => cases h
  | plus p =>
      obtain ⟨i, hi, hk⟩ := longest_sound h
      exact ⟨s.read (i + 1), ⟨i, hi, rfl⟩, hk⟩
  | bol =>
      rw [run] at h
      split at h
      next hpos => exact ⟨s, ⟨hpos, rfl⟩, h⟩
      next => cases h
  | eol =>
      rw [run] at h
      split at h
      next hend => exact ⟨s, ⟨hend, rfl⟩, h⟩
      next => cases h
  | seq a b iha ihb =>
      obtain ⟨m, ha, hm⟩ := iha h
      obtain ⟨s', hb, hk⟩ := ihb hm
      exact ⟨s', ⟨m, ha, hb⟩, hk⟩
  | alt a b iha ihb =>
      rcases Option.or_eq_some_iff.mp h with ha | ⟨-, hb⟩
      · obtain ⟨s', hs, hk⟩ := iha ha
        exact ⟨s', .inl hs, hk⟩
      · obtain ⟨s', hs, hk⟩ := ihb hb
        exact ⟨s', .inr hs, hk⟩
  | group x a ih =>
      obtain ⟨m, ha, hk⟩ := ih h
      exact ⟨_, ⟨m, ha, rfl⟩, hk⟩

theorem run_complete {k : Place γ → Option β} (h : Steps a s s') (hk : (k s').isSome = true) :
    (run a s k).isSome = true := by
  induction a generalizing s s' k with
  | empty => rwa [run, ← show s' = s from h]
  | chr p => rwa [run, if_pos h.1, ← h.2]
  | plus p =>
      obtain ⟨i, hi, rfl⟩ := h
      exact longest_complete hi hk
  | bol => rwa [run, if_pos h.1, ← h.2]
  | eol => rwa [run, if_pos h.1, ← h.2]
  | seq a b iha ihb =>
      obtain ⟨m, ha, hb⟩ := h
      exact iha ha (ihb hb hk)
  | alt a b iha ihb =>
      rw [run, Option.isSome_or, Bool.or_eq_true]
      rcases h with ha | hb
      · exact .inl (iha ha hk)
      · exact .inr (ihb hb hk)
  | group x a ih =>
      obtain ⟨m, ha, rfl⟩ := h
      exact ih ha hk

theorem Steps.isSome_groups {x : γ} (h : Steps a s s') (hx : (s.groups x).isSome = true) :
    (s'.groups x).isSome = true := by
  induction a generalizing s s' with
  | empty => rwa [show s' = s from h]
  | chr p => rwa [h.2]
  | plus p =>
      obtain ⟨n, -, rfl⟩ := h
      exact hx
  | bol => rwa [h.2]
  | eol => rwa [h.2]
  | seq a b iha ihb =>
      obtain ⟨m, ha, hb⟩ := h
      exact ihb hb (iha ha hx)
  | alt a b iha ihb =>
      rcases h with ha | hb
      · exact iha ha hx
      · exact ihb hb hx
  | group y a ih =>
      obtain ⟨m, ha, rfl⟩ := h
      by_cases hxy : x = y
      · rw [hxy, Place.capture_self, Option.isSome_some]
      · rw [Place.capture_of_ne m _ hxy]
        exact ih ha hx

/-- A match without its groups: from one position and rest to another. -/
def Spans : Re γ → Nat × List Char → Nat × List Char → Prop
  | .empty, x, y => y = x
  | .chr p, x, y => x.2.head?.any p = true ∧ y = (x.1 + 1, x.2.drop 1)
  | .plus p, x, y => ∃ n < (x.2.takeWhile p).length, y = (x.1 + (n + 1), x.2.drop (n + 1))
  | .bol, x, y => x.1 = 0 ∧ y = x
  | .eol, x, y => (x.2 = [] ∨ x.2 = ['\n']) ∧ y = x
  | .seq a b, x, y => ∃ z, Spans a x z ∧ Spans b z y
  | .alt a b, x, y => Spans a x y ∨ Spans b x y
  | .group _ a, x, y => Spans a x y

theorem Steps.spans (h : Steps a s s') : Spans a (s.pos, s.rest) (s'.pos, s'.rest) := by
  induction a generalizing s s' with
  | empty => rw [show s' = s from h]; rfl
  | chr p =>
      rw [h.2]
      exact ⟨h.1, rfl⟩
  | plus p =>
      obtain ⟨n, hn, rfl⟩ := h
      exact ⟨n, hn, rfl⟩
  | bol =>
      rw [h.2]
      exact ⟨h.1, rfl⟩
  | eol =>
      rw [h.2]
      exact ⟨h.1, rfl⟩
  | seq a b iha ihb =>
      obtain ⟨m, ha, hb⟩ := h
      exact ⟨_, iha ha, ihb hb⟩
  | alt a b iha ihb => exact h.imp iha ihb
  | group x a ih =>
      obtain ⟨m, ha, rfl⟩ := h
      have hm : Spans a (s.pos, s.rest) (m.pos, m.rest) := ih ha
      exact hm

/-- Any groups may be set before. -/
theorem Spans.steps {x y : Nat × List Char} (h : Spans a x y) (g : γ → Option (List Char)) :
    ∃ g', Steps a ⟨x.1, x.2, g⟩ ⟨y.1, y.2, g'⟩ := by
  induction a generalizing x y g with
  | empty =>
      rw [show y = x from h]
      exact ⟨g, rfl⟩
  | chr p =>
      rw [h.2]
      exact ⟨g, h.1, rfl⟩
  | plus p =>
      obtain ⟨n, hn, rfl⟩ := h
      exact ⟨g, n, hn, rfl⟩
  | bol =>
      rw [h.2]
      exact ⟨g, h.1, rfl⟩
  | eol =>
      rw [h.2]
      exact ⟨g, h.1, rfl⟩
  | seq a b iha ihb =>
      obtain ⟨z, ha, hb⟩ := h
      obtain ⟨g₁, ha⟩ := iha ha g
      obtain ⟨g₂, hb⟩ := ihb hb g₁
      exact ⟨g₂, _, ha, hb⟩
  | alt a b iha ihb =>
      rcases h with ha | hb
      · obtain ⟨g', ha⟩ := iha ha g
        exact ⟨g', .inl ha⟩
      · obtain ⟨g', hb⟩ := ihb hb g
        exact ⟨g', .inr hb⟩
  | group x a ih =>
      obtain ⟨g', ha⟩ := ih h g
      exact ⟨_, _, ha, rfl⟩

/-- An alternative after one that matches all it does is never tried with success. -/
theorem groupdict_alt {t : List Char}
    (hsub : ∀ y, Spans b (0, t) y → ∃ z, Spans a (0, t) z) :
    (Re.alt a b).groupdict t = a.groupdict t := by
  have hrun : (Re.alt a b).groupdict t = (a.groupdict t).or (b.groupdict t) := rfl
  rw [hrun]
  cases hb : b.groupdict t with
  | none => rw [Option.or_none]
  | some g =>
      obtain ⟨s', hsteps, -⟩ := run_sound hb
      obtain ⟨z, hz⟩ := hsub _ hsteps.spans
      obtain ⟨g', hsteps⟩ := hz.steps fun _ => none
      have hsome : (a.groupdict t).isSome = true := run_complete hsteps rfl
      obtain ⟨g, hg⟩ := Option.isSome_iff_exists.mp hsome
      rw [hg, Option.some_or]

/-! ## Which match is found -/

/-- The first way to match `a` from `s` leads to `s'`. -/
def Prefers (a : Re γ) (s s' : Place γ) : Prop :=
  ∀ (β : Type) (k : Place γ → Option β) (y : β), k s' = some y → run a s k = some y

theorem Prefers.empty : Prefers .empty s s := fun _ _ _ h => h

theorem Prefers.bol {t : List Char} {g : γ → Option (List Char)} :
    Prefers .bol ⟨0, t, g⟩ ⟨0, t, g⟩ := fun _ _ _ h => h

theorem Prefers.eol {i : Nat} {g : γ → Option (List Char)} :
    Prefers .eol ⟨i, [], g⟩ ⟨i, [], g⟩ := fun _ _ _ h => h

theorem Prefers.seq (ha : Prefers a s m) (hb : Prefers b m s') : Prefers (.seq a b) s s' :=
  fun β k y h => ha β _ y (hb β k y h)

theorem Prefers.alt (ha : Prefers a s s') : Prefers (.alt a b) s s' := by
  intro β k y h
  rw [run, ha β k y h, Option.some_or]

theorem Prefers.chr {i : Nat} {c : Char} {t : List Char} {g : γ → Option (List Char)}
    (hc : p c = true) : Prefers (.chr p) ⟨i, c :: t, g⟩ ⟨i + 1, t, g⟩ := by
  intro β k y h
  rw [run, if_pos (by simpa using hc)]
  exact h

/-- A run of a class that ends where the class does. -/
theorem Prefers.plus {i : Nat} {ds t : List Char} {g : γ → Option (List Char)} (hds : ds ≠ [])
    (hp : ∀ c ∈ ds, p c = true) (ht : ∀ c ∈ t.head?, p c = false) :
    Prefers (.plus p) ⟨i, ds ++ t, g⟩ ⟨i + ds.length, t, g⟩ := by
  intro β k y h
  have hrun : (ds ++ t).takeWhile p = ds := by
    rw [List.takeWhile_append_of_pos hp]
    cases t with
    | nil => exact List.append_nil ds
    | cons c t => rw [List.takeWhile_cons_of_neg (by rw [ht c rfl]; decide), List.append_nil]
  have hread : Place.read ⟨i, ds ++ t, g⟩ ds.length = ⟨i + ds.length, t, g⟩ := by
    rw [Place.read, List.drop_left]
  obtain ⟨n, hn⟩ := Nat.exists_eq_succ_of_ne_zero (mt List.eq_nil_of_length_eq_zero hds)
  rw [hn] at hread
  rw [run, hrun, hn, longest, hread, ← hn, h, Option.some_or]

theorem Prefers.group {i : Nat} {x : γ} {ds t : List Char} {g g' : γ → Option (List Char)}
    (ha : Prefers a ⟨i, ds ++ t, g⟩ ⟨i + ds.length, t, g'⟩) :
    Prefers (.group x a) ⟨i, ds ++ t, g⟩
      ⟨i + ds.length, t, Function.update g' x (some ds)⟩ := by
  intro β k y h
  refine ha β _ y ?_
  rwa [Place.upTo, Nat.add_sub_cancel_left, List.take_left]

/-- A text is matched in any mix of upper and lower case. -/
theorem Prefers.text {i : Nat} {e t : List Char} {g : γ → Option (List Char)} :
    Prefers (text (e.map Char.toLower)) ⟨i, e ++ t, g⟩ ⟨i + e.length, t, g⟩ := by
  induction e generalizing i with
  | nil => exact Prefers.empty
  | cons c e ih =>
      rw [List.length_cons, Nat.add_comm e.length, ← Nat.add_assoc]
      exact Prefers.seq (Prefers.chr (literal_toLower c)) ih

theorem Prefers.groupdict {i : Nat} {t u : List Char} {g : γ → Option (List Char)}
    (ha : Prefers a (start t) ⟨i, u, g⟩) : a.groupdict t = some g := ha _ _ _ rfl

end ConcurrentQueues.Reasoning.Regex
