import ConcurrentQueues.Reasoning.Threads

/-!
# Alone — a thread that runs while the others rest

`Returns` is total: the thread is never stuck and cannot run forever.  The rule below proves it from
an invariant with a rank that falls at every step.
-/

namespace ConcurrentQueues.Reasoning

variable {ι C M L : Type*} [DecidableEq ι] {P : Program ι C M L} {ok : C → Prop}
  {done : L → Prop} {t : ι} {s : Config ι M L}

/-- The locals of all threads but `t` satisfy `Q`. -/
def Others (Q : L → Prop) (t : ι) (s : Config ι M L) : Prop := ∀ u, u ≠ t → Q (s.th u)

theorem Others.update {Q : L → Prop} (h : Others Q t s) (m' : M) (l' : L) :
    Others Q t ⟨m', Function.update s.th t l'⟩ := by
  intro u hu
  simpa only [Function.update_of_ne hu] using h u hu

/-- Thread `t`, if no other thread moves, comes to `done`, whatever it chooses among `ok`. -/
inductive Returns (P : Program ι C M L) (ok : C → Prop) (done : L → Prop) (t : ι) :
    Config ι M L → Prop
  | intro {s : Config ι M L} (enabled : ∀ c, ok c → ∃ s', fire P s (t, c) = some s')
      (next : ∀ c s', ok c → fire P s (t, c) = some s' → ¬ done (s'.th t) →
        Returns P ok done t s') : Returns P ok done t s

/-- An invariant of a thread that runs alone, with a bound on the steps it still takes. -/
theorem returns_of_rank (J : Config ι M L → Nat → Prop)
    (step : ∀ s k c, J s k → ok c → ∃ m' l', P t c s.mem (s.th t) = .next m' l' ∧
      (¬ done l' → ∃ k' < k, J ⟨m', Function.update s.th t l'⟩ k'))
    {k : Nat} (h : J s k) : Returns P ok done t s := by
  induction k using Nat.strongRecOn generalizing s with
  | ind k ih =>
      refine .intro (fun c hc => ?_) fun c s' hc hf hdone => ?_
      · obtain ⟨m', l', hstep, -⟩ := step s k c h hc
        exact ⟨_, fire_eq_some.mpr ⟨m', l', hstep, rfl⟩⟩
      · obtain ⟨m', l', hstep, hless⟩ := step s k c h hc
        obtain rfl : (⟨m', Function.update s.th t l'⟩ : Config ι M L) = s' :=
          Option.some.inj ((fire_eq_some.mpr ⟨m', l', hstep, rfl⟩).symm.trans hf)
        simp only [Function.update_self] at hdone
        obtain ⟨k', hk', hJ⟩ := hless hdone
        exact ih k' hk' hJ

/-- Thread `t`, if no other thread moves, comes to `done` with its `k`th step at the latest. -/
def ReturnsWithin (P : Program ι C M L) (ok : C → Prop) (done : L → Prop) (t : ι) :
    Nat → Config ι M L → Prop
  | 0, _ => False
  | k + 1, s => ∀ c, ok c → ∃ s', fire P s (t, c) = some s' ∧
      (done (s'.th t) ∨ ReturnsWithin P ok done t k s')

/-- An invariant of a thread that runs alone, with a bound on the steps it still takes. -/
theorem returnsWithin_of_rank (J : Config ι M L → Nat → Prop)
    (step : ∀ s k c, J s k → ok c → ∃ m' l', P t c s.mem (s.th t) = .next m' l' ∧
      (¬ done l' → ∃ k' < k, J ⟨m', Function.update s.th t l'⟩ k'))
    {k b : Nat} (h : J s k) (hb : k < b) : ReturnsWithin P ok done t b s := by
  induction b generalizing s k with
  | zero => exact absurd hb (Nat.not_lt_zero k)
  | succ b ih =>
      intro c hc
      obtain ⟨m', l', hstep, hless⟩ := step s k c h hc
      refine ⟨_, fire_eq_some.mpr ⟨m', l', hstep, rfl⟩, ?_⟩
      simp only [Function.update_self]
      by_cases hdone : done l'
      · exact .inl hdone
      · obtain ⟨k', hk', hJ⟩ := hless hdone
        exact .inr (ih hJ (Nat.lt_of_lt_of_le hk' (Nat.lt_succ_iff.mp hb)))

end ConcurrentQueues.Reasoning
