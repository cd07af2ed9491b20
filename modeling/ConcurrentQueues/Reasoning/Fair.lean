import ConcurrentQueues.Reasoning.Threads
import Mathlib.Algebra.Order.BigOperators.Group.Finset
import Mathlib.Data.Fintype.BigOperators

/-!
# Fair — coming to rest

The threads that are active have something to finish.  A thread may wait for others in a loop, where
a step changes nothing, or at a lock, where it has none.  If every other step lowers a rank, and
somebody can always take such a step, then every fair schedule comes to rest.
-/

namespace ConcurrentQueues.Reasoning

variable {ι C M L : Type*} [DecidableEq ι] {P : Program ι C M L}

section EveryStep

variable {Q : ι × C → Config ι M L → Config ι M L → Prop} {s u : Config ι M L}
  {es fs : List (ι × C)} {e : ι × C}

theorem everyStep_cons (hf : fire P s e = some u) :
    EveryStep P s (e :: es) Q ↔ Q e s u ∧ EveryStep P u es Q := by
  constructor
  · intro h
    refine ⟨h [] e es s u rfl rfl hf, ?_⟩
    rintro fs d gs v w rfl hrun hd
    exact h (e :: fs) d gs v w rfl (run_cons.mpr ⟨u, hf, hrun⟩) hd
  · rintro ⟨hfirst, hrest⟩ fs d gs v w hsplit hrun hd
    cases fs with
    | nil =>
        obtain ⟨rfl, -⟩ := List.cons.inj hsplit
        cases hrun
        obtain rfl : u = w := Option.some.inj (hf.symm.trans hd)
        exact hfirst
    | cons a fs =>
        obtain ⟨rfl, htail⟩ := List.cons.inj hsplit
        obtain ⟨x, hx, hrun⟩ := run_cons.mp hrun
        obtain rfl : u = x := Option.some.inj (hf.symm.trans hx)
        exact hrest fs d gs v w htail hrun hd

theorem EveryStep.right (h : EveryStep P s (es ++ fs) Q) (hrun : run P s es = some u) :
    EveryStep P u fs Q := by
  induction es generalizing s with
  | nil =>
      cases hrun
      exact h
  | cons e es ih =>
      obtain ⟨v, hf, hrun⟩ := run_cons.mp hrun
      exact ih ((everyStep_cons hf).mp h).2 hrun

end EveryStep

/-- Only threads in `active` move, with choices among `ok`. -/
def OnlyActive (P : Program ι C M L) (ok : C → Prop) (active : L → Prop) (s : Config ι M L)
    (es : List (ι × C)) : Prop :=
  EveryStep P s es fun e u _ => active (u.th e.1) ∧ ok e.2

theorem OnlyActive.ok {ok : C → Prop} {active : L → Prop} {s s' : Config ι M L}
    {es : List (ι × C)} (h : OnlyActive P ok active s es) (hrun : run P s es = some s') :
    ∀ e ∈ es, ok e.2 := by
  intro e he
  obtain ⟨fs, gs, rfl⟩ := List.append_of_mem he
  obtain ⟨u, hfs, hrest⟩ := run_append.mp hrun
  obtain ⟨v, hf, -⟩ := run_cons.mp hrest
  exact (h fs e gs u v rfl hfs hf).2

/-- The thread moves in the schedule, or it cannot at some moment of it. -/
def GetsTurn (P : Program ι C M L) (s : Config ι M L) (es : List (ι × C)) (t : ι) : Prop :=
  (∃ e ∈ es, e.1 = t) ∨ ∃ fs u, fs <+: es ∧ run P s fs = some u ∧ ∀ c, fire P u (t, c) = none

/-- Weak fairness: in each round every thread gets a turn that is active when the round begins. -/
def Rounds (P : Program ι C M L) (active : L → Prop) : Config ι M L → List (List (ι × C)) → Prop
  | _, [] => True
  | s, es :: rounds =>
      (∀ t, active (s.th t) → GetsTurn P s es t) ∧
        ∀ u, run P s es = some u → Rounds P active u rounds

/-- The rules under which `P` comes to rest: `J s k` says that `k` is a rank of `s`, and
`waits s t` that the next step of `t` is a turn of a waiting loop, or is not possible. -/
structure Settles (P : Program ι C M L) (ok : C → Prop) (active : L → Prop)
    (waits : Config ι M L → ι → Prop) (J : Config ι M L → Nat → Prop) : Prop where
  wait : ∀ {s k t c s'}, J s k → waits s t → fire P s (t, c) = some s' → s' = s
  lower : ∀ {s k t c s'}, J s k → active (s.th t) → ok c → ¬ waits s t →
    fire P s (t, c) = some s' → ∃ k' < k, J s' k'
  enabled : ∀ {s k t}, J s k → active (s.th t) → ¬ waits s t → ∀ c, ok c →
    ∃ s', fire P s (t, c) = some s'
  goes : ∀ {s k t}, J s k → active (s.th t) → ∃ u, active (s.th u) ∧ ¬ waits s u

namespace Settles

variable {ok : C → Prop} {active : L → Prop} {waits : Config ι M L → ι → Prop}
  {J : Config ι M L → Nat → Prop} {s s' : Config ι M L} {es : List (ι × C)} {k : Nat} {t : ι}

/-- The rank does not rise. -/
theorem run_le (h : Settles P ok active waits J) (hJ : J s k) (hrun : run P s es = some s')
    (hall : OnlyActive P ok active s es) : ∃ k' ≤ k, J s' k' := by
  induction es generalizing s k with
  | nil =>
      cases hrun
      exact ⟨k, le_rfl, hJ⟩
  | cons e es ih =>
      obtain ⟨v, hf, htail⟩ := run_cons.mp hrun
      obtain ⟨⟨hact, hok⟩, hrest⟩ := (everyStep_cons hf).mp hall
      by_cases hwait : waits s e.1
      · obtain rfl := h.wait hJ hwait hf
        exact ih hJ htail hrest
      · obtain ⟨k₁, hlt, hJ₁⟩ := h.lower hJ hact hok hwait hf
        obtain ⟨k₂, hle, hJ₂⟩ := ih hJ₁ htail hrest
        exact ⟨k₂, by omega, hJ₂⟩

/-- A round lowers the rank if a thread gets a turn that does not wait at its beginning: before the
first step that is no wait, the configuration is still the one at the beginning. -/
theorem round_lt (h : Settles P ok active waits J) {c : C} (hc : ok c) (hJ : J s k)
    (ht : active (s.th t)) (hgo : ¬ waits s t) (hturn : GetsTurn P s es t)
    (hrun : run P s es = some s') (hall : OnlyActive P ok active s es) : ∃ k' < k, J s' k' := by
  have hcan : ¬ ∀ c, fire P s (t, c) = none := by
    intro hstuck
    obtain ⟨u, hf⟩ := h.enabled hJ ht hgo c hc
    rw [hstuck c] at hf
    cases hf
  induction es with
  | nil =>
      rcases hturn with ⟨e, he, -⟩ | ⟨fs, u, hpre, hfs, hstuck⟩
      · cases he
      · obtain rfl := List.prefix_nil.mp hpre
        cases hfs
        exact absurd hstuck hcan
  | cons e es ih =>
      obtain ⟨v, hf, htail⟩ := run_cons.mp hrun
      obtain ⟨⟨hact, hok⟩, hrest⟩ := (everyStep_cons hf).mp hall
      by_cases hwait : waits s e.1
      · obtain rfl := h.wait hJ hwait hf
        apply ih _ htail hrest
        rcases hturn with ⟨d, hd, rfl⟩ | ⟨fs, u, hpre, hfs, hstuck⟩
        · rcases List.mem_cons.mp hd with rfl | hd
          · exact absurd hwait hgo
          · exact .inl ⟨d, hd, rfl⟩
        · rcases List.prefix_cons_iff.mp hpre with rfl | ⟨fs, rfl, hpre'⟩
          · cases hfs
            exact absurd hstuck hcan
          · obtain ⟨w, hw, hfs⟩ := run_cons.mp hfs
            obtain rfl := Option.some.inj (hf.symm.trans hw)
            exact .inr ⟨fs, u, hpre', hfs, hstuck⟩
      · obtain ⟨k₁, hlt, hJ₁⟩ := h.lower hJ hact hok hwait hf
        obtain ⟨k₂, hle, hJ₂⟩ := h.run_le hJ₁ htail hrest
        exact ⟨k₂, by omega, hJ₂⟩

/-- **Under a fair schedule the threads come to rest**, after at most as many rounds as the rank
says, and one more. -/
theorem rests (h : Settles P ok active waits J) {c : C} (hc : ok c)
    {rounds : List (List (ι × C))} (hJ : J s k) (hfair : Rounds P active s rounds)
    (hrun : run P s rounds.flatten = some s') (hall : OnlyActive P ok active s rounds.flatten)
    (hk : k < rounds.length) (t : ι) : ¬ active (s'.th t) := by
  induction rounds generalizing s k with
  | nil => exact absurd hk (Nat.not_lt_zero k)
  | cons es rounds ih =>
      obtain ⟨hturns, hfair⟩ := hfair
      rw [List.flatten_cons] at hrun hall
      obtain ⟨v, hfirst, hlast⟩ := run_append.mp hrun
      by_cases hact : ∃ u, active (s.th u)
      · obtain ⟨u, hu⟩ := hact
        obtain ⟨w, hw, hgo⟩ := h.goes hJ hu
        obtain ⟨k', hlt, hJ'⟩ := h.round_lt hc hJ hw hgo (hturns w hw) hfirst hall.left
        rw [List.length_cons] at hk
        exact ih hJ' (hfair v hfirst) hlast (hall.right hfirst) (by omega)
      -- at rest nobody moves any more
      · cases hes : es ++ rounds.flatten with
        | nil =>
            rw [hes] at hrun
            cases hrun
            exact fun ht => hact ⟨t, ht⟩
        | cons e fs =>
            rw [hes] at hrun hall
            obtain ⟨x, hf, -⟩ := run_cons.mp hrun
            exact absurd ⟨e.1, ((everyStep_cons hf).mp hall).1.1⟩ hact

/-- There is a way to rest of at most as many steps as the rank says. -/
theorem exists_rest (h : Settles P ok active waits J) {c : C} (hc : ok c) (hJ : J s k) :
    ∃ es s', es.length ≤ k ∧ run P s es = some s' ∧ OnlyActive P ok active s es ∧
      ∀ t, ¬ active (s'.th t) := by
  induction k using Nat.strongRecOn generalizing s with
  | ind k ih =>
      by_cases hact : ∃ t, active (s.th t)
      · obtain ⟨t, ht⟩ := hact
        obtain ⟨u, hu, hgo⟩ := h.goes hJ ht
        obtain ⟨v, hf⟩ := h.enabled hJ hu hgo c hc
        obtain ⟨k', hlt, hJ'⟩ := h.lower hJ hu hc hgo hf
        obtain ⟨es, s', hlen, hrun, hall, hrest⟩ := ih k' hlt hJ'
        refine ⟨(u, c) :: es, s', ?_, run_cons.mpr ⟨v, hf, hrun⟩,
          (everyStep_cons hf).mpr ⟨⟨hu, hc⟩, hall⟩, hrest⟩
        rw [List.length_cons]
        omega
      · exact ⟨[], s, Nat.zero_le k, rfl, everyStep_nil, fun t ht => hact ⟨t, ht⟩⟩

/-- Where a waiting thread cannot move at all, every run is finite, fair or not. -/
theorem length_le (h : Settles P ok active waits J)
    (hblocked : ∀ s t c, waits s t → fire P s (t, c) = none) (hJ : J s k)
    (hrun : run P s es = some s') (hall : OnlyActive P ok active s es) : es.length ≤ k := by
  induction es generalizing s k with
  | nil => exact Nat.zero_le k
  | cons e es ih =>
      obtain ⟨v, hf, hrun⟩ := run_cons.mp hrun
      obtain ⟨⟨hact, hok⟩, hrest⟩ := (everyStep_cons hf).mp hall
      have hgo : ¬ waits s e.1 := by
        intro hwait
        rw [hblocked s e.1 e.2 hwait] at hf
        cases hf
      obtain ⟨k', hlt, hJ'⟩ := h.lower hJ hact hok hgo hf
      have hlen := ih hJ' hrun hrest
      rw [List.length_cons]
      omega

theorem mono {ok' : C → Prop} {active' : L → Prop} (h : Settles P ok active waits J)
    (hok : ∀ c, ok' c → ok c) (hactive : ∀ l, active' l ↔ active l) :
    Settles P ok' active' waits J where
  wait := h.wait
  lower := fun hJ hact hc => h.lower hJ ((hactive _).mp hact) (hok _ hc)
  enabled := fun hJ hact hgo c hc => h.enabled hJ ((hactive _).mp hact) hgo c (hok c hc)
  goes := by
    intro s k t hJ hact
    obtain ⟨u, hu, hgo⟩ := h.goes hJ ((hactive _).mp hact)
    exact ⟨u, (hactive _).mpr hu, hgo⟩

end Settles

/-- Whatever the schedule, the active threads come to rest within `k` steps: they cannot take more,
and they are not stuck before. -/
def Terminates (P : Program ι C M L) (ok : C → Prop) (active : L → Prop) (k : Nat)
    (s : Config ι M L) : Prop :=
  ∀ es s', run P s es = some s' → OnlyActive P ok active s es →
    es.length ≤ k ∧
      ((∀ t c, active (s'.th t) → ok c → fire P s' (t, c) = none) → ∀ t, ¬ active (s'.th t))

theorem Settles.terminates {ok : C → Prop} {active : L → Prop} {waits : Config ι M L → ι → Prop}
    {J : Config ι M L → Nat → Prop} {s : Config ι M L} {k : Nat}
    (h : Settles P ok active waits J) (hblocked : ∀ s t c, waits s t → fire P s (t, c) = none)
    {c : C} (hc : ok c) (hJ : J s k) : Terminates P ok active k s := by
  intro es s' hrun hall
  refine ⟨h.length_le hblocked hJ hrun hall, fun hstuck t ht => ?_⟩
  obtain ⟨k', -, hJ'⟩ := h.run_le hJ hrun hall
  obtain ⟨u, hu, hgo⟩ := h.goes hJ' ht
  obtain ⟨v, hf⟩ := h.enabled hJ' hu hgo c hc
  rw [hstuck u c hu hc] at hf
  cases hf

/-- A sum over the threads when one of them changes. -/
theorem sum_update [Fintype ι] (cost : ι → L → Nat) (f : ι → L) (t : ι) (x : L) :
    ∑ u, cost u (Function.update f t x u) + cost t (f t) = ∑ u, cost u (f u) + cost t x := by
  have hrest : ∑ u ∈ Finset.univ.erase t, cost u (Function.update f t x u) =
      ∑ u ∈ Finset.univ.erase t, cost u (f u) := by
    apply Finset.sum_congr rfl
    intro u hu
    rw [Function.update_of_ne (Finset.ne_of_mem_erase hu)]
  have hnew := Finset.add_sum_erase Finset.univ (fun u => cost u (Function.update f t x u))
    (Finset.mem_univ t)
  have hold := Finset.add_sum_erase Finset.univ (fun u => cost u (f u)) (Finset.mem_univ t)
  simp only [Function.update_self] at hnew
  omega

omit [DecidableEq ι] in
theorem sum_le_card_mul [Fintype ι] {f : ι → Nat} {b : Nat} (h : ∀ u, f u ≤ b) :
    ∑ u, f u ≤ Fintype.card ι * b := by
  have hle := Finset.sum_le_card_nsmul Finset.univ f b fun u _ => h u
  rwa [Finset.card_univ, Nat.nsmul_eq_mul] at hle

/-- A sum of which one summand falls by more than the others may rise. -/
theorem sum_lt_of_paid [Fintype ι] {f f' : ι → Nat} {t : ι} {d : Nat}
    (hother : ∀ u, u ≠ t → f' u ≤ f u + d) (ht : f' t + Fintype.card ι * d < f t) :
    ∑ u, f' u < ∑ u, f u := by
  have hrest : ∑ u ∈ Finset.univ.erase t, f' u ≤ ∑ u ∈ Finset.univ.erase t, f u +
      Fintype.card ι * d := by
    calc
      ∑ u ∈ Finset.univ.erase t, f' u ≤ ∑ u ∈ Finset.univ.erase t, (f u + d) :=
        Finset.sum_le_sum fun u hu => hother u (Finset.ne_of_mem_erase hu)
      _ = ∑ u ∈ Finset.univ.erase t, f u + (Finset.univ.erase t).card * d := by
        rw [Finset.sum_add_distrib, Finset.sum_const, Nat.nsmul_eq_mul]
      _ ≤ ∑ u ∈ Finset.univ.erase t, f u + Fintype.card ι * d :=
        Nat.add_le_add_left (Nat.mul_le_mul_right d (Finset.card_le_univ _)) _
  have hf' := Finset.add_sum_erase Finset.univ f' (Finset.mem_univ t)
  have hf := Finset.add_sum_erase Finset.univ f (Finset.mem_univ t)
  omega

end ConcurrentQueues.Reasoning
