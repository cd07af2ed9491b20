import Mathlib.Algebra.BigOperators.Group.Finset.Basic
import Mathlib.Data.List.Induction
import Mathlib.Logic.Function.Basic

/-!
# Threads — interleaved programs over a shared memory

A `Program` is one thread's step function over the shared memory and its own locals.  A
configuration runs one copy of it per thread id, and a schedule names, step by step, the thread
that moves and the nondeterministic choice it makes.  The rules below are the ones every proof
over all interleavings uses: induction along a run, history variables, and the rely–guarantee rule.
-/

namespace ConcurrentQueues.Reasoning

/-- What an attempted step does: it updates memory and locals, waits for a lock, or dereferences
`NULL`. -/
inductive Outcome (M L : Type*) where
  | next (m : M) (l : L)
  | blocked
  | fault

abbrev Program (ι C M L : Type*) := ι → C → M → L → Outcome M L

/-- The shared memory and the locals of every thread. -/
structure Config (ι M L : Type*) where
  mem : M
  th : ι → L

variable {ι C M L G E : Type*} [DecidableEq ι]

/-- One step of thread `e.1` under choice `e.2`. -/
def fire (P : Program ι C M L) (s : Config ι M L) (e : ι × C) : Option (Config ι M L) :=
  match P e.1 e.2 s.mem (s.th e.1) with
  | .next m l => some ⟨m, Function.update s.th e.1 l⟩
  | .blocked => none
  | .fault => none

/-- The configuration a schedule leads to. -/
def run (P : Program ι C M L) (s : Config ι M L) (sched : List (ι × C)) :
    Option (Config ι M L) :=
  sched.foldlM (fire P) s

theorem fire_eq_some {P : Program ι C M L} {s s' : Config ι M L} {e : ι × C} :
    fire P s e = some s' ↔
      ∃ m l, P e.1 e.2 s.mem (s.th e.1) = .next m l ∧ s' = ⟨m, Function.update s.th e.1 l⟩ := by
  unfold fire
  cases h : P e.1 e.2 s.mem (s.th e.1) with
  | next m l => simp [eq_comm]
  | blocked => simp
  | fault => simp

@[simp] theorem run_nil (P : Program ι C M L) (s : Config ι M L) : run P s [] = some s := rfl

theorem run_append {P : Program ι C M L} {s s' : Config ι M L} {es fs : List (ι × C)} :
    run P s (es ++ fs) = some s' ↔ ∃ u, run P s es = some u ∧ run P u fs = some s' := by
  simp [run, List.foldlM_append, Option.bind_eq_some_iff]

theorem run_cons {P : Program ι C M L} {s s' : Config ι M L} {e : ι × C} {es : List (ι × C)} :
    run P s (e :: es) = some s' ↔ ∃ u, fire P s e = some u ∧ run P u es = some s' := by
  simp [run, List.foldlM_cons, Option.bind_eq_some_iff]

theorem run_singleton {P : Program ι C M L} {s s' : Config ι M L} {e : ι × C} :
    run P s [e] = some s' ↔ fire P s e = some s' := by
  simp [run_cons]

theorem run_snoc {P : Program ι C M L} {s s' : Config ι M L} {es : List (ι × C)} {e : ι × C} :
    run P s (es ++ [e]) = some s' ↔ ∃ u, run P s es = some u ∧ fire P u e = some s' := by
  simp only [run_append, run_singleton]

/-- What a computation of the run finds is true of its last configuration. -/
theorem run_observe {A : Type*} {P : Program ι C M L} {s s' : Config ι M L} {es : List (ι × C)}
    (h : run P s es = some s') (f : Config ι M L → A) {a : A} (ha : (run P s es).map f = some a) :
    f s' = a := by
  simpa [h] using ha

/-- Induction along a run, one step at its end. -/
theorem run_induction {P : Program ι C M L} {s : Config ι M L}
    {motive : List (ι × C) → Config ι M L → Prop} (nil : motive [] s)
    (snoc : ∀ es e u v, run P s es = some u → motive es u → fire P u e = some v →
      motive (es ++ [e]) v) :
    ∀ es s', run P s es = some s' → motive es s' := by
  intro es
  induction es using List.reverseRecOn with
  | nil =>
      intro s' h
      obtain rfl : s = s' := by simpa using h
      exact nil
  | append_singleton es e ih =>
      intro s' h
      obtain ⟨u, hu, hf⟩ := run_snoc.mp h
      exact snoc es e u s' hu (ih u hu) hf

/-- `Q` holds in every configuration a run passes through, its first and its last included. -/
def Throughout (P : Program ι C M L) (s : Config ι M L) (es : List (ι × C))
    (Q : Config ι M L → Prop) : Prop :=
  ∀ fs gs u, es = fs ++ gs → run P s fs = some u → Q u

section Throughout

variable {P : Program ι C M L} {Q Q' : Config ι M L → Prop} {s u : Config ι M L}
  {es fs : List (ι × C)}

theorem Throughout.last (h : Throughout P s es Q) (hrun : run P s es = some u) : Q u :=
  h es [] u (List.append_nil es).symm hrun

theorem Throughout.left (h : Throughout P s (es ++ fs) Q) : Throughout P s es Q := by
  rintro gs hs u rfl hrun
  exact h gs (hs ++ fs) u (List.append_assoc gs hs fs) hrun

theorem Throughout.right (h : Throughout P s (es ++ fs) Q) (hrun : run P s es = some u) :
    Throughout P u fs Q := by
  rintro gs hs v rfl hrun'
  exact h (es ++ gs) hs v (List.append_assoc es gs hs).symm (run_append.mpr ⟨u, hrun, hrun'⟩)

theorem Throughout.mono (h : Throughout P s es Q) (hQ : ∀ u, Q u → Q' u) :
    Throughout P s es Q' := fun fs gs u hsplit hrun => hQ u (h fs gs u hsplit hrun)

/-- A finite check of every configuration of a run that continues a run from `v`. -/
theorem Throughout.of_all {v : Config ι M L} (b : Config ι M L → Bool)
    (hrun : run P v fs = some s) (es : List (ι × C))
    (h : ∀ k ≤ es.length, (run P v (fs ++ es.take k)).all b = true) :
    Throughout P s es fun u => b u = true := by
  rintro gs hs u rfl hu
  have hk := h gs.length (by simp)
  rw [List.take_left, run_append.mpr ⟨s, hrun, hu⟩] at hk
  exact hk

end Throughout

/-- Every step of a run satisfies `Q`, a property of the step and the configurations around it. -/
def EveryStep (P : Program ι C M L) (s : Config ι M L) (es : List (ι × C))
    (Q : ι × C → Config ι M L → Config ι M L → Prop) : Prop :=
  ∀ fs e gs u v, es = fs ++ e :: gs → run P s fs = some u → fire P u e = some v → Q e u v

/-- Some step of a run satisfies `Q`. -/
def SomeStep (P : Program ι C M L) (s : Config ι M L) (es : List (ι × C))
    (Q : ι × C → Config ι M L → Config ι M L → Prop) : Prop :=
  ¬ EveryStep P s es fun e u v => ¬ Q e u v

section Steps

variable {P : Program ι C M L} {Q : ι × C → Config ι M L → Config ι M L → Prop}
  {s u v : Config ι M L} {es : List (ι × C)} {e : ι × C}

theorem everyStep_nil : EveryStep P s [] Q := by
  intro fs e gs u v hsplit
  simp at hsplit

theorem EveryStep.left {fs : List (ι × C)} (h : EveryStep P s (es ++ fs) Q) :
    EveryStep P s es Q := by
  rintro gs e hs u v rfl hrun hf
  exact h gs e (hs ++ fs) u v (by simp) hrun hf

theorem everyStep_snoc (hrun : run P s es = some u) (hf : fire P u e = some v) :
    EveryStep P s (es ++ [e]) Q ↔ EveryStep P s es Q ∧ Q e u v := by
  constructor
  · intro h
    refine ⟨?_, h es e [] u v rfl hrun hf⟩
    rintro fs d gs w x rfl hfs hd
    exact h fs d (gs ++ [e]) w x (by simp) hfs hd
  · rintro ⟨h, hQ⟩ fs d gs w x hsplit hfs hd
    rcases List.eq_nil_or_concat gs with rfl | ⟨gs, d', rfl⟩
    · obtain ⟨rfl, hde⟩ := List.append_inj' hsplit rfl
      -- the step is the last one
      obtain rfl : e = d := List.head_eq_of_cons_eq hde
      obtain rfl : u = w := Option.some.inj (hrun.symm.trans hfs)
      obtain rfl : v = x := Option.some.inj (hf.symm.trans hd)
      exact hQ
    · rw [List.concat_eq_append, ← List.cons_append, ← List.append_assoc] at hsplit
      -- or it is a step of `es`, and the last one is not looked at
      exact h fs d gs w x (List.append_inj' hsplit rfl).1 hfs hd

theorem someStep_snoc (hrun : run P s es = some u) (hf : fire P u e = some v) :
    SomeStep P s (es ++ [e]) Q ↔ SomeStep P s es Q ∨ Q e u v := by
  rw [SomeStep, everyStep_snoc hrun hf, not_and_or, not_not, SomeStep]

end Steps

/-! ## Events -/

/-- The events a run emits, in order. -/
def trace (P : Program ι C M L) (ev : ι → C → M → L → Option E) :
    Config ι M L → List (ι × C) → List E
  | _, [] => []
  | s, e :: es =>
      (ev e.1 e.2 s.mem (s.th e.1)).toList ++
        match fire P s e with
        | some s' => trace P ev s' es
        | none => []

theorem trace_append {P : Program ι C M L} {ev : ι → C → M → L → Option E}
    {s u : Config ι M L} {es fs : List (ι × C)} (h : run P s es = some u) :
    trace P ev s (es ++ fs) = trace P ev s es ++ trace P ev u fs := by
  induction es generalizing s with
  | nil =>
      obtain rfl : s = u := by simpa using h
      rfl
  | cons e es ih =>
      obtain ⟨v, hv, hrun⟩ := run_cons.mp h
      simp only [List.cons_append, trace, hv, ih hrun, List.append_assoc]

theorem trace_singleton {P : Program ι C M L} {ev : ι → C → M → L → Option E}
    {s : Config ι M L} {e : ι × C} :
    trace P ev s [e] = (ev e.1 e.2 s.mem (s.th e.1)).toList := by
  simp only [trace]
  cases fire P s e <;> simp

theorem trace_snoc {P : Program ι C M L} {ev : ι → C → M → L → Option E}
    {s u : Config ι M L} {es : List (ι × C)} (e : ι × C) (h : run P s es = some u) :
    trace P ev s (es ++ [e]) = trace P ev s es ++ (ev e.1 e.2 u.mem (u.th e.1)).toList := by
  rw [trace_append h, trace_singleton]

/-! ## History variables -/

/-- `P` with a history variable beside its memory; the variable records each step and never
influences one. -/
def withHistory (P : Program ι C M L) (record : ι → C → M → L → G → G) :
    Program ι C (M × G) L :=
  fun t c mg l =>
    match P t c mg.1 l with
    | .next m l' => .next (m, record t c mg.1 l mg.2) l'
    | .blocked => .blocked
    | .fault => .fault

omit [DecidableEq ι] in
theorem withHistory_next {P : Program ι C M L} {record : ι → C → M → L → G → G} {t : ι} {c : C}
    {mg mg' : M × G} {l l' : L} :
    withHistory P record t c mg l = .next mg' l' ↔
      P t c mg.1 l = .next mg'.1 l' ∧ mg'.2 = record t c mg.1 l mg.2 := by
  unfold withHistory
  cases h : P t c mg.1 l with
  | next m k =>
      obtain ⟨m', g'⟩ := mg'
      simp only [Outcome.next.injEq, Prod.mk.injEq]
      constructor
      · rintro ⟨⟨rfl, rfl⟩, rfl⟩; exact ⟨⟨rfl, rfl⟩, rfl⟩
      · rintro ⟨⟨rfl, rfl⟩, rfl⟩; exact ⟨⟨rfl, rfl⟩, rfl⟩
  | blocked => simp
  | fault => simp

/-- A configuration of `P` beside a value of the history variable. -/
def Config.withHistory (s : Config ι M L) (g : G) : Config ι (M × G) L := ⟨(s.mem, g), s.th⟩

theorem fire_withHistory {P : Program ι C M L} (record : ι → C → M → L → G → G)
    {s s' : Config ι M L} {e : ι × C} (g : G) (h : fire P s e = some s') :
    fire (withHistory P record) (s.withHistory g) e =
      some (s'.withHistory (record e.1 e.2 s.mem (s.th e.1) g)) := by
  obtain ⟨m, l, hstep, rfl⟩ := fire_eq_some.mp h
  refine fire_eq_some.mpr ⟨(m, record e.1 e.2 s.mem (s.th e.1) g), l, ?_, rfl⟩
  exact withHistory_next.mpr ⟨hstep, rfl⟩

/-- Every run can be replayed with the history variable. -/
theorem run_withHistory {P : Program ι C M L} (record : ι → C → M → L → G → G)
    {s s' : Config ι M L} {es : List (ι × C)} (g : G) (h : run P s es = some s') :
    ∃ g', run (withHistory P record) (s.withHistory g) es = some (s'.withHistory g') := by
  refine run_induction (motive := fun es v =>
    ∃ g', run (withHistory P record) (s.withHistory g) es = some (v.withHistory g')) ⟨g, rfl⟩ ?_
    es s' h
  rintro es e u v - ⟨g', hg'⟩ hf
  exact ⟨_, run_snoc.mpr ⟨_, hg', fire_withHistory record g' hf⟩⟩

/-- A history variable does not change the events of a run. -/
theorem trace_withHistory {P : Program ι C M L} (record : ι → C → M → L → G → G)
    (ev : ι → C → M → L → Option E) {s s' : Config ι M L} {es : List (ι × C)} (g : G)
    (h : run P s es = some s') :
    trace (withHistory P record) (fun t c mg l => ev t c mg.1 l) (s.withHistory g) es =
      trace P ev s es := by
  induction es generalizing s g with
  | nil => rfl
  | cons e es ih =>
      obtain ⟨u, hu, hrun⟩ := run_cons.mp h
      simp only [trace, hu, fire_withHistory record g hu, ih _ hrun]
      rfl

/-- **Runs with history.**  `I` is an invariant of configuration and history, and `R` a reflexive
and transitive relation between histories that every step from a configuration in `Q` keeps. -/
theorem run_history_rel {P : Program ι C M L} (record : ι → C → M → L → G → G)
    {I : Config ι M L → G → Prop} {Q : Config ι M L → Prop} {R : G → G → Prop}
    (refl : ∀ g, R g g) (trans : ∀ g g' g'', R g g' → R g' g'' → R g g'')
    (step : ∀ s e s' g, I s g → Q s → fire P s e = some s' →
      I s' (record e.1 e.2 s.mem (s.th e.1) g) ∧ R g (record e.1 e.2 s.mem (s.th e.1) g))
    {s s' : Config ι M L} {es : List (ι × C)} {g : G} (hs : I s g) (h : run P s es = some s')
    (hQ : Throughout P s es Q) : ∃ g', I s' g' ∧ R g g' := by
  refine run_induction
    (motive := fun es v => Throughout P s es Q → ∃ g', I v g' ∧ R g g') ?_ ?_ es s' h hQ
  · exact fun _ => ⟨g, hs, refl g⟩
  · intro es e u v hrun ih hf hQ'
    obtain ⟨g', hI, hR⟩ := ih hQ'.left
    have hstep := step u e v g' hI (hQ'.left.last hrun) hf
    exact ⟨_, hstep.1, trans _ _ _ hR hstep.2⟩

/-! ## The rely–guarantee rule -/

/-- A rely–guarantee proof of `P`: `Shared` is an invariant of the memory, `Own t` a proof outline
of thread `t`, and `Rely t` what the steps of the other threads may do as seen by `t`. -/
structure RelyGuarantee (P : Program ι C M L) where
  Shared : M → Prop
  Own : ι → M → L → Prop
  Rely : ι → M → M → Prop
  step : ∀ {t c m l m' l'}, Shared m → Own t m l → P t c m l = .next m' l' →
    Shared m' ∧ Own t m' l' ∧ ∀ u, u ≠ t → Rely u m m'
  stable : ∀ {t m m' l}, Shared m → Own t m l → Rely t m m' → Own t m' l

namespace RelyGuarantee

variable {P : Program ι C M L} (R : RelyGuarantee P)

/-- The invariant a rely–guarantee proof establishes. -/
structure Inv (s : Config ι M L) : Prop where
  shared : R.Shared s.mem
  own : ∀ t, R.Own t s.mem (s.th t)

theorem Inv.fire {R : RelyGuarantee P} {s s' : Config ι M L} {e : ι × C} (hs : R.Inv s)
    (h : fire P s e = some s') : R.Inv s' := by
  obtain ⟨m, l, hstep, rfl⟩ := fire_eq_some.mp h
  obtain ⟨hshared, hown, hrely⟩ := R.step hs.shared (hs.own e.1) hstep
  refine ⟨hshared, fun u => ?_⟩
  -- the thread that moved keeps its outline by `step`, the others by `stable`
  by_cases hu : u = e.1
  · subst hu
    simpa using hown
  · simpa [Function.update_of_ne hu] using R.stable hs.shared (hs.own u) (hrely u hu)

theorem Inv.run {R : RelyGuarantee P} {s s' : Config ι M L} {es : List (ι × C)} (hs : R.Inv s)
    (h : run P s es = some s') : R.Inv s' :=
  run_induction (motive := fun _ v => R.Inv v) hs (fun _ _ _ _ _ ih hf => ih.fire hf) es s' h

end RelyGuarantee

/-! ## Sums over the threads -/

/-- One thread moves, so one summand changes. -/
theorem sum_update_add {α : Type*} [AddCommMonoid α] [Fintype ι] (th : ι → L) (t : ι) (l : L)
    (f : L → α) :
    ∑ u, f (Function.update th t l u) + f (th t) = ∑ u, f (th u) + f l := by
  have hrest : ∑ u ∈ Finset.univ.erase t, f (Function.update th t l u) =
      ∑ u ∈ Finset.univ.erase t, f (th u) :=
    Finset.sum_congr rfl fun u hu => by rw [Function.update_of_ne (Finset.ne_of_mem_erase hu)]
  rw [← Finset.add_sum_erase _ _ (Finset.mem_univ t), hrest, Function.update_self,
    ← Finset.add_sum_erase _ (fun u => f (th u)) (Finset.mem_univ t), add_comm (f l),
    add_comm (f (th t)), add_right_comm]

end ConcurrentQueues.Reasoning
