import ConcurrentQueues.Reasoning.Alone
import ConcurrentQueues.Reasoning.Fair

/-!
# Locks — mutual exclusion and the lock order

A program that takes its locks in a fixed order never deadlocks: the thread that waits for the
lock of lowest rank can go on, or its holder can.
-/

namespace ConcurrentQueues.Reasoning

variable {ι C M L K : Type*} [DecidableEq ι]

/-- How the threads of `P` use the locks `K` in the configurations of `I`.  `holds` and `wants` are
read off the program text, `holder` off the memory. -/
structure LockDiscipline (P : Program ι C M L) (K : Type*) (I : Config ι M L → Prop) where
  holder : M → K → Option ι
  holds : L → K → Prop
  /-- the lock the next step acquires -/
  wants : L → Option K
  /-- the lock the next step releases -/
  releases : L → Option K
  active : L → Prop
  /-- locks are taken in the order of falling rank -/
  rank : K → Nat
  inv : ∀ {s e s'}, I s → fire P s e = some s' → I s'
  holder_iff : ∀ {s t k}, I s → (holder s.mem k = some t ↔ holds (s.th t) k)
  active_of_holds : ∀ {l k}, holds l k → active l
  releases_holds : ∀ {l k}, releases l = some k → holds l k
  order : ∀ {l k k'}, wants l = some k → holds l k' → rank k < rank k'
  enabled : ∀ {s : Config ι M L} {t}, I s →
    (∀ k, wants (s.th t) = some k → holder s.mem k = none) →
    ∀ c, ∃ m l, P t c s.mem (s.th t) = .next m l

namespace LockDiscipline

/-- What a discipline promises in the configuration `s`: a lock is held by one thread at most, by
none outside an operation, only its holder releases it, and not all unfinished operations are
blocked. -/
structure Sound {P : Program ι C M L} {I : Config ι M L → Prop} (D : LockDiscipline P K I)
    (s : Config ι M L) : Prop where
  holder_iff : ∀ k t, D.holder s.mem k = some t ↔ D.holds (s.th t) k
  exclusive : ∀ k t u, D.holds (s.th t) k → D.holds (s.th u) k → t = u
  outside : ∀ k t, ¬ D.active (s.th t) → D.holder s.mem k ≠ some t
  releases : ∀ k t, D.releases (s.th t) = some k → D.holder s.mem k = some t
  released : ∀ k t u c s', fire P s (t, c) = some s' → D.holder s.mem k = some u →
    D.holder s'.mem k ≠ some u → u = t
  live : (∃ t, D.active (s.th t)) → ∃ t, D.active (s.th t) ∧ ∀ c, ∃ s', fire P s (t, c) = some s'

variable {P : Program ι C M L} {I : Config ι M L → Prop} {D : LockDiscipline P K I}
  {s s' : Config ι M L} {t u : ι} {k : K} {c : C}

theorem exclusive (hI : I s) (ht : D.holds (s.th t) k) (hu : D.holds (s.th u) k) : t = u := by
  have htu := (D.holder_iff hI).mpr ht
  rw [(D.holder_iff hI).mpr hu] at htu
  exact (Option.some.inj htu).symm

/-- A thread that is not in an operation holds nothing. -/
theorem holder_ne (hI : I s) (ht : ¬ D.active (s.th t)) (k : K) : D.holder s.mem k ≠ some t :=
  fun h => ht (D.active_of_holds ((D.holder_iff hI).mp h))

/-- Outside all operations every lock is free. -/
theorem holder_eq_none (hI : I s) (hquiet : ∀ t, ¬ D.active (s.th t)) (k : K) :
    D.holder s.mem k = none :=
  Option.eq_none_iff_forall_ne_some.mpr fun t => holder_ne hI (hquiet t) k

theorem releases_own (hI : I s) (h : D.releases (s.th t) = some k) :
    D.holder s.mem k = some t :=
  (D.holder_iff hI).mpr (D.releases_holds h)

/-- What a thread holds it loses by its own steps only. -/
theorem released_own (hI : I s) (hf : fire P s (t, c) = some s') (hk : D.holder s.mem k = some u)
    (hlost : D.holder s'.mem k ≠ some u) : u = t := by
  by_contra hut
  have hI' := D.inv hI hf
  obtain ⟨m, l, -, rfl⟩ := fire_eq_some.mp hf
  have hheld := (D.holder_iff hI).mp hk
  apply hlost
  rw [D.holder_iff hI']
  simpa only [Function.update_of_ne hut] using hheld

theorem fires (hI : I s) (h : ∀ k, D.wants (s.th t) = some k → D.holder s.mem k = none) (c : C) :
    ∃ s', fire P s (t, c) = some s' := by
  obtain ⟨m, l, hstep⟩ := D.enabled hI h c
  exact ⟨_, fire_eq_some.mpr ⟨m, l, hstep, rfl⟩⟩

/-- Behind a thread that waits for `k` somebody can go on. -/
theorem exists_enabled_of_wants (hI : I s) :
    ∀ (r : Nat) (k : K) (t : ι), D.rank k = r → D.active (s.th t) → D.wants (s.th t) = some k →
      ∃ u, D.active (s.th u) ∧ ∀ c, ∃ s', fire P s (u, c) = some s' := by
  intro r
  induction r using Nat.strongRecOn with
  | ind r ih =>
      intro k t hr ht hwant
      cases hk : D.holder s.mem k with
      | none =>
          refine ⟨t, ht, D.fires hI fun k' hk' => ?_⟩
          rw [hwant] at hk'
          rw [← Option.some.inj hk', hk]
      | some u =>
          have hu := (D.holder_iff hI).mp hk
          cases hwant' : D.wants (s.th u) with
          | none =>
              exact ⟨u, D.active_of_holds hu, D.fires hI fun k' hk' => by simp [hwant'] at hk'⟩
          -- the holder waits itself, for a lock of lower rank
          | some k' =>
              have hlt := D.order hwant' hu
              exact ih _ (hr ▸ hlt) k' u rfl (D.active_of_holds hu) hwant'

/-- **No deadlock.**  As long as some operation is unfinished, one of them can take a step. -/
theorem exists_enabled (D : LockDiscipline P K I) (hI : I s) (ht : D.active (s.th t)) :
    ∃ u, D.active (s.th u) ∧ ∀ c, ∃ s', fire P s (u, c) = some s' := by
  cases hwant : D.wants (s.th t) with
  | none => exact ⟨t, ht, D.fires hI fun k hk => by simp [hwant] at hk⟩
  | some k => exact exists_enabled_of_wants hI _ k t rfl ht hwant

theorem sound (D : LockDiscipline P K I) (hI : I s) : D.Sound s where
  holder_iff := fun _ _ => D.holder_iff hI
  exclusive := fun _ _ _ => exclusive hI
  outside := fun k _ ht => holder_ne hI ht k
  releases := fun _ _ => releases_own hI
  released := fun _ _ _ _ _ hf => released_own hI hf
  live := fun ⟨_, ht⟩ => D.exists_enabled hI ht

/-! ## A thread that runs alone -/

/-- A lock it wants is free: nobody else is in an operation, and it does not hold the lock
itself. -/
theorem holder_eq_none_of_alone (hI : I s) (hrest : Others (fun l => ¬ D.active l) t s)
    (hwant : D.wants (s.th t) = some k) : D.holder s.mem k = none := by
  cases hk : D.holder s.mem k with
  | none => rfl
  | some u =>
      have hheld := (D.holder_iff hI).mp hk
      by_cases hu : u = t
      · subst hu
        exact absurd (D.order hwant hheld) (Nat.lt_irrefl _)
      · exact absurd (D.active_of_holds hheld) (hrest u hu)

/-- Without loops it comes to the end of its operation. -/
theorem returns (D : LockDiscipline P K I) {ok : C → Prop} {done : L → Prop}
    (hdone : ∀ l, ¬ done l → D.active l) (steps : L → Nat)
    (hsteps : ∀ c m l m' l', D.active l → P t c m l = .next m' l' → steps l' < steps l)
    (hI : I s) (hrest : Others (fun l => ¬ D.active l) t s) (ht : D.active (s.th t)) :
    Returns P ok done t s := by
  refine returns_of_rank (fun v k => I v ∧ Others (fun l => ¬ D.active l) t v ∧
    D.active (v.th t) ∧ k = steps (v.th t)) ?_ ⟨hI, hrest, ht, rfl⟩
  rintro v k c ⟨hI, hrest, ht, rfl⟩ -
  obtain ⟨m', l', hstep⟩ := D.enabled hI (fun _ hwant => holder_eq_none_of_alone hI hrest hwant) c
  have hI' := D.inv (e := (t, c)) hI (fire_eq_some.mpr ⟨m', l', hstep, rfl⟩)
  refine ⟨m', l', hstep, fun hbusy =>
    ⟨_, hsteps c v.mem (v.th t) m' l' ht hstep, hI', hrest.update m' l', ?_, ?_⟩⟩
  · simpa only [Function.update_self] using hdone l' hbusy
  · simp only [Function.update_self]

/-! ## A thread that runs alone past holders that have stopped -/

/-- `needs m l k`: a thread with locals `l` that runs alone from the memory `m` is going to acquire
`k`.  A need ends with the acquisition and with nothing else. -/
structure Foresees (D : LockDiscipline P K I) (needs : M → L → K → Prop) : Prop where
  of_wants : ∀ {m l k}, D.wants l = some k → needs m l k
  active : ∀ {m l k}, needs m l k → D.active l
  waits : ∀ {t c m l k u m' l'}, D.wants l = some k → D.holder m k = some u →
    P t c m l ≠ .next m' l'
  keep : ∀ {s t c m' l' k}, I s → D.active (s.th t) → P t c s.mem (s.th t) = .next m' l' →
    D.wants (s.th t) ≠ some k → (needs m' l' k ↔ needs s.mem (s.th t) k)

/-- Another thread holds a lock that `t` needs. -/
def HeldUp (D : LockDiscipline P K I) (needs : M → L → K → Prop) (t : ι) (s : Config ι M L) : Prop :=
  ∃ k u, u ≠ t ∧ D.holder s.mem k = some u ∧ needs s.mem (s.th t) k

section Alone

variable {needs : M → L → K → Prop} {m' : M} {l' : L}

/-- A step of `t` leaves the locks of the others alone. -/
theorem holder_other (hI : I s) (hstep : P t c s.mem (s.th t) = .next m' l') (hut : u ≠ t) :
    D.holder m' k = some u ↔ D.holder s.mem k = some u := by
  have hI' := D.inv (e := (t, c)) hI (fire_eq_some.mpr ⟨m', l', hstep, rfl⟩)
  have hafter := D.holder_iff (t := u) (k := k) hI'
  rw [D.holder_iff hI]
  simpa only [Function.update_of_ne hut] using hafter

/-- Whether a thread is held up does not change while it runs alone. -/
theorem heldUp_step (F : D.Foresees needs) (hI : I s) (ht : D.active (s.th t))
    (hstep : P t c s.mem (s.th t) = .next m' l') :
    D.HeldUp needs t ⟨m', Function.update s.th t l'⟩ ↔ D.HeldUp needs t s := by
  unfold HeldUp
  refine exists_congr fun k => exists_congr fun u => and_congr_right fun hut => ?_
  simp only [Function.update_self]
  rw [holder_other hI hstep hut]
  refine and_congr_right fun hheld => ?_
  -- a lock that is held cannot be the one that has just been acquired
  exact F.keep hI ht hstep fun hwant => F.waits hwant hheld hstep

theorem returnsWithin_of_not_heldUp (F : D.Foresees needs) {ok : C → Prop} {done : L → Prop}
    (hdone : ∀ l, ¬ done l → D.active l) (steps : L → Nat)
    (hpos : ∀ l, D.active l → 0 < steps l)
    (hsteps : ∀ c m l m' l', D.active l → P t c m l = .next m' l' → steps l' < steps l)
    (hI : I s) (ht : D.active (s.th t)) (hfree : ¬ D.HeldUp needs t s) {b : Nat}
    (hb : steps (s.th t) ≤ b) : ReturnsWithin P ok done t b s := by
  have hnow := hpos _ ht
  refine returnsWithin_of_rank (fun v k => I v ∧ D.active (v.th t) ∧ ¬ D.HeldUp needs t v ∧
    k + 1 = steps (v.th t)) ?_ (k := steps (s.th t) - 1) ⟨hI, ht, hfree, by omega⟩ (by omega)
  rintro v k c ⟨hI, ht, hfree, hk⟩ -
  have hwants : ∀ k, D.wants (v.th t) = some k → D.holder v.mem k = none := by
    intro k hwant
    apply Option.eq_none_iff_forall_ne_some.mpr
    intro u hheld
    by_cases hut : u = t
    · subst hut
      exact Nat.lt_irrefl _ (D.order hwant ((D.holder_iff hI).mp hheld))
    · exact hfree ⟨k, u, hut, hheld, F.of_wants hwant⟩
  obtain ⟨m', l', hstep⟩ := D.enabled hI hwants c
  refine ⟨m', l', hstep, fun hbusy => ?_⟩
  have hless := hsteps c v.mem (v.th t) m' l' ht hstep
  have hpos' := hpos l' (hdone l' hbusy)
  refine ⟨steps l' - 1, by omega, D.inv (e := (t, c)) hI (fire_eq_some.mpr ⟨m', l', hstep, rfl⟩),
    ?_, fun hheld => hfree ((heldUp_step F hI ht hstep).mp hheld), ?_⟩
  · simpa only [Function.update_self] using hdone l' hbusy
  · simp only [Function.update_self]
    omega

/-- A thread that is held up stays so, whatever it does. -/
theorem heldUp_of_run (F : D.Foresees needs) (hI : I s) (hheld : D.HeldUp needs t s)
    {es : List (ι × C)} (hrun : run P s es = some s') (halone : ∀ e ∈ es, e.1 = t) :
    D.HeldUp needs t s' := by
  induction es generalizing s with
  | nil =>
      cases hrun
      exact hheld
  | cons e es ih =>
      obtain ⟨u, c⟩ := e
      obtain rfl : u = t := halone (u, c) List.mem_cons_self
      obtain ⟨v, hf, hrun⟩ := run_cons.mp hrun
      have hI' := D.inv hI hf
      obtain ⟨m', l', hstep, rfl⟩ := fire_eq_some.mp hf
      have ht : D.active (s.th u) := by
        obtain ⟨k, w, -, -, hneeds⟩ := hheld
        exact F.active hneeds
      exact ih hI' ((heldUp_step F hI ht hstep).mpr hheld) hrun fun e he =>
        halone e (List.mem_cons_of_mem _ he)

theorem HeldUp.active (F : D.Foresees needs) (h : D.HeldUp needs t s) : D.active (s.th t) := by
  obtain ⟨k, u, -, -, hneeds⟩ := h
  exact F.active hneeds

end Alone

/-! ## Coming to rest -/

/-- The lock that `t` acquires next is held. -/
def Waits (D : LockDiscipline P K I) (s : Config ι M L) (t : ι) : Prop :=
  ∃ k u, D.wants (s.th t) = some k ∧ D.holder s.mem k = some u

section Rest

variable {needs : M → L → K → Prop}

theorem Waits.blocked (F : D.Foresees needs) (h : D.Waits s t) (c : C) :
    fire P s (t, c) = none := by
  obtain ⟨k, u, hwant, hheld⟩ := h
  apply Option.eq_none_iff_forall_ne_some.mpr
  intro s' hf
  obtain ⟨m', l', hstep, -⟩ := fire_eq_some.mp hf
  exact F.waits hwant hheld hstep

/-- Without loops the threads come to rest; the rank is the number of steps they still take. -/
theorem settles [Fintype ι] (F : D.Foresees needs) (steps : L → Nat)
    (hsteps : ∀ t c m l m' l', D.active l → P t c m l = .next m' l' → steps l' < steps l) (c₀ : C) :
    Settles P (fun _ => True) D.active D.Waits fun s k => I s ∧ k = ∑ t, steps (s.th t) where
  wait := by
    intro s k t c s' _ hwait hf
    rw [hwait.blocked F c] at hf
    cases hf
  lower := by
    rintro s k t c s' ⟨hI, rfl⟩ hact - - hf
    have hI' := D.inv hI hf
    obtain ⟨m', l', hstep, rfl⟩ := fire_eq_some.mp hf
    refine ⟨_, ?_, hI', rfl⟩
    have hsum := sum_update (fun _ => steps) s.th t l'
    have hless := hsteps t c s.mem (s.th t) m' l' hact hstep
    dsimp only
    omega
  enabled := by
    rintro s k t ⟨hI, -⟩ - hgo c -
    apply D.fires hI
    intro k hwant
    apply Option.eq_none_iff_forall_ne_some.mpr
    intro u hheld
    exact hgo ⟨k, u, hwant, hheld⟩
  goes := by
    rintro s k t ⟨hI, -⟩ hact
    obtain ⟨u, hu, hfires⟩ := D.exists_enabled hI hact
    refine ⟨u, hu, fun hwait => ?_⟩
    obtain ⟨s', hf⟩ := hfires c₀
    rw [hwait.blocked F c₀] at hf
    cases hf

/-- A step of any kind costs at most what its thread may still have to do. -/
theorem rank_le [Fintype ι] (D : LockDiscipline P K I) {steps : L → Nat} {b : Nat}
    (hle : ∀ l, steps l ≤ b) (hI : I s) (hf : fire P s (t, c) = some s') :
    ∃ k' ≤ (∑ u, steps (s.th u)) + b, I s' ∧ k' = ∑ u, steps (s'.th u) := by
  have hI' := D.inv hI hf
  obtain ⟨m', l', -, rfl⟩ := fire_eq_some.mp hf
  refine ⟨_, ?_, hI', rfl⟩
  have hsum := sum_update (fun _ => steps) s.th t l'
  have hl' := hle l'
  dsimp only
  omega

/-- **Every schedule brings the threads to rest.** -/
theorem terminates [Fintype ι] (F : D.Foresees needs) (steps : L → Nat)
    (hsteps : ∀ t c m l m' l', D.active l → P t c m l = .next m' l' → steps l' < steps l) (c₀ : C)
    {b : Nat} (hle : ∀ l, steps l ≤ b) (hI : I s) :
    Terminates P (fun _ => True) D.active (Fintype.card ι * b) s := by
  intro es s' hrun hall
  obtain ⟨hlen, hend⟩ := (settles F steps hsteps c₀).terminates
    (fun _ _ c hwait => hwait.blocked F c) (c := c₀) trivial ⟨hI, rfl⟩ es s' hrun hall
  exact ⟨hlen.trans (sum_le_card_mul fun t => hle (s.th t)), hend⟩

end Rest

end LockDiscipline

end ConcurrentQueues.Reasoning
