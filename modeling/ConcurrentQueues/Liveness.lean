import ConcurrentQueues.Callers
import ConcurrentQueues.Rest
import ConcurrentQueues.Ex5.Rest

/-!
# Liveness — what the callers may expect of every version

Every open call has a price, and each step that is no wait takes something off what the open calls
still cost.  So a caller that makes finitely many calls gets through with them.
-/

namespace ConcurrentQueues

open Reasoning

variable {n : Nat}

namespace Queue

/-- `malloc` succeeds, and a weak CAS does not fail spuriously. -/
def Good (Q : Queue n) (c : Q.Choice) : Prop := Q.allocates c = true ∧ Q.spurious c = false

/-- What brings the open calls of a queue to their end. -/
structure Live (Q : Queue n) where
  waits : Q.State → Fin n → Prop
  /-- what the open calls of a state still cost -/
  costs : Q.State → Nat → Prop
  price : Nat
  settles : Settles Q.step Q.Good (fun l => Q.idle l = false) waits costs
  busy : ∀ {s t}, waits s t → Q.idle (s.th t) = false
  init : ∃ k, costs Q.init k
  le : ∀ {s k}, costs s k → k ≤ n * price
  /-- a thread can always begin a call -/
  begins : ∀ {s k t}, costs s k → Q.idle (s.th t) = true → ∀ c,
    ∃ s', fire Q.step s (t, c) = some s' ∧ ∃ k' ≤ k + price, costs s' k'
  /-- as long as `malloc` succeeds, whichever weak CAS fails -/
  kept : ∀ {s k t c s'}, costs s k → Q.allocates c = true → fire Q.step s (t, c) = some s' →
    ∃ k', costs s' k'
  allocates_calling : ∀ op b c, Q.allocates (Q.calling op b c) = Q.allocates c
  spurious_calling : ∀ op b c, Q.spurious (Q.calling op b c) = Q.spurious c

/-- A queue in which a thread waits at locks only. -/
def Live.ofLocks {Q : Queue n} {K : Type} {I : Q.State → Prop} (D : LockDiscipline Q.step K I)
    {needs : Q.Mem → Q.Local → K → Prop} (F : D.Foresees needs) (steps : Q.Local → Nat)
    (hsteps : ∀ t c m l m' l', D.active l → Q.step t c m l = .next m' l' → steps l' < steps l)
    {b : Nat} (hle : ∀ l, steps l ≤ b) (hbusy : ∀ l, Q.idle l = false ↔ D.active l)
    (hinit : I Q.init) (c₀ : Q.Choice)
    (hmem : ∀ op b c, Q.allocates (Q.calling op b c) = Q.allocates c)
    (hspurious : ∀ op b c, Q.spurious (Q.calling op b c) = Q.spurious c) : Q.Live where
  waits := D.Waits
  costs s k := I s ∧ k = ∑ t, steps (s.th t)
  price := b
  settles := (D.settles F steps hsteps c₀).mono (fun _ _ => trivial) hbusy
  busy := by
    rintro s t ⟨k, u, hwant, -⟩
    exact (hbusy _).mpr (F.active (F.of_wants (m := s.mem) hwant))
  init := ⟨_, hinit, rfl⟩
  le := by
    rintro s k ⟨-, rfl⟩
    have hsum := sum_le_card_mul fun t => hle (s.th t)
    rwa [Fintype.card_fin] at hsum
  begins := by
    rintro s k t ⟨hI, rfl⟩ hidle c
    have hrest : ¬ D.active (s.th t) := by
      rw [← hbusy, hidle]
      decide
    obtain ⟨s', hf⟩ := D.fires hI (t := t) (fun k hwant =>
      absurd (F.active (F.of_wants (m := s.mem) hwant)) hrest) c
    exact ⟨s', hf, D.rank_le hle hI hf⟩
  kept := by
    rintro s k t c s' ⟨hI, rfl⟩ - hf
    exact ⟨_, D.inv hI hf, rfl⟩
  allocates_calling := hmem
  spurious_calling := hspurious

/-! ## The step of a call -/

namespace Live

variable {Q : Queue n} {L : Q.Live} {s : Q.State} {t : Fin n} {op : Op Value} {b : Bool}
  {c : Q.Choice} {m' : Q.Mem} {l' : Q.Local} {k : Nat}

theorem good_calling (L : Q.Live) (hgood : Q.Good c) : Q.Good (Q.calling op b c) :=
  ⟨(L.allocates_calling op b c).trans hgood.1, (L.spurious_calling op b c).trans hgood.2⟩

theorem fires (hstep : Q.step t c s.mem (s.th t) = .next m' l') :
    fire Q.step s (t, c) = some ⟨m', Function.update s.th t l'⟩ :=
  fire_eq_some.mpr ⟨m', l', hstep, rfl⟩

/-- The call begins. -/
theorem begin_call (hk : L.costs s k) (hidle : Q.idle (s.th t) = true)
    (hstep : Q.step t (Q.calling op b c) s.mem (s.th t) = .next m' l') :
    ∃ k' ≤ k + L.price, L.costs ⟨m', Function.update s.th t l'⟩ k' := by
  obtain ⟨v, hv, hcosts⟩ := L.begins hk hidle (Q.calling op b c)
  obtain rfl := Option.some.inj (hv.symm.trans (fires hstep))
  exact hcosts

/-- The call goes on. -/
theorem lower_call (hk : L.costs s k) (hbusy : Q.idle (s.th t) = false) (hgood : Q.Good c)
    (hgo : ¬ L.waits s t) (hstep : Q.step t (Q.calling op b c) s.mem (s.th t) = .next m' l') :
    ∃ k' < k, L.costs ⟨m', Function.update s.th t l'⟩ k' :=
  L.settles.lower hk hbusy (L.good_calling hgood) hgo (fires hstep)

/-- The call waits. -/
theorem wait_call (hk : L.costs s k) (hwaits : L.waits s t)
    (hstep : Q.step t (Q.calling op b c) s.mem (s.th t) = .next m' l') :
    m' = s.mem ∧ l' = s.th t := by
  have hsame := L.settles.wait hk hwaits (fires hstep)
  refine ⟨congrArg Config.mem hsame, ?_⟩
  have hth : Function.update s.th t l' t = s.th t := congrFun (congrArg Config.th hsame) t
  rwa [Function.update_self] at hth

/-- The call can begin, or go on. -/
theorem enabled_call (hk : L.costs s k) (hgood : Q.Good c) (hgo : ¬ L.waits s t) :
    ∃ m' l', Q.step t (Q.calling op b c) s.mem (s.th t) = .next m' l' := by
  obtain ⟨v, hv⟩ : ∃ v, fire Q.step s (t, Q.calling op b c) = some v := by
    cases hidle : Q.idle (s.th t) with
    | true =>
        obtain ⟨v, hv, -⟩ := L.begins hk hidle (Q.calling op b c)
        exact ⟨v, hv⟩
    | false => exact L.settles.enabled hk hidle hgo _ (L.good_calling hgood)
  obtain ⟨m', l', hstep, -⟩ := fire_eq_some.mp hv
  exact ⟨m', l', hstep⟩

/-- What a step costs is known, also if a weak CAS fails spuriously. -/
theorem exists_costs (hk : L.costs s k) (hmem : Q.allocates c = true)
    (hstep : Q.step t (Q.calling op b c) s.mem (s.th t) = .next m' l') :
    ∃ k', L.costs ⟨m', Function.update s.th t l'⟩ k' :=
  L.kept hk ((L.allocates_calling op b c).trans hmem) (fires hstep)

/-- A call that waits does not return. -/
theorem not_ret {C : Q.Correct} {g : C.G} (hk : L.costs s k) (hI : C.I s g) (hwaits : L.waits s t)
    (hstep : Q.step t (Q.calling op b c) s.mem (s.th t) = .next m' l') (res : Res Value) :
    Q.mark t (Q.calling op b c) s.mem (s.th t) ≠ some (.ret res) := by
  intro hmark
  obtain ⟨-, rfl⟩ := L.wait_call hk hwaits hstep
  have hidle := C.idle_of_ret hI hstep hmark
  rw [L.busy hwaits] at hidle
  cases hidle

/-- While `malloc` succeeds, what the open calls cost is known behind every step of their caller. -/
theorem exists_costs_caller {X : Type} {f : X → Q.Local} {s : Config (Fin n) Q.Mem X} {x' : X}
    (hk : L.costs (queueState Q f s) k) (hmem : Q.allocates c = true)
    (hqueue : (m' = s.mem ∧ f x' = f (s.th t)) ∨
      ∃ op, Q.step t (Q.calling op b c) s.mem (f (s.th t)) = .next m' (f x')) :
    ∃ k', L.costs (queueState Q f ⟨m', Function.update s.th t x'⟩) k' := by
  obtain ⟨rfl, hl⟩ | ⟨op, hstep⟩ := hqueue
  -- the queue stays where it is
  · rw [queueState_same hl]
    exact ⟨k, hk⟩
  · rw [queueState_update]
    exact L.exists_costs (t := t) hk hmem hstep

end Live

/-- What a client still has to pay: for its open calls, for the calls to come, and for its own
steps. -/
def bill (price k calls turns : Nat) : Nat := k + (price + 1) * calls + turns

/-- A step pays with the open calls, with a call that begins, or with a step of its own. -/
theorem bill_lt {price k calls turns k' calls' turns' : Nat} (hcalls : calls' ≤ calls)
    (hturns : turns' ≤ turns) (hpays : k' < k ∨ (k' ≤ k + price ∧ calls' < calls) ∨
      (k' ≤ k ∧ turns' < turns)) :
    bill price k' calls' turns' < bill price k calls turns := by
  have hmul : (price + 1) * calls' ≤ (price + 1) * calls := Nat.mul_le_mul_left _ hcalls
  unfold bill
  rcases hpays with hless | ⟨hprice, hless⟩ | ⟨hsame, hless⟩
  · omega
  · have hone : (price + 1) * (calls' + 1) ≤ (price + 1) * calls := Nat.mul_le_mul_left _ hless
    rw [Nat.mul_add, Nat.mul_one] at hone
    omega
  · omega

end Queue

/-! ## The versions -/

namespace Ex1

def Pc.rank : Pc → Nat
  | .idle => 0
  | .body => 2
  | .ret => 1

theorem Pc.rank_le (pc : Pc) : pc.rank ≤ 2 := by cases pc <;> decide

/-- The calls are atomic, so nobody waits. -/
theorem settles (n : Nat) :
    Settles (step (n := n)) (fun c => c.malloc.isSome = true ∧ false = false)
      (fun l => (l.pc == .idle) = false) (fun _ _ => False)
      fun s k => (∃ g, Rep s.mem.store g) ∧ k = ∑ t, (s.th t).pc.rank where
  wait := fun _ hwait => hwait.elim
  lower := by
    rintro s k t c s' ⟨⟨g, hrep⟩, rfl⟩ hbusy - - hf
    obtain ⟨g', hrep', -⟩ := (movesNodes n).step hrep hf
    obtain ⟨m', l', hstep, rfl⟩ := fire_eq_some.mp hf
    refine ⟨_, ?_, ⟨g', hrep'⟩, rfl⟩
    have hsum := sum_update (fun _ l => l.pc.rank) s.th t l'
    have hless : l'.pc.rank < (s.th t).pc.rank := by
      cases hpc : (s.th t).pc with
      | idle => simp [hpc] at hbusy
      | body =>
          obtain ⟨hret, -⟩ := body_nodes hrep hpc hstep
          simp [hret, Pc.rank]
      | ret =>
          simp only [step, hpc] at hstep
          cases hstep
          simp [Pc.rank]
    dsimp only
    omega
  enabled := by
    rintro s k t ⟨⟨g, hrep⟩, -⟩ hbusy - c -
    cases hpc : (s.th t).pc with
    | idle => simp [hpc] at hbusy
    | body =>
        obtain ⟨q', res, -, hcall, -⟩ := call_nodes hrep ((s.th t).toCall t c)
        exact ⟨_, fire_eq_some.mpr ⟨q', { s.th t with pc := .ret, res := res },
          by simp only [step, hpc, hcall], rfl⟩⟩
    | ret =>
        exact ⟨_, fire_eq_some.mpr ⟨s.mem, { s.th t with pc := .idle },
          by simp only [step, hpc], rfl⟩⟩
  goes := fun _ hbusy => ⟨_, hbusy, id⟩

def live (n : Nat) : (queue n).Live where
  waits _ _ := False
  costs s k := (∃ g, Rep s.mem.store g) ∧ k = ∑ t, (s.th t).pc.rank
  price := 2
  settles := settles n
  busy := False.elim
  init := ⟨_, ⟨_, rep_init n⟩, rfl⟩
  le := by
    rintro s k ⟨-, rfl⟩
    have hsum := sum_le_card_mul fun t => Pc.rank_le (s.th t).pc
    rwa [Fintype.card_fin] at hsum
  begins := by
    rintro s k t ⟨⟨g, hrep⟩, rfl⟩ hidle c
    have hpc := eq_of_beq hidle
    refine ⟨_, call_fires hpc c, _, ?_, ⟨g, hrep⟩, rfl⟩
    have hsum := sum_update (fun _ l => l.pc.rank) s.th t
      { s.th t with pc := .body, op := c.op, countIns := c.countIns }
    simp only [Pc.rank] at hsum ⊢
    omega
  kept := by
    rintro s k t c s' ⟨⟨g, hrep⟩, rfl⟩ - hf
    obtain ⟨g', hrep', -⟩ := (movesNodes n).step hrep hf
    exact ⟨_, ⟨g', hrep'⟩, rfl⟩
  allocates_calling := fun _ _ _ => rfl
  spurious_calling := fun _ _ _ => rfl

end Ex1

def Ex2.live (n : Nat) : (Ex2.queue n).Live :=
  .ofLocks (Ex2.locks n) (Ex2.foresees n) (fun l => l.pc.rank)
    (fun _ _ _ _ _ _ => Ex2.step_rank) Ex2.rank_le (fun _ => beq_eq_false_iff_ne)
    ⟨_, Ex2.inv_init n⟩ ⟨.deq 0, false, none⟩ (fun _ _ _ => rfl) fun _ _ _ => rfl

def Ex4.live (n : Nat) : (Ex4.queue n).Live :=
  .ofLocks (Ex4.locks n) (Ex4.foresees n) (fun l => l.pc.rank)
    (fun _ _ _ _ _ _ => Ex4.step_rank) Ex4.rank_le (fun _ => beq_eq_false_iff_ne)
    ⟨_, Ex4.inv_init n⟩ ⟨.deq 0, false, none⟩ (fun _ _ _ => rfl) fun _ _ _ => rfl

def Ex5.live (n : Nat) : (Ex5.queue n).Live where
  waits := Ex5.Waits
  costs := Ex5.Costs
  price := 46 * n + 147
  settles := (Ex5.settles n).mono
    (fun c hc => by
      simpa only [Queue.Good, Ex5.Choice.Good, Bool.and_eq_true_iff, Option.isSome_iff_ne_none]
        using hc)
    fun _ => beq_eq_false_iff_ne
  busy := by
    rintro s t ⟨u, hu⟩
    simp [hu.spins]
  init := by
    apply Ex5.exists_costs (Ex5.inv_init n)
    intro t
    simp [Ex5.NullBlock, Ex5.init, Ex5.Local.init]
  le := Ex5.Costs.le
  begins := by
    intro s k t hk hidle c
    exact ⟨_, Ex5.call_fires (eq_of_beq hidle) c, hk.begins (eq_of_beq hidle) c⟩
  kept := by
    intro s k t c s' hk hmem hf
    apply hk.kept _ hf
    simpa only [Ex5.queue, Bool.and_eq_true_iff, Option.isSome_iff_ne_none] using hmem
  allocates_calling := fun _ _ _ => rfl
  spurious_calling := fun _ _ _ => rfl

/-- What a call may cost. -/
def price (n : Nat) : Nat → Nat
  | 2 => 21
  | 4 => 20
  | 5 => 46 * n + 147
  | _ => 2

theorem exists_live (n : Nat) (v : Nat) : ∃ L : (version n v).Live, L.price = price n v := by
  by_cases h₂ : v = 2
  · subst h₂
    exact ⟨Ex2.live n, rfl⟩
  by_cases h₄ : v = 4
  · subst h₄
    exact ⟨Ex4.live n, rfl⟩
  by_cases h₅ : v = 5
  · subst h₅
    exact ⟨Ex5.live n, rfl⟩
  · have hv : version n v = Ex1.queue n := by
      unfold version
      split <;> simp_all
    have hprice : price n v = 2 := by
      unfold price
      split <;> simp_all
    rw [hv, hprice]
    exact ⟨Ex1.live n, rfl⟩

end ConcurrentQueues
