import ConcurrentQueues.Ex5.Alone
import ConcurrentQueues.Ex5.Stalled

/-!
# Ex5 — a call that runs alone while others are stalled

The other threads have stopped, each at any access of its operation.  An `enq` still returns; a
`deq` returns unless it takes a node and some thread has stopped inside its operation.
-/

namespace ConcurrentQueues.Ex5

open Reasoning Layout

variable {n : Nat} {t u : Fin n} {m m' : Mem n} {g : History n} {l l' : Local} {c : Choice}
  {s s' : State n} {v : UInt64}

/-- There is a node behind the sentinel. -/
def Mem.Nonempty (m : Mem n) : Prop := ∃ p, m.store.head = some p ∧ (m.store.heap p).next ≠ none

/-- The call has not moved `head` yet, and does so if no other thread moves. -/
def WillTake (m : Mem n) (l : Local) : Prop :=
  match l.pc with
  | .opBegin => l.isEnq = false ∧ m.Nonempty
  -- the `NULL` has been loaded, whatever has been linked since
  | .deq .reload => m.Nonempty ∧ ¬ (l.next = none ∧ l.first = m.store.head)
  | .deq .writeOut => False
  | .deq _ => m.Nonempty
  | _ => False

/-- The call has moved `head` or will do so, and then waits for `u`. -/
def Doomed (u : Fin n) (m : Mem n) (l : Local) : Prop :=
  isOdd (m.ctr u) = true ∧ (HeldUp u (m.ctr u) l ∨ WillTake m l)

/-- Some thread that has stopped inside its operation is in the way of the call of `t`. -/
def Blocked (t : Fin n) (s : State n) : Prop := ∃ u, u ≠ t ∧ Doomed u s.mem (s.th t)

theorem Blocked.busy (h : Blocked t s) : (s.th t).pc ≠ .idle := by
  obtain ⟨u, -, -, hheld | hwill⟩ := h
  · exact hheld.busy
  · intro hpc
    simp [WillTake, hpc] at hwill

theorem not_blocked_of_enq (h : Inv s g) (henq : (s.th t).isEnq = true) : ¬ Blocked t s := by
  rintro ⟨u, -, -, hdoomed⟩
  have hargs := (h.own t).status.args
  unfold HeldUp WillTake Local.took at hdoomed
  unfold Local.argsOk at hargs
  cases hpc : (s.th t).pc with
  | deq pc =>
      rw [hpc] at hargs
      simp [Local.isEnq, hargs] at henq
  | retire pc =>
      rw [hpc] at hargs
      simp [henq] at hargs
  | wait pc =>
      rw [hpc] at hargs
      simp [henq] at hargs
  | idle | opBegin | upcylce pc | make pc | enq pc | opEnd pc | reclaim pc | recycle pc | ret =>
      simp [hpc, henq] at hdoomed

/-! ## A step of its own keeps the fate of a call -/

theorem nonempty_iff (hS : Shared m g) : m.Nonempty ↔ g.lay.hd + 1 ≠ g.lay.len := by
  have hlive : g.lay.Live g.lay.hd := ⟨hS.valid.hd_lt, .inl le_rfl⟩
  have hnext := hS.valid.next_eq_none_iff hlive
  unfold Mem.Nonempty
  rw [hS.valid.head]
  constructor
  · rintro ⟨p, hp, hne⟩
    rw [← Option.some.inj hp, ne_eq, hnext] at hne
    exact hne
  · intro hne
    exact ⟨_, rfl, fun he => hne (hnext.mp he)⟩

/-- What the load of `first->next` finds while `first` is the sentinel. -/
theorem Mem.Nonempty.next_ne (h : m.Nonempty) {p : Addr} (hp : m.store.head = some p) :
    (m.store.heap p).next ≠ none := by
  obtain ⟨q, hq, hne⟩ := h
  obtain rfl : q = p := Option.some.inj (hq.symm.trans hp)
  exact hne

theorem deq_willTake {pc : DeqPc} (hS : Shared m g) (hO : Own t m g l) (hpc : l.pc = .deq pc)
    (hbefore : pc ≠ .writeOut) (h : deq c m l pc = .next m' l') :
    WillTake m l ↔ WillTake m' l' ∨ l'.pc = .deq .writeOut := by
  have hbody : g.body t = true := by simpa [hpc, Pc.inBody] using hO.status.body
  have hout := hO.here
  simp only [outline, hpc] at hout
  cases pc <;> simp only [deq] at h hout
  case loadHead | loadTail =>
    cases h
    simp [WillTake, hpc]
  case loadNext =>
    split at h
    next p hfirst =>
      cases h
      simp only [WillTake, hpc, hfirst]
      refine ⟨fun hne => .inl ⟨hne, fun hnull => ?_⟩, fun hne => ?_⟩
      · exact hne.next_ne hnull.2.symm hnull.1
      · exact (hne.resolve_right (by simp)).1
    next => cases h
  case reload =>
    obtain ⟨hfirst, hlast, -, -, hnull⟩ := hout
    split at h
    next hhead =>
      split at h
      next =>
        split at h
        next hnext =>
          cases h
          simp [WillTake, hpc, hnext, hhead]
        next hnext =>
          cases h
          simp [WillTake, hpc, hnext]
      next hne =>
        -- `first` and `last` differ, so what has been loaded is not `NULL`
        have hnext : l.next ≠ none := fun he =>
          hne (by rw [hfirst.eq, hlast.eq, hnull he])
        cases h
        simp [WillTake, hpc, hnext]
    next hmoved =>
      cases h
      simp [WillTake, hpc, hmoved]
  case help =>
    split at h <;> cases h <;> simp [WillTake, hpc, Mem.Nonempty]
  case loadData =>
    split at h <;> cases h
    simp [WillTake, hpc]
  case cas =>
    split at h
    next hok =>
      cases h
      have hhd := hout.1.first.head_eq hS hbody hok.1
      have hlt := hout.1.succ_lt
      have hne : m.Nonempty := (nonempty_iff hS).mpr (by omega)
      simp [WillTake, hpc, hne]
    next =>
      cases h
      simp [WillTake, hpc]
  case writeOut => exact absurd rfl hbefore

/-- In the loop of `deq` a call comes to be held up when it moves `head`. -/
theorem deq_heldUp_iff {pc : DeqPc} (hbefore : pc ≠ .writeOut)
    (h : deq c m l pc = .next m' l') : HeldUp u v l' ↔ l'.pc = .deq .writeOut := by
  cases pc <;> simp only [deq] at h <;> repeat' split at h
  all_goals cases h
  all_goals first
    | exact absurd rfl hbefore
    | simp [HeldUp, Local.took]

/-- In the wait a call is held up by the same threads as before. -/
theorem mmWait_heldUp_iff {pc : WaitPc} (hpc : l.pc = .wait pc) (hu : u ≠ t)
    (hodd : isOdd (m.ctr u) = true) (h : mmWaitUntilUnreserved t m l pc = .next m' l') :
    HeldUp u (m.ctr u) l' ↔ HeldUp u (m.ctr u) l := by
  refine ⟨fun hl' => ?_, fun hl => mmWait_heldUp hpc hu hodd hl h⟩
  cases pc <;> simp only [mmWaitUntilUnreserved] at h
  case load =>
    repeat' split at h
    all_goals cases h
    all_goals simp only [HeldUp, hpc, Local.goto_pc] at hl' ⊢
    all_goals omega
  case spin =>
    repeat' split at h
    all_goals cases h
    all_goals simp only [HeldUp, hpc] at hl' ⊢
    · exact hl'
    · exact .inl hl'

/-- **One step of its own** leaves open whether the call is doomed. -/
theorem doomed_step (hS : Shared m g) (hO : Own t m g l) (hu : u ≠ t) (hpc : l.pc ≠ .idle)
    (h : step t c m l = .next m' l') : Doomed u m' l' ↔ Doomed u m l := by
  have hargs := hO.status.args
  unfold Doomed
  rw [step_ctr h hu]
  refine and_congr_right fun hodd => ?_
  cases hl : l.pc with
  | idle => exact absurd hl hpc
  | opBegin =>
      simp only [step, hl, mmOpBegin] at h
      cases h
      cases henq : l.isEnq <;> simp [HeldUp, WillTake, hl, henq, Mem.Nonempty]
  | upcylce pc | make pc | reclaim pc | recycle pc =>
      simp only [step, hl] at h
      cases pc <;> simp only [upcylceNode, makeNode, mmReclaimAll, recycleNode] at h <;>
        repeat' split at h
      all_goals cases h
      all_goals simp [HeldUp, WillTake, hl]
  | enq pc =>
      have henq : l.isEnq = true := by
        simp only [Local.argsOk, hl] at hargs
        simp [Local.isEnq, hargs]
      simp only [step, hl] at h
      cases pc <;> simp only [enq] at h <;> repeat' split at h
      all_goals cases h
      all_goals simp_all [HeldUp, WillTake, Local.took, Local.isEnq]
  | deq pc =>
      by_cases hwrite : pc = .writeOut
      · subst hwrite
        simp only [step, hl, deq] at h
        cases h
        simp [HeldUp, hl]
      · have hwill := deq_willTake hS hO hl hwrite (by simpa only [step, hl] using h)
        have hheld : ¬ HeldUp u (m.ctr u) l := by
          cases pc <;> simp [HeldUp, hl] at hwrite ⊢
        have hheld' := deq_heldUp_iff (u := u) (v := m.ctr u) hwrite
          (by simpa only [step, hl] using h)
        rw [hwill, or_iff_right hheld, hheld', or_comm]
  | retire pc =>
      have hheld : HeldUp u (m.ctr u) l := by simp [HeldUp, hl]
      exact iff_of_true (.inl (mmRetire_heldUp hO hl (by simpa only [step, hl] using h))) (.inl hheld)
  | opEnd pc =>
      simp only [step, hl] at h
      cases pc <;> simp only [mmOpEnd] at h
      case inc =>
        cases h
        simp [HeldUp, WillTake, hl, Local.took, Local.isEnq]
      case check =>
        have hcount := hO.status.count
        simp only [Local.counted, hl] at hcount
        split at h
        next hzero =>
          cases h
          cases htook : l.took
          · simp [HeldUp, WillTake, hl, htook]
          · rw [hzero, htook] at hcount
            cases hcount
        next hne =>
          cases h
          cases htook : l.took
          · rw [htook] at hcount
            exact absurd hcount hne
          · simp [HeldUp, WillTake, hl, htook]
  | wait pc =>
      simp only [step, hl] at h
      rw [mmWait_heldUp_iff hl hu hodd h]
      cases pc <;> simp only [mmWaitUntilUnreserved] at h <;> repeat' split at h
      all_goals cases h
      all_goals simp [WillTake, hl]
  | ret =>
      simp only [step, hl] at h
      cases h
      simp [HeldUp, WillTake, hl]

/-! ## The steps of a call that is not blocked -/

/-- A scan that nobody holds up passes a thread with every step. -/
theorem mmWait_passes {pc : WaitPc} {lag lag' : Nat} (hO : Own t m g l) (hpc : l.pc = .wait pc)
    (hpass : ∀ u, u ≠ t → isOdd (m.ctr u) = true → ¬ HeldUp u (m.ctr u) l)
    (h : mmWaitUntilUnreserved t m l pc = .next m' l') : l'.steps n lag' < l.steps n lag := by
  have hout := hO.here
  cases pc with
  | load =>
      simp only [mmWaitUntilUnreserved] at h
      split at h
      next hlt =>
        split at h
        next =>
          cases h
          simp only [Local.steps, hpc]
          omega
        next hne =>
          have heven : isOdd (m.ctr ⟨l.scan, hlt⟩) = false := by
            apply Bool.eq_false_iff.mpr
            intro hodd
            exact hpass _ hne hodd (by simp [HeldUp, hpc])
          rw [heven, if_neg Bool.false_ne_true] at h
          cases h
          simp only [Local.steps, hpc]
          omega
      next =>
        cases h
        simp only [Local.steps, hpc, Local.goto_pc]
        omega
  | spin =>
      obtain ⟨-, hodd, hlt, hne, -⟩ : Scanning t m g l ∧ isOdd l.seen = true ∧
          ∃ h : l.scan < n, (⟨l.scan, h⟩ : Fin n) ≠ t ∧
            (m.ctr ⟨l.scan, h⟩ ≠ l.seen → Quiet t g ⟨l.scan, h⟩) := by
        simpa [outline, hpc] using hout
      have hmoved : m.ctr ⟨l.scan, hlt⟩ ≠ l.seen := by
        intro hsame
        apply hpass _ hne (by rw [hsame]; exact hodd)
        simp [HeldUp, hpc, hsame]
      simp only [mmWaitUntilUnreserved, dif_pos hlt, if_neg hmoved] at h
      cases h
      simp only [Local.steps, hpc]
      omega

/-- What the thread knows of its iteration: all that `Charged` says, or nothing, if the others were
active when it began (`w = 1`); then it may have to begin once more for nothing. -/
def Informed (t : Fin n) (g : History n) (l : Local) (w : Nat) : Prop :=
  w ≤ 1 ∧ ∀ j, l.pc.early = some j → w = 0 → Charged t g l (progress g)

theorem early_step {k w : Nat} (hI : Inv s g) (hk : (s.th t).pc.early = some k)
    (hw : Informed t g (s.th t) w) (hstrong : c.spurious = false)
    (h : step t c s.mem (s.th t) = .next m' l') :
    ∃ w', Informed t (record t c s.mem (s.th t) g) l' w' ∧
      l'.steps n ((record t c s.mem (s.th t) g).lag + w') < (s.th t).steps n (g.lag + w) := by
  obtain ⟨hle, hC⟩ := hw
  rcases Nat.eq_zero_or_pos w with rfl | hpos
  · have hC := hC k hk rfl
    exact ⟨0, ⟨Nat.zero_le 1, fun j hj _ => charged_early hI hk hC h hj⟩,
      steps_early hI hk hC hstrong h⟩
  obtain rfl : w = 1 := Nat.le_antisymm hle hpos
  rw [steps_of_early hk]
  obtain ⟨hloop, hstarts⟩ | hlate | ⟨k', hlt, hk'⟩ := Pc.flow_early (step_flow h) hk
  · -- the next iteration is informed
    obtain ⟨hlen, -⟩ := retry_layout (hI.own t) hloop hstarts h
    have htl := (record_grows t c s.mem (s.th t) g).tl_le
    have hstart : l'.pc = .enq .loadTail ∨ l'.pc = .deq .loadHead := by
      unfold Pc.starts at hstarts
      split at hstarts
      next hpc => exact .inl hpc
      next hpc => exact .inr hpc
      next => cases hstarts
    refine ⟨0, ⟨Nat.zero_le 1, fun _ _ _ => Charged.of_starts hstarts⟩, ?_⟩
    have hsteps : l'.steps n (record t c s.mem (s.th t) g).lag ≤
        n + 30 + 11 * (record t c s.mem (s.th t) g).lag + 5 := by
      rcases hstart with hpc | hpc <;> simp [Local.steps, hpc, Pc.early]
    rw [Nat.add_zero]
    unfold History.lag at hsteps ⊢
    omega
  · have hsteps := steps_of_not_early (n := n) ((record t c s.mem (s.th t) g).lag + 0) hlate
    refine ⟨0, ⟨Nat.zero_le 1, fun j hj _ => ?_⟩, by omega⟩
    rw [hlate] at hj
    cases hj
  · have hcas := Pc.cas_eq_none (step_flow h) hk hk' hlt
    refine ⟨1, ⟨le_rfl, fun _ _ hone => absurd hone (by decide)⟩, ?_⟩
    rw [steps_of_early hk', (record_still (hI.own t) hcas).1]
    omega

theorem late_step {w : Nat} (hI : Inv s g) (hpc : (s.th t).pc ≠ .idle)
    (hlate : (s.th t).pc.early = none) (hfree : ¬ Blocked t s) (hw : Informed t g (s.th t) w)
    (h : step t c s.mem (s.th t) = .next m' l') :
    Informed t (record t c s.mem (s.th t) g) l' w ∧
      l'.steps n ((record t c s.mem (s.th t) g).lag + w) < (s.th t).steps n (g.lag + w) := by
  refine ⟨⟨hw.1, fun j hj => ?_⟩, ?_⟩
  · rw [Pc.flow_late (step_flow h) hpc hlate] at hj
    cases hj
  · by_cases hwait : ∃ pc, (s.th t).pc = .wait pc
    · obtain ⟨pc, hl⟩ := hwait
      apply mmWait_passes (hI.own t) hl _ (by simpa only [step, hl] using h)
      exact fun u hu hodd hheld => hfree ⟨u, hu, hodd, .inl hheld⟩
    · exact steps_behind (hI.own t) hpc hlate (fun pc hl => hwait ⟨pc, hl⟩) h

theorem Pc.early_le {pc : Pc} {k : Nat} (h : pc.early = some k) : k ≤ 10 := by
  unfold Pc.early at h
  split at h <;> simp at h <;> omega

theorem steps_le (l : Local) (lag : Nat) : l.steps n lag ≤ n + 40 + 11 * lag := by
  cases hk : l.pc.early with
  | some k =>
      have hle := Pc.early_le hk
      rw [steps_of_early hk]
      omega
  | none =>
      have hle := steps_of_not_early (n := n) lag hk
      omega

/-! ## The whole call -/

theorem Inv.lag_le (h : Inv s g) : g.lag ≤ 2 := by
  have hlen := h.shared.lag
  unfold History.lag
  omega

/-- A call that no stalled thread blocks returns. -/
theorem returns_of_not_blocked (hI : Inv s g) (hpc : (s.th t).pc ≠ .idle)
    (hnull : ¬ NullBlock (s.th t)) (hfree : ¬ Blocked t s) :
    ReturnsWithin step (fun c => (c.malloc ≠ none ∧ c.mallocRec ≠ none) ∧ c.spurious = false)
      (fun l => l.pc = .idle) t (n + 74) s := by
  have hlag := hI.lag_le
  have hsteps := steps_le (n := n) (s.th t) (g.lag + 1)
  refine returnsWithin_of_rank (fun v k => ∃ g w, Inv v g ∧ (v.th t).pc ≠ .idle ∧
    ¬ NullBlock (v.th t) ∧ ¬ Blocked t v ∧ Informed t g (v.th t) w ∧
    k = (v.th t).steps n (g.lag + w)) ?_
    ⟨g, 1, hI, hpc, hnull, hfree, ⟨le_rfl, fun _ _ hone => absurd hone (by decide)⟩, rfl⟩ (by omega)
  rintro v k c ⟨g, w, hI, hpc, hnull, hfree, hw, rfl⟩ ⟨halloc, hstrong⟩
  obtain ⟨m', l', hstep⟩ := step_enabled (hI.own t) hnull c
  have hI' := hI.fire (e := (t, c)) (fire_eq_some.mpr ⟨m', l', hstep, rfl⟩)
  obtain ⟨w', hw', hless⟩ : ∃ w', Informed t (record t c v.mem (v.th t) g) l' w' ∧
      l'.steps n ((record t c v.mem (v.th t) g).lag + w') < (v.th t).steps n (g.lag + w) := by
    cases hk : (v.th t).pc.early with
    | some k => exact early_step hI hk hw hstrong hstep
    | none => exact ⟨w, late_step hI hpc hk hfree hw hstep⟩
  have hfree' : ¬ Blocked t ⟨m', Function.update v.th t l'⟩ := by
    rintro ⟨u, hu, hdoomed⟩
    simp only [Function.update_self] at hdoomed
    exact hfree ⟨u, hu, (doomed_step hI.shared (hI.own t) hu hpc hstep).mp hdoomed⟩
  refine ⟨m', l', hstep, fun hbusy => ⟨_, hless, _, w', hI', ?_, ?_, hfree', ?_, ?_⟩⟩ <;>
    simp only [Function.update_self]
  · exact hbusy
  · exact step_not_nullBlock hstep halloc.1 halloc.2
  · exact hw'

/-- A call that is blocked stays blocked while its thread runs alone. -/
theorem blocked_of_run {es : List (Fin n × Choice)} (hI : Inv s g) (h : Blocked t s)
    (hrun : run step s es = some s') (halone : ∀ e ∈ es, e.1 = t) : Blocked t s' := by
  have hall : ∀ es v, run step s es = some v → (∀ e ∈ es, e.1 = t) →
      ∃ g', Inv v g' ∧ Blocked t v := by
    refine run_induction (fun _ => ⟨g, hI, h⟩) ?_
    rintro es ⟨u, c⟩ v v' - ih hf halone
    obtain ⟨g', hI', hblocked⟩ := ih fun e he => halone e (List.mem_append_left _ he)
    obtain rfl : u = t := halone (u, c) (by simp)
    have hfire := hI'.fire hf
    obtain ⟨m', l', hstep, rfl⟩ := fire_eq_some.mp hf
    refine ⟨_, hfire, ?_⟩
    obtain ⟨w, hw, hdoomed⟩ := hblocked
    refine ⟨w, hw, ?_⟩
    simp only [Function.update_self]
    exact (doomed_step hI'.shared (hI'.own u) hw (Blocked.busy ⟨w, hw, hdoomed⟩) hstep).mpr hdoomed
  obtain ⟨-, -, hblocked⟩ := hall es s' hrun halone
  exact hblocked

/-- **A call that runs alone.**  From every reachable state, wherever the other threads have stopped,
a call that has memory and whose weak CASes do not fail spuriously returns within `n + 74` steps of
its own, unless it is a `deq` that takes a node while another thread has stopped inside its operation;
then it never returns.  An `enq` is never blocked. -/
theorem alone_returns_unless_blocked {sched : List (Fin n × Choice)}
    (h : run step (init n) sched = some s) (hcall : (s.th t).pc ≠ .idle)
    (hnull : ¬ NullBlock (s.th t)) :
    (¬ Blocked t s → ReturnsWithin step
      (fun c => (c.malloc ≠ none ∧ c.mallocRec ≠ none) ∧ c.spurious = false)
      (fun l => l.pc = .idle) t (n + 74) s) ∧
    (Blocked t s → ∀ es s', (∀ e ∈ es, e.1 = t) → run step s es = some s' →
      (s'.th t).pc ≠ .idle) ∧
    ((s.th t).isEnq = true → ¬ Blocked t s) := by
  obtain ⟨g, hI⟩ := exists_history h
  refine ⟨returns_of_not_blocked hI hcall hnull, fun hblocked es s' halone hrun => ?_,
    not_blocked_of_enq hI⟩
  exact (blocked_of_run hI hblocked hrun halone).busy

/-- Thread 0 has linked a node and stops.  Thread 1 would return from an `enq`, not from a `deq`. -/
theorem alone_returns_unless_blocked_linked :
    (∃ s, run step (init 2) (solo 0 (.enq 7) 12 ++ solo 1 (.enq 8) 1) = some s ∧
      ReturnsWithin step (fun c => (c.malloc ≠ none ∧ c.mallocRec ≠ none) ∧ c.spurious = false)
        (fun l => l.pc = .idle) 1 76 s) ∧
    ∃ s, run step (init 2) (solo 0 (.enq 7) 12 ++ solo 1 (.deq 0) 1) = some s ∧
      ∀ es s', (∀ e ∈ es, e.1 = 1) → run step s es = some s' → (s'.th 1).pc ≠ .idle := by
  constructor
  · obtain ⟨s, hs⟩ : ∃ s, run step (init 2) (solo 0 (.enq 7) 12 ++ solo 1 (.enq 8) 1) = some s :=
      ⟨_, rfl⟩
    have hpc : (s.th 1).pc = .opBegin := run_observe hs (fun s => (s.th 1).pc) rfl
    have henq := run_observe hs (fun s => (s.th 1).isEnq) rfl
    obtain ⟨hreturns, -, hfree⟩ := alone_returns_unless_blocked (t := 1) hs
      (by rw [hpc]; decide) (by simp [NullBlock, hpc])
    exact ⟨s, hs, hreturns (hfree henq)⟩
  · obtain ⟨s, hs⟩ : ∃ s, run step (init 2) (solo 0 (.enq 7) 12 ++ solo 1 (.deq 0) 1) = some s :=
      ⟨_, rfl⟩
    have hpc : (s.th 1).pc = .opBegin := run_observe hs (fun s => (s.th 1).pc) rfl
    have hdeq := run_observe hs (fun s => (s.th 1).isEnq) rfl
    have hodd := run_observe hs (fun s => isOdd (s.mem.ctr 0)) rfl
    have hhead := run_observe hs (fun s => s.mem.store.head) rfl
    have hnext := run_observe hs (fun s => (s.mem.store.heap 0).next) rfl
    have hne : s.mem.Nonempty := ⟨0, hhead, by rw [hnext]; decide⟩
    obtain ⟨-, hblocked, -⟩ := alone_returns_unless_blocked (t := 1) hs
      (by rw [hpc]; decide) (by simp [NullBlock, hpc])
    exact ⟨s, hs, hblocked ⟨0, by decide, hodd, .inr (by simpa [WillTake, hpc] using ⟨hdeq, hne⟩)⟩⟩

end ConcurrentQueues.Ex5
