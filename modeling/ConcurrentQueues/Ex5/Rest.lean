import ConcurrentQueues.Ex5.Obstruction
import ConcurrentQueues.Ex5.Queue
import ConcurrentQueues.Reasoning.Fair

/-!
# Ex5 — coming to rest

When no new calls begin, every fair schedule brings the open calls to their end: a retry is paid for
by a success of another call, of which each open call has one to give, and a thread is waited for
only while its counter is odd.
-/

namespace ConcurrentQueues.Ex5

open Reasoning Layout

variable {n : Nat} {t u : Fin n} {m m' : Mem n} {g : History n} {l l' : Local} {c : Choice}
  {s s' : State n}

/-- `malloc` succeeds, and the weak CAS does not fail spuriously. -/
def Choice.Good (c : Choice) : Prop := (c.malloc ≠ none ∧ c.mallocRec ≠ none) ∧ c.spurious = false

theorem good_plain : (Choice.plain (.deq 0)).Good := by simp [Choice.Good, Choice.plain]

/-- The steps of the call, paid twice so that the load in front of a busy-wait has a price, and what
its success may cost the other calls. -/
def Local.cost (n lag : Nat) (l : Local) : Nat :=
  2 * l.steps n lag + (if l.pc = .wait .load then 1 else 0) +
    if l.pc.early = none then 0 else n * 44

section Cost

variable {lag lag' : Nat}

theorem cost_of_early {k : Nat} (hk : l.pc.early = some k) :
    l.cost n lag = 2 * l.steps n lag + n * 44 := by
  have hpc : l.pc ≠ .wait .load := by
    intro hpc
    rw [hpc] at hk
    cases hk
  simp [Local.cost, hk, hpc]

theorem cost_le_of_late (hlate : l.pc.early = none) : l.cost n lag ≤ 2 * l.steps n lag + 1 := by
  simp only [Local.cost, hlate, if_true]
  split <;> omega

/-- The `lag` counts in the loops only. -/
theorem cost_le_of_lag {d : Nat} (h : lag' ≤ lag + d) : l.cost n lag' ≤ l.cost n lag + 22 * d := by
  cases hk : l.pc.early with
  | some k =>
      rw [cost_of_early hk, cost_of_early hk, steps_of_early hk, steps_of_early hk]
      omega
  | none =>
      have hsame : l.steps n lag' = l.steps n lag := by
        unfold Local.steps
        split <;> simp_all [Pc.early]
      simp only [Local.cost, hsame]
      omega

theorem cost_le (l : Local) (lag : Nat) : l.cost n lag ≤ 46 * n + 22 * lag + 81 := by
  have hsteps := steps_le (n := n) l lag
  unfold Local.cost
  split <;> split <;> omega

/-- A turn of the scan costs something, unless the counter it waits for is as before. -/
theorem mmWait_cost {pc : WaitPc} (hO : Own t m g l) (hpc : l.pc = .wait pc)
    (hgo : ∀ u : Fin n, pc = .spin → l.scan = u.val → m.ctr u ≠ l.seen)
    (h : mmWaitUntilUnreserved t m l pc = .next m' l') : l'.cost n lag' < l.cost n lag := by
  have hout := hO.here
  simp only [outline, hpc] at hout
  cases pc <;> simp only [mmWaitUntilUnreserved] at h
  case load =>
    repeat' split at h
    all_goals cases h
    all_goals simp [Local.cost, Local.steps, Pc.early, hpc]
    all_goals omega
  case spin =>
    obtain ⟨-, -, hlt, -⟩ := hout
    simp only [dif_pos hlt, if_neg (hgo ⟨l.scan, hlt⟩ rfl rfl)] at h
    cases h
    simp [Local.cost, Local.steps, Pc.early, hpc]
    omega

end Cost

/-! ## What a step does to the others -/

/-- The step links a node or moves `head`. -/
def Gives (c : Choice) (m : Mem n) (l : Local) : Prop :=
  casSucceeds c m l = some .next ∨ casSucceeds c m l = some .head

instance : Decidable (Gives c m l) := inferInstanceAs (Decidable (_ ∨ _))

/-- A call gives once, at the end of its loop. -/
theorem Gives.early (h : Gives c m l) (hstep : step t c m l = .next m' l') :
    (∃ k, l.pc.early = some k) ∧ l'.pc.early = none := by
  have hpc : l.pc = .enq .link ∨ l.pc = .deq .cas := by
    unfold Gives casSucceeds Pc.cas at h
    cases hl : l.pc with
    | enq pc => cases pc <;> simp [hl] at h ⊢
    | deq pc => cases pc <;> simp [hl] at h ⊢
    | idle | opBegin | upcylce pc | make pc | retire pc | opEnd pc | wait pc | reclaim pc
      | recycle pc | ret => simp [hl] at h
  rcases hpc with hpc | hpc
  · refine ⟨⟨0, by rw [hpc]; rfl⟩, ?_⟩
    simp only [Gives, casSucceeds, hpc, Pc.cas, Loc.read, Loc.expected] at h
    simp only [step, hpc, enq] at hstep
    split at hstep
    next p hlast =>
      split at hstep
      next =>
        cases hstep
        rfl
      next hfail => simp_all
    next => cases hstep
  · refine ⟨⟨0, by rw [hpc]; rfl⟩, ?_⟩
    simp only [Gives, casSucceeds, hpc, Pc.cas, Loc.read, Loc.expected] at h
    simp only [step, hpc, deq] at hstep
    split at hstep
    next =>
      cases hstep
      rfl
    next hfail => simp_all

/-- What the rank of another call comes to: its iteration may have become a futile one. -/
theorem record_other {w : Nat} (hI : Inv s g) (hut : u ≠ t)
    (h : step t c s.mem (s.th t) = .next m' l') (hw : Informed u g (s.th u) w) :
    ∃ w', Informed u (record t c s.mem (s.th t) g) (s.th u) w' ∧
      (record t c s.mem (s.th t) g).lag + w' ≤
        g.lag + w + if Gives c s.mem (s.th t) then 2 else 0 := by
  have hmoves := record_moves (c := c) (hI.own t)
  have hI' := hI.fire (e := (t, c)) (fire_eq_some.mpr ⟨m', l', h, rfl⟩)
  have htl := hI'.shared.valid.tl_lt
  dsimp only at htl
  have hfutile : Informed u (record t c s.mem (s.th t) g) (s.th u) 1 :=
    ⟨le_rfl, fun _ _ hone => absurd hone (by decide)⟩
  unfold History.lag
  cases hcas : casSucceeds c s.mem (s.th t) with
  | none =>
      rw [hcas] at hmoves
      obtain ⟨hlen, hhd, htl'⟩ := hmoves
      simp only [Option.toList_none, List.count_nil, Nat.add_zero] at hlen hhd htl'
      refine ⟨w, ⟨hw.1, fun j hj hzero => ?_⟩, by rw [hlen, htl']; omega⟩
      have hcharged := (hw.2 j hj hzero).grows (record_grows t c s.mem (s.th t) g)
        (record_iFirst fun he => hut he.1.symm) (record_iLast fun he => hut he.1.symm)
      rwa [progress, hlen, hhd, htl']
  | some loc =>
      rw [hcas] at hmoves
      obtain ⟨hlen, hhd, htl'⟩ := hmoves
      refine ⟨1, hfutile, ?_⟩
      cases loc <;> simp [Gives, hcas] at hlen hhd htl' ⊢ <;> omega

/-! ## What it does to the call itself -/

/-- The next step looks at an unchanged counter. -/
def Waits (s : State n) (t : Fin n) : Prop := ∃ u, WaitsFor s t u

theorem not_gives_of_late (hlate : l.pc.early = none) (h : step t c m l = .next m' l') :
    ¬ Gives c m l := by
  intro hgives
  obtain ⟨⟨k, hk⟩, -⟩ := hgives.early h
  rw [hlate] at hk
  cases hk

/-- A step that is no wait is paid for, also when it gives something to the others. -/
theorem cost_own {w : Nat} (hI : Inv s g) (hbusy : (s.th t).pc ≠ .idle) (hgo : ¬ Waits s t)
    (hw : Informed t g (s.th t) w) (hstrong : c.spurious = false)
    (h : step t c s.mem (s.th t) = .next m' l') :
    ∃ w', Informed t (record t c s.mem (s.th t) g) l' w' ∧
      l'.cost n ((record t c s.mem (s.th t) g).lag + w') +
        n * (if Gives c s.mem (s.th t) then 44 else 0) < (s.th t).cost n (g.lag + w) := by
  cases hk : (s.th t).pc.early with
  | some k =>
      obtain ⟨w', hw', hless⟩ := early_step hI hk hw hstrong h
      refine ⟨w', hw', ?_⟩
      rw [cost_of_early hk]
      cases hk' : l'.pc.early with
      | some k' =>
          have hkeeps : ¬ Gives c s.mem (s.th t) := by
            intro hgives
            rw [(hgives.early h).2] at hk'
            cases hk'
          rw [cost_of_early hk', if_neg hkeeps]
          omega
      | none =>
          have hle : l'.cost n ((record t c s.mem (s.th t) g).lag + w') ≤
              2 * l'.steps n ((record t c s.mem (s.th t) g).lag + w') + 1 := cost_le_of_late hk'
          split <;> omega
  | none =>
      -- behind the loop nothing is given any more, and the only wait is the scan
      have hlate' := Pc.flow_late (step_flow h) hbusy hk
      refine ⟨w, ⟨hw.1, fun j hj => ?_⟩, ?_⟩
      · rw [hlate'] at hj
        cases hj
      rw [if_neg (not_gives_of_late hk h), Nat.mul_zero, Nat.add_zero]
      by_cases hwait : ∃ pc, (s.th t).pc = .wait pc
      · obtain ⟨pc, hpc⟩ := hwait
        apply mmWait_cost (hI.own t) hpc _ (by simpa only [step, hpc] using h)
        rintro u rfl hscan hsame
        exact hgo ⟨u, hpc, hscan, hsame⟩
      · have hless : l'.steps n ((record t c s.mem (s.th t) g).lag + w) <
            (s.th t).steps n (g.lag + w) :=
          steps_behind (hI.own t) hbusy hk (fun pc hpc => hwait ⟨pc, hpc⟩) h
        have hle : l'.cost n ((record t c s.mem (s.th t) g).lag + w) ≤
            2 * l'.steps n ((record t c s.mem (s.th t) g).lag + w) + 1 := cost_le_of_late hlate'
        have hge : 2 * (s.th t).steps n (g.lag + w) ≤ (s.th t).cost n (g.lag + w) := by
          unfold Local.cost
          omega
        omega

/-! ## The rank of a state -/

/-- `k` is what the open calls still cost. -/
def Costs (s : State n) (k : Nat) : Prop :=
  ∃ (g : History n) (w : Fin n → Nat), Inv s g ∧ (∀ t, ¬ NullBlock (s.th t)) ∧
    (∀ t, Informed t g (s.th t) (w t)) ∧ k = ∑ t, (s.th t).cost n (g.lag + w t)

theorem Costs.lower {k : Nat} (h : Costs s k) (hbusy : (s.th t).pc ≠ .idle) (hgood : c.Good)
    (hgo : ¬ Waits s t) (hf : fire step s (t, c) = some s') : ∃ k' < k, Costs s' k' := by
  obtain ⟨g, w, hI, hnull, hw, rfl⟩ := h
  have hI' := hI.fire hf
  have hnull' := fun u => fire_not_nullBlock hf hgood.1 (hnull u)
  obtain ⟨m', l', hstep, rfl⟩ := fire_eq_some.mp hf
  obtain ⟨a, ha, hless⟩ := cost_own hI hbusy hgo (hw t) hgood.2 hstep
  choose b hb hle using fun (u : Fin n) (hut : u ≠ t) => record_other hI hut hstep (hw u)
  -- a successful CAS costs each other call at most two futile iterations of 22
  refine ⟨_, ?_, _, fun u => if hut : u = t then a else b u hut, hI', hnull', ?_, rfl⟩
  · apply sum_lt_of_paid (t := t) (d := if Gives c s.mem (s.th t) then 44 else 0)
    · intro u hut
      simp only [Function.update_of_ne hut, dif_neg hut]
      have hcost := cost_le_of_lag (n := n) (l := s.th u) (hle u hut)
      split <;> simp_all
    · simpa only [Function.update_self, dif_pos, Fintype.card_fin] using hless
  · intro u
    by_cases hut : u = t
    · subst hut
      simpa only [Function.update_self, dif_pos] using ha
    · simpa only [Function.update_of_ne hut, dif_neg hut] using hb u hut

/-- **Ex5 comes to rest** by the rules for waiting loops. -/
theorem settles (n : Nat) :
    Settles (step (n := n)) Choice.Good (fun l => l.pc ≠ .idle) Waits Costs where
  wait := by
    rintro s k t c s' - ⟨u, hspin, hscan, hsame⟩ hf
    obtain ⟨m', l', hstep, rfl⟩ := fire_eq_some.mp hf
    have hlt : (s.th t).scan < n := by
      rw [hscan]
      exact u.isLt
    have hu : (⟨(s.th t).scan, hlt⟩ : Fin n) = u := Fin.ext hscan
    simp only [step, hspin, mmWaitUntilUnreserved, dif_pos hlt, hu, hsame, if_true] at hstep
    cases hstep
    simp
  lower := fun hJ hbusy hgood hgo hf => hJ.lower hbusy hgood hgo hf
  enabled := by
    rintro s k t ⟨g, w, hI, hnull, -⟩ - - c -
    obtain ⟨m', l', hstep⟩ := step_enabled (hI.own t) (hnull t) c
    exact ⟨_, fire_eq_some.mpr ⟨m', l', hstep, rfl⟩⟩
  goes := by
    rintro s k t ⟨g, w, hI, -⟩ hbusy
    by_cases hwaits : Waits s t
    · obtain ⟨u, hu⟩ := hwaits
      refine ⟨u, ?_, ?_⟩
      · intro hpc
        have hbody := hu.inBody hI
        rw [hpc] at hbody
        cases hbody
      · intro hagain
        obtain ⟨v, hv⟩ := hagain
        exact hu.not_waits hI hv
    · exact ⟨t, hbusy, hwaits⟩

theorem exists_costs (hI : Inv s g) (hnull : ∀ t, ¬ NullBlock (s.th t)) : ∃ k, Costs s k :=
  ⟨_, g, fun _ => 1, hI, hnull, fun _ => ⟨le_rfl, fun _ _ hone => absurd hone Nat.one_ne_zero⟩, rfl⟩

/-- As long as `malloc` succeeds, the calls have a price. -/
theorem Costs.kept {k : Nat} (h : Costs s k) (halloc : c.malloc ≠ none ∧ c.mallocRec ≠ none)
    (hf : fire step s (t, c) = some s') : ∃ k', Costs s' k' := by
  obtain ⟨g, w, hI, hnull, -⟩ := h
  exact exists_costs (hI.fire hf) fun u => fire_not_nullBlock hf halloc (hnull u)

theorem Costs.le {k : Nat} (h : Costs s k) : k ≤ n * (46 * n + 147) := by
  obtain ⟨g, w, hI, -, hw, rfl⟩ := h
  have hlag := hI.lag_le
  have hcost : ∀ t, (s.th t).cost n (g.lag + w t) ≤ 46 * n + 147 := by
    intro t
    have hle := cost_le (n := n) (s.th t) (g.lag + w t)
    have hone := (hw t).1
    omega
  have hsum := sum_le_card_mul hcost
  rwa [Fintype.card_fin] at hsum

/-- The beginning of a call. -/
theorem Costs.begins {k : Nat} (h : Costs s k) (hidle : (s.th t).pc = .idle) (c : Choice) :
    ∃ k' ≤ k + (46 * n + 147), Costs ⟨s.mem, Function.update s.th t ((s.th t).call c)⟩ k' := by
  obtain ⟨g, w, hI, hnull, hw, rfl⟩ := h
  have hbegin : ((s.th t).call c).pc = .opBegin := by
    unfold Local.call
    split <;> rfl
  have hI' := hI.fire (call_fires hidle c)
  rw [show record t c s.mem (s.th t) g = g by simp [record, hidle]] at hI'
  have hlag := hI.lag_le
  refine ⟨_, ?_, g, w, hI', ?_, ?_, rfl⟩
  · have hsum := sum_update (fun u l => l.cost n (g.lag + w u)) s.th t ((s.th t).call c)
    have hle := cost_le (n := n) ((s.th t).call c) (g.lag + w t)
    have hone := (hw t).1
    dsimp only
    omega
  · intro u
    by_cases hut : u = t
    · subst hut
      simp [NullBlock, hbegin]
    · simpa only [Function.update_of_ne hut] using hnull u
  · intro u
    by_cases hut : u = t
    · subst hut
      simp only [Function.update_self]
      exact ⟨(hw u).1, fun _ _ _ => by simp [Charged, hbegin]⟩
    · simpa only [Function.update_of_ne hut] using hw u

/-- **Fair schedules bring every call to its end.**  From every reachable state, when no new calls
begin, `malloc` succeeds and the weak CASes do not fail spuriously: every schedule with more than
`n * (46 * n + 147)` rounds, in each of which every thread with an open call moves, ends with no
call open, and there is such an end within as many steps. -/
theorem fair_runs_come_to_rest {sched : List (Fin n × Choice)}
    (h : run step (init n) sched = some s) (hnull : ∀ t, ¬ NullBlock (s.th t)) :
    (∀ rounds s', Rounds step (fun l => l.pc ≠ .idle) s rounds →
      run step s rounds.flatten = some s' →
      OnlyActive step Choice.Good (fun l => l.pc ≠ .idle) s rounds.flatten →
      n * (46 * n + 147) < rounds.length → ∀ t, (s'.th t).pc = .idle) ∧
    ∃ es s', es.length ≤ n * (46 * n + 147) ∧ run step s es = some s' ∧
      OnlyActive step Choice.Good (fun l => l.pc ≠ .idle) s es ∧ ∀ t, (s'.th t).pc = .idle := by
  obtain ⟨g, hI⟩ := exists_history h
  obtain ⟨k, hJ⟩ := exists_costs hI hnull
  have hk := hJ.le
  constructor
  · intro rounds s' hfair hrun hall hlong t
    exact not_not.mp ((settles n).rests good_plain hJ hfair hrun hall (by omega) t)
  · obtain ⟨es, s', hlen, hrun, hall, hrest⟩ := (settles n).exists_rest good_plain hJ
    exact ⟨es, s', hlen.trans hk, hrun, hall, fun t => not_not.mp (hrest t)⟩

/-- Thread 0 has linked a node and stops; thread 1 has dequeued it and spins on the counter of
thread 0. -/
theorem fair_runs_come_to_rest_linked :
    ∃ s, run step (init 2) (solo 0 (.enq 7) 12 ++ solo 1 (.deq 0) 40) = some s ∧
      (s.th 1).pc = .wait .spin ∧
      ∃ es s', es.length ≤ 478 ∧ run step s es = some s' ∧ ∀ t, (s'.th t).pc = .idle := by
  obtain ⟨s, hs⟩ : ∃ s, run step (init 2) (solo 0 (.enq 7) 12 ++ solo 1 (.deq 0) 40) = some s :=
    ⟨_, rfl⟩
  have hpc : (s.th 0).pc = .enq .swing := run_observe hs (fun s => (s.th 0).pc) rfl
  have hspin : (s.th 1).pc = .wait .spin := run_observe hs (fun s => (s.th 1).pc) rfl
  have hnull : ∀ t, ¬ NullBlock (s.th t) :=
    Fin.forall_fin_two.mpr ⟨by simp [NullBlock, hpc], by simp [NullBlock, hspin]⟩
  obtain ⟨-, es, s', hlen, hrun, -, hrest⟩ := fair_runs_come_to_rest hs hnull
  exact ⟨s, hs, hspin, es, s', hlen, hrun, hrest⟩

end ConcurrentQueues.Ex5
