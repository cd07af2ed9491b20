import ConcurrentQueues.Ex5.Progress
import ConcurrentQueues.Ex5.Waiting
import ConcurrentQueues.Reasoning.Alone

/-!
# Ex5 — a call that runs alone returns

An iteration is retried only if `tail` has moved since it began, and alone it is the thread itself
that moves `tail` to the end.  Nobody is in its operation, so the wait never spins.
-/

namespace ConcurrentQueues.Ex5

open Reasoning Layout

variable {n : Nat} {t : Fin n} {m m' : Mem n} {g : History n} {l l' : Local} {c : Choice}
  {s : State n}

/-- The places before the end of the loops; they count by how much `tail` lags behind. -/
def Pc.early : Pc → Option Nat
  | .opBegin => some 10
  | .upcylce .loadHead => some 9
  | .upcylce .loadNext | .make .malloc => some 8
  | .upcylce .storeHead | .make .data => some 7
  | .upcylce .size | .make .next => some 6
  | .enq .data => some 5
  | .enq .next => some 4
  | .enq .loadTail => some 3
  | .enq .loadNext => some 2
  | .enq .reload => some 1
  | .enq .link | .enq .help => some 0
  | .deq .loadHead => some 5
  | .deq .loadTail => some 4
  | .deq .loadNext => some 3
  | .deq .reload => some 2
  | .deq .help | .deq .loadData => some 1
  | .deq .cas => some 0
  | _ => none

/-- How many steps the call of one of `n` threads may still take alone. -/
def Local.steps (n lag : Nat) (l : Local) : Nat :=
  match l.pc with
  | .enq .swing => n + 17
  | .deq .writeOut => n + 22
  | .retire .malloc => n + 21
  | .retire .node => n + 20
  | .retire .next => n + 19
  | .retire .push => n + 18
  | .retire .count => n + 17
  | .opEnd .inc => n + 16
  | .opEnd .check => n + 15
  | .wait _ => n - l.scan + 14
  | .reclaim .load => 13
  | .reclaim .clear => 12
  | .reclaim .count => 11
  -- the second visit ends the call
  | .reclaim .loop => if l.r = none then 2 else 10
  | .recycle .next => 9
  | .recycle .head => 8
  | .recycle .size => 7
  | .recycle .count => 6
  | .reclaim .free => 5
  | .ret => 1
  | pc =>
      match pc.early with
      | some k => n + 30 + 11 * lag + k
      | none => 0

/-- The nodes behind `tail`, with the one it points to. -/
def History.lag (g : History n) : Nat := g.lay.len - g.lay.tl

theorem steps_of_early {k lag : Nat} (h : l.pc.early = some k) :
    l.steps n lag = n + 30 + 11 * lag + k := by
  unfold Local.steps
  split <;> simp_all [Pc.early]

theorem steps_of_not_early (lag : Nat) (h : l.pc.early = none) : l.steps n lag ≤ n + 22 := by
  unfold Local.steps
  split
  case h_14 => split <;> omega
  all_goals first
    | omega
    | simp_all

/-! ## Before the end of the loops -/

/-- A step goes down unless it begins the next iteration. -/
theorem Pc.flow_early {pc pc' : Pc} {k : Nat} (h : pc' ∈ pc.flow) (hk : pc.early = some k) :
    (pc.inLoop = true ∧ pc'.starts = true) ∨ pc'.early = none ∨
      ∃ k' < k, pc'.early = some k' := by
  rcases pc with _ | _ | pc | pc | pc | pc | pc | pc | pc | pc | pc | _ <;> try cases pc
  all_goals simp [Pc.flow, Pc.early] at h hk
  all_goals subst hk
  all_goals rcases h with rfl | rfl | rfl | rfl <;> simp [Pc.early, Pc.inLoop, Pc.starts]

/-- The end of an iteration without a return moves at most `tail`. -/
theorem retry_layout (hO : Own t m g l) (hloop : l.pc.inLoop = true) (hstarts : l'.pc.starts = true)
    (h : step t c m l = .next m' l') :
    (record t c m l g).lay.len = g.lay.len ∧ (record t c m l g).lay.hd = g.lay.hd := by
  by_cases hlink : l.pc = .enq .link
  · obtain ⟨⟨p, hn, -⟩, hlast⟩ : Ready m l ∧ Last t g l := by
      simpa [outline, hlink] using hO.here
    simp only [step, hlink, enq, hlast.eq] at h
    split at h
    · cases h
      cases hstarts
    next hno =>
      have hsame : record t c m l g = g := by simp [record, hlink, hlast.eq, hn, hno]
      rw [hsame]
      exact ⟨rfl, rfl⟩
  by_cases hcas : l.pc = .deq .cas
  · simp only [step, hcas, deq] at h
    split at h
    · cases h
      cases hstarts
    next hno =>
      have hsame : record t c m l g = g := by simp [record, hcas, hno]
      rw [hsame]
      exact ⟨rfl, rfl⟩
  · unfold record
    split <;> (try split) <;> (try split) <;> simp_all [Pc.inLoop]

/-- A step that does not end the iteration performs no CAS. -/
theorem Pc.cas_eq_none {pc pc' : Pc} {k k' : Nat} (h : pc' ∈ pc.flow) (hk : pc.early = some k)
    (hk' : pc'.early = some k') (hlt : k' < k) : pc.cas = none := by
  rcases pc with _ | _ | pc | pc | pc | pc | pc | pc | pc | pc | pc | _ <;> try cases pc
  all_goals simp [Pc.flow, Pc.early, Pc.cas] at h hk ⊢
  all_goals rcases h with rfl | rfl <;> simp [Pc.early] at hk'
  all_goals omega

theorem record_still (hO : Own t m g l) (hcas : l.pc.cas = none) :
    (record t c m l g).lag = g.lag ∧ progress (record t c m l g) = progress g := by
  have hmoves := record_moves (c := c) hO
  rw [show casSucceeds c m l = none by simp [casSucceeds, hcas]] at hmoves
  unfold History.lag progress
  rw [hmoves.len, hmoves.hd, hmoves.tl]
  exact ⟨rfl, rfl⟩

/-- Before the end of the loops; a retry is paid for by `tail`. -/
theorem steps_early {k : Nat} (hI : Inv s g) (hk : (s.th t).pc.early = some k)
    (hC : Charged t g (s.th t) (progress g)) (hstrong : c.spurious = false)
    (h : step t c s.mem (s.th t) = .next m' l') :
    l'.steps n (record t c s.mem (s.th t) g).lag < (s.th t).steps n g.lag := by
  rw [steps_of_early hk]
  obtain ⟨hloop, hstarts⟩ | hlate | ⟨k', hlt, hk'⟩ := Pc.flow_early (step_flow h) hk
  · have hlost := step_lost hI.shared (hI.own t) hC le_rfl hstrong h (.inl ⟨hloop, hstarts⟩)
    obtain ⟨hlen, hhd⟩ := retry_layout (hI.own t) hloop hstarts h
    have hI' := hI.fire (e := (t, c)) (fire_eq_some.mpr ⟨m', l', h, rfl⟩)
    have htl := hI'.shared.valid.tl_lt
    have hle : ∃ k' ≤ 5, l'.pc.early = some k' := by
      unfold Pc.starts at hstarts
      split at hstarts
      next hpc => exact ⟨3, by decide, by rw [hpc]; rfl⟩
      next hpc => exact ⟨5, by decide, by rw [hpc]; rfl⟩
      next => cases hstarts
    obtain ⟨k', hk', he⟩ := hle
    rw [steps_of_early he]
    unfold progress at hlost
    unfold History.lag
    dsimp only at htl
    omega
  · have hle := steps_of_not_early (n := n) (record t c s.mem (s.th t) g).lag hlate
    omega
  · have hcas := Pc.cas_eq_none (step_flow h) hk hk' hlt
    rw [steps_of_early hk', (record_still (hI.own t) hcas).1]
    omega

/-- What the iteration knows of the progress, as long as nobody else makes any. -/
theorem charged_early {k k' : Nat} (hI : Inv s g) (hk : (s.th t).pc.early = some k)
    (hC : Charged t g (s.th t) (progress g)) (h : step t c s.mem (s.th t) = .next m' l')
    (hk' : l'.pc.early = some k') :
    Charged t (record t c s.mem (s.th t) g) l' (progress (record t c s.mem (s.th t) g)) := by
  obtain ⟨-, hstarts⟩ | hlate | ⟨j, hlt, hj⟩ := Pc.flow_early (step_flow h) hk
  · exact Charged.of_starts hstarts
  · rw [hlate] at hk'
    cases hk'
  · have hcas := Pc.cas_eq_none (step_flow h) hk hj hlt
    rw [(record_still (hI.own t) hcas).2]
    exact hC.step hI.shared (hI.own t) le_rfl h

/-- The loops are not entered again. -/
theorem Pc.flow_late {pc pc' : Pc} (h : pc' ∈ pc.flow) (hpc : pc ≠ .idle)
    (hlate : pc.early = none) : pc'.early = none := by
  rcases pc with _ | _ | pc | pc | pc | pc | pc | pc | pc | pc | pc | _ <;> try cases pc
  all_goals simp [Pc.flow, Pc.early] at h hpc hlate
  all_goals rcases h with rfl | rfl | rfl <;> rfl

/-! ## Behind the loops -/

theorem mmWait_steps {pc : WaitPc} {lag lag' : Nat} (hI : Inv s g)
    (hrest : Others (fun l => l.pc = .idle) t s) (hpc : (s.th t).pc = .wait pc)
    (h : mmWaitUntilUnreserved t s.mem (s.th t) pc = .next m' l') :
    l'.steps n lag' < (s.th t).steps n lag := by
  have heven : ∀ u, u ≠ t → isOdd (s.mem.ctr u) = false := by
    intro u hu
    exact hI.ctr_even (by rw [hrest u hu]; rfl)
  have hout := (hI.own t).here
  cases pc with
  | load =>
      simp only [mmWaitUntilUnreserved] at h
      split at h
      next hlt =>
        split at h
        next =>
          cases h
          simp only [Local.steps, hpc]
          omega
        next hne =>
          rw [heven _ hne] at h
          simp only [Bool.false_eq_true, if_false] at h
          cases h
          simp only [Local.steps, hpc]
          omega
      next =>
        cases h
        simp only [Local.steps, hpc, Local.goto_pc]
        omega
  | spin =>
      obtain ⟨-, hodd, hlt, hne, -⟩ : Scanning t s.mem g (s.th t) ∧ isOdd (s.th t).seen = true ∧
          ∃ h : (s.th t).scan < n, (⟨(s.th t).scan, h⟩ : Fin n) ≠ t ∧
            (s.mem.ctr ⟨(s.th t).scan, h⟩ ≠ (s.th t).seen → Quiet t g ⟨(s.th t).scan, h⟩) := by
        simpa [outline, hpc] using hout
      simp only [mmWaitUntilUnreserved, hlt, dif_pos] at h
      split at h
      next hsame =>
        -- the value it spins on is odd, the counter of an idle thread is not
        have hbad := heven _ hne
        rw [hsame, hodd] at hbad
        cases hbad
      next =>
        cases h
        simp only [Local.steps, hpc]
        omega

theorem mmReclaimAll_steps {pc : ReclaimPc} {lag lag' : Nat} (hO : Own t m g l)
    (hpc : l.pc = .reclaim pc) (h : mmReclaimAll t m l pc = .next m' l') :
    l'.steps n lag' < l.steps n lag := by
  have hout := hO.here
  simp only [outline, hpc] at hout
  cases pc <;> simp only [mmReclaimAll] at h
  case load | clear =>
    cases h
    simp [Local.steps, hpc]
  case count =>
    cases h
    simp only [Local.steps, hpc, Local.goto_pc]
    split <;> omega
  case loop =>
    split at h
    next r hr =>
      cases h
      simp [Local.steps, hpc, hr]
    next hr =>
      cases h
      simp [Local.steps, hpc, hr]
  case free =>
    split at h <;> cases h
    simp [Local.steps, hpc, hout.2]

/-- Behind the loops and outside the wait every step goes down. -/
theorem steps_behind {lag lag' : Nat} (hO : Own t m g l) (hpc : l.pc ≠ .idle)
    (hlate : l.pc.early = none) (hwait : ∀ pc, l.pc ≠ .wait pc)
    (h : step t c m l = .next m' l') : l'.steps n lag' < l.steps n lag := by
  have hnext := step_flow h
  cases hl : l.pc with
  | idle => exact absurd hl hpc
  | wait pc => exact absurd hl (hwait pc)
  | reclaim pc => exact mmReclaimAll_steps hO hl (by simpa only [step, hl] using h)
  | opBegin | upcylce pc | make pc =>
      rw [hl] at hlate
      first
        | cases hlate
        | (cases pc <;> cases hlate)
  | enq pc | deq pc =>
      rw [hl] at hlate hnext
      cases pc <;> simp [Pc.early] at hlate
      all_goals
        simp only [Pc.flow, List.mem_cons, List.not_mem_nil, or_false] at hnext
        simp [Local.steps, hl, hnext]
  | retire pc | recycle pc =>
      rw [hl] at hnext
      cases pc <;> simp only [Pc.flow, List.mem_cons, List.not_mem_nil, or_false] at hnext <;>
        simp [Local.steps, hl, hnext]
  | opEnd pc =>
      rw [hl] at hnext
      cases pc <;> simp only [Pc.flow, List.mem_cons, List.not_mem_nil, or_false] at hnext
      · simp [Local.steps, hl, hnext]
      · rcases hnext with hnext | hnext <;> simp only [Local.steps, hl, hnext] <;> omega
  | ret =>
      rw [hl] at hnext
      simp only [Pc.flow, List.mem_cons, List.not_mem_nil, or_false] at hnext
      simp [Local.steps, hl, hnext, Pc.early]

theorem steps_late {lag lag' : Nat} (hI : Inv s g) (hrest : Others (fun l => l.pc = .idle) t s)
    (hpc : (s.th t).pc ≠ .idle) (hlate : (s.th t).pc.early = none)
    (h : step t c s.mem (s.th t) = .next m' l') :
    l'.steps n lag' < (s.th t).steps n lag := by
  by_cases hwait : ∃ pc, (s.th t).pc = .wait pc
  · obtain ⟨pc, hl⟩ := hwait
    exact mmWait_steps hI hrest hl (by simpa only [step, hl] using h)
  · exact steps_behind (hI.own t) hpc hlate (fun pc hl => hwait ⟨pc, hl⟩) h

/-! ## The whole call -/

/-- A call that is executed alone, has memory and whose weak CASes do not fail spuriously
returns. -/
theorem returns (hI : Inv s g) (hrest : Others (fun l => l.pc = .idle) t s)
    (hpc : (s.th t).pc = .opBegin) :
    Returns step
      (fun c => (c.malloc ≠ none ∧ c.mallocRec ≠ none) ∧ c.spurious = false)
      (fun l => (l.pc == .idle) = true) t s := by
  refine returns_of_rank (fun v k => ∃ g, Inv v g ∧ Others (fun l => l.pc = .idle) t v ∧
    (v.th t).pc ≠ .idle ∧ ¬ NullBlock (v.th t) ∧
    (∀ j, (v.th t).pc.early = some j → Charged t g (v.th t) (progress g)) ∧
    k = (v.th t).steps n g.lag) ?_
    ⟨g, hI, hrest, by simp [hpc], by simp [NullBlock, hpc], fun _ _ => ?_, rfl⟩
  · rintro v k c ⟨g, hI, hrest, hpc, hnull, hC, rfl⟩ ⟨halloc, hstrong⟩
    obtain ⟨m', l', hstep⟩ := step_enabled (hI.own t) hnull c
    have hI' := hI.fire (e := (t, c)) (fire_eq_some.mpr ⟨m', l', hstep, rfl⟩)
    refine ⟨m', l', hstep, fun hbusy => ⟨_, ?_, _, hI', hrest.update m' l', ?_, ?_, ?_, rfl⟩⟩
    · simp only [Function.update_self]
      cases hk : (v.th t).pc.early with
      | some k => exact steps_early hI hk (hC k hk) hstrong hstep
      | none => exact steps_late hI hrest hpc hk hstep
    · simpa using hbusy
    · simpa using step_not_nullBlock hstep halloc.1 halloc.2
    · simp only [Function.update_self]
      intro j hj
      cases hk : (v.th t).pc.early with
      | some k => exact charged_early hI hk (hC k hk) hstep hj
      | none =>
          rw [Pc.flow_late (step_flow hstep) hpc hk] at hj
          cases hj
  · simp [Charged, hpc]

end ConcurrentQueues.Ex5
