import ConcurrentQueues.Ex5.Retirement

/-!
# Ex5 — a thread that is stalled inside its operation

Its counter stays odd.  A dequeue that moves `head` meanwhile waits for that counter to change, so
every other thread succeeds in at most one more dequeue, and none of these calls returns.
-/

namespace ConcurrentQueues.Ex5

open Reasoning Layout

variable {n : Nat} {t u : Fin n} {m m' : Mem n} {g : History n} {l l' : Local} {c : Choice}
  {s s' : State n} {v : UInt64}

/-- The call has moved `head`, and its scan has not got past `u`, whose counter is `v`. -/
def HeldUp (u : Fin n) (v : UInt64) (l : Local) : Prop :=
  match l.pc with
  | .deq .writeOut | .retire _ => True
  | .opEnd _ => l.took = true
  | .wait .load => l.scan ≤ u
  | .wait .spin => l.scan < u ∨ (l.scan = u ∧ l.seen = v)
  | _ => False

theorem HeldUp.busy (h : HeldUp u v l) : l.pc ≠ .idle := by
  intro hpc
  simp [HeldUp, hpc] at h

theorem step_ctr (h : step t c m l = .next m' l') (hu : u ≠ t) : m'.ctr u = m.ctr u := by
  cases hpc : l.pc with
  | idle | opBegin | ret =>
      simp only [step, hpc] at h
      cases h
      simp [hu]
  | upcylce pc | make pc | enq pc | deq pc | retire pc | opEnd pc | wait pc | reclaim pc
  | recycle pc =>
      simp only [step, hpc] at h
      cases pc <;>
        simp only [upcylceNode, makeNode, enq, deq, mmRetire, mmOpEnd, mmWaitUntilUnreserved,
          mmReclaimAll, recycleNode] at h <;>
        repeat' split at h
      all_goals cases h
      all_goals simp [hu]

/-! ## A step of the thread that is held up -/

theorem mmRetire_heldUp {pc : RetirePc} (hO : Own t m g l) (hpc : l.pc = .retire pc)
    (h : mmRetire t c m l pc = .next m' l') : HeldUp u v l' := by
  have hdeq : l.isEnq = false := by simpa [Local.argsOk, hpc] using hO.status.args
  cases pc <;> simp only [mmRetire] at h
  case malloc | node | next =>
    split at h <;> cases h <;> trivial
  case push =>
    cases h
    trivial
  case count =>
    cases h
    simpa [HeldUp, Local.took, Local.isEnq] using hdeq

theorem mmOpEnd_heldUp {pc : OpEndPc} (hO : Own t m g l) (hpc : l.pc = .opEnd pc)
    (hl : HeldUp u v l) (h : mmOpEnd t m l pc = .next m' l') : HeldUp u v l' := by
  simp only [HeldUp, hpc] at hl
  cases pc <;> simp only [mmOpEnd] at h
  case inc =>
    cases h
    exact hl
  case check =>
    -- the record of the unlinked node is counted, so there is something to wait for
    have hcount : m.retiredCount t = 1 := by
      simpa [Local.counted, hpc, hl] using hO.status.count
    split at h
    next hzero =>
      rw [hcount] at hzero
      cases hzero
    next =>
      cases h
      exact Nat.zero_le _

theorem mmWait_heldUp {pc : WaitPc} (hpc : l.pc = .wait pc) (hu : u ≠ t)
    (hodd : isOdd (m.ctr u) = true) (hl : HeldUp u (m.ctr u) l)
    (h : mmWaitUntilUnreserved t m l pc = .next m' l') : HeldUp u (m.ctr u) l' := by
  have hlt := u.isLt
  simp only [HeldUp, hpc] at hl
  -- the scan goes past a thread only if that thread is not `u`
  have hne : ∀ h : l.scan < n, (⟨l.scan, h⟩ : Fin n) ≠ u → l.scan ≤ u → l.scan + 1 ≤ u := by
    intro h hne hle
    have hval : l.scan ≠ u := fun he => hne (Fin.ext he)
    omega
  cases pc <;> simp only [mmWaitUntilUnreserved] at h
  case load =>
    rw [dif_pos (by simp only at hl; omega)] at h
    split at h
    next hself =>
      cases h
      simp only [HeldUp, hpc]
      exact hne _ (fun he => hu (he.symm.trans hself)) hl
    next =>
      split at h
      next =>
        cases h
        simp only [HeldUp]
        rcases Nat.lt_or_eq_of_le hl with hlt' | heq
        · exact .inl hlt'
        · exact .inr ⟨heq, by simp [heq]⟩
      next heven =>
        cases h
        simp only [HeldUp, hpc]
        exact hne _ (fun he => heven (by rw [he]; exact hodd)) hl
  case spin =>
    rw [dif_pos (by simp only at hl; omega)] at h
    split at h
    next =>
      cases h
      simpa only [HeldUp, hpc] using hl
    next hmoved =>
      cases h
      simp only [HeldUp]
      rcases hl with hlt' | ⟨heq, hseen⟩
      · exact hlt'
      · exact absurd (by simp [heq, hseen]) hmoved

/-- As long as the counter of `u` stays odd, the call does not get on. -/
theorem step_heldUp (hO : Own t m g l) (hu : u ≠ t) (hodd : isOdd (m.ctr u) = true)
    (hl : HeldUp u (m.ctr u) l) (h : step t c m l = .next m' l') : HeldUp u (m.ctr u) l' := by
  cases hpc : l.pc with
  | retire pc => exact mmRetire_heldUp hO hpc (by simpa only [step, hpc] using h)
  | opEnd pc => exact mmOpEnd_heldUp hO hpc hl (by simpa only [step, hpc] using h)
  | wait pc => exact mmWait_heldUp hpc hu hodd hl (by simpa only [step, hpc] using h)
  | deq pc =>
      simp only [HeldUp, hpc] at hl
      simp only [step, hpc] at h
      cases pc <;> simp at hl
      cases h
      trivial
  | idle | opBegin | upcylce pc | make pc | enq pc | reclaim pc | recycle pc | ret =>
      simp [HeldUp, hpc] at hl

/-! ## The events of a run in which `u` does not move -/

def Event.isUnlink : Event → Bool
  | .unlink _ => true
  | _ => false

/-- The threads that have unlinked a node, in order. -/
def unlinkers (tr : List (Fin n × Event)) : List (Fin n) :=
  (tr.filter fun e => e.2.isUnlink).map Prod.fst

theorem count_unlinkers (t : Fin n) (tr : List (Fin n × Event)) :
    (unlinkers tr).count t = (eventsOf t tr).countP Event.isUnlink := by
  induction tr with
  | nil => rfl
  | cons e tr ih =>
      unfold unlinkers eventsOf at ih ⊢
      by_cases ht : e.1 = t
      · subst ht
        cases he : e.2.isUnlink <;> simp [he, ih]
      · cases he : e.2.isUnlink <;> simp [he, ht, ih]

/-- A step announces an unlinking when it moves `head`. -/
theorem heldUp_of_unlink (h : step t c m l = .next m' l') {ev : Event} (hev : event c m l = some ev)
    (hunlink : ev.isUnlink = true) : HeldUp u v l' := by
  unfold event at hev
  cases hpc : l.pc with
  | deq pc =>
      cases pc <;> simp only [hpc] at hev <;> try cases hev
      simp only [step, hpc, deq] at h
      split at hev
      next hok =>
        rw [if_pos hok] at h
        cases h
        trivial
      next => cases hev
  | idle | opBegin | upcylce pc | make pc | enq pc | retire pc | opEnd pc | reclaim pc | ret =>
      rw [hpc] at hev
      cases hev
      try cases hunlink
  | wait pc =>
      rw [hpc] at hev
      cases hev
      cases hunlink
  | recycle pc =>
      rw [hpc] at hev
      cases pc <;> cases hev <;> cases hunlink

/-- While a call is held up it announces nothing but its waiting. -/
theorem event_of_heldUp {ev : Event} (hl : HeldUp u v l) (hev : event c m l = some ev) :
    ev = .wait := by
  unfold event at hev
  unfold HeldUp at hl
  split at hl <;> simp_all

/-- The events of a thread since `u` stopped: no unlinking, or one, behind which there is nothing but
waiting. -/
def Halted (u : Fin n) (v : UInt64) (l : Local) (w : List Event) : Prop :=
  (∀ ev ∈ w, ev.isUnlink = false) ∨
    (HeldUp u v l ∧ ∃ before p k, w = before ++ .unlink p :: List.replicate k .wait ∧
      ∀ ev ∈ before, ev.isUnlink = false)

theorem Halted.step {w : List Event} (hO : Own t m g l) (hu : u ≠ t)
    (hodd : isOdd (m.ctr u) = true) (hl : Halted u (m.ctr u) l w)
    (h : step t c m l = .next m' l') :
    Halted u (m.ctr u) l' (w ++ (event c m l).toList) := by
  rcases hl with hnone | ⟨hheld, before, p, k, rfl, hbefore⟩
  · cases hev : event c m l with
    | none => simpa [Halted] using .inl hnone
    | some ev =>
        cases hunlink : ev.isUnlink with
        | false =>
            left
            intro x hx
            rcases List.mem_append.mp hx with hx | hx
            · exact hnone x hx
            · obtain rfl : x = ev := by simpa using hx
              exact hunlink
        | true =>
            right
            refine ⟨heldUp_of_unlink h hev hunlink, w, ?_⟩
            cases ev <;> cases hunlink
            exact ⟨_, 0, rfl, hnone⟩
  · right
    refine ⟨step_heldUp hO hu hodd hheld h, before, p, ?_⟩
    cases hev : event c m l with
    | none => exact ⟨k, by simp, hbefore⟩
    | some ev =>
        obtain rfl : ev = .wait := event_of_heldUp hheld hev
        refine ⟨k + 1, ?_, hbefore⟩
        rw [List.replicate_succ', List.append_assoc]
        rfl

theorem Halted.countP_le {w : List Event} (h : Halted u v l w) :
    w.countP Event.isUnlink ≤ 1 := by
  rcases h with hnone | ⟨-, before, p, k, rfl, hbefore⟩
  · rw [List.countP_eq_zero.mpr fun ev hev => by simp [hnone ev hev]]
    exact Nat.zero_le 1
  · rw [List.countP_append, List.countP_eq_zero.mpr fun ev hev => by simp [hbefore ev hev],
      List.countP_cons, List.countP_replicate]
    simp [Event.isUnlink]

/-- What a run without `u` leaves. -/
structure Stopped (u : Fin n) (s : State n) (es : List (Fin n × Choice)) (s' : State n) :
    Prop where
  ctr : s'.mem.ctr u = s.mem.ctr u
  self : eventsOf u (events s es) = []
  halted : ∀ t, t ≠ u → Halted u (s.mem.ctr u) (s'.th t) (eventsOf t (events s es))

theorem stopped_of_run {es : List (Fin n × Choice)} (hI : Inv s g)
    (hodd : isOdd (s.mem.ctr u) = true) (h : run step s es = some s') (hu : ∀ e ∈ es, e.1 ≠ u) :
    ∃ g', Inv s' g' ∧ Stopped u s es s' := by
  refine run_induction (motive := fun es v => (∀ e ∈ es, e.1 ≠ u) →
    ∃ g', Inv v g' ∧ Stopped u s es v) ?_ ?_ es s' h hu
  · exact fun _ => ⟨g, hI, rfl, rfl, fun t _ => .inl (by simp [events, trace, eventsOf])⟩
  rintro es ⟨w, c⟩ v v' hrun ih hf hu
  obtain ⟨g', hI', hctr, hself, hhalted⟩ := ih fun e he => hu e (List.mem_append_left _ he)
  have hwu : w ≠ u := hu (w, c) (by simp)
  have hfire := hI'.fire hf
  obtain ⟨m', l', hstep, rfl⟩ := fire_eq_some.mp hf
  refine ⟨_, hfire, (step_ctr hstep hwu.symm).trans hctr, ?_, fun t ht => ?_⟩
  · rw [events_snoc _ hrun, eventsOf_snoc_other _ _ hwu.symm, hself]
  · rw [events_snoc _ hrun]
    by_cases htw : t = w
    · subst htw
      simp only [eventsOf_snoc_self, Function.update_self]
      have hown : Halted u (v.mem.ctr u) l' _ :=
        Halted.step (hI'.own t) hwu.symm (by rw [hctr]; exact hodd) (hctr.symm ▸ hhalted t ht) hstep
      rwa [hctr] at hown
    · simp only [eventsOf_snoc_other _ _ htw, Function.update_of_ne htw]
      exact hhalted t ht

/-- **A stalled thread stops all dequeues.**  While `u` stays inside its operation every other thread
unlinks at most one node, so at most `n - 1` are unlinked in all; behind its unlinking a thread does
nothing but wait, and the call it is in does not return. -/
theorem stalled_thread_stops_dequeues {sched es : List (Fin n × Choice)}
    (h : run step (init n) sched = some s) (hodd : isOdd (s.mem.ctr u) = true)
    (hrun : run step s es = some s') (hu : ∀ e ∈ es, e.1 ≠ u) :
    (unlinkers (events s es)).Nodup ∧ (unlinkers (events s es)).length ≤ n - 1 ∧
      ∀ t ∈ unlinkers (events s es), (s'.th t).pc ≠ .idle ∧
        ∃ before p k, eventsOf t (events s es) =
          before ++ .unlink p :: List.replicate k .wait := by
  obtain ⟨g, hI⟩ := exists_history h
  obtain ⟨g', -, hctr, hself, hhalted⟩ := stopped_of_run hI hodd hrun hu
  have hcount : (unlinkers (events s es)).count u = 0 := by
    rw [count_unlinkers, hself]
    rfl
  have hnodup : (unlinkers (events s es)).Nodup := by
    apply List.nodup_iff_count_le_one.mpr
    intro t
    rw [count_unlinkers]
    by_cases ht : t = u
    · rw [ht, hself]
      exact Nat.zero_le 1
    · exact (hhalted t ht).countP_le
  refine ⟨hnodup, ?_, fun t ht => ?_⟩
  · have hle := (List.nodup_cons.mpr ⟨List.count_eq_zero.mp hcount, hnodup⟩).length_le_card
    rw [List.length_cons, Fintype.card_fin] at hle
    omega
  · have htu : t ≠ u := fun he => List.count_eq_zero.mp hcount (he ▸ ht)
    rcases hhalted t htu with hnone | ⟨hheld, before, p, k, heq, -⟩
    · -- the thread has unlinked a node
      have hpos := List.count_pos_iff.mpr ht
      rw [count_unlinkers, List.countP_eq_zero.mpr fun ev hev => by simp [hnone ev hev]] at hpos
      exact absurd hpos (Nat.lt_irrefl 0)
    · exact ⟨hheld.busy, before, p, k, heq⟩

/-- Thread 0 has linked a node and stops; thread 1 dequeues it and waits. -/
theorem stalled_thread_stops_dequeues_linked :
    ∃ s s', run step (init 2) (solo 0 (.enq 7) 12) = some s ∧
      run step s (solo 1 (.deq 0) 40) = some s' ∧
      unlinkers (events s (solo 1 (.deq 0) 40)) = [1] ∧ (s'.th 1).pc ≠ .idle := by
  obtain ⟨s', hall⟩ : ∃ s', run step (init 2) (solo 0 (.enq 7) 12 ++ solo 1 (.deq 0) 40) = some s' :=
    ⟨_, rfl⟩
  obtain ⟨s, hs, hs'⟩ := run_append.mp hall
  have hodd := run_observe hs (fun s => isOdd (s.mem.ctr 0)) rfl
  have hone : unlinkers (events (init 2) (solo 0 (.enq 7) 12 ++ solo 1 (.deq 0) 40)) = [1] := rfl
  have hfirst : events (init 2) (solo 0 (.enq 7) 12) = [(0, .call (.enq 7))] := rfl
  rw [events, trace_append hs, ← events, ← events, hfirst] at hone
  have hunlinkers : unlinkers (events s (solo 1 (.deq 0) 40)) = [1] := hone
  obtain ⟨-, -, hwaits⟩ := stalled_thread_stops_dequeues hs hodd hs' (by decide)
  exact ⟨s, s', hs, hs', hunlinkers, (hwaits 1 (by rw [hunlinkers]; decide)).1⟩

end ConcurrentQueues.Ex5
