import ConcurrentQueues.Ex5.Obstruction
import ConcurrentQueues.Ex5.Ownership

/-!
# Ex5 — a dequeue from its head CAS to its return

The number it has taken decides the rest of the call, whatever the other threads do: it delivers the
value of the next number, and the node itself ends at the front of its thread's free list.
-/

namespace ConcurrentQueues.Ex5

open Reasoning Layout

variable {n : Nat} {t u : Fin n} {m m' : Mem n} {g g' : History n} {l l' : Local} {c : Choice}
  {i : Nat}

/-- The call has moved `head` from number `i`. -/
def Took (t : Fin n) (i : Nat) (m : Mem n) (g : History n) (l : Local) : Prop :=
  match l.pc with
  | .deq .writeOut => g.iFirst t = i ∧ l.val = g.lay.val (i + 1)
  | .retire _ => g.iFirst t = i ∧ l.out = g.lay.val (i + 1)
  | .opEnd _ | .wait _ | .reclaim .load | .reclaim .clear | .reclaim .count | .recycle .next =>
      g.iFirst t = i ∧ l.out = g.lay.val (i + 1) ∧ l.took = true
  | .reclaim .loop =>
      -- the second visit ends the call
      (if l.r = none then (m.store.freeLists t).head = some (g.lay.node i) else g.iFirst t = i) ∧
        l.out = g.lay.val (i + 1) ∧ l.took = true
  | .recycle .head => l.node = some (g.lay.node i) ∧ l.out = g.lay.val (i + 1) ∧ l.took = true
  | .recycle _ | .reclaim .free | .ret | .idle =>
      (m.store.freeLists t).head = some (g.lay.node i) ∧ l.out = g.lay.val (i + 1) ∧ l.took = true
  | _ => False

/-! ## Steps that link nothing -/

/-- The nodes that have been linked, with their values. -/
structure SameNodes (g g' : Layout n) : Prop where
  len : g'.len = g.len
  node : g'.node = g.node
  val : g'.val = g.val

theorem SameNodes.trans {g g' g'' : Layout n} (h : SameNodes g g') (h' : SameNodes g' g'') :
    SameNodes g g'' where
  len := h'.len.trans h.len
  node := h'.node.trans h.node
  val := h'.val.trans h.val

theorem record_sameNodes (hlink : l.pc ≠ .enq .link) :
    SameNodes g.lay (record t c m l g).lay := by
  unfold record
  split
  all_goals try split
  all_goals try split
  all_goals first
    | exact ⟨rfl, rfl, rfl⟩
    | exact absurd ‹l.pc = .enq .link› hlink

/-- `hd` moves only with a head CAS that succeeds. -/
theorem record_hd (h : step t c m l = .next m' l') (hpc : l'.pc ≠ .deq .writeOut) :
    (record t c m l g).lay.hd = g.lay.hd := by
  by_cases hcas : l.pc = .deq .cas
  · simp only [step, hcas, deq] at h
    split at h
    next =>
      cases h
      exact absurd rfl hpc
    next hno => simp [record, hcas, hno]
  · unfold record
    split
    all_goals try split
    all_goals try split
    all_goals first
      | rfl
      | exact absurd ‹l.pc = .deq .cas› hcas

/-! ## Before the head CAS -/

/-- What a call that will take a node has in front of it. -/
theorem WillTake.nonempty (h : WillTake m l) : m.Nonempty := by
  unfold WillTake at h
  split at h
  · exact h.2
  · exact h.1
  · exact h.elim
  · exact h
  · exact h.elim

theorem WillTake.pc (h : WillTake m l) :
    l.pc = .opBegin ∨ ∃ pc, l.pc = .deq pc ∧ pc ≠ .writeOut := by
  unfold WillTake at h
  cases hpc : l.pc with
  | opBegin => exact .inl rfl
  | deq pc =>
      refine .inr ⟨pc, rfl, ?_⟩
      intro hwrite
      simp only [hpc, hwrite] at h
  | idle | upcylce pc | make pc | enq pc | retire pc | opEnd pc | wait pc | reclaim pc | recycle pc
  | ret =>
      simp only [hpc] at h

theorem WillTake.busy (h : WillTake m l) : l.pc ≠ .idle := by
  intro hpc
  obtain hpc' | ⟨pc, hpc', -⟩ := h.pc <;> rw [hpc] at hpc' <;> cases hpc'

theorem WillTake.pc_ne_writeOut (h : WillTake m l) : l.pc ≠ .deq .writeOut := by
  intro hpc
  obtain hpc' | ⟨pc, hpc', hbefore⟩ := h.pc <;> rw [hpc] at hpc' <;> cases hpc'
  exact hbefore rfl

theorem WillTake.pc_ne_link (h : WillTake m l) : l.pc ≠ .enq .link := by
  intro hpc
  obtain hpc' | ⟨pc, hpc', -⟩ := h.pc <;> rw [hpc] at hpc' <;> cases hpc'

/-- The other threads may do whatever leaves `head` where it is. -/
theorem WillTake.congr (h : WillTake m l) (hhead : m'.store.head = m.store.head)
    (hne : m'.Nonempty) : WillTake m' l := by
  unfold WillTake at h ⊢
  split at h
  · exact ⟨h.1, hne⟩
  · exact ⟨hne, by rw [hhead]; exact h.2⟩
  · exact h
  · exact hne
  · exact h

theorem WillTake.step (h : WillTake m l) (hS : Shared m g) (hO : Own t m g l)
    (hstep : step t c m l = .next m' l') : WillTake m' l' ∨ l'.pc = .deq .writeOut := by
  obtain hpc | ⟨pc, hpc, hbefore⟩ := h.pc
  · have hne := h.nonempty
    unfold WillTake at h
    simp only [hpc] at h
    simp only [Ex5.step, hpc, mmOpBegin, h.1] at hstep
    cases hstep
    exact .inl hne
  · exact (deq_willTake hS hO hpc hbefore (by simpa only [Ex5.step, hpc] using hstep)).mp h

theorem Pc.flow_deq_writeOut {pc : Pc} (h : .deq .writeOut ∈ pc.flow) : pc = .deq .cas := by
  rcases pc with _ | _ | pc | pc | pc | pc | pc | pc | pc | pc | pc | _ <;> try cases pc
  all_goals simp_all [Pc.flow]

/-- A head CAS that succeeds takes the number that was `hd`. -/
theorem took_of_cas (hS : Shared m g) (hO : Own t m g l) (hstep : step t c m l = .next m' l')
    (hpc : l'.pc = .deq .writeOut) :
    Took t g.lay.hd m' (record t c m l g) l' ∧ (record t c m l g).lay.hd = g.lay.hd + 1 := by
  have hflow := step_flow hstep
  rw [hpc] at hflow
  have hcas : l.pc = .deq .cas := Pc.flow_deq_writeOut hflow
  obtain ⟨hsucc, hval⟩ : Successor t g l ∧ l.val = g.lay.val (g.iFirst t + 1) := by
    simpa [outline, hcas] using hO.here
  have hbody : g.body t = true := by simpa [hcas, Pc.inBody] using hO.status.body
  simp only [step, hcas, deq] at hstep
  split at hstep
  next hok =>
    have hhd := hsucc.first.head_eq hS hbody hok.1
    rw [show record t c m l g = g.setLay (g.lay.moveHead t) by simp [record, hcas, hok]]
    cases hstep
    rw [hhd] at hval
    exact ⟨⟨hhd, hval⟩, rfl⟩
  next =>
    cases hstep
    cases hpc

/-! ## Behind the head CAS -/

/-- A call that is held up behind `mm_op_end`'s increment only looks at counters. -/
theorem HeldUp.parked {v : UInt64} (hheld : HeldUp u v l) (hbody : l.pc.inBody = false)
    (h : step t c m l = .next m' l') : m' = m ∧ l'.pc.inBody = false := by
  cases hpc : l.pc with
  | opEnd pc =>
      cases pc <;> simp only [hpc, Pc.inBody, reduceCtorEq] at hbody
      simp only [step, hpc, mmOpEnd] at h
      split at h <;> cases h <;> exact ⟨rfl, rfl⟩
  | wait pc =>
      cases pc <;> simp only [step, hpc, mmWaitUntilUnreserved] at h <;> repeat' split at h
      all_goals cases h
      all_goals exact ⟨rfl, by simp [Pc.inBody, hpc]⟩
  | deq pc | retire pc => simp [hpc, Pc.inBody] at hbody
  | idle | opBegin | upcylce pc | make pc | enq pc | reclaim pc | recycle pc | ret =>
      simp [HeldUp, hpc] at hheld

theorem Took.iFirst_eq {v : UInt64} (ht : Took t i m g l) (hheld : HeldUp u v l) :
    g.iFirst t = i := by
  unfold Took at ht
  unfold HeldUp at hheld
  split at hheld <;> simp_all

/-- The node it has taken is not recycled as long as it is held up. -/
theorem Took.live {v : UInt64} (ht : Took t i m g l) (hS : Shared m g) (hO : Own t m g l)
    (hheld : HeldUp u v l) : g.lay.Live i := by
  have hpend := hO.status.pend
  have hunlinking : l.unlinking = true := by
    unfold HeldUp at hheld
    unfold Local.unlinking
    split at hheld <;> simp_all
  rw [if_pos hunlinking, ht.iFirst_eq hheld] at hpend
  exact hS.valid.live_pend hpend

/-- The retired list of such a call is the one record of the node it has taken. -/
theorem Took.listed {v : UInt64} (ht : Took t i m g l) (hO : Own t m g l) (hheld : HeldUp u v l)
    (hbody : l.pc.inBody = false) :
    ∃ r, m.retired t = some r ∧ m.records r = ⟨some (g.lay.node i), none⟩ := by
  have hlisted : l.listed = true := by
    cases hpc : l.pc with
    | opEnd pc => simpa only [HeldUp, hpc, Local.listed] using hheld
    | wait pc => simp [Local.listed, hpc]
    | deq pc | retire pc => simp [hpc, Pc.inBody] at hbody
    | idle | opBegin | upcylce pc | make pc | enq pc | reclaim pc | recycle pc | ret =>
        simp [HeldUp, hpc] at hheld
  obtain ⟨r, hrec, heq⟩ := hasRecord_of_listed hO hlisted
  refine ⟨r, ?_, ?_⟩
  · rw [hO.status.retired, if_pos hlisted, hrec]
  · rw [heq, (hO.unlinked hlisted).first.eq, ht.iFirst_eq hheld]

theorem Took.stable (h : Took t i m g l) (hlt : i + 1 < g.lay.len) (hr : Rely t m g m' g') :
    Took t i m' g' l := by
  unfold Took at h ⊢
  rw [hr.frame.val _ hlt, hr.frame.node _ (Nat.lt_of_succ_lt hlt), hr.frame.freeList, hr.iFirst]
  exact h

theorem Took.pc_ne_link (h : Took t i m g l) : l.pc ≠ .enq .link := by
  intro hpc
  simp only [Took, hpc] at h

theorem Took.pc_ne_opBegin (h : Took t i m g l) : l.pc ≠ .opBegin := by
  intro hpc
  simp only [Took, hpc] at h

theorem Took.pc_ne_cas (h : Took t i m g l) : l.pc ≠ .deq .cas := by
  intro hpc
  simp only [Took, hpc] at h

/-- What the call has delivered when it is over. -/
theorem Took.at_idle (h : Took t i m g l) (hpc : l.pc = .idle) :
    (m.store.freeLists t).head = some (g.lay.node i) ∧ l.out = g.lay.val (i + 1) ∧ l.code = 1 := by
  simp only [Took, hpc, Local.took, Bool.and_eq_true, beq_iff_eq] at h
  exact ⟨h.1, h.2.1, h.2.2.2⟩

theorem Took.congr (h : Took t i m g l) (hnodes : SameNodes g.lay g'.lay)
    (hfirst : g'.iFirst t = g.iFirst t) : Took t i m g' l := by
  unfold Took at h ⊢
  rw [hnodes.val, hnodes.node, hfirst]
  exact h

theorem mmRetire_took {pc : RetirePc} (ht : Took t i m g l) (hO : Own t m g l)
    (hpc : l.pc = .retire pc) (h : mmRetire t c m l pc = .next m' l') : Took t i m' g l' := by
  simp only [Took, hpc] at ht
  cases pc <;> simp only [mmRetire] at h
  case malloc | node | next =>
    split at h <;> cases h
    all_goals exact ht
  case push =>
    cases h
    exact ht
  case count =>
    have hdeq : l.isEnq = false := by simpa [Local.argsOk, hpc] using hO.status.args
    cases h
    exact ⟨ht.1, ht.2, by simpa [Local.took, Local.isEnq] using hdeq⟩

theorem mmOpEnd_took {pc : OpEndPc} (ht : Took t i m g l) (hO : Own t m g l)
    (hpc : l.pc = .opEnd pc) (h : mmOpEnd t m l pc = .next m' l') : Took t i m' g l' := by
  simp only [Took, hpc] at ht
  cases pc <;> simp only [mmOpEnd] at h
  case inc =>
    cases h
    exact ht
  case check =>
    -- there is a retired node, so the thread does not return here
    have hcount := hO.status.count
    simp only [Local.counted, hpc, ht.2.2, if_true] at hcount
    split at h
    next hzero =>
      rw [hcount] at hzero
      cases hzero
    next =>
      cases h
      exact ht

theorem mmWait_took {pc : WaitPc} (ht : Took t i m g l) (hpc : l.pc = .wait pc)
    (h : mmWaitUntilUnreserved t m l pc = .next m' l') : Took t i m' g l' := by
  simp only [Took, hpc] at ht
  cases pc <;> simp only [mmWaitUntilUnreserved] at h <;> repeat' split at h
  all_goals cases h
  all_goals simp only [Took, hpc, Local.goto_pc]
  all_goals exact ht

theorem Safe.rec_ne (h : Safe t m g l) (hr : l.r = g.recOf t) : l.r ≠ none := by
  obtain ⟨r, hrec, -⟩ := h.unlinked.record
  rw [hr, hrec]
  simp

theorem mmReclaimAll_took {pc : ReclaimPc} (ht : Took t i m g l) (hO : Own t m g l)
    (hpc : l.pc = .reclaim pc) (h : mmReclaimAll t m l pc = .next m' l') : Took t i m' g l' := by
  have hout := hO.here
  simp only [outline, hpc] at hout
  simp only [Took, hpc] at ht
  cases pc <;> simp only [mmReclaimAll] at h hout
  case load | clear =>
    cases h
    exact ht
  case count =>
    cases h
    have hne := hout.1.rec_ne hout.2
    simp only [Took, Local.goto_pc, Local.goto_r, if_neg hne]
    exact ht
  case loop =>
    split at h
    next r hr =>
      cases h
      simp only [hr, reduceCtorEq, if_false] at ht
      exact ht
    next hr =>
      cases h
      simp only [hr, if_true] at ht
      exact ht
  case free =>
    split at h <;> cases h
    simp only [Took, hout.2, if_true]
    exact ht

theorem recycleNode_took {pc : RecyclePc} (ht : Took t i m g l) (hO : Own t m g l)
    (hpc : l.pc = .recycle pc) (h : recycleNode t m l pc = .next m' l') : Took t i m' g l' := by
  have hout := hO.here
  simp only [outline, hpc] at hout
  simp only [Took, hpc] at ht
  cases pc <;> simp only [recycleNode] at h hout
  case next =>
    obtain ⟨hsafe, -, -, hnode⟩ := hout
    split at h <;> cases h
    refine ⟨?_, ht.2⟩
    simp only [Local.goto_node, hnode, hsafe.unlinked.first.eq, ht.1]
  case head =>
    cases h
    simp only [Took, Local.goto_pc]
    exact ⟨by simpa using ht.1, ht.2⟩
  case size =>
    cases h
    simp only [Took, Local.goto_pc]
    exact ⟨by simpa using ht.1, ht.2⟩
  case count =>
    cases h
    exact ht

/-- **One step of its own** keeps what the call has taken. -/
theorem Took.step (ht : Took t i m g l) (hO : Own t m g l) (hbusy : l.pc ≠ .idle)
    (h : step t c m l = .next m' l') : Took t i m' (record t c m l g) l' := by
  have hnodes : SameNodes g.lay (record t c m l g).lay := record_sameNodes ht.pc_ne_link
  have hfirst : (record t c m l g).iFirst t = g.iFirst t := by
    apply record_iFirst
    rintro ⟨-, hpc⟩
    simp only [Took, hpc] at ht
  refine Took.congr ?_ hnodes hfirst
  cases hpc : l.pc with
  | retire pc => exact mmRetire_took ht hO hpc (by simpa only [Ex5.step, hpc] using h)
  | opEnd pc => exact mmOpEnd_took ht hO hpc (by simpa only [Ex5.step, hpc] using h)
  | wait pc => exact mmWait_took ht hpc (by simpa only [Ex5.step, hpc] using h)
  | reclaim pc => exact mmReclaimAll_took ht hO hpc (by simpa only [Ex5.step, hpc] using h)
  | recycle pc => exact recycleNode_took ht hO hpc (by simpa only [Ex5.step, hpc] using h)
  | deq pc =>
      simp only [Took, hpc] at ht
      cases pc <;> simp only at ht
      simp only [Ex5.step, hpc, deq] at h
      cases h
      exact ht
  | ret =>
      simp only [Took, hpc] at ht
      simp only [Ex5.step, hpc] at h
      cases h
      exact ht
  | idle => exact absurd hpc hbusy
  | opBegin | upcylce pc | make pc | enq pc => simp only [Took, hpc] at ht

/-! ## The end of the operation -/

theorem Pc.flow_inBody {pc pc' : Pc} (h : pc' ∈ pc.flow) (hpc : pc.inBody = true ∨ pc = .opBegin) :
    pc'.inBody = true ∨ pc' = .opEnd .check := by
  rcases pc with _ | _ | pc | pc | pc | pc | pc | pc | pc | pc | pc | _ <;> try cases pc
  all_goals simp [Pc.flow, Pc.inBody] at h hpc
  all_goals rcases h with rfl | rfl | rfl | rfl <;> simp [Pc.inBody]

/-- An operation that is over does not begin again within its call. -/
theorem Pc.flow_behind {pc pc' : Pc} (h : pc' ∈ pc.flow) (hbody : pc.inBody = false)
    (hpc : pc ≠ .opBegin) : pc'.inBody = false := by
  rcases pc with _ | _ | pc | pc | pc | pc | pc | pc | pc | pc | pc | _ <;> try cases pc
  all_goals simp [Pc.flow, Pc.inBody] at h hbody hpc
  all_goals rcases h with rfl | rfl | rfl <;> rfl

/-- A thread that runs alone comes to the increment of `mm_op_end`, even if others are stalled. -/
theorem closes_within {s : State n} (hI : Inv s g)
    (hpc : (s.th t).pc.inBody = true ∨ (s.th t).pc = .opBegin) (hnull : ¬ NullBlock (s.th t)) :
    ReturnsWithin step (fun c => (c.malloc ≠ none ∧ c.mallocRec ≠ none) ∧ c.spurious = false)
      (fun l => l.pc = .opEnd .check) t (n + 74) s := by
  have hlag := hI.lag_le
  have hsteps := steps_le (n := n) (s.th t) (g.lag + 1)
  refine returnsWithin_of_rank (fun v k => ∃ g w, Inv v g ∧
    ((v.th t).pc.inBody = true ∨ (v.th t).pc = .opBegin) ∧ ¬ NullBlock (v.th t) ∧
    Informed t g (v.th t) w ∧ k = (v.th t).steps n (g.lag + w)) ?_
    ⟨g, 1, hI, hpc, hnull, ⟨le_rfl, fun _ _ hone => absurd hone (by decide)⟩, rfl⟩ (by omega)
  rintro v k c ⟨g, w, hI, hpc, hnull, hw, rfl⟩ ⟨halloc, hstrong⟩
  obtain ⟨m', l', hstep⟩ := step_enabled (hI.own t) hnull c
  have hI' := hI.fire (e := (t, c)) (fire_eq_some.mpr ⟨m', l', hstep, rfl⟩)
  obtain ⟨w', hw', hless⟩ : ∃ w', Informed t (record t c v.mem (v.th t) g) l' w' ∧
      l'.steps n ((record t c v.mem (v.th t) g).lag + w') < (v.th t).steps n (g.lag + w) := by
    cases hk : (v.th t).pc.early with
    | some k => exact early_step hI hk hw hstrong hstep
    | none =>
        have hidle : (v.th t).pc ≠ .idle := by
          intro hidle
          simp [hidle, Pc.inBody] at hpc
        have hwait : ∀ pc, (v.th t).pc ≠ .wait pc := by
          intro pc hwait
          simp [hwait, Pc.inBody] at hpc
        refine ⟨w, ⟨hw.1, fun j hj => ?_⟩, steps_behind (hI.own t) hidle hk hwait hstep⟩
        rw [Pc.flow_late (step_flow hstep) hidle hk] at hj
        cases hj
  refine ⟨m', l', hstep, fun hopen => ⟨_, hless, _, w', hI', ?_, ?_, ?_, ?_⟩⟩ <;>
    simp only [Function.update_self]
  · exact .inl ((Pc.flow_inBody (step_flow hstep) hpc).resolve_right hopen)
  · exact step_not_nullBlock hstep halloc.1 halloc.2
  · exact hw'

end ConcurrentQueues.Ex5
