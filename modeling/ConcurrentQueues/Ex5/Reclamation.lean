import ConcurrentQueues.Ex5.Ownership

/-!
# Ex5 — safe reclamation

A pointer an operation has loaded from the queue has a number at or above the `hd` of the
operation's beginning.  Such numbers stay live until the operation has ended, and live nodes are on
no free list.
-/

namespace ConcurrentQueues.Ex5

open Reasoning Layout

variable {n : Nat} {t u : Fin n} {m : Mem n} {g g' : History n} {l : Local} {c : Choice}
  {s s' : State n} {es : List (Fin n × Choice)} {p : Addr} {i : Nat}

/-- The pointer the next access of a thread loads from `head`, `tail` or the `next` field of a node
it has loaded; a CAS on `head` or `tail` hands back what it found. -/
def loaded (m : Mem n) (l : Local) : Ptr :=
  match l.pc with
  | .enq .loadTail | .enq .swing | .enq .help | .deq .loadTail | .deq .help => m.store.tail
  | .deq .loadHead | .deq .cas => m.store.head
  | .enq .loadNext => l.last.bind m.store.next
  | .deq .loadNext => l.first.bind m.store.next
  | _ => none

/-- The node `recycle_node` is about to put on the free list of its thread. -/
def Local.pushes (l : Local) : Ptr :=
  match l.pc with
  | .recycle .next | .recycle .head => l.node
  | _ => none

/-- The node `upcylce_node` is about to take off the free list of its thread. -/
def Local.takes (l : Local) : Ptr :=
  match l.pc with
  | .upcylce .loadNext | .upcylce .storeHead => l.n
  | _ => none

/-- The pointer through which the next access of the loop of `enq` or `deq` goes. -/
def Local.derefs (l : Local) : Option Ptr :=
  match l.pc with
  | .enq .loadNext | .enq .link => some l.last
  | .deq .loadNext => some l.first
  | .deq .loadData => some l.next
  | _ => none

/-- The node a dequeue has unlinked and not yet put on its retired list. -/
def Local.unretired (l : Local) : Ptr :=
  match l.pc with
  | .deq .writeOut | .retire .malloc | .retire .node | .retire .next | .retire .push => l.first
  | _ => none

/-! ## Loaded pointers have protected numbers -/

/-- `p` has a number that the operation of `t` may hold. -/
structure Protected (t : Fin n) (g : History n) (p : Addr) (i : Nat) : Prop where
  node : g.lay.node i = p
  start_le : g.start t ≤ i
  lt_len : i < g.lay.len

theorem Protected.live (h : Protected t g p i) (hS : Shared m g) (hb : g.body t = true) :
    g.lay.Live i := hS.live hb h.start_le h.lt_len

theorem Protected.head (hS : Shared m g) (hb : g.body t = true) (hp : m.store.head = some p) :
    Protected t g p g.lay.hd where
  node := Option.some.inj (hS.valid.head.symm.trans hp)
  start_le := hS.start_le t hb
  lt_len := hS.valid.hd_lt

theorem Protected.tail (hS : Shared m g) (hb : g.body t = true) (hp : m.store.tail = some p) :
    Protected t g p g.lay.tl where
  node := Option.some.inj (hS.valid.tail.symm.trans hp)
  start_le := (hS.start_le t hb).trans hS.hd_le_tl
  lt_len := hS.valid.tl_lt

theorem Protected.next {q : Addr} (h : Protected t g q i) (hS : Shared m g)
    (hb : g.body t = true) (hp : m.store.next q = some p) : Protected t g p (i + 1) := by
  obtain rfl := h.node
  obtain ⟨hlt, rfl⟩ := hS.valid.next_eq_some (h.live hS hb) hp
  exact ⟨rfl, Nat.le_succ_of_le h.start_le, hlt⟩

theorem First.protects (h : First t g l) :
    Protected t g (g.lay.node (g.iFirst t)) (g.iFirst t) := ⟨rfl, h.start_le, h.lt_len⟩

theorem Last.protects (h : Last t g l) :
    Protected t g (g.lay.node (g.iLast t)) (g.iLast t) := ⟨rfl, h.start_le, h.lt_len⟩

theorem protected_of_loaded (h : Inv s g) (hp : loaded s.mem (s.th t) = some p) :
    ∃ i, Protected t g p i := by
  have hS := h.shared
  have hbody := (h.own t).status.body
  have hout := (h.own t).here
  unfold loaded at hp
  unfold outline at hout
  cases hpc : (s.th t).pc with
  | enq pc =>
      rw [hpc] at hbody
      cases pc <;> simp only [hpc] at hp hout
      case loadTail | swing | help => exact ⟨_, Protected.tail hS hbody hp⟩
      case loadNext =>
        rw [hout.2.eq] at hp
        exact ⟨_, hout.2.protects.next hS hbody hp⟩
      all_goals cases hp
  | deq pc =>
      rw [hpc] at hbody
      cases pc <;> simp only [hpc] at hp hout
      case loadHead | cas => exact ⟨_, Protected.head hS hbody hp⟩
      case loadTail | help => exact ⟨_, Protected.tail hS hbody hp⟩
      case loadNext =>
        rw [hout.1.eq] at hp
        exact ⟨_, hout.1.protects.next hS hbody hp⟩
      all_goals cases hp
  | _ => simp [hpc] at hp

/-- Within its operation the numbers of `t` stay protected. -/
theorem Protected.run (h : Protected t g p i) (hI : Inv s g)
    (hrun : Reasoning.run step s es = some s')
    (hbody : Throughout step s es fun v => (v.th t).pc.inBody = true) :
    ∃ g', Inv s' g' ∧ Protected t g' p i := by
  obtain ⟨g', hI', hgrows, hstart⟩ :=
    run_history_rel record (R := fun g g' => Grows g.lay g'.lay ∧ g'.start t = g.start t)
      (fun g => ⟨Grows.refl g.lay, rfl⟩) (fun _ _ _ h h' => ⟨h.1.trans h'.1, h'.2.trans h.2⟩)
      (fun v e v' g hI hb hf => by
        refine ⟨hI.fire hf, record_grows e.1 e.2 v.mem (v.th e.1) g, record_start ?_⟩
        rintro ⟨rfl, hpc⟩
        simp [hpc, Pc.inBody] at hb) hI hrun hbody
  refine ⟨g', hI', ?_, ?_, h.lt_len.trans_le hgrows.len_le⟩
  · rw [hgrows.node i h.lt_len, h.node]
  · rw [hstart]; exact h.start_le

/-! ## Protected nodes are on no free list -/

/-- A thread that has waited for all others is not recycling a node that one of them may hold. -/
theorem Protected.pend_ne (h : Protected t g p i) (hS : Shared m g) (hb : g.body t = true)
    (hpend : g.lay.pend u = some (g.iFirst u)) (hq : Quiet u g t) :
    g.lay.node (g.iFirst u) ≠ p := by
  rintro rfl
  have hidx := hS.valid.node_inj (h.live hS hb) (hS.valid.live_pend hpend) h.node
  have hlt := hq hb
  have hle := h.start_le
  omega

theorem Protected.not_recycled (h : Protected t g p i) (hI : Inv s g)
    (hbody : (s.th t).pc.inBody = true) (u : Fin n) :
    (s.th u).pushes ≠ some p ∧ (s.th u).takes ≠ some p := by
  have hS := hI.shared
  have hb : g.body t = true := (hI.own t).status.body.trans hbody
  have hlive := h.live hS hb
  have hst := (hI.own u).status
  have hout := (hI.own u).here
  refine ⟨fun hp => ?_, fun hp => ?_⟩
  · unfold Local.pushes at hp
    split at hp
    next hpc =>
      simp only [outline, hpc] at hout
      obtain ⟨hsafe, -, -, hnode⟩ := hout
      -- `u` is about to detach its node, so it has waited for the operation of `t`
      have hut : u ≠ t := by
        rintro rfl
        simp [hpc, Pc.inBody] at hbody
      have hpend : g.lay.pend u = some (g.iFirst u) := by
        simpa [hpc, Local.unlinking] using hst.pend
      rw [hnode, hsafe.unlinked.first.eq] at hp
      exact h.pend_ne hS hb hpend (hsafe.quiet t hut.symm) (Option.some.inj hp)
    next hpc =>
      -- the node is detached already, and live nodes are held by nobody
      have hhold : g.lay.hold u = some p := by
        rw [hst.hold]
        simpa only [Local.holding, hpc] using hp
      exact hS.valid.node_ne_held hlive hhold h.node
    next => cases hp
  -- what is taken off a free list was on it, and so was not live
  · unfold Local.takes at hp
    split at hp
    next hpc =>
      simp only [outline, hpc] at hout
      obtain ⟨q, rest, hn, hfree⟩ := hout
      obtain rfl := Option.some.inj (hn.symm.trans hp)
      exact hS.valid.node_ne_free hlive (t := u) (by simp [hfree]) h.node
    next hpc =>
      simp only [outline, hpc] at hout
      obtain ⟨q, rest, hn, hfree, -⟩ := hout
      obtain rfl := Option.some.inj (hn.symm.trans hp)
      exact hS.valid.node_ne_free hlive (t := u) (by simp [hfree]) h.node
    next => cases hp

/-- What the operation of `t` may hold and another thread has unlinked is not yet being
reclaimed. -/
theorem Protected.unretired (h : Protected t g p i) (hI : Inv s g)
    (hbody : (s.th t).pc.inBody = true) (hpend : g.lay.pend u = some i)
    (hl : (s.th u).listed = false) : (s.th u).unretired = some p := by
  have hb : g.body t = true := (hI.own t).status.body.trans hbody
  have hst := (hI.own u).status
  have hout := (hI.own u).here
  have hunl : (s.th u).unlinking = true ∧ g.iFirst u = i := by
    have hp := hst.pend
    cases hu : (s.th u).unlinking <;> simp_all
  obtain ⟨hunl, rfl⟩ := hunl
  -- past its wait `u` knows that no operation in progress holds its node
  have hsafe : Safe u s.mem g (s.th u) → (s.th u).pc.inBody = false → False := by
    intro hsafe hout
    have hut : t ≠ u := by
      rintro rfl
      rw [hbody] at hout
      cases hout
    exact h.pend_ne hI.shared hb hpend (hsafe.quiet t hut) h.node
  unfold Local.unlinking at hunl
  unfold Local.listed at hl
  unfold outline at hout
  unfold Local.unretired
  cases hpc : (s.th u).pc with
  | deq pc =>
      cases pc <;> simp only [hpc] at hunl hout ⊢
      case writeOut => rw [hout.1.eq, h.node]
      all_goals cases hunl
  | retire pc =>
      cases pc <;> simp only [hpc] at hl hout ⊢
      case malloc | node | next => rw [hout.1.eq, h.node]
      case push => rw [hout.1.first.eq, h.node]
      case count => cases hl
  | reclaim pc =>
      cases pc <;> simp only [hpc] at hl hunl hout
      case count => exact (hsafe hout.1 (by simp [hpc, Pc.inBody])).elim
      case loop =>
        have hne : (s.th u).r ≠ none := fun hr => by simp [hr] at hunl
        exact (hsafe (hout.resolve_left hne).1 (by simp [hpc, Pc.inBody])).elim
      case free => cases hunl
      all_goals cases hl
  | recycle pc =>
      cases pc <;> simp only [hpc] at hunl hout
      case next => exact (hsafe hout.1 (by simp [hpc, Pc.inBody])).elim
      all_goals cases hunl
  | opEnd pc =>
      simp only [hpc] at hl hunl
      rw [hl] at hunl
      cases hunl
  | _ => simp [hpc] at hl hunl

theorem protected_of_derefs (h : Inv s g) {x : Ptr} (hx : (s.th t).derefs = some x) :
    (s.th t).pc.inBody = true ∧ ∃ p i, x = some p ∧ Protected t g p i := by
  have hout := (h.own t).here
  unfold Local.derefs at hx
  unfold outline at hout
  split at hx
  case h_5 => cases hx
  all_goals
    rename_i hpc
    simp only [hpc] at hout
    obtain rfl := Option.some.inj hx
    refine ⟨by rw [hpc]; rfl, ?_⟩
  · exact ⟨_, _, hout.2.eq, hout.2.protects⟩
  · exact ⟨_, _, hout.2.eq, hout.2.protects⟩
  · exact ⟨_, _, hout.1.eq, hout.1.protects⟩
  · exact ⟨_, _, hout.next, rfl, Nat.le_succ_of_le hout.first.start_le, hout.succ_lt⟩

/-- **Reclamation safety.**  While an operation is between `mm_op_begin` and the increment of
`mm_op_end`, no thread puts a node on a free list, or takes one off, to which the operation has
loaded a pointer.  The nodes its loop touches are in the main list, in a retired list, or unlinked
by a dequeue that has not yet put them on its retired list. -/
theorem reclamation_safe {sched : List (Fin n × Choice)} (h : run step (init n) sched = some s) :
    (∀ before within t c s₀ s₁ p, sched = before ++ (t, c) :: within →
      run step (init n) before = some s₀ → loaded s₀.mem (s₀.th t) = some p →
      fire step s₀ (t, c) = some s₁ →
      (Throughout step s₁ within fun v => (v.th t).pc.inBody = true) →
      Throughout step s₁ within fun v =>
        ∀ u, (v.th u).pushes ≠ some p ∧ (v.th u).takes ≠ some p) ∧
    ∀ t x, (s.th t).derefs = some x → ∃ p, x = some p ∧
      (InRegion s .main p ∨ ∃ u, InRegion s (.retired u) p ∨ (s.th u).unretired = some p) := by
  refine ⟨?_, ?_⟩
  · rintro before within t c s₀ s₁ p - hbefore hload hfire hbody fs gs v rfl hfs u
    obtain ⟨g₀, h₀⟩ := exists_history hbefore
    obtain ⟨i, hi⟩ := protected_of_loaded h₀ hload
    -- the load itself does not move the beginning of the operation
    have hpc : ¬ (t = t ∧ (s₀.th t).pc = .opBegin) := by
      rintro ⟨-, hpc⟩
      simp [loaded, hpc] at hload
    have hgrows := record_grows t c s₀.mem (s₀.th t) g₀
    have h₁ : Protected t (record t c s₀.mem (s₀.th t) g₀) p i :=
      ⟨by rw [hgrows.node i hi.lt_len, hi.node], by rw [record_start hpc]; exact hi.start_le,
        hi.lt_len.trans_le hgrows.len_le⟩
    obtain ⟨g, hI, hp⟩ := h₁.run (h₀.fire hfire) hfs hbody.left
    exact hp.not_recycled hI (hbody.left.last hfs) u
  · intro t x hx
    obtain ⟨g, hI⟩ := exists_history h
    obtain ⟨hbody, p, i, rfl, hp⟩ := protected_of_derefs hI hx
    have hlive := hp.live hI.shared ((hI.own t).status.body.trans hbody)
    have howner := hI.shared.valid.owner_node i hlive
    rw [hp.node] at howner
    refine ⟨p, rfl, ?_⟩
    -- a live number is in the main list or unlinked by some `u`
    rcases hlive.2 with hle | ⟨u, hu⟩
    · exact .inl ((inRegion_iff hI).mpr ⟨i, howner, hle⟩)
    · refine .inr ⟨u, ?_⟩
      cases hl : (s.th u).listed with
      | true => exact .inl ((inRegion_iff hI).mpr ⟨i, howner, hu, hl⟩)
      | false => exact .inr (hp.unretired hI hbody hu hl)

/-- Thread `u` has loaded `first`, and thread `t` unlinks that node and is about to retire it. -/
def overtaken (t u : Fin n) : List (Fin n × Choice) :=
  solo t (.enq 7) 16 ++ solo u (.deq 0) 4 ++ solo t (.deq 0) 8

theorem reclamation_safe_overtaken :
    ∃ s, run step (init 2) (overtaken 0 1) = some s ∧ (s.th 1).derefs = some (some 0) ∧
      (InRegion s .main 0 ∨ ∃ u, InRegion s (.retired u) 0 ∨ (s.th u).unretired = some 0) := by
  obtain ⟨s, hs⟩ : ∃ s, run step (init 2) (overtaken 0 1) = some s := ⟨_, rfl⟩
  have hderef := run_observe hs (fun s => (s.th 1).derefs) rfl
  obtain ⟨p, hp, hregion⟩ := (reclamation_safe hs).2 1 (some 0) hderef
  obtain rfl := Option.some.inj hp
  exact ⟨s, hs, hderef, hregion⟩

/-- The node thread 1 is about to read is then in no list at all. -/
theorem unlinked_in_no_list :
    ∃ s, run step (init 2) (overtaken 0 1) = some s ∧ (s.th 1).derefs = some (some 0) ∧
      ¬ InRegion s .main 0 ∧ ∀ u, ¬ InRegion s (.retired u) 0 := by
  obtain ⟨s, hs⟩ : ∃ s, run step (init 2) (overtaken 0 1) = some s := ⟨_, rfl⟩
  have hhead := run_observe hs (fun s => (s.mem.store.head, s.mem.store.next 1)) rfl
  have hretired := run_observe hs (fun s => (s.mem.retired 0, s.mem.retired 1)) rfl
  simp only [Prod.mk.injEq] at hhead hretired
  refine ⟨s, hs, run_observe hs (fun s => (s.th 1).derefs) rfl, ?_, fun u => ?_⟩
  · rintro ⟨ps, hps, hp⟩
    have hmain : ps = [1] := hps.unique ⟨hhead.1, hhead.2⟩
    rw [hmain] at hp
    cases List.mem_singleton.mp hp
  · rintro ⟨rs, hrs, r, hr, -⟩
    have hnone : s.mem.retired u = none := by
      match u with
      | 0 => exact hretired.1
      | 1 => exact hretired.2
    rw [hrs.eq_none_iff.mp hnone] at hr
    cases hr

end ConcurrentQueues.Ex5
