import ConcurrentQueues.Ex5.Runs

/-!
# Ex5 — no CAS succeeds on a location that was changed and changed back

A CAS of `enq` or `deq` expects what the thread loaded in the same iteration of its loop.  The
numbers of the history make this precise: `head`, `tail` and the end of the list only move forward,
so a location that holds the expected value again has held it all the time.
-/

namespace ConcurrentQueues.Ex5

open Reasoning Layout

variable {n : Nat} {t u : Fin n} {m m' : Mem n} {g g' : History n} {l l' : Local} {c : Choice}
  {s s' : State n} {es : List (Fin n × Choice)}

/-! ## Iterations -/

/-- The first access of an iteration of the loop of `enq` or `deq`. -/
def Pc.starts : Pc → Bool
  | .enq .loadTail | .deq .loadHead => true
  | _ => false

/-! ## The locations a CAS is performed on -/

inductive Loc where
  | head | tail | next
  deriving DecidableEq, Repr

namespace Loc

/-- What the location holds; `next` is the `next` field of `l.last`. -/
def read (q : Store n) (l : Local) : Loc → Ptr
  | .head => q.head
  | .tail => q.tail
  | .next =>
      match l.last with
      | some p => (q.heap p).next
      | none => none

/-- What the CAS expects there. -/
def expected (l : Local) : Loc → Ptr
  | .head => l.first
  | .tail => l.last
  | .next => none

end Loc

/-- The location of the CAS at a program point. -/
def Pc.cas : Pc → Option Loc
  | .deq .cas => some .head
  | .enq .swing | .enq .help | .deq .help => some .tail
  | .enq .link => some .next
  | _ => none

/-- The location whose expected value is loaded at a program point. -/
def Pc.load : Pc → Option Loc
  | .deq .loadHead => some .head
  | .enq .loadTail | .deq .loadTail => some .tail
  | .enq .loadNext => some .next
  | _ => none

/-! ## What stays within one iteration -/

/-- Within an iteration the number of `first` stays. -/
theorem Inv.run_first (h : Inv s g) (hrun : Reasoning.run step s es = some s')
    (hiter : Throughout step s es fun v => (v.th t).pc.starts = false) :
    ∃ g', Inv s' g' ∧ Grows g.lay g'.lay ∧ g'.iFirst t = g.iFirst t := by
  refine run_history_rel record (R := fun g g' => Grows g.lay g'.lay ∧ g'.iFirst t = g.iFirst t)
    (fun g => ⟨Grows.refl g.lay, rfl⟩)
    (fun _ _ _ h h' => ⟨h.1.trans h'.1, h'.2.trans h.2⟩) ?_ h hrun hiter
  rintro v ⟨u, c⟩ v' g hI hstarts hf
  -- a load of `head` begins a new iteration
  refine ⟨hI.fire hf, record_grows u c v.mem (v.th u) g, record_iFirst ?_⟩
  rintro ⟨rfl, hload⟩
  simp [hload, Pc.starts] at hstarts

/-- Behind the load of `tail` the number of `last` stays. -/
theorem Inv.run_last (h : Inv s g) (hpc : (s.th t).pc ≠ .deq .loadTail)
    (hrun : Reasoning.run step s es = some s')
    (hiter : Throughout step s es fun v => (v.th t).pc.starts = false) :
    ∃ g', (Inv s' g' ∧ (s'.th t).pc ≠ .deq .loadTail) ∧
      Grows g.lay g'.lay ∧ g'.iLast t = g.iLast t := by
  refine run_history_rel record (I := fun v g => Inv v g ∧ (v.th t).pc ≠ .deq .loadTail)
    (R := fun g g' => Grows g.lay g'.lay ∧ g'.iLast t = g.iLast t)
    (fun g => ⟨Grows.refl g.lay, rfl⟩)
    (fun _ _ _ h h' => ⟨h.1.trans h'.1, h'.2.trans h.2⟩) ?_ ⟨h, hpc⟩ hrun hiter
  rintro v ⟨u, c⟩ v' g ⟨hI, hne⟩ hstarts hf
  refine ⟨⟨hI.fire hf, ?_⟩, record_grows u c v.mem (v.th u) g, record_iLast ?_⟩
  · -- `deq` loads `tail` only right behind `head`
    obtain ⟨m', l', hstep, rfl⟩ := fire_eq_some.mp hf
    by_cases hu : t = u
    · subst hu
      simp only [Function.update_self]
      intro hl'
      have hhead := Pc.flow_deq_loadTail (hl' ▸ step_flow hstep)
      simp [hhead, Pc.starts] at hstarts
    · simpa [Function.update_of_ne hu] using hne
  · rintro ⟨rfl, hload | hload⟩
    · simp [hload, Pc.starts] at hstarts
    · exact hne hload

/-- An iteration of `enq` tries to link only after it has loaded `NULL` from `last->next`. -/
theorem link_next_none (hrun : run step s es = some s')
    (hiter : Throughout step s es fun v => (v.th t).pc.starts = false)
    (hpc : (s.th t).pc = .enq .reload) (hlink : (s'.th t).pc = .enq .link) :
    (s.th t).next = none := by
  -- within the iteration `t` is at the test, or past it with `NULL`, or not on its way to link
  have hall : ∀ es v, run step s es = some v →
      (Throughout step s es fun v => (v.th t).pc.starts = false) →
      ((v.th t).pc = .enq .reload ∧ (v.th t).next = (s.th t).next) ∨
        ((v.th t).pc = .enq .link ∧ (s.th t).next = none) ∨
        ((v.th t).pc ≠ .enq .loadNext ∧ (v.th t).pc ≠ .enq .reload ∧ (v.th t).pc ≠ .enq .link) := by
    refine run_induction (fun _ => .inl ⟨hpc, rfl⟩) ?_
    rintro es ⟨u, c⟩ v v' hes ih hf hstarts
    have hstart : (v.th t).pc.starts = false := hstarts.left.last hes
    have ih := ih hstarts.left
    obtain ⟨m', l', hstep, rfl⟩ := fire_eq_some.mp hf
    by_cases hu : t = u
    · subst hu
      simp only [Function.update_self]
      have hne : (v.th t).pc ≠ .enq .loadTail := by
        intro he
        simp [he, Pc.starts] at hstart
      -- only the test at `reload` leads to the link CAS
      rcases ih with ⟨hpc, hnext⟩ | ⟨hpc, -⟩ | ⟨h₁, h₂, h₃⟩
      · rw [← hnext]
        simp only [step, hpc, enq] at hstep
        repeat' split at hstep
        all_goals cases hstep
        all_goals simp_all
      · have hflow := step_flow hstep
        rw [hpc] at hflow
        rcases List.mem_pair.mp hflow with he | he <;> simp [he]
      · exact .inr (.inr (Pc.flow_enq_link (step_flow hstep) ⟨h₁, h₂⟩ hne))
    · simpa only [Function.update_of_ne hu] using ih
  rcases hall es s' hrun hiter with ⟨h, -⟩ | ⟨-, h⟩ | ⟨-, -, h⟩
  · rw [hlink] at h; cases h
  · exact h
  · exact absurd hlink h

/-! ## The three kinds of CAS -/

/-- `head` has been at `first` since `hd` took its present value. -/
theorem head_unchanged (h : Inv s g) (h' : Inv s' g') (hgrows : Grows g.lay g'.lay)
    (hpc : (s'.th t).pc = .deq .cas) (hcas : s'.mem.store.head = (s'.th t).first)
    (hidx : g'.iFirst t ≤ g.lay.hd) : s.mem.store.head = (s'.th t).first := by
  have hO := h'.own t
  have hbody : g'.body t = true := by simpa [hpc, Pc.inBody] using hO.status.body
  have hsucc : Successor t g' (s'.th t) := by
    have hout := hO.here
    simp only [outline, hpc] at hout
    exact hout.1
  have hhd := hsucc.first.head_eq h'.shared hbody hcas
  have hle := hgrows.hd_le
  -- `hd` has not moved between the two states
  have hd : g.lay.hd = g'.lay.hd := by omega
  rw [← hcas, h.shared.valid.head, h'.shared.valid.head, ← hd,
    hgrows.node _ h.shared.valid.hd_lt]

/-- `tail` has been at `last` since `tl` took its present value. -/
theorem tail_unchanged (h : Inv s g) (h' : Inv s' g') (hgrows : Grows g.lay g'.lay)
    (hpc : (s'.th t).pc.cas = some .tail) (hcas : s'.mem.store.tail = (s'.th t).last)
    (hidx : g'.iLast t ≤ g.lay.tl) : s.mem.store.tail = (s'.th t).last := by
  have hO := h'.own t
  have hlast : g'.body t = true ∧ Last t g' (s'.th t) := by
    have hst := hO.status.body
    have hout := hO.here
    unfold Pc.cas at hpc
    split at hpc <;> simp_all [outline, Pc.inBody]
  have htl := hlast.2.tail_eq h'.shared hlast.1 hcas
  have hle := hgrows.tl_le
  have ht : g.lay.tl = g'.lay.tl := by omega
  rw [← hcas, h.shared.valid.tail, h'.shared.valid.tail, ← ht,
    hgrows.node _ h.shared.valid.tl_lt]

/-- `last->next` has been `NULL` since `last` was the last node of the list. -/
theorem next_unchanged (h : Inv s g) (h' : Inv s' g') (hgrows : Grows g.lay g'.lay)
    (hpc : (s'.th t).pc = .enq .link) {p : Addr} (hp : (s'.th t).last = some p)
    (hcas : (s'.mem.store.heap p).next = none) (hidx : g'.iLast t + 1 ≤ g.lay.len) :
    (s.mem.store.heap p).next = none := by
  have hO := h'.own t
  have hbody : g'.body t = true := by simpa [hpc, Pc.inBody] using hO.status.body
  have hlast : Last t g' (s'.th t) := by
    have hout := hO.here
    simp only [outline, hpc] at hout
    exact hout.2
  obtain rfl : g'.lay.node (g'.iLast t) = p := Option.some.inj (hlast.eq.symm.trans hp)
  have hlive := h'.shared.live hbody hlast.start_le hlast.lt_len
  have hlen := (h'.shared.valid.next_eq_none_iff hlive).mp hcas
  have hle := hgrows.len_le
  have hhd := h.shared.valid.hd_lt
  -- the end of the list has not moved either, so number `len - 1` is `last` in both states
  rw [hgrows.node _ (by omega)]
  exact (h.shared.valid.next_eq_none_iff (Valid.live_of_le (by omega) (by omega))).mpr (by omega)

/-- **No ABA.**  Let `t` load the expected value of a location in the step from `s₀` to `s₁`, and
let it reach the CAS on that location in `s₂`, in the same iteration of its loop.  If the location
then holds what the CAS expects, it has held it in every state since the load. -/
theorem cas_aba_free {loc : Loc} {pre mid : List (Fin n × Choice)} {s₀ s₁ s₂ : State n}
    (hpre : run step (init n) pre = some s₀) (hload : (s₀.th t).pc.load = some loc)
    (hfire : fire step s₀ (t, c) = some s₁) (hmid : run step s₁ mid = some s₂)
    (hiter : Throughout step s₁ mid fun s => (s.th t).pc.starts = false)
    (hcas : (s₂.th t).pc.cas = some loc)
    (hsucc : loc.read s₂.mem.store (s₂.th t) = loc.expected (s₂.th t)) :
    Throughout step s₁ mid fun s =>
      loc.read s.mem.store (s₂.th t) = loc.expected (s₂.th t) := by
  obtain ⟨g₀, h₀⟩ := exists_history hpre
  have h₁ := h₀.fire hfire
  obtain ⟨m₁, l₁, hstep, rfl⟩ := fire_eq_some.mp hfire
  rintro fs gs s rfl hfs
  obtain ⟨v, hv, hgs⟩ := run_append.mp hmid
  obtain rfl : s = v := Option.some.inj (hfs.symm.trans hv)
  cases loc with
  | head =>
      have hpc : (s₀.th t).pc = .deq .loadHead := by
        unfold Pc.load at hload
        split at hload <;> simp_all
      obtain ⟨g, h, hgrows, hidx⟩ := h₁.run_first hfs hiter.left
      obtain ⟨g₂, h₂, hgrows₂, hidx₂⟩ := h.run_first hgs (hiter.right hfs)
      have hrec : record t c s₀.mem (s₀.th t) g₀ = g₀.setFirst t g₀.lay.hd := by
        simp [record, hpc]
      rw [hrec] at hgrows hidx
      -- the CAS expects the number that `hd` had at the load
      have hfirst : g₂.iFirst t = g₀.lay.hd := by rw [hidx₂, hidx]; simp
      have hpc₂ : (s₂.th t).pc = .deq .cas := by
        unfold Pc.cas at hcas
        split at hcas <;> simp_all
      exact head_unchanged h h₂ hgrows₂ hpc₂ hsucc (hfirst ▸ hgrows.hd_le)
  | tail =>
      have hpc : (s₀.th t).pc = .enq .loadTail ∨ (s₀.th t).pc = .deq .loadTail := by
        unfold Pc.load at hload
        split at hload <;> simp_all
      have hne : l₁.pc ≠ .deq .loadTail := by
        have hflow := step_flow hstep
        rcases hpc with hpc | hpc <;> rw [hpc] at hflow <;> simp [Pc.flow] at hflow <;> grind
      obtain ⟨g, ⟨h, hne'⟩, hgrows, hidx⟩ := h₁.run_last (by simpa using hne) hfs hiter.left
      obtain ⟨g₂, ⟨h₂, -⟩, hgrows₂, hidx₂⟩ := h.run_last hne' hgs (hiter.right hfs)
      have hrec : record t c s₀.mem (s₀.th t) g₀ = g₀.setLast t g₀.lay.tl := by
        rcases hpc with hpc | hpc <;> simp [record, hpc]
      rw [hrec] at hgrows hidx
      have hlast : g₂.iLast t = g₀.lay.tl := by rw [hidx₂, hidx]; simp
      exact tail_unchanged h h₂ hgrows₂ hcas hsucc (hlast ▸ hgrows.tl_le)
  | next =>
      have hpc : (s₀.th t).pc = .enq .loadNext := by
        unfold Pc.load at hload
        split at hload <;> simp_all
      have hpc₂ : (s₂.th t).pc = .enq .link := by
        unfold Pc.cas at hcas
        split at hcas <;> simp_all
      have hpc₁ : l₁.pc = .enq .reload := by
        have hflow := step_flow hstep
        rw [hpc] at hflow
        exact List.mem_singleton.mp hflow
      obtain ⟨g, ⟨h, hne⟩, hgrows, hidx⟩ :=
        h₁.run_last (t := t) (by simp [hpc₁]) hfs hiter.left
      obtain ⟨g₂, ⟨h₂, -⟩, hgrows₂, hidx₂⟩ := h.run_last hne hgs (hiter.right hfs)
      have hrec : record t c s₀.mem (s₀.th t) g₀ = g₀ := by simp [record, hpc]
      rw [hrec] at hgrows hidx
      -- the load found `NULL`, so `last` was the last node then
      have hnull : l₁.next = none := by
        simpa using link_next_none hmid hiter (by simpa using hpc₁) hpc₂
      have hout : Ready s₀.mem (s₀.th t) ∧ Last t g₀ (s₀.th t) := by
        simpa [outline, hpc] using (h₀.own t).here
      have hbody : g₀.body t = true := by simpa [hpc, Pc.inBody] using (h₀.own t).status.body
      simp only [step, hpc, enq, hout.2.eq] at hstep
      cases hstep
      have hlive := h₀.shared.live hbody hout.2.start_le hout.2.lt_len
      have hlen := (h₀.shared.valid.next_eq_none_iff hlive).mp hnull
      have hlast : g₂.iLast t = g₀.iLast t := hidx₂.trans hidx
      have hlast₂ : Last t g₂ (s₂.th t) := by
        have hout := (h₂.own t).here
        simp only [outline, hpc₂] at hout
        exact hout.2
      have hle := hgrows.len_le
      simp only [Loc.read, Loc.expected, hlast₂.eq] at hsucc ⊢
      exact next_unchanged h h₂ hgrows₂ hpc₂ hlast₂.eq hsucc (by omega)

/-- Thread 1 loads `last->next`, thread 0 goes as far, and then thread 1 is about to link. -/
theorem cas_aba_free_link :
    ∃ s₁ s₂ : State 2, run step s₁ (solo 0 (.enq 7) 10 ++ solo 1 (.enq 8) 1) = some s₂ ∧
      Throughout step s₁ (solo 0 (.enq 7) 10 ++ solo 1 (.enq 8) 1) fun s =>
        Loc.read s.mem.store (s₂.th 1) .next = none := by
  obtain ⟨s₀, hs₀⟩ : ∃ s₀, run step (init 2) (solo 1 (.enq 8) 9) = some s₀ := ⟨_, rfl⟩
  obtain ⟨s₁, hs₁⟩ : ∃ s₁, run step (init 2) (solo 1 (.enq 8) 10) = some s₁ := ⟨_, rfl⟩
  have hfire : fire step s₀ (1, .plain (.enq 8)) = some s₁ := by
    obtain ⟨v, hv, hf⟩ := run_snoc.mp (show run step (init 2)
      (solo 1 (.enq 8) 9 ++ [(1, .plain (.enq 8))]) = some s₁ from hs₁)
    exact Option.some.inj (hs₀.symm.trans hv) ▸ hf
  obtain ⟨s₂, hs₂⟩ : ∃ s₂, run step (init 2)
    (solo 1 (.enq 8) 10 ++ (solo 0 (.enq 7) 10 ++ solo 1 (.enq 8) 1)) = some s₂ := ⟨_, rfl⟩
  have hmid : run step s₁ (solo 0 (.enq 7) 10 ++ solo 1 (.enq 8) 1) = some s₂ := by
    obtain ⟨v, hv, hrun⟩ := run_append.mp hs₂
    exact Option.some.inj (hs₁.symm.trans hv) ▸ hrun
  have hiter := Throughout.of_all (fun s : State 2 => !(s.th 1).pc.starts) hs₁
    (solo 0 (.enq 7) 10 ++ solo 1 (.enq 8) 1) (by decide)
  exact ⟨s₁, s₂, hmid, cas_aba_free hs₀ (run_observe hs₀ (fun s => (s.th 1).pc.load) rfl) hfire hmid
    (hiter.mono fun s hs => by simpa using hs) (run_observe hs₂ (fun s => (s.th 1).pc.cas) rfl)
    (run_observe hs₂ (fun s => Loc.next.read s.mem.store (s.th 1)) rfl)⟩

end ConcurrentQueues.Ex5
