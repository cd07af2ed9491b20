import ConcurrentQueues.Tests.AbaProblem

/-!
# AbaCompletion — the busy-waits of the ABA test

The test waits in four places: B and the observer for A to pause, the observer for B to move `head`
and to leave its operation, A for the observer, and each call for the other one's operation.
Whatever has happened before, one thread after the other can do its part, so the test can be brought
to its end.
-/

namespace ConcurrentQueues.Tests.AbaProblem

open Reasoning Layout Ex5

variable {lay : Layout 2} {s u v : State} {g : History 2} {m m' : Mem} {x x' : Local} {c : Choice}

def Allocates (c : Choice) : Prop := c.malloc ≠ none ∧ c.mallocRec ≠ none

/-- A run in which no `malloc` fails. -/
def Leads (s u : State) : Prop :=
  ∃ es, (∀ e ∈ es, Allocates e.2) ∧ run testAbaProblem s es = some u

theorem Leads.refl (s : State) : Leads s s := ⟨[], by simp, rfl⟩

theorem Leads.trans (h : Leads s u) (h' : Leads u v) : Leads s v := by
  obtain ⟨es, halloc, hrun⟩ := h
  obtain ⟨fs, halloc', hrun'⟩ := h'
  refine ⟨es ++ fs, ?_, run_append.mpr ⟨u, hrun, hrun'⟩⟩
  intro e he
  rcases List.mem_append.mp he with he | he
  · exact halloc e he
  · exact halloc' e he

/-- A longer run comes to what its end comes to. -/
theorem Leads.extend {P : State → Prop} (h : Leads s u) (h' : ∃ v, Leads u v ∧ P v) :
    ∃ v, Leads s v ∧ P v := by
  obtain ⟨v, hv, hP⟩ := h'
  exact ⟨v, h.trans hv, hP⟩

/-- What the threads choose on the way to the end. -/
def plain : Choice := .plain (.deq (-1))

theorem Leads.step {t : Thread} (h : testAbaProblem t plain s.mem (s.th t) = .next m' x') :
    Leads s ⟨m', Function.update s.th t x'⟩ := by
  refine ⟨[(t, plain)], ?_, run_singleton.mpr (fire_eq_some.mpr ⟨m', x', h, rfl⟩)⟩
  simp [Allocates, plain, Choice.plain]

/-! ## States without a failed allocation -/

structure Alive (lay : Layout 2) (s : State) : Prop where
  known : ∃ g, Known lay s g
  notNull : ∀ t, ¬ NullBlock (s.th t).l

/-- The locals of the call change with its steps only. -/
theorem step_l {t : Thread} (hstep : testAbaProblem t c m x = .next m' x') :
    x'.l = x.l ∨ ∃ i q, Ex5.step i (deqCall c) m.q x.l = .next q x'.l := by
  cases t with
  | a =>
      simp only [testAbaProblem, threadA] at hstep
      split at hstep
      next =>
        obtain ⟨q, l', hq, -, rfl⟩ := deqStep_cases hstep
        exact .inr ⟨_, q, hq⟩
      next pc _ =>
        left
        cases pc <;> simp only [pause] at hstep <;> (try split at hstep) <;> cases hstep <;> rfl
      next =>
        cases hstep
        exact .inl rfl
      next => cases hstep
  | b =>
      simp only [testAbaProblem, threadB] at hstep
      split at hstep
      next => split at hstep <;> cases hstep <;> exact .inl rfl
      next =>
        obtain ⟨q, l', hq, -, rfl⟩ := deqStep_cases hstep
        exact .inr ⟨_, q, hq⟩
      next =>
        cases hstep
        exact .inl rfl
      next => cases hstep
  | observer =>
      simp only [testAbaProblem, observer] at hstep
      split at hstep
      next => split at hstep <;> cases hstep <;> exact .inl rfl
      next pc _ =>
        left
        cases pc <;> simp only [observe] at hstep <;> repeat' split at hstep
        all_goals cases hstep
        all_goals rfl
      next => cases hstep

theorem step_notNull {t : Thread} (hstep : testAbaProblem t c m x = .next m' x')
    (halloc : Allocates c) (h : ¬ NullBlock x.l) : ¬ NullBlock x'.l := by
  rcases step_l hstep with hl | ⟨i, q, hq⟩
  · rw [hl]
    exact h
  · exact step_not_nullBlock hq halloc.1 halloc.2

theorem Alive.fire {e : Thread × Choice} (h : Alive lay s) (halloc : Allocates e.2)
    (hf : fire testAbaProblem s e = some u) : Alive lay u := by
  obtain ⟨m', x', hstep, rfl⟩ := fire_eq_some.mp hf
  obtain ⟨g, hknown⟩ := h.known
  refine ⟨hknown.step hstep, fun t => ?_⟩
  by_cases ht : t = e.1
  · subst ht
    simpa only [Function.update_self] using step_notNull hstep halloc (h.notNull e.1)
  · simpa only [Function.update_of_ne ht] using h.notNull t

theorem Alive.leads (h : Alive lay s) (hleads : Leads s u) : Alive lay u := by
  obtain ⟨es, halloc, hrun⟩ := hleads
  refine run_induction (motive := fun es v => (∀ e ∈ es, Allocates e.2) → Alive lay v)
    (fun _ => h) ?_ es u hrun halloc
  intro es e v w _ ih hf halloc
  exact (ih fun e he => halloc e (List.mem_append_left _ he)).fire (halloc e (by simp)) hf

theorem Alive.before (h : Alive lay s) (hready : s.mem.ready = false) :
    ∃ g, Base lay s g ∧ Before lay s g := by
  obtain ⟨g, hbase, hbefore | hpausing | hresumed⟩ := h.known
  · exact ⟨g, hbase, hbefore⟩
  · cases hready.symm.trans hpausing.seen.ready
  · cases hready.symm.trans hresumed.seen.ready

theorem Alive.pausing (h : Alive lay s) (hready : s.mem.ready = true) (hgo : s.mem.go = false) :
    ∃ g, Base lay s g ∧ Pausing lay s g := by
  obtain ⟨g, hbase, hbefore | hpausing | hresumed⟩ := h.known
  · cases hready.symm.trans hbefore.ready
  · exact ⟨g, hbase, hpausing⟩
  · cases hgo.symm.trans hresumed.go

theorem Alive.resumed (h : Alive lay s) (hgo : s.mem.go = true) :
    ∃ g, Base lay s g ∧ Resumed lay s g := by
  obtain ⟨g, hbase, hbefore | hpausing | hresumed⟩ := h.known
  · cases hgo.symm.trans hbefore.go
  · cases hgo.symm.trans hpausing.go
  · exact ⟨g, hbase, hresumed⟩

/-! ## A call that runs on its own -/

/-- The choices for which a call that runs alone returns. -/
def Good (c : Choice) : Prop := (c.malloc ≠ none ∧ c.mallocRec ≠ none) ∧ c.spurious = false

theorem good_plain : Good (deqCall plain) := by
  simp [Good, deqCall, plain, Choice.plain]

theorem leads_a {q : Ex5.Mem 2} {l' : Ex5.Local} (hpc : (s.th .a).pc = .deq)
    (hq : Ex5.step 0 (deqCall plain) s.mem.q (s.th .a).l = .next q l') :
    Leads s ⟨{ s.mem with q := q }, Function.update s.th .a { s.th .a with
      l := l'
      pc := if l'.pc = .idle then .ret
        else if l'.pc = .deq .cas then .pause .ready else .deq }⟩ := by
  apply Leads.step
  simp only [testAbaProblem, threadA, hpc, deqStep, hq, true_and]

theorem leads_b {q : Ex5.Mem 2} {l' : Ex5.Local} (hpc : (s.th .b).pc = .deq)
    (hq : Ex5.step 1 (deqCall plain) s.mem.q (s.th .b).l = .next q l') :
    Leads s ⟨{ s.mem with q := q }, Function.update s.th .b { s.th .b with
      l := l'
      pc := if l'.pc = .idle then .ret else .deq }⟩ := by
  apply Leads.step
  simp [testAbaProblem, threadB, hpc, deqStep, hq]

/-- Thread B runs until `D` is true of its call. -/
theorem exists_call_b {D : Ex5.Local → Prop} {k : Nat} (hpc : (s.th .b).pc = .deq)
    (h : ReturnsWithin Ex5.step Good D 1 k (queueState s)) :
    ∃ u, Leads s u ∧ u.mem.ready = s.mem.ready ∧ u.mem.go = s.mem.go ∧ u.th .a = s.th .a ∧
      (D (u.th .b).l ∨ (u.th .b).pc = .ret) := by
  induction k generalizing s with
  | zero => exact h.elim
  | succ k ih =>
      obtain ⟨w, hw, hnext⟩ := h (deqCall plain) good_plain
      obtain ⟨q, l', hq, rfl⟩ := fire_eq_some.mp hw
      have hleads := leads_b hpc hq
      by_cases hidle : l'.pc = .idle
      · exact ⟨_, hleads, rfl, rfl, by simp, .inr (by simp [hidle])⟩
      rcases hnext with hD | hnext
      · exact ⟨_, hleads, rfl, rfl, by simp, .inl (by simpa using hD)⟩
      rw [← queueState_b s { s.mem with q := q } { s.th .b with
        l := l', pc := if l'.pc = .idle then .ret else .deq }] at hnext
      obtain ⟨u, hu, hready, hgo, ha, hend⟩ := ih (by simp [hidle]) hnext
      exact ⟨u, hleads.trans hu, hready, hgo, by simpa using ha, hend⟩

/-- Thread A passes its pause. -/
theorem leads_pause (hpc : (s.th .a).pc = .pause .ready ∨ (s.th .a).pc = .pause .go)
    (hready : s.mem.ready = true) (hgo : s.mem.go = true) :
    Leads s ⟨s.mem, Function.update s.th .a ((s.th .a).goto .deq)⟩ := by
  have hlast : ∀ u : State, u.mem.go = true → (u.th .a).pc = .pause .go →
      Leads u ⟨u.mem, Function.update u.th .a ((u.th .a).goto .deq)⟩ := by
    intro u hgo hpc
    apply Leads.step
    simp [testAbaProblem, threadA, hpc, pause, hgo]
  rcases hpc with hpc | hpc
  · have hfirst : Leads s ⟨s.mem, Function.update s.th .a ((s.th .a).goto (.pause .go))⟩ := by
      apply Leads.step
      simp [testAbaProblem, threadA, hpc, pause, hready]
    have hsecond := hfirst.trans (hlast _ hgo (by simp))
    simpa [Local.goto] using hsecond
  · exact hlast s hgo hpc

/-- Thread A runs to the end of its call, or to its pause. -/
theorem exists_call_a {D : Ex5.Local → Prop} {k : Nat} (hpc : (s.th .a).pc = .deq)
    (hflags : s.mem.ready = true → s.mem.go = true)
    (hD : ∀ l, D l → l.pc = .idle) (h : ReturnsWithin Ex5.step Good D 0 k (queueState s)) :
    ∃ u, Leads s u ∧ u.mem.ready = s.mem.ready ∧ u.mem.go = s.mem.go ∧
      ((u.th .a).pc = .ret ∨ ((u.th .a).pc = .pause .ready ∧ s.mem.ready = false)) := by
  induction k generalizing s with
  | zero => exact h.elim
  | succ k ih =>
      obtain ⟨w, hw, hnext⟩ := h (deqCall plain) good_plain
      obtain ⟨q, l', hq, rfl⟩ := fire_eq_some.mp hw
      have hleads := leads_a hpc hq
      by_cases hidle : l'.pc = .idle
      · exact ⟨_, hleads, rfl, rfl, .inl (by simp [hidle])⟩
      have hnext := hnext.resolve_left fun h => hidle (hD _ (by simpa using h))
      by_cases hcas : l'.pc = .deq .cas
      · cases hready : s.mem.ready with
        | false => exact ⟨_, hleads, hready.symm ▸ rfl, rfl, .inr ⟨by simp [hcas], rfl⟩⟩
        | true =>
            have hpass := hleads.trans (leads_pause (.inl (by simp [hcas])) hready (hflags hready))
            simp only [Function.update_self, Function.update_idem] at hpass
            rw [← queueState_a s { s.mem with q := q } { s.th .a with
              l := l', pc := .deq }] at hnext
            obtain ⟨u, hu, hready', hgo, hend⟩ := ih (by simp) (by exact hflags) hnext
            refine ⟨u, hpass.trans hu, hready'.trans hready, hgo, ?_⟩
            rcases hend with hend | ⟨-, hfalse⟩
            · exact .inl hend
            · cases hready.symm.trans hfalse
      · rw [← queueState_a s { s.mem with q := q } { s.th .a with
          l := l'
          pc := if l'.pc = .idle then .ret
            else if l'.pc = .deq .cas then .pause .ready else .deq }] at hnext
        obtain ⟨u, hu, hready, hgo, hend⟩ := ih (by simp [hidle, hcas]) (by exact hflags) hnext
        exact ⟨u, hleads.trans hu, hready, hgo, hend⟩

/-- A call waits only for a thread that is in its operation. -/
theorem not_blocked {t : Fin 2} (hI : Inv (queueState s) g)
    (h : ∀ u, u ≠ t → ((queueState s).th u).pc.inBody = false) : ¬ Blocked t (queueState s) := by
  rintro ⟨u, hu, hodd, -⟩
  have heven := hI.ctr_even (h u hu)
  rw [hodd] at heven
  cases heven

/-! ## Thread A comes to its pause -/

theorem exists_announced {pc : PausePc} (hpc : (s.th .a).pc = .pause pc)
    (hready : s.mem.ready = false) (hgo : pc ≠ .go) :
    ∃ u, Leads s u ∧ u.mem.ready = true ∧ u.mem.go = s.mem.go := by
  have hstore : ∀ u : State, (u.th .a).pc = .pause .store →
      ∃ v, Leads u v ∧ v.mem.ready = true ∧ v.mem.go = u.mem.go := by
    intro u hpc
    have hstep : testAbaProblem .a plain u.mem (u.th .a) =
        .next { u.mem with ready := true } ((u.th .a).goto (.pause .go)) := by
      simp [testAbaProblem, threadA, hpc, pause]
    exact ⟨_, Leads.step hstep, rfl, rfl⟩
  have hnext : ∀ u : State, (u.th .a).pc = .pause .next →
      ∃ v, Leads u v ∧ v.mem.ready = true ∧ v.mem.go = u.mem.go := by
    intro u hpc
    have hstep : testAbaProblem .a plain u.mem (u.th .a) =
        .next { u.mem with observedNext := (u.th .a).l.next } ((u.th .a).goto (.pause .store)) := by
      simp [testAbaProblem, threadA, hpc, pause]
    exact (Leads.step hstep).extend (hstore _ (by simp))
  have hfirst : ∀ u : State, (u.th .a).pc = .pause .first →
      ∃ v, Leads u v ∧ v.mem.ready = true ∧ v.mem.go = u.mem.go := by
    intro u hpc
    have hstep : testAbaProblem .a plain u.mem (u.th .a) =
        .next { u.mem with observedFirst := (u.th .a).l.first }
          ((u.th .a).goto (.pause .next)) := by
      simp [testAbaProblem, threadA, hpc, pause]
    exact (Leads.step hstep).extend (hnext _ (by simp))
  cases pc with
  | ready =>
      have hstep : testAbaProblem .a plain s.mem (s.th .a) =
          .next s.mem ((s.th .a).goto (.pause .first)) := by
        simp [testAbaProblem, threadA, hpc, pause, hready]
      exact (Leads.step hstep).extend (hfirst _ (by simp))
  | first => exact hfirst s hpc
  | next => exact hnext s hpc
  | store => exact hstore s hpc
  | go => exact absurd rfl hgo

theorem exists_paused_of_busy (h : Alive lay s) (hready : s.mem.ready = false)
    (hpc : (s.th .a).pc = .deq) (hbusy : (s.th .a).l.pc ≠ .idle) :
    ∃ u, Leads s u ∧ u.mem.ready = true ∧ u.mem.go = false := by
  obtain ⟨g, hbase, hbefore⟩ := h.before hready
  have hreturns := returns_of_not_blocked (t := 0) hbase.inv hbusy (h.notNull .a)
    (not_blocked hbase.inv fun u hu => by
      obtain rfl : u = 1 := by omega
      simp [queueState, hbefore.b.2, Ex5.Pc.inBody])
  obtain ⟨u, hu, hready', hgo, hend⟩ :=
    exists_call_a hpc (by simp [hready]) (fun _ h => h) hreturns
  rcases hend with hret | ⟨hpause, -⟩
  · -- A cannot return before it has paused
    obtain ⟨g', -, hbefore'⟩ := (h.leads hu).before (hready'.trans hready)
    have ha := hbefore'.a
    simp only [Looking, hret] at ha
  · rw [← hgo.trans hbefore.go]
    exact hu.extend (exists_announced hpause (hready'.trans hready) (by decide))

theorem exists_paused (h : Alive lay s) (hready : s.mem.ready = false) :
    ∃ u, Leads s u ∧ u.mem.ready = true ∧ u.mem.go = false := by
  obtain ⟨g, hbase, hbefore⟩ := h.before hready
  have ha := hbefore.a
  unfold Looking at ha
  cases hpc : (s.th .a).pc with
  | deq =>
      by_cases hidle : (s.th .a).l.pc = .idle
      · have hq : Ex5.step 0 (deqCall plain) s.mem.q (s.th .a).l =
            .next s.mem.q ((s.th .a).l.call (deqCall plain)) := by
          simp only [Ex5.step, hidle]
        have hleads := leads_a hpc hq
        exact hleads.extend (exists_paused_of_busy (h.leads hleads) hready
          (by simp [Ex5.Local.call, deqCall]) (by simp [Ex5.Local.call, deqCall]))
      · exact exists_paused_of_busy h hready hpc hidle
  | pause pc =>
      have hgo : pc ≠ .go := by
        rintro rfl
        simp only [hpc] at ha
      rw [← hbefore.go]
      exact exists_announced hpc hready hgo
  | waitReady | ret | observe pc | done => simp only [hpc] at ha

/-! ## Thread B overtakes it -/

/-- The call is open, and its operation is over. -/
def Behind (y : Local) : Prop := y.l.pc.inBody = false ∧ y.l.pc ≠ .idle ∧ y.l.pc ≠ .opBegin

theorem Overtakes.held_of_behind {q : Ex5.Mem 2} {y : Local} (h : Overtakes lay q g y)
    (hbehind : Behind y) : Held lay q g y := by
  obtain ⟨hbody, hidle, hbegin⟩ := hbehind
  rcases h with ⟨-, ⟨-, hidle'⟩ | ⟨-, hwill⟩⟩ | hheld
  · exact absurd hidle' hidle
  · obtain hpc | ⟨pc, hpc, -⟩ := hwill.pc
    · exact absurd hpc hbegin
    · simp [hpc, Ex5.Pc.inBody] at hbody
  · exact hheld

theorem exists_parked_of_busy (h : Alive lay s) (hready : s.mem.ready = true)
    (hgo : s.mem.go = false) (hpc : (s.th .b).pc = .deq)
    (hbusy : (s.th .b).l.pc.inBody = true ∨ (s.th .b).l.pc = .opBegin) :
    ∃ u, Leads s u ∧ u.mem.ready = true ∧ u.mem.go = false ∧ Behind (u.th .b) := by
  obtain ⟨g, hbase, hpausing⟩ := h.pausing hready hgo
  have hcloses := closes_within (t := 1) hbase.inv hbusy (h.notNull .b)
  obtain ⟨u, hu, hready', hgo', -, hcheck | hret⟩ := exists_call_b hpc hcloses
  · refine ⟨u, hu, hready'.trans hready, hgo'.trans hgo, ?_⟩
    simp [Behind, hcheck, Ex5.Pc.inBody]
  · -- B does not return while A pauses
    obtain ⟨g', -, hpausing'⟩ := (h.leads hu).pausing (hready'.trans hready) (hgo'.trans hgo)
    rcases hpausing'.b with ⟨-, ⟨hpc' | hpc', -⟩ | ⟨hpc', -⟩⟩ | hheld
    · cases hret.symm.trans hpc'
    · cases hret.symm.trans hpc'
    · cases hret.symm.trans hpc'
    · cases hret.symm.trans hheld.pc

theorem exists_parked_of_idle (h : Alive lay s) (hready : s.mem.ready = true)
    (hgo : s.mem.go = false) (hpc : (s.th .b).pc = .deq) (hidle : (s.th .b).l.pc = .idle) :
    ∃ u, Leads s u ∧ u.mem.ready = true ∧ u.mem.go = false ∧ Behind (u.th .b) := by
  have hq : Ex5.step 1 (deqCall plain) s.mem.q (s.th .b).l =
      .next s.mem.q ((s.th .b).l.call (deqCall plain)) := by
    simp only [Ex5.step, hidle]
  have hleads := leads_b hpc hq
  exact hleads.extend (exists_parked_of_busy (h.leads hleads) hready hgo
    (by simp [Ex5.Local.call, deqCall]) (by simp [Ex5.Local.call, deqCall]))

theorem exists_parked (h : Alive lay s) (hready : s.mem.ready = true) (hgo : s.mem.go = false) :
    ∃ u, Leads s u ∧ u.mem.ready = true ∧ u.mem.go = false ∧ Behind (u.th .b) := by
  obtain ⟨g, hbase, hpausing⟩ := h.pausing hready hgo
  rcases hpausing.b with ⟨-, ⟨hpc | hpc, hidle⟩ | ⟨hpc, hwill⟩⟩ | hheld
  · have hstep : testAbaProblem .b plain s.mem (s.th .b) = .next s.mem ((s.th .b).goto .deq) := by
      simp [testAbaProblem, threadB, hpc, hready]
    have hleads := Leads.step hstep
    exact hleads.extend (exists_parked_of_idle (h.leads hleads) hready hgo (by simp)
      (by simpa using hidle))
  · exact exists_parked_of_idle h hready hgo hpc hidle
  · refine exists_parked_of_busy h hready hgo hpc ?_
    obtain hbegin | ⟨pc, hdeq, -⟩ := hwill.pc
    · exact .inr hbegin
    · exact .inl (by simp [hdeq, Ex5.Pc.inBody])
  · cases hbody : (s.th .b).l.pc.inBody with
    | true => exact exists_parked_of_busy h hready hgo hheld.pc (.inl hbody)
    | false =>
        exact ⟨s, Leads.refl s, hready, hgo, hbody, hheld.heldUp.busy, hheld.took.pc_ne_opBegin⟩

/-! ## The observer lets A go on -/

/-- How many steps the observer still takes. -/
def Local.left (x : Local) : Nat :=
  match x.pc with
  | .waitReady => 12
  | .observe .first => 11
  | .observe .next => 10
  | .observe .headMoves => 9
  | .observe .headIsB => 8
  | .observe .headMoved => 7
  | .observe .ctr => 6
  | .observe .retired => 5
  | .observe .node => 4
  | .observe .nextNull => 3
  | .observe .listOk => 2
  | .observe .go => 1
  | _ => 0

/-- The node that B has taken is not `head`, as it is not recycled. -/
theorem Held.head_ne (h : Held lay s.mem.q g (s.th .b)) (hbase : Base lay s g) :
    s.mem.q.store.head ≠ some (lay.node lay.hd) := by
  have hS := hbase.inv.shared
  have hlive := h.took.live hS (hbase.inv.own 1) h.heldUp
  intro heq
  have hhead := hS.valid.head
  rw [show (queueState s).mem.store.head = _ from heq, ← hbase.nodes.node, Option.some.injEq]
    at hhead
  have hsame := hS.valid.node_inj hlive hS.valid.live_hd hhead
  have hhd := h.hd
  omega

/-- With B in its wait, the observer does not wait. -/
theorem Pausing.observer_steps (hbase : Base lay s g) (h : Pausing lay s g)
    (hbehind : Behind (s.th .b)) :
    ∃ m' x', testAbaProblem .observer plain s.mem (s.th .observer) = .next m' x' ∧
      (m'.go = true ∨ (m'.ready = true ∧ m'.go = false ∧ x'.left < (s.th .observer).left)) := by
  have hheld := h.b.held_of_behind hbehind
  have hwatch := h.observer
  have hready := h.seen.ready
  unfold Watching at hwatch
  simp only [testAbaProblem, AbaProblem.observer]
  cases hpc : (s.th .observer).pc with
  | waitReady =>
      rw [if_neg (by simp [hready])]
      exact ⟨_, _, rfl, .inr ⟨hready, h.go, by simp [Local.left, hpc]⟩⟩
  | observe pc =>
      simp only [hpc] at hwatch
      cases pc <;> simp only [AbaProblem.observe] at hwatch ⊢
      case first | next | headMoved | retired | listOk =>
        exact ⟨_, _, rfl, .inr ⟨hready, h.go, by simp [Local.left, hpc]⟩⟩
      case headMoves =>
        rw [if_neg (hwatch.1.1 ▸ hheld.head_ne hbase)]
        exact ⟨_, _, rfl, .inr ⟨hready, h.go, by simp [Local.left, hpc]⟩⟩
      case headIsB =>
        split <;> exact ⟨_, _, rfl, .inr ⟨hready, h.go, by simp [Local.left, hpc]⟩⟩
      case ctr =>
        have heven : isOdd (s.mem.q.ctr 1) = false := hbase.inv.ctr_even hbehind.1
        rw [if_neg (by simp [heven])]
        exact ⟨_, _, rfl, .inr ⟨hready, h.go, by simp [Local.left, hpc]⟩⟩
      case node =>
        split
        · split <;> exact ⟨_, _, rfl, .inr ⟨hready, h.go, by simp [Local.left, hpc]⟩⟩
        · exact ⟨_, _, rfl, .inr ⟨hready, h.go, by simp [Local.left, hpc]⟩⟩
      case nextNull =>
        obtain ⟨r, hr, hrec⟩ := hwatch.2.1.listed hbase h.b
        simp only [hwatch.2.2.2.trans hr]
        exact ⟨_, _, rfl, .inr ⟨hready, h.go, by simp [Local.left, hpc]⟩⟩
      case go => exact ⟨_, _, rfl, .inl rfl⟩
  | deq | pause pc | ret | done => simp only [hpc] at hwatch

theorem exists_resumed (h : Alive lay s) (hready : s.mem.ready = true) (hgo : s.mem.go = false)
    (hbehind : Behind (s.th .b)) : ∃ u, Leads s u ∧ u.mem.go = true := by
  induction hk : (s.th .observer).left using Nat.strongRecOn generalizing s with
  | ind k ih =>
      obtain ⟨g, hbase, hpausing⟩ := h.pausing hready hgo
      obtain ⟨m', x', hstep, hgo' | ⟨hready', hgo', hless⟩⟩ :=
        hpausing.observer_steps hbase hbehind
      · exact ⟨_, Leads.step hstep, hgo'⟩
      · have hleads := Leads.step hstep
        exact hleads.extend (ih x'.left (hk ▸ hless) (h.leads hleads) hready' hgo'
          (by simpa using hbehind) (by simp))

/-! ## The calls return -/

theorem exists_a_done_of_deq (h : Alive lay s) (hgo : s.mem.go = true)
    (hpc : (s.th .a).pc = .deq) :
    ∃ u, Leads s u ∧ u.mem.go = true ∧ (u.th .a).pc = .done := by
  obtain ⟨g, hbase, hresumed⟩ := h.resumed hgo
  have hbusy : (s.th .a).l.pc ≠ .idle := by
    rcases hresumed.a with ⟨-, hwill, -⟩ | ⟨-, -, hfin⟩
    · exact hwill.busy
    · exact hfin.busy hpc
  have hreturns := returns_of_not_blocked (t := 0) hbase.inv hbusy (h.notNull .a)
    (not_blocked hbase.inv fun u hu => by
      obtain rfl : u = 1 := by omega
      exact hresumed.body)
  obtain ⟨u, hu, -, hgo', hret | ⟨-, hready⟩⟩ :=
    exists_call_a hpc (fun _ => hgo) (fun _ h => h) hreturns
  · have hstep : testAbaProblem .a plain u.mem (u.th .a) =
        .next { u.mem with ra := (u.th .a).l.code } ((u.th .a).goto .done) := by
      simp [testAbaProblem, threadA, hret]
    exact ⟨_, hu.trans (Leads.step hstep), hgo'.trans hgo, by simp⟩
  · cases hready.symm.trans hresumed.seen.ready

theorem exists_a_done (h : Alive lay s) (hgo : s.mem.go = true) :
    ∃ u, Leads s u ∧ u.mem.go = true ∧ (u.th .a).pc = .done := by
  obtain ⟨g, hbase, hresumed⟩ := h.resumed hgo
  have hpass : (s.th .a).pc = .pause .ready ∨ (s.th .a).pc = .pause .go →
      ∃ u, Leads s u ∧ u.mem.go = true ∧ (u.th .a).pc = .done := by
    intro hpc
    have hleads := leads_pause hpc hresumed.seen.ready hgo
    exact hleads.extend (exists_a_done_of_deq (h.leads hleads) hgo (by simp))
  rcases hresumed.a with ⟨-, -, hpc | hpc⟩ | ⟨-, -, ⟨hpc, -⟩ | ⟨hpc, -⟩ | ⟨hpc, -⟩⟩
  · exact exists_a_done_of_deq h hgo hpc
  · exact hpass hpc
  · exact exists_a_done_of_deq h hgo hpc
  · have hstep : testAbaProblem .a plain s.mem (s.th .a) =
        .next { s.mem with ra := (s.th .a).l.code } ((s.th .a).goto .done) := by
      simp [testAbaProblem, threadA, hpc]
    exact ⟨_, Leads.step hstep, hgo, by simp⟩
  · exact ⟨s, Leads.refl s, hgo, hpc⟩

/-- Thread B after its call. -/
theorem exists_b_done_of_ret (h : Alive lay s) (hgo : s.mem.go = true)
    (ha : (s.th .a).pc = .done) (hb : (s.th .b).pc = .ret ∨ (s.th .b).pc = .done) :
    ∃ u, Leads s u ∧ ∀ t, (u.th t).pc = .done := by
  obtain ⟨g, -, hresumed⟩ := h.resumed hgo
  rcases hb with hret | hdone
  · have hstep : testAbaProblem .b plain s.mem (s.th .b) =
        .next { s.mem with rb := (s.th .b).l.code } ((s.th .b).goto .done) := by
      simp [testAbaProblem, threadB, hret]
    refine ⟨_, Leads.step hstep, fun t => ?_⟩
    cases t with
    | a => simpa using ha
    | b => simp
    | observer => simpa using hresumed.observer
  · refine ⟨s, Leads.refl s, fun t => ?_⟩
    cases t with
    | a => exact ha
    | b => exact hdone
    | observer => exact hresumed.observer

theorem exists_b_done (h : Alive lay s) (hgo : s.mem.go = true) (ha : (s.th .a).pc = .done) :
    ∃ u, Leads s u ∧ ∀ t, (u.th t).pc = .done := by
  obtain ⟨g, hbase, hresumed⟩ := h.resumed hgo
  rcases hresumed.b.2 with ⟨hpc, hbusy⟩ | ⟨hpc, -⟩ | ⟨hpc, -⟩
  · have hidle : (s.th .a).l.pc = .idle := by
      rcases hresumed.a with ⟨-, -, hpc | hpc | hpc⟩ | ⟨-, -, hfin⟩
      · cases ha.symm.trans hpc
      · cases ha.symm.trans hpc
      · cases ha.symm.trans hpc
      · exact hfin.idle (by simp [ha])
    have hreturns := returns_of_not_blocked (t := 1) hbase.inv hbusy (h.notNull .b)
      (not_blocked hbase.inv fun u hu => by
        obtain rfl : u = 0 := by omega
        simp [queueState, hidle, Ex5.Pc.inBody])
    obtain ⟨u, hu, -, hgo', hua, hend⟩ := exists_call_b hpc hreturns
    have hgo' := hgo'.trans hgo
    obtain ⟨g', -, hresumed'⟩ := (h.leads hu).resumed hgo'
    refine hu.extend (exists_b_done_of_ret (h.leads hu) hgo' (by rw [hua, ha]) ?_)
    rcases hresumed'.b.2 with ⟨hpc', hbusy'⟩ | ⟨hpc', -⟩ | ⟨hpc', -⟩
    · rcases hend with hidle' | hret
      · exact absurd hidle' hbusy'
      · cases hret.symm.trans hpc'
    · exact .inl hpc'
    · exact .inr hpc'
  · exact exists_b_done_of_ret h hgo ha (.inl hpc)
  · exact exists_b_done_of_ret h hgo ha (.inr hpc)

/-! ## The end of the test -/

variable {q : Ex5.State 2} {es : List (Thread × Choice)} {a b d : Addr} {y z : Value}

theorem alive_of_run {sched : List (Fin 2 × Choice)} (hq : run Ex5.step (Ex5.init 2) sched = some q)
    (hstart : Start q a b d y z) (h : run testAbaProblem (testInit q) es = some s)
    (halloc : ∀ e ∈ es, Allocates e.2) : ∃ lay, Alive lay s := by
  obtain ⟨g, hI⟩ := exists_history hq
  have hinit : Alive g.lay (testInit q) := by
    refine ⟨⟨g, known_init hstart hI⟩, fun t => ?_⟩
    cases t with
    | a => simp [testInit, NullBlock, hstart.idle 0]
    | b => simp [testInit, NullBlock, hstart.idle 1]
    | observer => simp [testInit, NullBlock, Ex5.Local.init]
  exact ⟨g.lay, hinit.leads ⟨es, halloc, h⟩⟩

/-- **The busy-waits of the ABA test end.**  Whatever the three threads have done so far, in any
interleaving and with any spurious failures of the weak CASes, there is a continuation in which all
three come to their end; the test cannot have run into a deadlock. -/
theorem abaProblem_can_end {sched : List (Fin 2 × Choice)}
    (hq : run Ex5.step (Ex5.init 2) sched = some q) (hstart : Start q a b d y z)
    (h : run testAbaProblem (testInit q) es = some s) (halloc : ∀ e ∈ es, Allocates e.2) :
    ∃ es' s', run testAbaProblem s es' = some s' ∧ ∀ t, (s'.th t).pc = .done := by
  obtain ⟨lay, halive⟩ := alive_of_run hq hstart h halloc
  have hresumed : ∀ u : State, Alive lay u → u.mem.go = true →
      ∃ v, Leads u v ∧ ∀ t, (v.th t).pc = .done := by
    intro u hu hgo
    obtain ⟨v, hv, hgo', ha⟩ := exists_a_done hu hgo
    exact hv.extend (exists_b_done (hu.leads hv) hgo' ha)
  have hready : ∀ u : State, Alive lay u → u.mem.ready = true →
      ∃ v, Leads u v ∧ ∀ t, (v.th t).pc = .done := by
    intro u hu hready
    cases hgo : u.mem.go with
    | true => exact hresumed u hu hgo
    | false =>
        obtain ⟨v, hv, hready', hgo', hbehind⟩ := exists_parked hu hready hgo
        obtain ⟨w, hw, hgo''⟩ := exists_resumed (hu.leads hv) hready' hgo' hbehind
        exact (hv.trans hw).extend (hresumed w (hu.leads (hv.trans hw)) hgo'')
  obtain ⟨u, ⟨es', -, hrun⟩, hdone⟩ : ∃ u, Leads s u ∧ ∀ t, (u.th t).pc = .done := by
    cases hready' : s.mem.ready with
    | true => exact hready s halive hready'
    | false =>
        obtain ⟨u, hu, hready₂, -⟩ := exists_paused halive hready'
        exact hu.extend (hready u (halive.leads hu) hready₂)
  exact ⟨es', u, hrun, hdone⟩

/-- A pauses, and B has dequeued the node and waits. -/
theorem abaProblem_can_end_forced :
    ∃ q s, run Ex5.step (Ex5.init 2) enqueued = some q ∧
      run testAbaProblem (testInit q) (forced.take 27) = some s ∧
      ∃ es' s', run testAbaProblem s es' = some s' ∧ ∀ t, (s'.th t).pc = .done := by
  obtain ⟨s, hs⟩ : ∃ s, ((run Ex5.step (Ex5.init 2) enqueued).bind fun q =>
      run testAbaProblem (testInit q) (forced.take 27)) = some s := ⟨_, rfl⟩
  obtain ⟨q, hq, hrun⟩ := Option.bind_eq_some_iff.mp hs
  have halloc : ∀ e ∈ forced.take 27, Allocates e.2 := by
    intro e he
    obtain ⟨x, -, hx⟩ := List.mem_flatMap.mp (List.mem_of_mem_take he)
    obtain rfl := (List.mem_replicate.mp hx).2
    simp [Allocates, Choice.plain]
  exact ⟨q, s, hq, hrun, abaProblem_can_end hq (start_enqueued hq) hrun halloc⟩

end ConcurrentQueues.Tests.AbaProblem
