import ConcurrentQueues.Liveness
import ConcurrentQueues.Tests.DisjointIntervals

/-!
# Completion — the test of disjoint intervals ends

The `while` loops end because every item pays for one successful call of `deq`: an item that is
still to be enqueued, one in the queue, and one that has just been dequeued.
-/

namespace ConcurrentQueues

open Reasoning

/-- The item that the open call is going to put into the queue, or has taken out of it. -/
def Stage.due : Stage → Nat
  | .called (.enq _) | .taken _ _ | .unlinked _ _ => 1
  | .done (.deq code _) => if code = 1 then 1 else 0
  | _ => 0

namespace Nodes

variable {n : Nat} {t : Fin n} {mem : Bool} {mk : Option Mark} {k k' : Nodes n} {st st' : Stage}

/-- Within a call items are neither made nor lost. -/
theorem Step.due (h : Step t mem mk k st k' st') (hcall : st ≠ .idle) :
    k'.items.length + st'.due ≤ k.items.length + st.due := by
  cases h with
  | call => exact absurd rfl hcall
  | atomic _ op =>
      cases op with
      | enq v =>
          by_cases hmem : k.free t = [] ∧ mem = false
          · simp [Nodes.call, hmem, Stage.due]
          · cases hfree : k.free t <;> simp_all [Nodes.call, Nodes.take, Stage.due]
      | deq out =>
          cases hmain : k.main <;> cases hitems : k.items <;>
            simp [Nodes.call, hmain, hitems, Stage.due]
  | unlink _ out v p main items hmain hitems => simp [hitems, Stage.due]
  | ret _ res => cases res <;> simp [Stage.due]
  | silent | pop | malloc | outOfMemory | append | peek | retry | settle | push =>
      simp [Stage.due]

/-- The call and the return leave the items alone. -/
theorem Step.items_eq (h : Step t mem mk k st k' st') (hends : st = .idle ∨ st' = .idle) :
    k'.items = k.items := by
  cases h with
  | silent | call | ret => rfl
  | pop | malloc | outOfMemory | append | peek | retry | settle | unlink | push | atomic =>
      rcases hends with hends | hends <;> cases hends

end Nodes

namespace Tests

variable {n : Nat} {Q : Queue n} {C : Q.Correct} {L : Q.Live}
  {s s' : Config (Fin n) Q.Mem (Tester Q.Local)} {g g' : C.G} {ms : List (Fin n × Mark)}
  {ins outs : List (Fin n × Value)} {t : Fin n} {c : Q.Choice} {m' : Q.Mem}
  {x x' : Tester Q.Local} {b k : Nat} {es : List (Fin n × Q.Choice)}

/-- The calls that the thread has still to begin, beside those that the items in the queue pay. -/
def Tester.calls (C : Q.Correct) (x : Tester Q.Local) : Nat :=
  match x.loc with
  | .enq rest =>
      if Q.idle x.l then 2 * rest.length + 1
      else 2 * rest.length - 1 + (C.moves.stage x.l).due
  | .deq => if Q.idle x.l then 1 else (C.moves.stage x.l).due
  | .done => 0

/-- The step from the first loop to the second. -/
def Tester.turns (x : Tester Q.Local) : Nat :=
  match x.loc with
  | .enq _ => 1
  | .deq | .done => 0

/-- What the calls cost at most that are open or still to come. -/
def work (C : Q.Correct) (L : Q.Live) (s : Config (Fin n) Q.Mem (Tester Q.Local)) (g : C.G)
    (k : Nat) : Nat :=
  Queue.bill L.price k (∑ t, (s.th t).calls C + (C.moves.nodes s.mem g).items.length)
    (∑ t, (s.th t).turns)

def Works (C : Q.Correct) (L : Q.Live) (s : Config (Fin n) Q.Mem (Tester Q.Local)) (b : Nat) :
    Prop :=
  ∃ g ms ins outs k, Known C s g ms ins outs ∧ L.costs (queueState Q Tester.l s) k ∧
    b = work C L s g k

/-- A step that costs less than it takes off. -/
structure Pays (C : Q.Correct) (L : Q.Live) (m : Q.Mem) (g : C.G) (k : Nat) (x : Tester Q.Local)
    (m' : Q.Mem) (g' : C.G) (k' : Nat) (x' : Tester Q.Local) : Prop where
  calls : x'.calls C + (C.moves.nodes m' g').items.length ≤
    x.calls C + (C.moves.nodes m g).items.length
  turns : x'.turns ≤ x.turns
  less : k' < k ∨ (k' ≤ k + L.price ∧ x'.calls C + (C.moves.nodes m' g').items.length <
    x.calls C + (C.moves.nodes m g).items.length) ∨ (k' ≤ k ∧ x'.turns < x.turns)

theorem Pays.work_lt {k' : Nat} (h : Pays C L s.mem g k (s.th t) m' g' k' x') :
    work C L ⟨m', Function.update s.th t x'⟩ g' k' < work C L s g k := by
  have hcalls := sum_update (fun _ y => y.calls C) s.th t x'
  have hturns := sum_update (fun _ => Tester.turns) s.th t x'
  obtain ⟨hle, hturn, hless⟩ := h
  apply Queue.bill_lt <;> dsimp only <;> omega

/-! ## Every step pays -/

/-- No step adds to the calls that are still to come, not even if `malloc` fails. -/
theorem Known.calls_le (h : Known C s g ms ins outs) (hs : TestStep t c s.mem (s.th t) m' x')
    (hmoves : Moves C t s.mem g (s.th t) m' g' x') :
    x'.calls C + (C.moves.nodes m' g').items.length ≤
        (s.th t).calls C + (C.moves.nodes s.mem g).items.length ∧
      x'.turns ≤ (s.th t).turns := by
  obtain ⟨mem, mk, hmove⟩ := hmoves
  have hstage : ∀ {l : Q.Local}, Q.idle l = true → C.moves.stage l = .idle :=
    fun hidle => (C.idle_iff _).mp hidle
  cases hs with
  | turn hloc =>
      have hidle := (h.noted t).idle_of_nil hloc
      have hitems := hmove.items_eq (.inl (hstage hidle))
      refine ⟨?_, Nat.zero_le _⟩
      simp [Tester.calls, hloc, hidle, hitems]
  | @call op m' l' hcalls hstep hmark =>
      obtain ⟨g₁, -, hmove'⟩ := C.exists_step (t := t) h.inv hstep
      refine ⟨?_, le_rfl⟩
      cases hidle : Q.idle (s.th t).l with
      | true =>
          -- the call begins
          have hcalled := hmove'.of_call (C.mark_calling hidle)
          have hbusy : Q.idle l' = false := C.busy_of_stage (by simp [hcalled])
          have hitems := hmove.items_eq (.inl (hstage hidle))
          cases hcalls with
          | enq hloc =>
              simp only [Tester.calls, hloc, hidle, hbusy, hcalled, Stage.due, hitems,
                List.length_cons]
              simp
          | deq hloc => simp [Tester.calls, hloc, hidle, hbusy, hcalled, Stage.due, hitems]
      | false =>
          have hst := C.stage_of_busy hidle
          have hbusy : Q.idle l' = false := C.busy_of_stage (hmove'.busy hst hmark)
          have hdue : (C.moves.nodes m' g').items.length + (C.moves.stage l').due ≤
              (C.moves.nodes s.mem g).items.length + (C.moves.stage (s.th t).l).due :=
            hmove.due hst
          cases hcalls with
          | enq hloc =>
              simp only [Tester.calls, hloc, hidle, hbusy, if_false, Bool.false_eq_true]
              omega
          | deq hloc =>
              simp only [Tester.calls, hloc, hidle, hbusy, if_false, Bool.false_eq_true]
              omega
  | @enqReturn item rest m' l' code hloc hstep hmark =>
      obtain ⟨hidle, hbusy, hdone, -⟩ := C.of_ret (t := t) h.inv (h.noted t).codeOk hstep hmark
      have hitems := hmove.items_eq (.inr (hstage hidle))
      have hdue : (C.moves.stage (s.th t).l).due = 0 := by
        rw [show C.moves.stage (s.th t).l = _ from hdone]
        rfl
      have hopen : Q.idle (s.th t).l = false := hbusy
      refine ⟨?_, ?_⟩
      · simp only [Tester.calls, Tester.enqReturn, hloc, hidle, hopen, hdue, hitems,
          List.length_cons, if_true, if_false, Bool.false_eq_true]
        omega
      · simp [Tester.turns, Tester.enqReturn, hloc]
  | @deqReturn m' l' code out hloc hstep hmark =>
      obtain ⟨hidle, hbusy, hdone, hcode⟩ :=
        C.of_ret (t := t) h.inv (h.noted t).codeOk hstep hmark
      have hitems := hmove.items_eq (.inr (hstage hidle))
      have hdue : (C.moves.stage (s.th t).l).due = if code = 1 then 1 else 0 := by
        rw [show C.moves.stage (s.th t).l = _ from hdone]
        rfl
      have hopen : Q.idle (s.th t).l = false := hbusy
      refine ⟨?_, ?_⟩
      · obtain rfl | rfl := hcode <;>
          simp [Tester.calls, Tester.deqReturn, hloc, hidle, hopen, hdue, hitems]
      · obtain rfl | rfl := hcode <;> simp [Tester.turns, Tester.deqReturn]

theorem Known.pays (h : Known C s g ms ins outs) (hk : L.costs (queueState Q Tester.l s) k)
    (hgood : Q.Good c) (hgo : ¬ L.waits (queueState Q Tester.l s) t)
    (hs : TestStep t c s.mem (s.th t) m' x') (hmoves : Moves C t s.mem g (s.th t) m' g' x') :
    ∃ k', L.costs (queueState Q Tester.l ⟨m', Function.update s.th t x'⟩) k' ∧
      Pays C L s.mem g k (s.th t) m' g' k' x' := by
  obtain ⟨hle, hturns⟩ := h.calls_le hs hmoves
  have hsame : x'.l = (s.th t).l →
      queueState Q Tester.l ⟨s.mem, Function.update s.th t x'⟩ = queueState Q Tester.l s :=
    queueState_same
  cases hs with
  | turn hloc =>
      refine ⟨k, ?_, hle, hturns, .inr (.inr ⟨le_rfl, ?_⟩)⟩
      · rwa [hsame rfl]
      · simp [Tester.turns, hloc]
  | @call op m' l' hcalls hstep hmark =>
      rw [queueState_update]
      cases hidle : Q.idle (s.th t).l with
      | true =>
          -- the call begins
          obtain ⟨g₁, -, hmove'⟩ := C.exists_step (t := t) h.inv hstep
          obtain ⟨mem, mk, hmove⟩ := hmoves
          have hcalled := hmove'.of_call (C.mark_calling hidle)
          have hbusy : Q.idle l' = false := C.busy_of_stage (by simp [hcalled])
          have hitems := hmove.items_eq (.inl ((C.idle_iff _).mp hidle))
          obtain ⟨k', hprice, hk'⟩ := L.begin_call (t := t) hk hidle hstep
          refine ⟨k', hk', hle, hturns, .inr (.inl ⟨hprice, ?_⟩)⟩
          cases hcalls with
          | enq hloc =>
              simp only [Tester.calls, hloc, hidle, hbusy, hcalled, Stage.due, hitems,
                List.length_cons]
              simp
          | deq hloc => simp [Tester.calls, hloc, hidle, hbusy, hcalled, Stage.due, hitems]
      | false =>
          obtain ⟨k', hlt, hk'⟩ := L.lower_call (t := t) hk hidle hgood hgo hstep
          exact ⟨k', hk', hle, hturns, .inl hlt⟩
  | enqReturn hloc hstep hmark =>
      rw [queueState_update]
      obtain ⟨k', hlt, hk'⟩ := L.lower_call (t := t) hk (C.busy_of_ret hmark) hgood hgo hstep
      exact ⟨k', hk', hle, hturns, .inl hlt⟩
  | deqReturn hloc hstep hmark =>
      rw [queueState_update]
      obtain ⟨k', hlt, hk'⟩ := L.lower_call (t := t) hk (C.busy_of_ret hmark) hgood hgo hstep
      exact ⟨k', hk', hle, hturns, .inl hlt⟩

theorem Works.lower (h : Works C L s b) (hgood : Q.Good c)
    (hgo : ¬ L.waits (queueState Q Tester.l s) t)
    (hf : fire (disjointIntervals Q) s (t, c) = some s') : ∃ b' < b, Works C L s' b' := by
  obtain ⟨g, ms, ins, outs, k, hknown, hk, rfl⟩ := h
  obtain ⟨m', x', hstep, rfl⟩ := fire_eq_some.mp hf
  have hs := disjointIntervals_cases hstep
  obtain ⟨g', ms', ins', outs', hknown', hmoves⟩ := hknown.step hs
  obtain ⟨k', hk', hpays⟩ := hknown.pays hk hgood hgo hs hmoves
  exact ⟨_, hpays.work_lt, g', ms', ins', outs', k', hknown', hk', rfl⟩

/-! ## The end of the test -/

/-- A thread in a call is in a loop. -/
theorem Known.kind_of_busy (h : Known C s g ms ins outs) (hbusy : Q.idle (s.th t).l = false) :
    (s.th t).loc ≠ .done := by
  intro hdone
  have hkind := (h.noted t).kind hbusy
  rw [hdone] at hkind
  have hidle := (C.idle_iff _).mpr (Stage.kind_eq_none_iff.mp hkind)
  rw [hbusy] at hidle
  cases hidle

/-- A turn of the busy-wait changes nothing. -/
theorem Works.wait (h : Works C L s b) (hwaits : L.waits (queueState Q Tester.l s) t)
    (hf : fire (disjointIntervals Q) s (t, c) = some s') : s' = s := by
  obtain ⟨g, ms, ins, outs, k, hknown, hk, rfl⟩ := h
  obtain ⟨m', x', hnext, rfl⟩ := fire_eq_some.mp hf
  have hs := disjointIntervals_cases hnext
  dsimp only at hs ⊢
  clear hf hnext
  have hbusy : Q.idle (s.th t).l = false := L.busy hwaits
  cases hs with
  | turn hloc =>
      have hidle := (hknown.noted t).idle_of_nil hloc
      rw [hbusy] at hidle
      cases hidle
  | call hcalls hstep hmark =>
      obtain ⟨rfl, rfl⟩ := L.wait_call (t := t) hk hwaits hstep
      simp [queueState]
  | enqReturn hloc hstep hmark =>
      exact absurd hmark (L.not_ret (t := t) hk hknown.inv hwaits hstep _)
  | deqReturn hloc hstep hmark =>
      exact absurd hmark (L.not_ret (t := t) hk hknown.inv hwaits hstep _)

theorem Works.enabled (h : Works C L s b) (hloc : (s.th t).loc ≠ .done) (hgood : Q.Good c)
    (hgo : ¬ L.waits (queueState Q Tester.l s) t) :
    ∃ s', fire (disjointIntervals Q) s (t, c) = some s' := by
  obtain ⟨g, ms, ins, outs, k, hknown, hk, rfl⟩ := h
  have hkind : ∀ res, C.moves.stage (s.th t).l = .done res →
      (s.th t).loc.kind = some (.ofRes res) := by
    intro res hdone
    rw [← (hknown.noted t).kind (C.busy_of_stage (by simp [hdone])), hdone]
    rfl
  suffices hnext : ∃ m' x', disjointIntervals Q t c s.mem (s.th t) = .next m' x' by
    obtain ⟨m', x', hx'⟩ := hnext
    exact ⟨_, fire_eq_some.mpr ⟨m', x', hx', rfl⟩⟩
  unfold disjointIntervals
  cases hl : (s.th t).loc with
  | enq rest =>
      cases rest with
      | nil => exact ⟨_, _, rfl⟩
      | cons item rest =>
          obtain ⟨m', l', hstep⟩ := L.enabled_call (t := t) hk hgood hgo
          refine ⟨m', C.exists_inCall (t := t) hknown.inv hstep fun res hdone => ?_⟩
          have hres := hkind res hdone
          cases res with
          | enq code => exact ⟨_, rfl⟩
          | deq code out =>
              rw [hl] at hres
              cases hres
  | deq =>
      obtain ⟨m', l', hstep⟩ := L.enabled_call (t := t) hk hgood hgo
      refine ⟨m', C.exists_inCall (t := t) hknown.inv hstep fun res hdone => ?_⟩
      have hres := hkind res hdone
      cases res with
      | deq code out => exact ⟨_, rfl⟩
      | enq code =>
          rw [hl] at hres
          cases hres
  | done => exact absurd hl hloc

theorem settles (C : Q.Correct) (L : Q.Live) :
    Settles (disjointIntervals Q) Q.Good (fun x => x.loc ≠ .done)
      (fun s t => L.waits (queueState Q Tester.l s) t) (Works C L) where
  wait := fun h => h.wait
  lower := fun h _ hgood hgo hf => h.lower hgood hgo hf
  enabled := fun h hloc hgo _ hgood => h.enabled hloc hgood hgo
  goes := by
    rintro s b t ⟨g, ms, ins, outs, k, hknown, hk, rfl⟩ hloc
    cases hidle : Q.idle (s.th t).l with
    | true =>
        refine ⟨t, hloc, fun hwaits => ?_⟩
        have hbusy := L.busy hwaits
        simp [queueState, hidle] at hbusy
    | false =>
        obtain ⟨u, hu, hgo⟩ := L.settles.goes (t := t) hk hidle
        exact ⟨u, hknown.kind_of_busy hu, hgo⟩

/-- What is known after a beginning in which no `malloc` has failed: what the open calls cost, and
that no calls have come in addition. -/
structure Begun (C : Q.Correct) (L : Q.Live) (items : Fin n → List Value)
    (s : Config (Fin n) Q.Mem (Tester Q.Local)) (g : C.G) (k : Nat) : Prop where
  costs : L.costs (queueState Q Tester.l s) k
  calls : ∑ t, (s.th t).calls C + (C.moves.nodes s.mem g).items.length ≤
    ∑ t, (2 * (items t).length + 1)
  turns : ∑ t, (s.th t).turns ≤ n

theorem begun_init (C : Q.Correct) (L : Q.Live) (items : Fin n → List Value) :
    ∃ k, Begun C L items (testInit Q items) C.start k := by
  obtain ⟨k, hk⟩ := L.init
  have hcalls : ∀ t, ((testInit Q items).th t).calls C = 2 * (items t).length + 1 := by
    intro t
    simp [Tester.calls, testInit, C.quiet_init t]
  have hnodes : C.moves.nodes (testInit Q items).mem C.start = Nodes.init n := C.nodes_init
  refine ⟨k, hk, ?_, ?_⟩
  · simp [hcalls, hnodes]
  · simp [Tester.turns, testInit]

theorem Begun.step {items : Fin n → List Value} (h : Begun C L items s g k)
    (hknown : Known C s g ms ins outs) (hmem : Q.allocates c = true)
    (hs : TestStep t c s.mem (s.th t) m' x') (hmoves : Moves C t s.mem g (s.th t) m' g' x') :
    ∃ k', Begun C L items ⟨m', Function.update s.th t x'⟩ g' k' := by
  obtain ⟨hle, hturn⟩ := hknown.calls_le hs hmoves
  have hcalls := sum_update (fun _ y => y.calls C) s.th t x'
  have hturns := sum_update (fun _ => Tester.turns) s.th t x'
  have hbefore := h.calls
  have hbefore' := h.turns
  obtain ⟨k', hk'⟩ := L.exists_costs_caller h.costs hmem hs.queue
  refine ⟨k', hk', ?_, ?_⟩
  · dsimp only
    omega
  · dsimp only
    omega

theorem exists_begun (C : Q.Correct) (L : Q.Live) (items : Fin n → List Value)
    (h : run (disjointIntervals Q) (testInit Q items) es = some s)
    (hmem : ∀ e ∈ es, Q.allocates e.2 = true) :
    ∃ g ms ins outs k, Known C s g ms ins outs ∧ Begun C L items s g k := by
  induction es using List.reverseRecOn generalizing s with
  | nil =>
      cases h
      obtain ⟨k, hk⟩ := begun_init C L items
      exact ⟨C.start, [], [], [], k, known_init C items, hk⟩
  | append_singleton es e ih =>
      obtain ⟨v, hv, hf⟩ := run_snoc.mp h
      obtain ⟨g, ms, ins, outs, k, hknown, hbegun⟩ :=
        ih hv fun d hd => hmem d (List.mem_append_left _ hd)
      obtain ⟨m', x', hstep, rfl⟩ := fire_eq_some.mp hf
      have hs := disjointIntervals_cases hstep
      obtain ⟨g', ms', ins', outs', hknown', hmoves⟩ := hknown.step hs
      obtain ⟨k', hbegun'⟩ := hbegun.step hknown (hmem e (by simp)) hs hmoves
      exact ⟨g', ms', ins', outs', k', hknown', hbegun'⟩

theorem exists_works (C : Q.Correct) (L : Q.Live) (items : Fin n → List Value)
    (h : run (disjointIntervals Q) (testInit Q items) es = some s)
    (hmem : ∀ e ∈ es, Q.allocates e.2 = true) :
    ∃ b ≤ n * L.price + (L.price + 1) * ∑ t, (2 * (items t).length + 1) + n, Works C L s b := by
  obtain ⟨g, ms, ins, outs, k, hknown, hbegun⟩ := exists_begun C L items h hmem
  refine ⟨_, ?_, g, ms, ins, outs, k, hknown, hbegun.costs, rfl⟩
  have hle := L.le hbegun.costs
  have hmul := Nat.mul_le_mul_left (L.price + 1) hbegun.calls
  have hturns := hbegun.turns
  unfold work Queue.bill
  omega

/-- The threads that are done cannot move. -/
theorem onlyActive (hgood : ∀ e ∈ es, Q.Good e.2) :
    OnlyActive (disjointIntervals Q) Q.Good (fun x => x.loc ≠ .done) s es := by
  rintro fs e gs u v rfl - hf
  refine ⟨fun hloc => ?_, hgood e (by simp)⟩
  obtain ⟨m', x', hstep, -⟩ := fire_eq_some.mp hf
  simp only [disjointIntervals, hloc] at hstep
  cases hstep

/-- **The test of disjoint intervals ends.**  Whatever items the threads have and whatever the
version is, after any beginning in which no `malloc` has failed (weak CASes may have): every fair
schedule with more rounds than the calls can cost, without failures of `malloc` and spurious
failures of the weak CASes, brings all threads behind their loops, and there is such a schedule. -/
theorem disjointIntervals_ends (n v : Nat) (_ : v ∈ testedVersions) (items : Fin n → List Value)
    {es : List (Fin n × (version n v).Choice)}
    {s : Config (Fin n) (version n v).Mem (Tester (version n v).Local)}
    (h : run (disjointIntervals (version n v)) (testInit (version n v) items) es = some s)
    (hmem : ∀ e ∈ es, (version n v).allocates e.2 = true) :
    (∀ rounds s', Rounds (disjointIntervals (version n v)) (fun x => x.loc ≠ .done) s rounds →
      run (disjointIntervals (version n v)) s rounds.flatten = some s' →
      (∀ e ∈ rounds.flatten, (version n v).Good e.2) →
      n * price n v + (price n v + 1) * ∑ t, (2 * (items t).length + 1) + n < rounds.length →
      ∀ t, (s'.th t).loc = .done) ∧
    ∃ es' s', run (disjointIntervals (version n v)) s es' = some s' ∧
      (∀ e ∈ es', (version n v).Good e.2) ∧ ∀ t, (s'.th t).loc = .done := by
  obtain ⟨C⟩ := version_correct n v
  obtain ⟨L, hprice⟩ := exists_live n v
  obtain ⟨c, hc⟩ := C.strong
  obtain ⟨b, hle, hb⟩ := exists_works C L items h hmem
  rw [hprice] at hle
  constructor
  · intro rounds s' hfair hrun hgood' hlong t
    exact not_not.mp ((settles C L).rests hc hb hfair hrun (onlyActive hgood') (by omega) t)
  · obtain ⟨es', s', -, hrun, hall, hdone⟩ := (settles C L).exists_rest hc hb
    exact ⟨es', s', hrun, hall.ok hrun, fun t => not_not.mp (hdone t)⟩

/-- Two threads of Ex5 with one item each, of which thread 1 is inside its first call, where no CAS
has succeeded. -/
theorem disjointIntervals_ends_begun :
    ∃ s, run (disjointIntervals (version 2 5)) (testInit (version 2 5) fun t => interval 1 t)
        (List.replicate 20 (1, { Ex5.Choice.plain (.deq 0) with spurious := true })) = some s ∧
      (s.th 1).loc = .enq [1] ∧ (version 2 5).idle (s.th 1).l = false ∧
      ∃ es s', run (disjointIntervals (version 2 5)) s es = some s' ∧
        ∀ t, (s'.th t).loc = .done := by
  obtain ⟨s, hs⟩ : ∃ s, run (disjointIntervals (version 2 5))
      (testInit (version 2 5) fun t => interval 1 t)
      (List.replicate 20 (1, { Ex5.Choice.plain (.deq 0) with spurious := true })) = some s :=
    ⟨_, rfl⟩
  have hloc : (s.th 1).loc = .enq [1] := run_observe hs (fun s => (s.th 1).loc) rfl
  have hbusy : (version 2 5).idle (s.th 1).l = false :=
    run_observe hs (fun s => (version 2 5).idle (s.th 1).l) rfl
  have hmem : ∀ e ∈ List.replicate 20 ((1, { Ex5.Choice.plain (.deq 0) with spurious := true }) :
      Fin 2 × (version 2 5).Choice), (version 2 5).allocates e.2 = true := by
    intro e he
    obtain rfl := (List.mem_replicate.mp he).2
    rfl
  obtain ⟨-, es, s', hrun, -, hdone⟩ := disjointIntervals_ends 2 5 (by decide) _ hs hmem
  exact ⟨s, hs, hloc, hbusy, es, s', hrun, hdone⟩

end Tests

end ConcurrentQueues
