import ConcurrentQueues.Callers
import ConcurrentQueues.Bench.Balanced

/-!
# DisjointIntervals — the concurrent test of the queues

The tests of Ex2, Ex4 and Ex5 let every thread enqueue an interval of its own and then dequeue until
it finds the queue empty.  Whatever the interleaving, the last thread that finds the queue empty
does so after all values have been enqueued, so nothing is left behind.
-/

namespace ConcurrentQueues

open Reasoning

namespace Tests

/-- The place in the test: the loop over the items that are left, the `while` loop, or behind it. -/
inductive Loc where
  | enq (rest : List Value)
  | deq
  | done
  deriving DecidableEq

/-- The locals of a thread.  The last two fields are not in the code: the items that have been
enqueued and the values that have been dequeued. -/
structure Tester (L : Type) where
  loc : Loc
  localEnqueued : Value
  localDequeued : Value
  v : Value
  l : L
  put : List Value
  got : List Value

variable {n : Nat}

section Program

variable (Q : Queue n)

/-- `if (enq(item, &q, thread_id) == 1) local_enqueued += item;` -/
def Tester.enqReturn (item : Value) (rest : List Value) (l : Q.Local) (code : Int)
    (x : Tester Q.Local) : Tester Q.Local :=
  { x with
    loc := .enq rest
    localEnqueued := if code = 1 then x.localEnqueued + item else x.localEnqueued
    l := l
    put := if code = 1 then x.put ++ [item] else x.put }

/-- `while (deq(&v, &q, thread_id, NULL)) local_dequeued += v;` -/
def Tester.deqReturn (l : Q.Local) (code : Int) (out : Value) (x : Tester Q.Local) :
    Tester Q.Local :=
  { x with
    loc := if code = 0 then .done else .deq
    localDequeued := if code = 0 then x.localDequeued else x.localDequeued + out
    v := out
    l := l
    got := if code = 0 then x.got else x.got ++ [out] }

/-- The parallel region of the test. -/
def disjointIntervals : Program (Fin n) Q.Choice Q.Mem (Tester Q.Local) := fun t c m x =>
  match x.loc with
  | .enq [] => .next m { x with loc := .deq }
  | .enq (item :: rest) =>
      inCall Q t (.enq item) false c m x.l (fun l' => { x with l := l' }) fun _ l' res =>
        match res with
        | .enq code => some (x.enqReturn Q item rest l' code)
        | .deq _ _ => none
  | .deq =>
      inCall Q t (.deq x.v) false c m x.l (fun l' => { x with l := l' }) fun _ l' res =>
        match res with
        | .enq _ => none
        | .deq code out => some (x.deqReturn Q l' code out)
  | .done => .blocked

/-- The beginning of the region: every thread has its items. -/
def testInit (items : Fin n → List Value) : Config (Fin n) Q.Mem (Tester Q.Local) where
  mem := Q.init.mem
  th t :=
    { loc := .enq (items t)
      localEnqueued := 0
      localDequeued := 0
      v := 0
      l := Q.init.th t
      put := []
      got := [] }

/-- `items[thread_id * items_per_thread]` to the end of the interval. -/
def interval (itemsPerThread tid : Nat) : List Value :=
  (List.range itemsPerThread).map fun i => Int32.ofNat (tid * itemsPerThread + i)

/-- `total_enqueued` and `total_dequeued`, to which the threads add in some order. -/
def total (order : List (Fin n)) (sum : Fin n → Value) : Value :=
  order.foldl (fun s t => s + sum t) 0

end Program

/-! ## What a step can do -/

section Cases

variable {Q : Queue n} {t : Fin n} {c : Q.Choice} {m m' : Q.Mem} {x x' : Tester Q.Local}

/-- The call a thread is in, or begins. -/
inductive Calls {L : Type} (x : Tester L) : Op Value → Prop
  | enq {item rest} (hloc : x.loc = .enq (item :: rest)) : Calls x (.enq item)
  | deq (hloc : x.loc = .deq) : Calls x (.deq x.v)

/-- The steps of the test: the end of the first loop, and those of the queue. -/
inductive TestStep (t : Fin n) (c : Q.Choice) (m : Q.Mem) (x : Tester Q.Local) :
    Q.Mem → Tester Q.Local → Prop
  | turn (hloc : x.loc = .enq []) : TestStep t c m x m { x with loc := .deq }
  | call {op m' l'} (hcalls : Calls x op)
      (hstep : Q.step t (Q.calling op false c) m x.l = .next m' l')
      (hmark : ∀ res, Q.mark t (Q.calling op false c) m x.l ≠ some (.ret res)) :
      TestStep t c m x m' { x with l := l' }
  | enqReturn {item rest m' l' code} (hloc : x.loc = .enq (item :: rest))
      (hstep : Q.step t (Q.calling (.enq item) false c) m x.l = .next m' l')
      (hmark : Q.mark t (Q.calling (.enq item) false c) m x.l = some (.ret (.enq code))) :
      TestStep t c m x m' (x.enqReturn Q item rest l' code)
  | deqReturn {m' l' code out} (hloc : x.loc = .deq)
      (hstep : Q.step t (Q.calling (.deq x.v) false c) m x.l = .next m' l')
      (hmark : Q.mark t (Q.calling (.deq x.v) false c) m x.l = some (.ret (.deq code out))) :
      TestStep t c m x m' (x.deqReturn Q l' code out)

/-- A step is a step of the queue, or leaves the queue alone. -/
theorem TestStep.queue (h : TestStep t c m x m' x') :
    (m' = m ∧ x'.l = x.l) ∨ ∃ op, Q.step t (Q.calling op false c) m x.l = .next m' x'.l := by
  cases h with
  | turn => exact .inl ⟨rfl, rfl⟩
  | call hcalls hstep => exact .inr ⟨_, hstep⟩
  | enqReturn hloc hstep => exact .inr ⟨_, hstep⟩
  | deqReturn hloc hstep => exact .inr ⟨_, hstep⟩

theorem disjointIntervals_cases (h : disjointIntervals Q t c m x = .next m' x') :
    TestStep t c m x m' x' := by
  unfold disjointIntervals at h
  split at h
  next hloc =>
    cases h
    exact .turn hloc
  next item rest hloc =>
    obtain ⟨l', hstep, ⟨hmark, rfl⟩ | ⟨res, hmark, hback⟩⟩ := inCall_cases h
    · exact .call (.enq hloc) hstep hmark
    · cases res with
      | enq code =>
          cases hback
          exact .enqReturn hloc hstep hmark
      | deq code out => cases hback
  next hloc =>
    obtain ⟨l', hstep, ⟨hmark, rfl⟩ | ⟨res, hmark, hback⟩⟩ := inCall_cases h
    · exact .call (.deq hloc) hstep hmark
    · cases res with
      | enq code => cases hback
      | deq code out =>
          cases hback
          exact .deqReturn hloc hstep hmark
  next => cases h

end Cases

/-! ## What is known of the test -/

section Run

variable {Q : Queue n} {C : Q.Correct} {s : Config (Fin n) Q.Mem (Tester Q.Local)} {g : C.G}
  {ms : List (Fin n × Mark)} {ins outs : List (Fin n × Value)} {t u : Fin n} {c : Q.Choice}
  {m' : Q.Mem} {x x' : Tester Q.Local} {mk : Option Mark}

/-- The function that is called. -/
def Loc.kind : Loc → Option Kind
  | .enq _ => some .enq
  | .deq => some .deq
  | .done => none

/-- A thread and the marks of its calls. -/
structure Tester.Noted (C : Q.Correct) (t : Fin n) (x : Tester Q.Local)
    (ms : List (Fin n × Mark)) : Prop
    extends ConcurrentQueues.Noted C t x.l (Calls x) x.put x.got ms where
  localEnqueued : x.localEnqueued = x.put.foldl (· + ·) 0
  localDequeued : x.localDequeued = x.got.foldl (· + ·) 0

/-- The thread is going to look at the queue again before it is done. -/
def Awake (C : Q.Correct) (x : Tester Q.Local) : Prop :=
  (∃ rest, x.loc = .enq rest) ∨ (x.loc = .deq ∧ (C.moves.stage x.l).Served)

/-- What is known at every step: all that has passed through the queue, and that values are left in
it only as long as somebody is going to look at it again. -/
structure Known (C : Q.Correct) (s : Config (Fin n) Q.Mem (Tester Q.Local)) (g : C.G)
    (ms : List (Fin n × Mark)) (ins outs : List (Fin n × Value)) : Prop where
  inv : C.I (queueState Q Tester.l s) g
  length_main : (C.moves.nodes s.mem g).main.length = (C.moves.nodes s.mem g).items.length + 1
  flow : Flow (C.moves.nodes s.mem g) (fun t => C.moves.stage (s.th t).l) ms ins outs
  noted : ∀ t, (s.th t).Noted C t ms
  awake : (C.moves.nodes s.mem g).items ≠ [] → ∃ t, Awake C (s.th t)

section Noted

variable {x : Tester Q.Local}

theorem Tester.Noted.kind (h : x.Noted C t ms) (hbusy : Q.idle x.l = false) :
    (C.moves.stage x.l).kind = x.loc.kind := by
  obtain ⟨op, hcalls, hkind, -⟩ := h.inside hbusy
  rw [hkind]
  cases hcalls with
  | enq hloc => rw [hloc]; rfl
  | deq hloc => rw [hloc]; rfl

theorem Tester.Noted.offered (h : x.Noted C t ms) (hbusy : Q.idle x.l = false) {item : Value}
    {rest : List Value} (hloc : x.loc = .enq (item :: rest)) : (entries t ms).offered = item := by
  obtain ⟨op, hcalls, -, hoff⟩ := h.inside hbusy
  cases hcalls with
  | enq hloc' =>
      cases hloc'.symm.trans hloc
      exact hoff _ rfl
  | deq hloc' => cases hloc'.symm.trans hloc

/-- Between two items the thread is in no call. -/
theorem Tester.Noted.idle_of_nil (h : x.Noted C t ms) (hloc : x.loc = .enq []) :
    Q.idle x.l = true := by
  cases hidle : Q.idle x.l with
  | true => rfl
  | false =>
      obtain ⟨op, hcalls, -⟩ := h.inside hidle
      cases hcalls with
      | enq hloc' => cases hloc'.symm.trans hloc
      | deq hloc' => cases hloc'.symm.trans hloc

end Noted

/-- Whoever fills the queue looks at it again later. -/
theorem Known.awake_step (h : Known C s g ms ins outs) {mem : Bool} {k' : Nodes n}
    (hmove : Nodes.Step t mem mk (C.moves.nodes s.mem g) (C.moves.stage (s.th t).l) k'
      (C.moves.stage x'.l))
    (henq : ∀ rest, (s.th t).loc = .enq rest → ∃ rest', x'.loc = .enq rest')
    (hdeq : (s.th t).loc = .deq → (C.moves.stage (s.th t).l).Served → x'.loc = .deq)
    (hitems : k'.items ≠ []) : ∃ u, Awake C (Function.update s.th t x' u) := by
  by_cases hempty : (C.moves.nodes s.mem g).items = []
  · -- the thread is in a call of `enq`
    have hkind := hmove.kind_of_fill hempty hitems
    have hbusy : Q.idle (s.th t).l = false := C.busy_of_stage fun hst => by
      rw [hst] at hkind
      cases hkind
    rw [(h.noted t).kind hbusy] at hkind
    cases hloc : (s.th t).loc with
    | enq rest =>
        refine ⟨t, .inl ?_⟩
        simpa using henq rest hloc
    | deq | done =>
        rw [hloc] at hkind
        cases hkind
  · obtain ⟨u, hu⟩ := h.awake hempty
    by_cases hut : u = t
    · subst hut
      refine ⟨u, ?_⟩
      rw [Function.update_self]
      rcases hu with ⟨rest, hloc⟩ | ⟨hloc, hserved⟩
      · exact .inl (henq rest hloc)
      · have hserved' := hmove.served hserved h.length_main fun _ _ _ => hempty
        exact .inr ⟨hdeq hloc hserved, hserved'⟩
    · exact ⟨u, by rwa [Function.update_of_ne hut]⟩

/-- The step moves nodes as a call does. -/
def Moves (C : Q.Correct) (t : Fin n) (m : Q.Mem) (g : C.G) (x : Tester Q.Local) (m' : Q.Mem)
    (g' : C.G) (x' : Tester Q.Local) : Prop :=
  ∃ mem mk, Nodes.Step t mem mk (C.moves.nodes m g) (C.moves.stage x.l) (C.moves.nodes m' g')
    (C.moves.stage x'.l)

/-- A step of the queue, with what it does to the notes of its thread. -/
theorem Known.queue {y : Tester Q.Local} (h : Known C s g ms ins outs) {op : Op Value}
    (hstep : Q.step t (Q.calling op false c) s.mem (s.th t).l = .next m' y.l)
    (hnoted : y.Noted C t
      (ms ++ ((Q.mark t (Q.calling op false c) s.mem (s.th t).l).map (t, ·)).toList))
    (henq : ∀ rest, (s.th t).loc = .enq rest → ∃ rest', y.loc = .enq rest')
    (hdeq : (s.th t).loc = .deq → (C.moves.stage (s.th t).l).Served → y.loc = .deq) :
    ∃ g' ms' ins' outs', Known C ⟨m', Function.update s.th t y⟩ g' ms' ins' outs' ∧
      Moves C t s.mem g (s.th t) m' g' y := by
  obtain ⟨g', hI', hmove⟩ := C.exists_step (t := t) h.inv hstep
  obtain ⟨ins', outs', hflow, -, -⟩ := h.flow.step (t := t) hmove
  have hstage : (fun u => C.moves.stage (Function.update s.th t y u).l) =
      Function.update (fun u => C.moves.stage (s.th u).l) t (C.moves.stage y.l) := by
    funext u
    by_cases hu : u = t
    · subst hu
      simp
    · simp [Function.update_of_ne hu]
  refine ⟨g', _, ins', outs',
    { inv := by rw [queueState_update s]; exact hI'
      length_main := hmove.length_main h.length_main
      flow := hstage ▸ hflow
      noted := fun u => ?_
      awake := h.awake_step hmove henq hdeq }, _, _, hmove⟩
  by_cases hu : u = t
  · subst hu
    simp only [Function.update_self]
    exact hnoted
  · simp only [Function.update_of_ne hu]
    exact ⟨(h.noted u).toNoted.other hu, (h.noted u).localEnqueued, (h.noted u).localDequeued⟩

/-- A thread without an open call goes on to the `while` loop. -/
theorem Known.turn (h : Known C s g ms ins outs) (hidle : Q.idle (s.th t).l = true) :
    ∃ g' ms' ins' outs',
      Known C ⟨s.mem, Function.update s.th t { s.th t with loc := .deq }⟩ g' ms' ins' outs' ∧
        Moves C t s.mem g (s.th t) s.mem g' { s.th t with loc := .deq } := by
  have hbusy : ¬ Q.idle (s.th t).l = false := by simp [hidle]
  have hnoted := h.noted t
  have hl : ∀ u, (Function.update s.th t { s.th t with loc := .deq } u).l = (s.th u).l := by
    intro u
    by_cases hu : u = t
    · subst hu
      simp
    · simp [Function.update_of_ne hu]
  refine ⟨g, ms, ins, outs,
    { inv := ?_
      length_main := h.length_main
      flow := by simp only [hl]; exact h.flow
      noted := fun u => ?_
      awake := fun _ => ⟨t, .inr ?_⟩ }, false, none, .silent _ _⟩
  · simp only [queueState, hl]
    exact h.inv
  · by_cases hu : u = t
    · subst hu
      simp only [Function.update_self]
      exact ⟨hnoted.same fun hb => absurd hb hbusy, hnoted.localEnqueued, hnoted.localDequeued⟩
    · simpa only [Function.update_of_ne hu] using h.noted u
  · simp only [Function.update_self, (C.idle_iff _).mp hidle]
    exact ⟨trivial, trivial⟩

theorem Known.step (h : Known C s g ms ins outs)
    (hs : TestStep t c s.mem (s.th t) m' x') :
    ∃ g' ms' ins' outs', Known C ⟨m', Function.update s.th t x'⟩ g' ms' ins' outs' ∧
      Moves C t s.mem g (s.th t) m' g' x' := by
  have hnoted := h.noted t
  cases hs with
  | turn hloc => exact h.turn (hnoted.idle_of_nil hloc)
  | call hcalls hstep hmark =>
      obtain ⟨g', -, hmove⟩ := C.exists_step (t := t) h.inv hstep
      refine h.queue (y := { s.th t with l := _ }) hstep
        ⟨hnoted.call hcalls ?_ hmove (fun hidle => C.mark_calling hidle) hmark,
          hnoted.localEnqueued, hnoted.localDequeued⟩
        (fun rest hloc => ⟨rest, hloc⟩) fun hloc _ => hloc
      intro _ op hop
      cases hop with
      | enq hloc => exact .enq hloc
      | deq hloc => exact .deq hloc
  | @enqReturn item rest m' l' code hloc hstep hmark =>
      obtain ⟨hidle, hbusy, -⟩ := C.of_ret (t := t) h.inv hnoted.codeOk hstep hmark
      have hoff := hnoted.offered hbusy hloc
      refine h.queue (y := (s.th t).enqReturn Q item rest l' code) hstep ?_
        (fun _ _ => ⟨rest, rfl⟩) fun hloc' => absurd (hloc.symm.trans hloc') (by simp)
      rw [hmark]
      refine ⟨hnoted.ret hidle ?_ ?_, ?_, hnoted.localDequeued⟩
      · by_cases hcode : code = 1 <;>
          simp [Tester.enqReturn, Entries.mark, hcode, hnoted.put, hoff]
      · simp [Tester.enqReturn, delivered]
      · by_cases hcode : code = 1 <;> simp [Tester.enqReturn, hcode, hnoted.localEnqueued]
  | @deqReturn m' l' code out hloc hstep hmark =>
      obtain ⟨hidle, -, hdone, hcode⟩ := C.of_ret (t := t) h.inv hnoted.codeOk hstep hmark
      refine h.queue (y := (s.th t).deqReturn Q l' code out) hstep ?_
        (fun rest hloc' => absurd (hloc.symm.trans hloc') (by simp)) ?_
      · rw [hmark]
        refine ⟨hnoted.ret hidle hnoted.put ?_, hnoted.localEnqueued, ?_⟩
        · obtain rfl | rfl := hcode <;> simp [Tester.deqReturn, delivered]
        · obtain rfl | rfl := hcode <;> simp [Tester.deqReturn, hnoted.localDequeued]
      · intro _ hserved
        have hone : code = 1 := by
          rw [show C.moves.stage (s.th t).l = _ from hdone] at hserved
          exact hserved
        simp [Tester.deqReturn, hone]

theorem known_init (C : Q.Correct) (items : Fin n → List Value) :
    Known C (testInit Q items) C.start [] [] [] := by
  have hidle := C.quiet_init
  have hstage : ∀ t, C.moves.stage (Q.init.th t) = .idle := fun t => (C.idle_iff _).mp (hidle t)
  refine
    { inv := C.init
      length_main := by simp [testInit, C.nodes_init]
      flow := ?_
      noted := fun t => ⟨.of_idle (hidle t) rfl rfl, rfl, rfl⟩
      awake := fun hne => absurd (by simp [testInit, C.nodes_init]) hne }
  simp only [testInit, C.nodes_init, hstage]
  exact Flow.init

theorem exists_known (C : Q.Correct) (items : Fin n → List Value)
    {es : List (Fin n × Q.Choice)}
    (h : run (disjointIntervals Q) (testInit Q items) es = some s) :
    ∃ g ms ins outs, Known C s g ms ins outs := by
  refine run_induction (motive := fun _ v => ∃ g ms ins outs, Known C v g ms ins outs)
    ⟨_, _, _, _, known_init C items⟩ ?_ es s h
  rintro es ⟨t, c⟩ v w - ⟨g, ms, ins, outs, hknown⟩ hf
  obtain ⟨m', x', hstep, rfl⟩ := fire_eq_some.mp hf
  obtain ⟨g', ms', ins', outs', hknown', -⟩ := hknown.step (disjointIntervals_cases hstep)
  exact ⟨g', ms', ins', outs', hknown'⟩

end Run

/-! ## The assertion -/

/-- The versions whose tests contain `test_disjoint_intervals`. -/
def testedVersions : List Nat := [2, 4, 5]

/-- Sums do not depend on the order of the summands. -/
theorem foldl_add_perm {xs ys : List Value} (h : xs.Perm ys) (z : Value) :
    xs.foldl (· + ·) z = ys.foldl (· + ·) z := by
  refine List.Perm.foldl_eq' h (fun x _ y _ z => ?_) z
  rw [Int32.add_assoc, Int32.add_comm x y, ← Int32.add_assoc]

theorem foldl_add_start (xs : List Value) (z : Value) :
    xs.foldl (· + ·) z = z + xs.foldl (· + ·) 0 := by
  induction xs generalizing z with
  | nil => simp
  | cons x xs ih =>
      rw [List.foldl_cons, List.foldl_cons, ih, ih (0 + x), Int32.zero_add, Int32.add_assoc]

/-- The sum of the local sums is the sum of all values. -/
theorem total_eq (order : List (Fin n)) {sum : Fin n → Value} {vs : Fin n → List Value}
    (h : ∀ t, sum t = (vs t).foldl (· + ·) 0) :
    total order sum = (order.flatMap vs).foldl (· + ·) 0 := by
  have hstart : ∀ z, order.foldl (fun s t => s + sum t) z =
      z + (order.flatMap vs).foldl (· + ·) 0 := by
    induction order with
    | nil => simp
    | cons t order ih =>
        intro z
        rw [List.foldl_cons, ih, List.flatMap_cons, List.foldl_append, h,
          foldl_add_start _ ((vs t).foldl _ _), Int32.add_assoc]
  rw [total, hstart, Int32.zero_add]

/-- **The test of disjoint intervals passes.**  Whatever items the threads have, whatever the
version and the interleaving: when all threads have left their loops, the queue is empty, the
dequeued values are the enqueued ones, and the two totals, which are `int`s and wrap around, are
equal, in whatever orders the threads have added to them.  Calls of `enq` may have failed for lack
of memory. -/
theorem disjointIntervals_passes (n v : Nat) (_ : v ∈ testedVersions) (items : Fin n → List Value)
    {es : List (Fin n × (version n v).Choice)}
    {s : Config (Fin n) (version n v).Mem (Tester (version n v).Local)}
    (h : run (disjointIntervals (version n v)) (testInit (version n v) items) es = some s)
    (hdone : ∀ t, (s.th t).loc = .done) :
    (∃ k, ((version n v).store s.mem).Carries k ∧ k.items = []) ∧
      ((List.finRange n).flatMap fun t => (s.th t).got).Perm
        ((List.finRange n).flatMap fun t => (s.th t).put) ∧
      ∀ order order' : List (Fin n), order.Perm (List.finRange n) → order'.Perm (List.finRange n) →
        total order (fun t => (s.th t).localEnqueued) =
          total order' fun t => (s.th t).localDequeued := by
  obtain ⟨C⟩ := version_correct n v
  obtain ⟨g, ms, ins, outs, hknown⟩ := exists_known C items h
  have hquiet : (version n v).Quiet (queueState _ Tester.l s) := by
    intro t
    cases hidle : (version n v).idle (s.th t).l with
    | true => exact hidle
    | false =>
        have hkind := (hknown.noted t).kind hidle
        rw [hdone t] at hkind
        have hstage := (C.idle_iff _).mpr (Stage.kind_eq_none_iff.mp hkind)
        exact absurd (hidle.symm.trans hstage) (by decide)
  have hempty : (C.moves.nodes s.mem g).items = [] := by
    by_contra hne
    obtain ⟨t, ⟨rest, hloc⟩ | ⟨hloc, -⟩⟩ := hknown.awake hne
    · cases (hdone t).symm.trans hloc
    · cases (hdone t).symm.trans hloc
  have hstage : ∀ t, C.moves.stage (s.th t).l = .idle := fun t => (C.idle_iff _).mp (hquiet t)
  have hput : ∀ t, ofThread t ins = (s.th t).put := by
    intro t
    rw [hknown.flow.ins, (hknown.noted t).put, hstage]
    simp [Stage.putIn]
  have hgot : ∀ t, ofThread t outs = (s.th t).got := by
    intro t
    rw [hknown.flow.outs, (hknown.noted t).got, hstage]
    simp [Stage.takenOut]
  have hperm : ((List.finRange n).flatMap fun t => (s.th t).got).Perm
      ((List.finRange n).flatMap fun t => (s.th t).put) := by
    simp only [← hput, ← hgot]
    have hfifo := hknown.flow.fifo
    rw [hempty, List.append_nil] at hfifo
    exact (flatMap_ofThread_perm outs).trans (hfifo ▸ (flatMap_ofThread_perm ins).symm)
  refine ⟨⟨_, C.carries hknown.inv hquiet, hempty⟩, hperm, fun order order' horder horder' => ?_⟩
  rw [total_eq order fun t => (hknown.noted t).localEnqueued,
    total_eq order' fun t => (hknown.noted t).localDequeued]
  refine foldl_add_perm ?_ 0
  exact ((horder.flatMap_right _).trans hperm.symm).trans (horder'.flatMap_right _).symm

set_option maxRecDepth 2000 in
/-- Two threads of Ex4 with one item each: each dequeues the item of the other one, and both then
find the queue empty. -/
theorem disjointIntervals_passes_crossed :
    ∃ s, run (disjointIntervals (version 2 4)) (testInit (version 2 4) fun t => interval 1 t)
        (Ex4.solo 1 (.deq 0) (some ⟨0, none⟩) 12 ++ (Ex4.solo 0 (.deq 0) (some ⟨0, none⟩) 28 ++
          (Ex4.solo 1 (.deq 0) (some ⟨0, none⟩) 27 ++ Ex4.solo 0 (.deq 0) (some ⟨0, none⟩) 5))) =
        some s ∧
      (s.th 0).got = [1] ∧ (s.th 1).got = [0] ∧
      total (List.finRange 2) (fun t => (s.th t).localEnqueued) =
        total (List.finRange 2) fun t => (s.th t).localDequeued := by
  obtain ⟨s, hs⟩ : ∃ s, run (disjointIntervals (version 2 4))
      (testInit (version 2 4) fun t => interval 1 t)
      (Ex4.solo 1 (.deq 0) (some ⟨0, none⟩) 12 ++ (Ex4.solo 0 (.deq 0) (some ⟨0, none⟩) 28 ++
        (Ex4.solo 1 (.deq 0) (some ⟨0, none⟩) 27 ++ Ex4.solo 0 (.deq 0) (some ⟨0, none⟩) 5))) =
      some s := ⟨_, rfl⟩
  have hlocs : ((s.th 0).loc, (s.th 1).loc) = (.done, .done) :=
    run_observe hs (fun s => ((s.th 0).loc, (s.th 1).loc)) rfl
  have hgot : ((s.th 0).got, (s.th 1).got) = ([1], [0]) :=
    run_observe hs (fun s => ((s.th 0).got, (s.th 1).got)) rfl
  obtain ⟨hloc₀, hloc₁⟩ := Prod.mk.inj hlocs
  obtain ⟨hgot₀, hgot₁⟩ := Prod.mk.inj hgot
  have hall := (disjointIntervals_passes 2 4 (by decide) _ hs
    (Fin.forall_fin_two.mpr ⟨hloc₀, hloc₁⟩)).2.2
  exact ⟨s, hs, hgot₀, hgot₁, hall _ _ (List.Perm.refl _) (List.Perm.refl _)⟩

end Tests

end ConcurrentQueues
