import ConcurrentQueues.Ex5.Taken

/-!
# AbaProblem — the test of Ex5 that asks for an ABA schedule

Thread A stops between the loads of its `deq` and its head CAS, and thread B dequeues the node that
A has loaded.  An observer lets A go on when that node is in the retired list of B.  Everything the
test asserts at its end holds in every interleaving of the three threads.
-/

namespace ConcurrentQueues.Tests.AbaProblem

open Reasoning Layout Ex5

/-- `init_queue(&q, 2)`: the calls have the `tid` 0 and 1. -/
scoped instance twoThreads : NeZero 2 := ⟨Nat.succ_ne_zero 1⟩

inductive Thread where
  | a
  | b
  | observer
  deriving DecidableEq

/-- The pause of `deq_pause_before_cas`. -/
inductive PausePc where
  | ready | first | next | store | go
  deriving DecidableEq

/-- The observer behind its wait for `ready`. -/
inductive ObservePc where
  | first | next | headMoves | headIsB | headMoved | ctr | retired | node | nextNull | listOk | go
  deriving DecidableEq

/-- The access a thread of the test performs next; `deq` is an access of its call. -/
inductive Pc where
  | waitReady
  | deq
  | pause (pc : PausePc)
  | ret
  | observe (pc : ObservePc)
  | done
  deriving DecidableEq

/-- The queue and the shared variables of the test; the flags are 0 or 1. -/
structure Mem where
  q : Ex5.Mem 2
  ready : Bool
  go : Bool
  headMoved : Bool
  retiredListOk : Bool
  observedFirst : Ptr
  observedNext : Ptr
  ra : Int
  rb : Int

/-- The locals of a thread: those of its call, and the observer's `a`, `b`, `r` and `ok`.  The
variables `va` and `vb` are the `out` of the calls. -/
structure Local where
  pc : Pc
  l : Ex5.Local
  a : Ptr
  b : Ptr
  r : Option RecAddr
  ok : Bool

@[simps] def Local.goto (x : Local) (pc : Pc) : Local := { x with pc := pc }

abbrev Result := Outcome Mem Local

/-- `deq(&v, &q, tid, NULL, NULL)` with `v` still -1. -/
def deqCall (c : Choice) : Choice :=
  { c with op := .deq (-1), countCAS := false, countIns := false }

/-- An access of the call; `deq_pause_before_cas` differs from `deq` in front of the head CAS. -/
def deqStep (tid : Fin 2) (pauses : Bool) (c : Choice) (m : Mem) (x : Local) : Result :=
  match Ex5.step tid (deqCall c) m.q x.l with
  | .next q l =>
      .next { m with q := q }
        { x with
          l := l
          pc := if l.pc = .idle then .ret
            else if pauses = true ∧ l.pc = .deq .cas then .pause .ready else .deq }
  | .blocked => .blocked
  | .fault => .fault

def pause (m : Mem) (x : Local) : PausePc → Result
  | .ready =>
      if m.ready = false then .next m (x.goto (.pause .first)) else .next m (x.goto (.pause .go))
  | .first => .next { m with observedFirst := x.l.first } (x.goto (.pause .next))
  | .next => .next { m with observedNext := x.l.next } (x.goto (.pause .store))
  | .store => .next { m with ready := true } (x.goto (.pause .go))
  -- the busy-wait
  | .go => if m.go = false then .next m x else .next m (x.goto .deq)

def threadA (c : Choice) (m : Mem) (x : Local) : Result :=
  match x.pc with
  | .deq => deqStep 0 true c m x
  | .pause pc => pause m x pc
  | .ret => .next { m with ra := x.l.code } (x.goto .done)
  | _ => .blocked

def threadB (c : Choice) (m : Mem) (x : Local) : Result :=
  match x.pc with
  | .waitReady => if m.ready = false then .next m x else .next m (x.goto .deq)
  | .deq => deqStep 1 false c m x
  | .ret => .next { m with rb := x.l.code } (x.goto .done)
  | _ => .blocked

def observe (m : Mem) (x : Local) : ObservePc → Result
  | .first => .next m { x with a := m.observedFirst, pc := .observe .next }
  | .next => .next m { x with b := m.observedNext, pc := .observe .headMoves }
  | .headMoves =>
      if m.q.store.head = x.a then .next m x else .next m (x.goto (.observe .headIsB))
  | .headIsB =>
      if m.q.store.head = x.b then .next m (x.goto (.observe .headMoved))
      else .next m (x.goto (.observe .ctr))
  | .headMoved => .next { m with headMoved := true } (x.goto (.observe .ctr))
  | .ctr => if isOdd (m.q.ctr 1) = true then .next m x else .next m (x.goto (.observe .retired))
  | .retired => .next m { x with r := m.q.retired 1, ok := false, pc := .observe .node }
  -- `r && r->node == a && r->next == NULL`
  | .node =>
      match x.r with
      | some r =>
          if (m.q.records r).node = x.a then .next m (x.goto (.observe .nextNull))
          else .next m (x.goto (.observe .listOk))
      | none => .next m (x.goto (.observe .listOk))
  | .nextNull =>
      match x.r with
      | some r => .next m { x with ok := (m.q.records r).next = none, pc := .observe .listOk }
      | none => .fault
  | .listOk => .next { m with retiredListOk := x.ok } (x.goto (.observe .go))
  | .go => .next { m with go := true } (x.goto .done)

def observer (m : Mem) (x : Local) : Result :=
  match x.pc with
  | .waitReady =>
      if m.ready = false then .next m x else .next m (x.goto (.observe .first))
  | .observe pc => observe m x pc
  | _ => .blocked

/-- The parallel region of `test_ABA_problem`. -/
def testAbaProblem : Program Thread Choice Mem Local := fun t c m x =>
  match t with
  | .a => threadA c m x
  | .b => threadB c m x
  | .observer => observer m x

abbrev State := Config Thread Mem Local

/-- The beginning of the region, with the queue as it is then. -/
def testInit (q : Ex5.State 2) : State where
  mem :=
    { q := q.mem
      ready := false
      go := false
      headMoved := false
      retiredListOk := false
      observedFirst := none
      observedNext := none
      ra := 0
      rb := 0 }
  th
    | .a => ⟨.deq, q.th 0, none, none, none, false⟩
    | .b => ⟨.waitReady, q.th 1, none, none, none, false⟩
    | .observer => ⟨.waitReady, Ex5.Local.init, none, none, none, false⟩

/-- What the test asserts when the region has ended: `x` and `y` are the values in the queue, in
their order. -/
structure Passed (x y : Value) (s : State) : Prop where
  freeA : (s.mem.q.store.freeLists 0).head ≠ none ∧
    (s.mem.q.store.freeLists 0).head = s.mem.observedNext
  freeB : (s.mem.q.store.freeLists 1).head ≠ none ∧
    (s.mem.q.store.freeLists 1).head = s.mem.observedFirst
  headMoved : s.mem.headMoved = true
  retiredListOk : s.mem.retiredListOk = true
  ra : s.mem.ra = 1
  rb : s.mem.rb = 1
  va : (s.th .a).l.out = y
  vb : (s.th .b).l.out = x
  empty : ¬ s.mem.q.Nonempty

/-! ## The queue of the test -/

def queueState (s : State) : Ex5.State 2 where
  mem := s.mem.q
  th t := if t = 0 then (s.th .a).l else (s.th .b).l

section Queue

variable {s : State} {m : Mem} {x : Local} {c : Choice} {lay : Layout 2} {g : History 2}

theorem queueState_a (s : State) (m : Mem) (x : Local) :
    queueState ⟨m, Function.update s.th .a x⟩ =
      ⟨m.q, Function.update (queueState s).th 0 x.l⟩ := by
  refine congrArg (Config.mk m.q) (funext fun u => ?_)
  by_cases hu : u = 0
  · subst hu
    simp
  · simp [queueState, hu]

theorem queueState_b (s : State) (m : Mem) (x : Local) :
    queueState ⟨m, Function.update s.th .b x⟩ =
      ⟨m.q, Function.update (queueState s).th 1 x.l⟩ := by
  refine congrArg (Config.mk m.q) (funext fun u => ?_)
  by_cases hu : u = 0
  · subst hu
    simp [queueState]
  · obtain rfl : u = 1 := by omega
    simp [queueState]

theorem same_update {t : Thread} (hq : m.q = s.mem.q) (hl : x.l = (s.th t).l) :
    queueState ⟨m, Function.update s.th t x⟩ = queueState s := by
  have hsame : ∀ u, (Function.update s.th t x u).l = (s.th u).l := by
    intro u
    by_cases hu : u = t
    · subst hu
      simpa using hl
    · simp [Function.update_of_ne hu]
  simp only [queueState, hsame, hq]

/-- What is known of the queue in the whole test: two items at the beginning, and none that comes
later. -/
structure Base (lay : Layout 2) (s : State) (g : History 2) : Prop where
  inv : Inv (queueState s) g
  nodes : SameNodes lay g.lay
  two : lay.len = lay.hd + 3
  hd_le : lay.hd ≤ g.lay.hd
  start : ∀ t, g.body t = true → lay.hd ≤ g.start t

theorem record_start_ge {t : Fin 2} {q : Ex5.Mem 2} {l : Ex5.Local} {k : Nat} (hk : k ≤ g.lay.hd)
    (h : ∀ t, g.body t = true → k ≤ g.start t) (u : Fin 2)
    (hb : (record t c q l g).body u = true) : k ≤ (record t c q l g).start u := by
  obtain ⟨lay, -, he⟩ | ⟨-, he⟩ | he | ⟨-, he⟩ | ⟨-, he⟩ | ⟨r, he⟩ := record_cases t c q l g <;>
    rw [he] at hb ⊢
  case inr.inl =>
    by_cases hu : u = t
    · subst hu
      simpa using hk
    · simp only [History.enter_body, History.enter_start, Function.update_of_ne hu] at hb ⊢
      exact h u hb
  case inr.inr.inl =>
    by_cases hu : u = t
    · subst hu
      simp at hb
    · simp only [History.leave_body, History.leave_start, Function.update_of_ne hu] at hb ⊢
      exact h u hb
  all_goals exact h u hb

/-- A step of a call, seen from the queue. -/
structure Moved (t : Fin 2) (c : Choice) (s : State) (l : Ex5.Local) (q : Ex5.Mem 2)
    (l' : Ex5.Local) (s' : State) : Prop where
  old : (queueState s).th t = l
  step : Ex5.step t c s.mem.q l = .next q l'
  state : queueState s' = ⟨q, Function.update (queueState s).th t l'⟩

theorem Base.moved {s' : State} {t : Fin 2} {q : Ex5.Mem 2} {l l' : Ex5.Local}
    (h : Base lay s g) (hmoved : Moved t c s l q l' s') (hlink : l.pc ≠ .enq .link) :
    Base lay s' (record t c s.mem.q l g) where
  inv := by
    obtain ⟨rfl, hstep, hstate⟩ := hmoved
    rw [hstate]
    exact h.inv.fire (e := (t, c)) (fire_eq_some.mpr ⟨q, l', hstep, rfl⟩)
  nodes := h.nodes.trans (record_sameNodes hlink)
  two := h.two
  hd_le := h.hd_le.trans (record_grows _ _ _ _ _).hd_le
  start := record_start_ge h.hd_le h.start

/-- A step of the test that leaves the queue and the calls alone. -/
theorem Base.same {s' : State} (h : Base lay s g) (hsame : queueState s' = queueState s) :
    Base lay s' g :=
  { h with inv := hsame ▸ h.inv }

end Queue

/-! ## The three parts of the test -/

/-- Thread A before it lets the others begin. -/
def Looking (lay : Layout 2) (m : Mem) (x : Local) : Prop :=
  match x.pc with
  | .deq => x.l.pc = .idle ∨ (WillTake m.q x.l ∧ x.l.pc ≠ .deq .cas)
  | .pause .ready | .pause .first => x.l.pc = .deq .cas
  | .pause .next => x.l.pc = .deq .cas ∧ m.observedFirst = some (lay.node lay.hd)
  | .pause .store =>
      x.l.pc = .deq .cas ∧ m.observedFirst = some (lay.node lay.hd) ∧
        m.observedNext = some (lay.node (lay.hd + 1))
  | _ => False

/-- Thread B has dequeued the node and waits for A. -/
structure Held (lay : Layout 2) (q : Ex5.Mem 2) (g : History 2) (x : Local) : Prop where
  hd : g.lay.hd = lay.hd + 1
  pc : x.pc = .deq
  heldUp : HeldUp (0 : Fin 2) (q.ctr 0) x.l
  took : Took 1 lay.hd q g x.l

/-- Thread B while A pauses. -/
def Overtakes (lay : Layout 2) (q : Ex5.Mem 2) (g : History 2) (x : Local) : Prop :=
  (g.lay.hd = lay.hd ∧ (((x.pc = .waitReady ∨ x.pc = .deq) ∧ x.l.pc = .idle) ∨
    (x.pc = .deq ∧ WillTake q x.l))) ∨ Held lay q g x

/-- The node is in the retired list of B, and B is behind `mm_op_end`'s increment. -/
structure Parked (lay : Layout 2) (g : History 2) (y : Local) : Prop where
  hd : g.lay.hd = lay.hd + 1
  body : y.l.pc.inBody = false

/-- What the observer `x` knows of thread B, which is `y`. -/
def Watching (lay : Layout 2) (m : Mem) (g : History 2) (y x : Local) : Prop :=
  match x.pc with
  | .waitReady | .observe .first => True
  | .observe .next => x.a = some (lay.node lay.hd)
  | .observe pc =>
      (x.a = some (lay.node lay.hd) ∧ x.b = some (lay.node (lay.hd + 1))) ∧
        match pc with
        | .first | .next | .headMoves => True
        | .headIsB | .headMoved => g.lay.hd = lay.hd + 1
        | .ctr => g.lay.hd = lay.hd + 1 ∧ m.headMoved = true
        | .retired => Parked lay g y ∧ m.headMoved = true
        | .node | .nextNull => Parked lay g y ∧ m.headMoved = true ∧ x.r = m.q.retired 1
        | .listOk => Parked lay g y ∧ m.headMoved = true ∧ x.ok = true
        | .go => Parked lay g y ∧ m.headMoved = true ∧ m.retiredListOk = true
  | _ => False

/-- A thread between its head CAS and the end. -/
def Finishing (x : Local) (code : Int) : Prop :=
  (x.pc = .deq ∧ x.l.pc ≠ .idle) ∨ (x.pc = .ret ∧ x.l.pc = .idle) ∨
    (x.pc = .done ∧ x.l.pc = .idle ∧ code = 1)

/-- A has seen the two nodes. -/
structure Seen (lay : Layout 2) (m : Mem) : Prop where
  ready : m.ready = true
  observedFirst : m.observedFirst = some (lay.node lay.hd)
  observedNext : m.observedNext = some (lay.node (lay.hd + 1))

/-- Thread A has not announced that it pauses. -/
structure Before (lay : Layout 2) (s : State) (g : History 2) : Prop where
  ready : s.mem.ready = false
  go : s.mem.go = false
  hd : g.lay.hd = lay.hd
  a : Looking lay s.mem (s.th .a)
  b : (s.th .b).pc = .waitReady ∧ (s.th .b).l.pc = .idle
  observer : (s.th .observer).pc = .waitReady

/-- Thread A pauses. -/
structure Pausing (lay : Layout 2) (s : State) (g : History 2) : Prop where
  seen : Seen lay s.mem
  go : s.mem.go = false
  a : (s.th .a).pc = .pause .go ∧ (s.th .a).l.pc = .deq .cas
  b : Overtakes lay s.mem.q g (s.th .b)
  observer : Watching lay s.mem g (s.th .b) (s.th .observer)

/-- Thread A goes on. -/
structure Resumed (lay : Layout 2) (s : State) (g : History 2) : Prop where
  seen : Seen lay s.mem
  go : s.mem.go = true
  headMoved : s.mem.headMoved = true
  retiredListOk : s.mem.retiredListOk = true
  observer : (s.th .observer).pc = .done
  a : (g.lay.hd = lay.hd + 1 ∧ WillTake s.mem.q (s.th .a).l ∧
      ((s.th .a).pc = .deq ∨ (s.th .a).pc = .pause .ready ∨ (s.th .a).pc = .pause .go)) ∨
    (g.lay.hd = lay.hd + 2 ∧ Took 0 (lay.hd + 1) s.mem.q g (s.th .a).l ∧
      Finishing (s.th .a) s.mem.ra)
  b : Took 1 lay.hd s.mem.q g (s.th .b).l ∧ Finishing (s.th .b) s.mem.rb
  body : (s.th .b).l.pc.inBody = false

/-- **The invariant of the test.** -/
structure Known (lay : Layout 2) (s : State) (g : History 2) : Prop where
  base : Base lay s g
  part : Before lay s g ∨ Pausing lay s g ∨ Resumed lay s g

section Step

variable {lay : Layout 2} {s : State} {g : History 2} {m m' : Mem} {x x' : Local} {c : Choice}
  {t : Fin 2} {pauses : Bool}

/-! ### A step of a call -/

theorem deqStep_cases (h : deqStep t pauses c m x = .next m' x') :
    ∃ q l', Ex5.step t (deqCall c) m.q x.l = .next q l' ∧ m' = { m with q := q } ∧
      x' = { x with
        l := l'
        pc := if l'.pc = .idle then .ret
          else if pauses = true ∧ l'.pc = .deq .cas then .pause .ready else .deq } := by
  unfold deqStep at h
  split at h <;> cases h
  exact ⟨_, _, ‹_›, rfl, rfl⟩

theorem moved_a (h : deqStep 0 pauses c s.mem (s.th .a) = .next m' x') :
    Moved 0 (deqCall c) s (s.th .a).l m'.q x'.l ⟨m', Function.update s.th .a x'⟩ := by
  obtain ⟨q, l', hq, rfl, rfl⟩ := deqStep_cases h
  exact ⟨rfl, hq, queueState_a s _ _⟩

theorem moved_b (h : deqStep 1 pauses c s.mem (s.th .b) = .next m' x') :
    Moved 1 (deqCall c) s (s.th .b).l m'.q x'.l ⟨m', Function.update s.th .b x'⟩ := by
  obtain ⟨q, l', hq, rfl, rfl⟩ := deqStep_cases h
  exact ⟨rfl, hq, queueState_b s _ _⟩

/-- There are two items in the queue, or one. -/
theorem Base.nonempty (h : Base lay s g) (hlt : g.lay.hd < lay.hd + 2) : s.mem.q.Nonempty := by
  apply (nonempty_iff h.inv.shared).mpr
  rw [h.nodes.len, h.two]
  omega

/-- A step of a call that has not taken a node. -/
theorem Base.ahead {q : Ex5.Mem 2} {l l' : Ex5.Local} (h : Base lay s g)
    (hl : (queueState s).th t = l) (hw : l.pc = .idle ∨ WillTake s.mem.q l)
    (hlt : g.lay.hd < lay.hd + 2) (hq : Ex5.step t (deqCall c) s.mem.q l = .next q l') :
    (WillTake q l' ∧ (record t (deqCall c) s.mem.q l g).lay.hd = g.lay.hd) ∨
      (l.pc = .deq .cas ∧ l'.pc = .deq .writeOut ∧
        Took t g.lay.hd q (record t (deqCall c) s.mem.q l g) l' ∧
        (record t (deqCall c) s.mem.q l g).lay.hd = g.lay.hd + 1) := by
  have hS := h.inv.shared
  have hO := h.inv.own t
  rw [hl] at hO
  rcases hw with hidle | hwill
  · simp only [Ex5.step, hidle] at hq
    cases hq
    refine .inl ⟨⟨rfl, h.nonempty hlt⟩, ?_⟩
    simp [record, hidle]
  · rcases hwill.step hS hO hq with hwill' | hwrite
    · exact .inl ⟨hwill', record_hd hq hwill'.pc_ne_writeOut⟩
    · have hflow := step_flow hq
      rw [hwrite] at hflow
      exact .inr ⟨Pc.flow_deq_writeOut hflow, hwrite, took_of_cas hS hO hq hwrite⟩

/-- A call that has not taken a node links none. -/
theorem pc_ne_link {l : Ex5.Local} (h : l.pc = .idle ∨ WillTake m.q l) :
    l.pc ≠ .enq .link := by
  rcases h with hidle | hwill
  · rw [hidle]
    decide
  · exact hwill.pc_ne_link

/-! ### Before A pauses -/

theorem Before.callA (hbase : Base lay s g) (h : Before lay s g)
    (hl : (s.th .a).l.pc = .idle ∨ (WillTake s.mem.q (s.th .a).l ∧ (s.th .a).l.pc ≠ .deq .cas))
    (hstep : deqStep 0 true c s.mem (s.th .a) = .next m' x') :
    ∃ g', Known lay ⟨m', Function.update s.th .a x'⟩ g' := by
  have hw : (s.th .a).l.pc = .idle ∨ WillTake s.mem.q (s.th .a).l := hl.imp_right And.left
  have hbase' := hbase.moved (moved_a hstep) (pc_ne_link hw)
  obtain ⟨q, l', hq, rfl, rfl⟩ := deqStep_cases hstep
  refine ⟨_, hbase', .inl ?_⟩
  rcases hbase.ahead (t := 0) rfl hw (by rw [h.hd]; omega) hq with ⟨hwill, hhd⟩ | ⟨hcas, -⟩
  · refine ⟨h.ready, h.go, hhd.trans h.hd, ?_, by simpa using h.b, by simpa using h.observer⟩
    by_cases hcas : l'.pc = .deq .cas
    · simp [Looking, hcas]
    · simpa [Looking, hcas, hwill.busy] using hwill
  · rcases hl with hidle | ⟨-, hne⟩
    · cases hidle.symm.trans hcas
    · exact absurd hcas hne

/-- The pointers that A has loaded when it pauses. -/
theorem Before.loaded (hbase : Base lay s g) (h : Before lay s g)
    (hcas : (s.th .a).l.pc = .deq .cas) :
    (s.th .a).l.first = some (lay.node lay.hd) ∧
      (s.th .a).l.next = some (lay.node (lay.hd + 1)) := by
  have hO := hbase.inv.own 0
  obtain ⟨hsucc, -⟩ : Successor 0 g (s.th .a).l ∧ (s.th .a).l.val = g.lay.val (g.iFirst 0 + 1) := by
    simpa [outline, queueState, hcas] using hO.here
  have hbody : g.body 0 = true := by simpa [queueState, hcas, Pc.inBody] using hO.status.body
  have hfirst : g.iFirst 0 = lay.hd := by
    have hstart := hbase.start 0 hbody
    have hle := hsucc.first.start_le
    have hle' := hsucc.first.le_hd
    rw [h.hd] at hle'
    omega
  rw [hsucc.first.eq, hsucc.next, hfirst, hbase.nodes.node]
  exact ⟨rfl, rfl⟩

theorem Before.stepA (hbase : Base lay s g) (h : Before lay s g)
    (hstep : threadA c s.mem (s.th .a) = .next m' x') :
    ∃ g', Known lay ⟨m', Function.update s.th .a x'⟩ g' := by
  have ha := h.a
  unfold Looking at ha
  unfold threadA at hstep
  split at hstep
  next hpc =>
    simp only [hpc] at ha
    exact h.callA hbase ha hstep
  next pc hpc =>
    simp only [hpc] at ha
    refine ⟨g, ?_⟩
    cases pc <;> simp only [pause] at hstep ha
    case ready =>
      rw [if_pos h.ready] at hstep
      cases hstep
      exact ⟨hbase.same (same_update rfl rfl), .inl ⟨h.ready, h.go, h.hd,
        by simpa [Looking] using ha, by simpa using h.b, by simpa using h.observer⟩⟩
    case first =>
      cases hstep
      have hfirst := (h.loaded hbase ha).1
      exact ⟨hbase.same (same_update rfl rfl), .inl ⟨h.ready, h.go, h.hd,
        by simpa [Looking] using ⟨ha, hfirst⟩, by simpa using h.b, by simpa using h.observer⟩⟩
    case next =>
      cases hstep
      have hnext := (h.loaded hbase ha.1).2
      exact ⟨hbase.same (same_update rfl rfl), .inl ⟨h.ready, h.go, h.hd,
        by simpa [Looking] using ⟨ha.1, ha.2, hnext⟩, by simpa using h.b,
        by simpa using h.observer⟩⟩
    case store =>
      cases hstep
      refine ⟨hbase.same (same_update rfl rfl), .inr (.inl
        ⟨⟨rfl, ha.2.1, ha.2.2⟩, h.go, by simpa using ha.1, ?_, ?_⟩)⟩
      · have hb := h.b
        exact .inl ⟨h.hd, by simpa [hb.1] using hb.2⟩
      · simp [Watching, h.observer]
  next hpc =>
    simp only [hpc] at ha
  next => cases hstep

/-! ### While A pauses -/

theorem Watching.step {y y' : Local} {q : Ex5.Mem 2} {g' : History 2} (h : Watching lay m g y x)
    (hhd : g.lay.hd = lay.hd + 1 → g'.lay.hd = lay.hd + 1)
    (hpark : Parked lay g y →
      Parked lay g' y' ∧ q.retired 1 = m.q.retired 1) :
    Watching lay { m with q := q } g' y' x := by
  unfold Watching at h ⊢
  cases hpc : x.pc with
  | observe pc =>
      simp only [hpc] at h ⊢
      cases pc <;> simp only at h ⊢
      case next | headMoves => exact h
      case headIsB | headMoved => exact ⟨h.1, hhd h.2⟩
      case ctr => exact ⟨h.1, hhd h.2.1, h.2.2⟩
      case retired | listOk | go => exact ⟨h.1, (hpark h.2.1).1, h.2.2⟩
      case node | nextNull =>
        exact ⟨h.1, (hpark h.2.1).1, h.2.2.1, h.2.2.2.trans (hpark h.2.1).2.symm⟩
  | waitReady => trivial
  | deq | pause pc | ret | done => simp only [hpc] at h

theorem Pausing.ctr_odd (hbase : Base lay s g) (h : Pausing lay s g) :
    isOdd (s.mem.q.ctr 0) = true := by
  have hpc : ((queueState s).th 0).pc = .deq .cas := h.a.2
  have hbody := (hbase.inv.own 0).status.body
  rw [hpc] at hbody
  exact (hbase.inv.shared.parity 0).trans hbody

theorem Pausing.stepA (hbase : Base lay s g) (h : Pausing lay s g)
    (hstep : threadA c s.mem (s.th .a) = .next m' x') :
    ∃ g', Known lay ⟨m', Function.update s.th .a x'⟩ g' := by
  simp only [threadA, h.a.1, pause, if_pos h.go] at hstep
  cases hstep
  rw [Function.update_eq_self]
  exact ⟨g, hbase, .inr (.inl h)⟩

/-- A step of the call of B, which does not end as long as A pauses. -/
theorem Overtakes.call (hbase : Base lay s g) (hodd : isOdd (s.mem.q.ctr 0) = true)
    (h : Overtakes lay s.mem.q g (s.th .b)) (hpc : (s.th .b).pc = .deq) {q : Ex5.Mem 2}
    {l' : Ex5.Local} (hq : Ex5.step 1 (deqCall c) s.mem.q (s.th .b).l = .next q l') :
    Overtakes lay q (record 1 (deqCall c) s.mem.q (s.th .b).l g)
      { s.th .b with l := l' } ∧ l'.pc ≠ .idle ∧
      (g.lay.hd = lay.hd + 1 →
        (record 1 (deqCall c) s.mem.q (s.th .b).l g).lay.hd = g.lay.hd) := by
  rcases h with ⟨hhd, hbefore⟩ | hheld
  · have hw : (s.th .b).l.pc = .idle ∨ WillTake s.mem.q (s.th .b).l := by
      rcases hbefore with ⟨-, hidle⟩ | ⟨-, hwill⟩
      · exact .inl hidle
      · exact .inr hwill
    rcases hbase.ahead (t := 1) rfl hw (by omega) hq with ⟨hwill, hhd'⟩ | ⟨-, hwrite, htook, hhd'⟩
    · exact ⟨.inl ⟨hhd'.trans hhd, .inr ⟨hpc, hwill⟩⟩, hwill.busy, fun _ => hhd'⟩
    · -- B is the first to move `head`
      rw [hhd] at htook hhd'
      refine ⟨.inr ⟨hhd', hpc, ?_, htook⟩, ?_, fun hhd'' => ?_⟩
      · simp [HeldUp, hwrite]
      · simp [hwrite]
      · omega
  · have hO := hbase.inv.own 1
    have hctr := step_ctr hq (u := 0) (by decide)
    have hheld' := step_heldUp (u := 0) hO (by decide) hodd hheld.heldUp hq
    have hwrite : l'.pc ≠ .deq .writeOut := by
      intro hwrite
      have hflow := step_flow hq
      rw [hwrite] at hflow
      have hcas := Pc.flow_deq_writeOut hflow
      have hheldUp := hheld.heldUp
      simp [HeldUp, hcas] at hheldUp
    refine ⟨.inr ⟨(record_hd hq hwrite).trans hheld.hd, hpc, ?_, ?_⟩, hheld'.busy,
      fun _ => record_hd hq hwrite⟩
    · rw [hctr]
      exact hheld'
    · exact hheld.took.step hO hheld.heldUp.busy hq

/-- B and what the observer has seen of it. -/
theorem Parked.held {q : Ex5.Mem 2} {y : Local} (h : Parked lay g y) (hb : Overtakes lay q g y) :
    Held lay q g y := by
  rcases hb with ⟨hhd, -⟩ | hheld
  · have hhd' := h.hd
    omega
  · exact hheld

theorem Parked.step {q : Ex5.Mem 2} {l' : Ex5.Local} (hpark : Parked lay g (s.th .b))
    (hb : Overtakes lay s.mem.q g (s.th .b))
    (hhd : (record 1 (deqCall c) s.mem.q (s.th .b).l g).lay.hd = g.lay.hd)
    (hq : Ex5.step 1 (deqCall c) s.mem.q (s.th .b).l = .next q l') :
    Parked lay (record 1 (deqCall c) s.mem.q (s.th .b).l g)
      { s.th .b with l := l' } ∧ q.retired 1 = s.mem.q.retired 1 := by
  obtain ⟨rfl, hbody⟩ := (hpark.held hb).heldUp.parked hpark.body hq
  exact ⟨⟨hhd.trans hpark.hd, hbody⟩, rfl⟩

theorem Pausing.stepB (hbase : Base lay s g) (h : Pausing lay s g)
    (hstep : threadB c s.mem (s.th .b) = .next m' x') :
    ∃ g', Known lay ⟨m', Function.update s.th .b x'⟩ g' := by
  have hb := h.b
  unfold threadB at hstep
  split at hstep
  next hpc =>
    rw [if_neg (by simp [h.seen.ready])] at hstep
    cases hstep
    refine ⟨g, hbase.same (same_update rfl rfl), .inr (.inl
      ⟨h.seen, h.go, by simpa using h.a, ?_, ?_⟩)⟩
    · rcases hb with ⟨hhd, ⟨-, hidle⟩ | ⟨hdeq, -⟩⟩ | hheld
      · exact .inl ⟨hhd, .inl ⟨.inr (by simp), by simpa using hidle⟩⟩
      · cases hpc.symm.trans hdeq
      · cases hpc.symm.trans hheld.pc
    · have hpark (hpark : Parked lay g (s.th .b)) : Parked lay g ((s.th .b).goto .deq) ∧
          s.mem.q.retired 1 = s.mem.q.retired 1 :=
        ⟨⟨hpark.hd, hpark.body⟩, rfl⟩
      have hwatch := h.observer.step (fun hhd => hhd) hpark
      simpa using hwatch
  next hpc =>
    have hlink : (s.th .b).l.pc ≠ .enq .link := by
      rcases hb with ⟨-, ⟨-, hidle⟩ | ⟨-, hwill⟩⟩ | hheld
      · rw [hidle]
        decide
      · exact hwill.pc_ne_link
      · exact hheld.took.pc_ne_link
    have hbase' := hbase.moved (moved_b hstep) hlink
    obtain ⟨q, l', hq, rfl, rfl⟩ := deqStep_cases hstep
    obtain ⟨hb', hbusy, hhd⟩ := hb.call hbase (h.ctr_odd hbase) hpc hq
    have hwatch := h.observer.step (fun h => (hhd h).trans h) fun hpark =>
      hpark.step hb (hhd hpark.hd) hq
    refine ⟨_, hbase', .inr (.inl ⟨{ h.seen with }, h.go, by simpa using h.a, ?_, ?_⟩)⟩
    · simpa [hbusy, hpc] using hb'
    · simpa [hbusy, hpc] using hwatch
  next hpc =>
    rcases hb with ⟨-, ⟨hpc' | hpc', -⟩ | ⟨hpc', -⟩⟩ | hheld
    · cases hpc.symm.trans hpc'
    · cases hpc.symm.trans hpc'
    · cases hpc.symm.trans hpc'
    · cases hpc.symm.trans hheld.pc
  next => cases hstep

/-- What the observer finds in the retired list of B. -/
theorem Parked.listed (hbase : Base lay s g) (h : Parked lay g (s.th .b))
    (hb : Overtakes lay s.mem.q g (s.th .b)) :
    ∃ r, s.mem.q.retired 1 = some r ∧ s.mem.q.records r = ⟨some (lay.node lay.hd), none⟩ := by
  have hheld := h.held hb
  obtain ⟨r, hr, heq⟩ := hheld.took.listed (hbase.inv.own 1) hheld.heldUp h.body
  rw [hbase.nodes.node] at heq
  exact ⟨r, hr, heq⟩

/-- The observer goes on without an effect on the others. -/
theorem Pausing.watch (hbase : Base lay s g) (h : Pausing lay s g) (hq : m'.q = s.mem.q)
    (hready : m'.ready = s.mem.ready) (hgo : m'.go = s.mem.go)
    (hfirst : m'.observedFirst = s.mem.observedFirst)
    (hnext : m'.observedNext = s.mem.observedNext) (hl : x'.l = (s.th .observer).l)
    (hwatch : Watching lay m' g (s.th .b) x') :
    ∃ g', Known lay ⟨m', Function.update s.th .observer x'⟩ g' := by
  refine ⟨g, hbase.same (same_update hq hl), .inr (.inl ⟨⟨hready.trans h.seen.ready,
    hfirst.trans h.seen.observedFirst, hnext.trans h.seen.observedNext⟩, hgo.trans h.go,
    by simpa using h.a, ?_, by simpa using hwatch⟩)⟩
  simpa [hq] using h.b

theorem Pausing.observe (hbase : Base lay s g) (h : Pausing lay s g) {pc : ObservePc}
    (hpc : (s.th .observer).pc = .observe pc)
    (hstep : observe s.mem (s.th .observer) pc = .next m' x') :
    ∃ g', Known lay ⟨m', Function.update s.th .observer x'⟩ g' := by
  have hwatch := h.observer
  unfold Watching at hwatch
  simp only [hpc] at hwatch
  have hhead := hbase.inv.shared.valid.head
  have hstay : ∃ g', Known lay ⟨s.mem, Function.update s.th .observer (s.th .observer)⟩ g' := by
    rw [Function.update_eq_self]
    exact ⟨g, hbase, .inr (.inl h)⟩
  cases pc <;> simp only [AbaProblem.observe] at hstep hwatch
  case first =>
    cases hstep
    exact h.watch hbase rfl rfl rfl rfl rfl rfl h.seen.observedFirst
  case next =>
    cases hstep
    exact h.watch hbase rfl rfl rfl rfl rfl rfl ⟨⟨hwatch, h.seen.observedNext⟩, trivial⟩
  case headMoves =>
    split at hstep <;> cases hstep
    next => exact hstay
    next hne =>
      -- `head` is not at the first node any more
      have hhd : g.lay.hd = lay.hd + 1 := by
        rcases h.b with ⟨hhd, -⟩ | hheld
        · refine absurd ?_ hne
          rw [hwatch.1.1, ← hbase.nodes.node, ← hhd]
          exact hhead
        · exact hheld.hd
      exact h.watch hbase rfl rfl rfl rfl rfl rfl ⟨hwatch.1, hhd⟩
  case headIsB =>
    have hb : s.mem.q.store.head = (s.th .observer).b := by
      rw [hwatch.1.2, ← hbase.nodes.node, ← hwatch.2]
      exact hhead
    rw [if_pos hb] at hstep
    cases hstep
    exact h.watch hbase rfl rfl rfl rfl rfl rfl hwatch
  case headMoved =>
    cases hstep
    exact h.watch hbase rfl rfl rfl rfl rfl rfl ⟨hwatch.1, hwatch.2, rfl⟩
  case ctr =>
    split at hstep <;> cases hstep
    next => exact hstay
    next heven =>
      have hbody : (s.th .b).l.pc.inBody = false := by
        have hparity := hbase.inv.shared.parity 1
        rw [(hbase.inv.own 1).status.body] at hparity
        exact hparity.symm.trans (Bool.eq_false_iff.mpr heven)
      exact h.watch hbase rfl rfl rfl rfl rfl rfl ⟨hwatch.1, ⟨hwatch.2.1, hbody⟩, hwatch.2.2⟩
  case retired =>
    cases hstep
    exact h.watch hbase rfl rfl rfl rfl rfl rfl ⟨hwatch.1, hwatch.2.1, hwatch.2.2, rfl⟩
  case node =>
    obtain ⟨r, hr, hrec⟩ := hwatch.2.1.listed hbase h.b
    simp only [hwatch.2.2.2.trans hr, hrec, if_pos hwatch.1.1.symm] at hstep
    cases hstep
    exact h.watch hbase rfl rfl rfl rfl rfl rfl hwatch
  case nextNull =>
    obtain ⟨r, hr, hrec⟩ := hwatch.2.1.listed hbase h.b
    simp only [hwatch.2.2.2.trans hr, hrec] at hstep
    cases hstep
    exact h.watch hbase rfl rfl rfl rfl rfl rfl ⟨hwatch.1, hwatch.2.1, hwatch.2.2.1, rfl⟩
  case listOk =>
    cases hstep
    exact h.watch hbase rfl rfl rfl rfl rfl rfl
      ⟨hwatch.1, hwatch.2.1, hwatch.2.2.1, hwatch.2.2.2⟩
  case go =>
    cases hstep
    have hheld := hwatch.2.1.held h.b
    have hwill : WillTake s.mem.q (s.th .a).l := by
      have hne := hbase.nonempty (by rw [hheld.hd]; omega)
      simpa [WillTake, h.a.2] using hne
    refine ⟨g, hbase.same (same_update rfl rfl), .inr (.inr
      ⟨{ h.seen with }, rfl, hwatch.2.2.1, hwatch.2.2.2, by simp, ?_, ?_,
        by simpa using hwatch.2.1.body⟩)⟩
    · exact .inl ⟨hheld.hd, by simpa using hwill, by simp [h.a.1]⟩
    · simpa using ⟨hheld.took, .inl ⟨hheld.pc, hheld.heldUp.busy⟩⟩

theorem Pausing.stepObserver (hbase : Base lay s g) (h : Pausing lay s g)
    (hstep : AbaProblem.observer s.mem (s.th .observer) = .next m' x') :
    ∃ g', Known lay ⟨m', Function.update s.th .observer x'⟩ g' := by
  unfold AbaProblem.observer at hstep
  split at hstep
  next hpc =>
    rw [if_neg (by simp [h.seen.ready])] at hstep
    cases hstep
    exact h.watch hbase rfl rfl rfl rfl rfl rfl trivial
  next pc hpc => exact h.observe hbase hpc hstep
  next => cases hstep

/-! ### After the pause -/

/-- A step of a call that has taken a node. -/
theorem Finishing.call (pauses : Bool) {i : Nat} (code : Int) {q : Ex5.Mem 2} {l' : Ex5.Local}
    (hbase : Base lay s g) (hl : (queueState s).th t = x.l) (hbusy : x.l.pc ≠ .idle)
    (htook : Took t i s.mem.q g x.l) (hq : Ex5.step t (deqCall c) s.mem.q x.l = .next q l') :
    Took t i q (record t (deqCall c) s.mem.q x.l g) l' ∧
      (record t (deqCall c) s.mem.q x.l g).lay.hd = g.lay.hd ∧
      Finishing { x with
        l := l'
        pc := if l'.pc = .idle then .ret
          else if pauses = true ∧ l'.pc = .deq .cas then .pause .ready else .deq } code := by
  have hO := hbase.inv.own t
  rw [hl] at hO
  have htook' := htook.step hO hbusy hq
  refine ⟨htook', record_hd hq ?_, ?_⟩
  · intro hwrite
    have hflow := step_flow hq
    rw [hwrite] at hflow
    exact htook.pc_ne_cas (Pc.flow_deq_writeOut hflow)
  · by_cases hidle : l'.pc = .idle
    · exact .inr (.inl ⟨by simp [hidle], hidle⟩)
    · exact .inl ⟨by simp [hidle, htook'.pc_ne_cas], hidle⟩

/-- What another thread has taken. -/
theorem Base.took_other {u : Fin 2} {i : Nat} {q : Ex5.Mem 2} {k l l' : Ex5.Local}
    (h : Base lay s g) (hl : (queueState s).th t = l) (hu : u ≠ t) (hi : i + 1 < lay.hd + 3)
    (htook : Took u i s.mem.q g k) (hq : Ex5.step t (deqCall c) s.mem.q l = .next q l') :
    Took u i q (record t (deqCall c) s.mem.q l g) k := by
  have hO := h.inv.own t
  rw [hl] at hO
  refine htook.stable ?_ ((step_ok h.inv.shared hO hq).rely u hu)
  rw [h.nodes.len, h.two]
  exact hi

/-- What another thread has in front of it. -/
theorem Base.willTake_other {s' : State} {g' : History 2} {l : Ex5.Local} (h : Base lay s g)
    (h' : Base lay s' g') (hhd : g'.lay.hd = g.lay.hd) (hlt : g.lay.hd < lay.hd + 2)
    (hwill : WillTake s.mem.q l) : WillTake s'.mem.q l := by
  refine hwill.congr ?_ (h'.nonempty (hhd ▸ hlt))
  have hhead := h.inv.shared.valid.head
  have hhead' := h'.inv.shared.valid.head
  rw [h'.nodes.node, hhd] at hhead'
  rw [h.nodes.node] at hhead
  exact hhead'.trans hhead.symm

theorem Resumed.callA (hbase : Base lay s g) (h : Resumed lay s g) (hpc : (s.th .a).pc = .deq)
    (hstep : deqStep 0 true c s.mem (s.th .a) = .next m' x') :
    ∃ g', Known lay ⟨m', Function.update s.th .a x'⟩ g' := by
  have hlink : (s.th .a).l.pc ≠ .enq .link := by
    rcases h.a with ⟨-, hwill, -⟩ | ⟨-, htook, -⟩
    · exact hwill.pc_ne_link
    · exact htook.pc_ne_link
  have hbase' := hbase.moved (moved_a hstep) hlink
  obtain ⟨q, l', hq, rfl, rfl⟩ := deqStep_cases hstep
  have hb := hbase.took_other (t := 0) rfl (by decide) (by omega) h.b.1 hq
  refine ⟨_, hbase', .inr (.inr ⟨{ h.seen with }, h.go, h.headMoved, h.retiredListOk,
    by simpa using h.observer, ?_, by simpa using ⟨hb, h.b.2⟩, by simpa using h.body⟩)⟩
  simp only [Function.update_self]
  rcases h.a with ⟨hhd, hwill, -⟩ | ⟨hhd, htook, hfin⟩
  · rcases hbase.ahead (t := 0) rfl (.inr hwill) (by omega) hq with
      ⟨hwill', hhd'⟩ | ⟨-, hwrite, htook, hhd'⟩
    · refine .inl ⟨hhd'.trans hhd, hwill', ?_⟩
      by_cases hcas : l'.pc = .deq .cas
      · simp [hcas]
      · simp [hcas, hwill'.busy]
    · rw [hhd] at htook hhd'
      exact .inr ⟨hhd', htook, .inl ⟨by simp [hwrite], by simp [hwrite]⟩⟩
  · have hbusy : (s.th .a).l.pc ≠ .idle := by
      rcases hfin with ⟨-, hbusy⟩ | ⟨hpc', -⟩ | ⟨hpc', -⟩
      · exact hbusy
      · cases hpc.symm.trans hpc'
      · cases hpc.symm.trans hpc'
    obtain ⟨htook', hhd', hfin'⟩ :=
      Finishing.call (t := 0) true s.mem.ra hbase rfl hbusy htook hq
    exact .inr ⟨hhd'.trans hhd, htook', by simpa using hfin'⟩

theorem Finishing.busy {code : Int} (h : Finishing x code) (hpc : x.pc = .deq) :
    x.l.pc ≠ .idle := by
  rcases h with ⟨-, hbusy⟩ | ⟨hpc', -⟩ | ⟨hpc', -⟩
  · exact hbusy
  · cases hpc.symm.trans hpc'
  · cases hpc.symm.trans hpc'

theorem Finishing.idle {code : Int} (h : Finishing x code) (hpc : x.pc ≠ .deq) :
    x.l.pc = .idle := by
  rcases h with ⟨hpc', -⟩ | ⟨-, hidle⟩ | ⟨-, hidle, -⟩
  · exact absurd hpc' hpc
  · exact hidle
  · exact hidle

theorem Finishing.code_eq {code : Int} (h : Finishing x code) (hpc : x.pc = .done) : code = 1 := by
  rcases h with ⟨hpc', -⟩ | ⟨hpc', -⟩ | ⟨-, -, hcode⟩
  · cases hpc.symm.trans hpc'
  · cases hpc.symm.trans hpc'
  · exact hcode

theorem Resumed.stepA (hbase : Base lay s g) (h : Resumed lay s g)
    (hstep : threadA c s.mem (s.th .a) = .next m' x') :
    ∃ g', Known lay ⟨m', Function.update s.th .a x'⟩ g' := by
  unfold threadA at hstep
  split at hstep
  next hpc => exact h.callA hbase hpc hstep
  next pc hpc =>
    -- A does not pause again
    rcases h.a with ⟨hhd, hwill, hpc' | hpc' | hpc'⟩ | ⟨-, -, hfin⟩
    · cases hpc.symm.trans hpc'
    · cases hpc.symm.trans hpc'
      simp only [pause, h.seen.ready, reduceCtorEq, if_false] at hstep
      cases hstep
      exact ⟨g, hbase.same (same_update rfl rfl), .inr (.inr ⟨h.seen, h.go, h.headMoved,
        h.retiredListOk, by simpa using h.observer, .inl ⟨hhd, by simpa using hwill, by simp⟩,
        by simpa using h.b, by simpa using h.body⟩)⟩
    · cases hpc.symm.trans hpc'
      simp only [pause, h.go, reduceCtorEq, if_false] at hstep
      cases hstep
      exact ⟨g, hbase.same (same_update rfl rfl), .inr (.inr ⟨h.seen, h.go, h.headMoved,
        h.retiredListOk, by simpa using h.observer, .inl ⟨hhd, by simpa using hwill, by simp⟩,
        by simpa using h.b, by simpa using h.body⟩)⟩
    · rcases hfin with ⟨hpc', -⟩ | ⟨hpc', -⟩ | ⟨hpc', -⟩ <;> cases hpc.symm.trans hpc'
  next hpc =>
    rcases h.a with ⟨-, -, hpc' | hpc' | hpc'⟩ | ⟨hhd, htook, hfin⟩
    · cases hpc.symm.trans hpc'
    · cases hpc.symm.trans hpc'
    · cases hpc.symm.trans hpc'
    · cases hstep
      have hidle := hfin.idle (by simp [hpc])
      exact ⟨g, hbase.same (same_update rfl rfl), .inr (.inr ⟨{ h.seen with }, h.go, h.headMoved,
        h.retiredListOk, by simpa using h.observer,
        .inr ⟨hhd, by simpa using htook, .inr (.inr ⟨by simp, by simpa using hidle,
          (htook.at_idle hidle).2.2⟩)⟩, by simpa using h.b, by simpa using h.body⟩)⟩
  next => cases hstep

theorem Resumed.callB (hbase : Base lay s g) (h : Resumed lay s g) (hpc : (s.th .b).pc = .deq)
    (hstep : deqStep 1 false c s.mem (s.th .b) = .next m' x') :
    ∃ g', Known lay ⟨m', Function.update s.th .b x'⟩ g' := by
  have hbase' := hbase.moved (moved_b hstep) h.b.1.pc_ne_link
  obtain ⟨q, l', hq, rfl, rfl⟩ := deqStep_cases hstep
  obtain ⟨htook', hhd', hfin'⟩ :=
    Finishing.call (t := 1) false s.mem.rb hbase rfl (h.b.2.busy hpc) h.b.1 hq
  refine ⟨_, hbase', .inr (.inr ⟨{ h.seen with }, h.go, h.headMoved, h.retiredListOk,
    by simpa using h.observer, ?_, by simpa using ⟨htook', by simpa using hfin'⟩,
    by simpa using Pc.flow_behind (step_flow hq) h.body h.b.1.pc_ne_opBegin⟩)⟩
  rcases h.a with ⟨hhd, hwill, hpc⟩ | ⟨hhd, htook, hfin⟩
  · have hwill' := hbase.willTake_other hbase' hhd' (by omega) hwill
    exact .inl ⟨hhd'.trans hhd, by simpa using hwill', by simpa using hpc⟩
  · have htook' := hbase.took_other (t := 1) (l := (s.th .b).l) rfl (by decide) (by omega) htook hq
    exact .inr ⟨hhd'.trans hhd, by simpa using htook', by simpa using hfin⟩

theorem Resumed.stepB (hbase : Base lay s g) (h : Resumed lay s g)
    (hstep : threadB c s.mem (s.th .b) = .next m' x') :
    ∃ g', Known lay ⟨m', Function.update s.th .b x'⟩ g' := by
  have hb := h.b
  unfold threadB at hstep
  split at hstep
  next hpc =>
    rcases hb.2 with ⟨hpc', -⟩ | ⟨hpc', -⟩ | ⟨hpc', -⟩ <;> cases hpc.symm.trans hpc'
  next hpc => exact h.callB hbase hpc hstep
  next hpc =>
    cases hstep
    have hidle := hb.2.idle (by simp [hpc])
    exact ⟨g, hbase.same (same_update rfl rfl), .inr (.inr ⟨{ h.seen with }, h.go, h.headMoved,
      h.retiredListOk, by simpa using h.observer, by simpa using h.a,
      ⟨by simpa using hb.1, .inr (.inr ⟨by simp, by simpa using hidle, (hb.1.at_idle hidle).2.2⟩)⟩,
      by simpa using h.body⟩)⟩
  next => cases hstep

/-! ## The run -/

/-- A thread that only looks at a flag. -/
theorem Known.stay {t : Thread} (h : Known lay s g) :
    ∃ g', Known lay ⟨s.mem, Function.update s.th t (s.th t)⟩ g' := by
  rw [Function.update_eq_self]
  exact ⟨g, h⟩

theorem Known.step {t : Thread} (h : Known lay s g)
    (hstep : testAbaProblem t c s.mem (s.th t) = .next m' x') :
    ∃ g', Known lay ⟨m', Function.update s.th t x'⟩ g' := by
  obtain ⟨hbase, hbefore | hpausing | hresumed⟩ := h
  · cases t with
    | a => exact hbefore.stepA hbase hstep
    | b =>
        simp only [testAbaProblem, threadB, hbefore.b.1, if_pos hbefore.ready] at hstep
        cases hstep
        exact Known.stay ⟨hbase, .inl hbefore⟩
    | observer =>
        simp only [testAbaProblem, observer, hbefore.observer, if_pos hbefore.ready] at hstep
        cases hstep
        exact Known.stay ⟨hbase, .inl hbefore⟩
  · cases t with
    | a => exact hpausing.stepA hbase hstep
    | b => exact hpausing.stepB hbase hstep
    | observer => exact hpausing.stepObserver hbase hstep
  · cases t with
    | a => exact hresumed.stepA hbase hstep
    | b => exact hresumed.stepB hbase hstep
    | observer =>
        simp only [testAbaProblem, observer, hresumed.observer] at hstep
        cases hstep

end Step

section Run

variable {q : Ex5.State 2} {s : State} {g : History 2} {es : List (Thread × Choice)}
  {a b d : Addr} {x y : Value}

/-- The threads are in no call, and the queue is the list `a`, `b`, `d` with the values `x` and
`y`. -/
structure Start (q : Ex5.State 2) (a b d : Addr) (x y : Value) : Prop where
  idle : ∀ t, (q.th t).pc = .idle
  head : q.mem.store.head = some a
  next : (q.mem.store.heap a).next = some b
  fst : q.mem.store.heap b = ⟨x, some d⟩
  snd : q.mem.store.heap d = ⟨y, none⟩

theorem queueState_testInit (q : Ex5.State 2) : queueState (testInit q) = q := by
  obtain ⟨m, th⟩ := q
  refine congrArg (Config.mk m) (funext fun u => ?_)
  by_cases hu : u = 0
  · subst hu
    rfl
  · obtain rfl : u = 1 := by omega
    rfl

/-- The list in the numbering of the history. -/
structure Listed (lay : Layout 2) (a b d : Addr) (x y : Value) : Prop where
  len : lay.len = lay.hd + 3
  fst : lay.node lay.hd = a
  snd : lay.node (lay.hd + 1) = b
  val : lay.val (lay.hd + 1) = x
  val' : lay.val (lay.hd + 2) = y

theorem Start.listed (h : Start q a b d x y) (hI : Inv q g) : Listed g.lay a b d x y := by
  have hV := hI.shared.valid
  have hlt := hV.hd_lt
  have ha : g.lay.node g.lay.hd = a := Option.some.inj (hV.head.symm.trans h.head)
  obtain ⟨hlt₁, hb⟩ := hV.next_eq_some (Valid.live_of_le le_rfl hlt) (by rw [ha]; exact h.next)
  have hlive₁ : g.lay.Live (g.lay.hd + 1) := Valid.live_of_le (Nat.le_succ _) hlt₁
  obtain ⟨hlt₂, hd⟩ := hV.next_eq_some hlive₁ (by rw [← hb, h.fst])
  have hlive₂ : g.lay.Live (g.lay.hd + 2) := Valid.live_of_le (by omega) hlt₂
  have hnull := (hV.next_eq_none_iff hlive₂).mp (by rw [← hd, h.snd])
  have hval := hV.data _ hlive₁
  have hval' := hV.data _ hlive₂
  rw [← hb, h.fst] at hval
  rw [← hd, h.snd] at hval'
  exact ⟨hnull.symm, ha, hb.symm, hval.symm, hval'.symm⟩

theorem known_init (h : Start q a b d x y) (hI : Inv q g) : Known g.lay (testInit q) g where
  base :=
    { inv := by rw [queueState_testInit]; exact hI
      nodes := ⟨rfl, rfl, rfl⟩
      two := (h.listed hI).len
      hd_le := le_rfl
      start := by
        intro t hb
        rw [(hI.own t).status.body, h.idle t] at hb
        cases hb }
  part := .inl ⟨rfl, rfl, rfl, .inl (h.idle 0), ⟨rfl, h.idle 1⟩, rfl⟩

theorem exists_known {sched : List (Fin 2 × Choice)} (hq : run Ex5.step (Ex5.init 2) sched = some q)
    (hstart : Start q a b d x y) (h : run testAbaProblem (testInit q) es = some s) :
    ∃ lay g, Listed lay a b d x y ∧ Known lay s g := by
  obtain ⟨g₀, hI⟩ := exists_history hq
  have hall := run_induction (motive := fun _ v => ∃ g, Known g₀.lay v g)
    ⟨g₀, known_init hstart hI⟩ (by
      rintro es ⟨t, c⟩ u v - ⟨g, hknown⟩ hf
      obtain ⟨m', x', hstep, rfl⟩ := fire_eq_some.mp hf
      exact hknown.step hstep) es s h
  obtain ⟨g, hknown⟩ := hall
  exact ⟨g₀.lay, g, hstart.listed hI, hknown⟩

/-- **The test of the ABA problem passes.**  From every reachable state in which two items are in
the queue and no call is open, in every interleaving of the three threads: when all of them are
done, what the test asserts is true, thread A has observed the first two nodes, and it has got the
second value although it paused in front of the first. -/
theorem abaProblem_passes {sched : List (Fin 2 × Choice)}
    (hq : run Ex5.step (Ex5.init 2) sched = some q) (hstart : Start q a b d x y)
    (h : run testAbaProblem (testInit q) es = some s) (hdone : ∀ t, (s.th t).pc = .done) :
    Passed x y s ∧ s.mem.observedFirst = some a ∧ s.mem.observedNext = some b := by
  obtain ⟨lay, g, hlisted, hbase, hbefore | hpausing | hresumed⟩ := exists_known hq hstart h
  · cases (hdone .b).symm.trans hbefore.b.1
  · cases (hdone .a).symm.trans hpausing.a.1
  · obtain ⟨hhd, htook, hfin⟩ : g.lay.hd = lay.hd + 2 ∧ Took 0 (lay.hd + 1) s.mem.q g (s.th .a).l ∧
        Finishing (s.th .a) s.mem.ra := by
      rcases hresumed.a with ⟨-, -, hpc | hpc | hpc⟩ | ha
      · cases (hdone .a).symm.trans hpc
      · cases (hdone .a).symm.trans hpc
      · cases (hdone .a).symm.trans hpc
      · exact ha
    obtain ⟨htook', hfin'⟩ := hresumed.b
    have hra := hfin.code_eq (hdone .a)
    have hrb := hfin'.code_eq (hdone .b)
    obtain ⟨hfree, hout, -⟩ := htook.at_idle (hfin.idle (by simp [hdone .a]))
    obtain ⟨hfree', hout', -⟩ := htook'.at_idle (hfin'.idle (by simp [hdone .b]))
    have hseen := hresumed.seen
    rw [hbase.nodes.node] at hfree hfree'
    rw [hbase.nodes.val] at hout hout'
    refine ⟨⟨⟨?_, ?_⟩, ⟨?_, ?_⟩, hresumed.headMoved, hresumed.retiredListOk, hra, hrb, ?_, ?_, ?_⟩,
      ?_, ?_⟩
    · simp [hfree]
    · rw [hfree, hseen.observedNext]
    · simp [hfree']
    · rw [hfree', hseen.observedFirst]
    · rw [hout, hlisted.val']
    · rw [hout', hlisted.val]
    · intro hne
      have hlen := (nonempty_iff hbase.inv.shared).mp hne
      rw [hbase.nodes.len, hbase.two, hhd] at hlen
      omega
    · rw [hseen.observedFirst, hlisted.fst]
    · rw [hseen.observedNext, hlisted.snd]

/-- The two calls of `enq` before the parallel region. -/
def enqueued : List (Fin 2 × Choice) := solo 0 (.enq 1) 16 ++ solo 0 (.enq 2) 16

theorem start_enqueued (hq : run Ex5.step (Ex5.init 2) enqueued = some q) : Start q 0 1 2 1 2 := by
  have hidle := run_observe hq (fun q => ((q.th 0).pc, (q.th 1).pc)) rfl
  exact
  { idle := Fin.forall_fin_two.mpr ⟨congrArg Prod.fst hidle, congrArg Prod.snd hidle⟩
    head := run_observe hq (fun q => q.mem.store.head) rfl
    next := run_observe hq (fun q => (q.mem.store.heap 0).next) rfl
    fst := run_observe hq (fun q => q.mem.store.heap 1) rfl
    snd := run_observe hq (fun q => q.mem.store.heap 2) rfl }

/-- A pauses, B dequeues the 1 and waits, the observer lets A go on; A dequeues the 2, and B
returns. -/
def forced : List (Thread × Choice) :=
  [(.a, 11), (.b, 16), (.observer, 12), (.a, 33), (.b, 16)].flatMap fun e =>
    List.replicate e.2 (e.1, .plain (.deq 0))

set_option maxRecDepth 2000 in
theorem abaProblem_passes_forced :
    ∃ q s, run Ex5.step (Ex5.init 2) enqueued = some q ∧
      run testAbaProblem (testInit q) forced = some s ∧ Passed 1 2 s := by
  obtain ⟨s, hs⟩ : ∃ s, ((run Ex5.step (Ex5.init 2) enqueued).bind fun q =>
      run testAbaProblem (testInit q) forced) = some s := ⟨_, rfl⟩
  obtain ⟨q, hq, hrun⟩ := Option.bind_eq_some_iff.mp hs
  have hpcs : ((run Ex5.step (Ex5.init 2) enqueued).bind fun q =>
      (run testAbaProblem (testInit q) forced).map fun s =>
        ((s.th .a).pc, (s.th .b).pc, (s.th .observer).pc)) = some (.done, .done, .done) := rfl
  rw [hq, Option.bind_some, hrun, Option.map_some, Option.some.injEq] at hpcs
  have hdone : ∀ t, (s.th t).pc = .done := by
    intro t
    cases t with
    | a => exact congrArg Prod.fst hpcs
    | b => exact congrArg (fun p => p.2.1) hpcs
    | observer => exact congrArg (fun p => p.2.2) hpcs
  exact ⟨q, s, hq, hrun, (abaProblem_passes hq (start_enqueued hq) hrun hdone).1⟩

end Run

end ConcurrentQueues.Tests.AbaProblem
