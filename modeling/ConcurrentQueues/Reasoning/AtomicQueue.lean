import ConcurrentQueues.Reasoning.Threads

/-!
# AtomicQueue — the FIFO object whose operations take effect in one step

An operation of the atomic queue is called, takes effect once, and returns.  The abstract queue
changes only at an effect.  A concurrent implementation is linearizable when its runs, with each
operation placed at the step where it takes effect, are runs of this object with the same calls
and returns.

A dequeue that finds the queue empty may know only later that it will return: it *peeks*, and the
last peek before the return is where it took effect.  `linearize` places it there.
-/

namespace ConcurrentQueues.Reasoning

/-- A call of the queue.  `deq` carries the content of its output cell at the call. -/
inductive Op (V : Type*) where
  | enq (v : V)
  | deq (out : V)
  deriving DecidableEq, Repr

/-- A result: the return code, and for a dequeue the content of its output cell. -/
inductive Res (V : Type*) where
  | enq (code : Int)
  | deq (code : Int) (out : V)
  deriving DecidableEq, Repr

inductive Phase (V : Type*) where
  | idle
  | called (op : Op V)
  | done (res : Res V)
  deriving DecidableEq, Repr

inductive Act (V : Type*) where
  | call (op : Op V)
  | enqueue (v : V)
  | enqueueFail
  | dequeue (v : V)
  | dequeueEmpty
  | ret (res : Res V)
  deriving DecidableEq, Repr

variable {ι C M L V : Type*} [DecidableEq V]

/-- The effect of an action on the queue and on the phase of the thread that takes it. -/
def Act.apply : Act V → List V → Phase V → Option (List V × Phase V)
  | .call op, items, .idle => some (items, .called op)
  | .enqueue v, items, .called (.enq w) =>
      if v = w then some (items ++ [v], .done (.enq 1)) else none
  | .enqueueFail, items, .called (.enq _) => some (items, .done (.enq 0))
  | .dequeue v, w :: items, .called (.deq _) =>
      if v = w then some (items, .done (.deq 1 v)) else none
  | .dequeueEmpty, [], .called (.deq out) => some ([], .done (.deq 0 out))
  | .ret res, items, .done r => if res = r then some (items, .idle) else none
  | _, _, _ => none

/-- The atomic queue: its content and the phase of every thread. -/
structure Fifo (ι V : Type*) where
  items : List V
  phase : ι → Phase V

/-- The empty queue before any call. -/
def Fifo.empty : Fifo ι V := ⟨[], fun _ => .idle⟩

variable [DecidableEq ι]

def Fifo.act (q : Fifo ι V) (a : ι × Act V) : Option (Fifo ι V) :=
  (a.2.apply q.items (q.phase a.1)).map fun r => ⟨r.1, Function.update q.phase a.1 r.2⟩

def Fifo.run (q : Fifo ι V) (acts : List (ι × Act V)) : Option (Fifo ι V) :=
  acts.foldlM Fifo.act q

theorem Fifo.run_snoc {q q' : Fifo ι V} {acts : List (ι × Act V)} {a : ι × Act V} :
    q.run (acts ++ [a]) = some q' ↔ ∃ r, q.run acts = some r ∧ r.act a = some q' := by
  simp [Fifo.run, List.foldlM_append, Option.bind_eq_some_iff]

theorem Fifo.run_cons {q q' : Fifo ι V} {acts : List (ι × Act V)} {a : ι × Act V} :
    q.run (a :: acts) = some q' ↔ ∃ r, q.act a = some r ∧ r.run acts = some q' := by
  simp [Fifo.run, List.foldlM_cons, Option.bind_eq_some_iff]

/-! ## First in, first out -/

def Act.added : Act V → Option V
  | .enqueue v => some v
  | _ => none

def Act.removed : Act V → Option V
  | .dequeue v => some v
  | _ => none

/-- The values the run puts in, in order. -/
def enqueued (acts : List (ι × Act V)) : List V := acts.filterMap fun a => a.2.added

/-- The values the run takes out, in order. -/
def dequeued (acts : List (ι × Act V)) : List V := acts.filterMap fun a => a.2.removed

theorem Act.apply_items {a : Act V} {items items' : List V} {p p' : Phase V}
    (h : a.apply items p = some (items', p')) :
    items ++ a.added.toList = a.removed.toList ++ items' := by
  unfold Act.apply at h
  split at h <;> simp_all [Act.added, Act.removed]

/-- What went in is what came out followed by what is still there: no value is lost, duplicated,
invented or overtaken. -/
theorem Fifo.fifo {q q' : Fifo ι V} {acts : List (ι × Act V)} (h : q.run acts = some q') :
    q.items ++ enqueued acts = dequeued acts ++ q'.items := by
  induction acts generalizing q with
  | nil =>
      obtain rfl : q = q' := by simpa [Fifo.run] using h
      simp [enqueued, dequeued]
  | cons a acts ih =>
      obtain ⟨r, hr, hrun⟩ := Fifo.run_cons.mp h
      obtain ⟨⟨items, p⟩, happ, rfl⟩ := Option.map_eq_some_iff.mp hr
      have hstep := Act.apply_items happ
      have hrest := ih hrun
      have hadd : enqueued (a :: acts) = a.2.added.toList ++ enqueued acts := by
        cases hv : a.2.added <;> simp [enqueued, hv]
      have hrem : dequeued (a :: acts) = a.2.removed.toList ++ dequeued acts := by
        cases hv : a.2.removed <;> simp [dequeued, hv]
      calc
        q.items ++ enqueued (a :: acts)
            = (q.items ++ a.2.added.toList) ++ enqueued acts := by rw [hadd, List.append_assoc]
        _ = a.2.removed.toList ++ (items ++ enqueued acts) := by rw [hstep, List.append_assoc]
        _ = a.2.removed.toList ++ (dequeued acts ++ q'.items) := by rw [hrest]
        _ = dequeued (a :: acts) ++ q'.items := by rw [hrem, List.append_assoc]

/-! ## Labels of an implementation and the actions they stand for -/

/-- What a step of an implementation announces. -/
inductive Label (V : Type*) where
  /-- the step is this action -/
  | act (a : Act V)
  /-- the step may turn out to be the effect of an empty dequeue -/
  | peek
  /-- a dequeue returns 0; it took effect at its last peek -/
  | retEmpty (out : V)
  deriving DecidableEq, Repr

/-- The actions of a trace, both newest first.  `late t` says that the dequeue of `t` has returned
0 and that the peek where it took effect is still to be met. -/
def linearizeRev (late : ι → Bool) : List (ι × Label V) → List (ι × Act V)
  | [] => []
  | (t, .act a) :: tr => (t, a) :: linearizeRev late tr
  | (t, .retEmpty out) :: tr =>
      (t, .ret (.deq 0 out)) :: linearizeRev (Function.update late t true) tr
  | (t, .peek) :: tr =>
      if late t then (t, .dequeueEmpty) :: linearizeRev (Function.update late t false) tr
      else linearizeRev late tr

def linearize (tr : List (ι × Label V)) : List (ι × Act V) :=
  (linearizeRev (fun _ => false) tr.reverse).reverse

/-- The calls and returns among the actions of a run. -/
def Act.visible : Act V → Bool
  | .call _ => true
  | .ret _ => true
  | _ => false

def history (acts : List (ι × Act V)) : List (ι × Act V) := acts.filter fun a => a.2.visible

def Label.interface : Label V → Option (Act V)
  | .act a => if a.visible then some a else none
  | .peek => none
  | .retEmpty out => some (.ret (.deq 0 out))

/-- The calls and returns an implementation shows to its callers. -/
def interface (tr : List (ι × Label V)) : List (ι × Act V) :=
  tr.filterMap fun e => e.2.interface.map (e.1, ·)

omit [DecidableEq V] [DecidableEq ι] in
@[simp] theorem history_cons (a : ι × Act V) (acts : List (ι × Act V)) :
    history (a :: acts) = if a.2.visible then a :: history acts else history acts :=
  List.filter_cons

omit [DecidableEq V] [DecidableEq ι] in
@[simp] theorem interface_cons (e : ι × Label V) (tr : List (ι × Label V)) :
    interface (e :: tr) = (e.2.interface.map (e.1, ·)).toList ++ interface tr := by
  cases h : e.2.interface <;> simp [interface, h]

omit [DecidableEq V] in
theorem history_linearizeRev (late : ι → Bool) (tr : List (ι × Label V)) :
    history (linearizeRev late tr) = interface tr := by
  induction tr generalizing late with
  | nil => rfl
  | cons e tr ih =>
      obtain ⟨t, lab⟩ := e
      cases lab with
      | act a => cases hv : a.visible <;> simp [linearizeRev, Label.interface, hv, ih]
      | peek =>
          by_cases hl : late t
          · simp [linearizeRev, Label.interface, Act.visible, hl, ih]
          · simp [linearizeRev, Label.interface, hl, ih]
      | retEmpty out => simp [linearizeRev, Label.interface, Act.visible, ih]

omit [DecidableEq V] in
/-- Linearizing keeps every call and every return, in order. -/
theorem history_linearize (tr : List (ι × Label V)) : history (linearize tr) = interface tr := by
  have h := congrArg List.reverse (history_linearizeRev (fun _ => false) tr.reverse)
  simpa [history, linearize, interface, List.filter_reverse, List.filterMap_reverse] using h

/-! ## The simulation rule -/

/-- The phase of a dequeue that has been settled as empty. -/
def Phase.settled : Phase V → Phase V
  | .called (.deq out) => .done (.deq 0 out)
  | p => p

/-- What a step from `(m, l)` to `(m', l')` owes for its label.  `emptied l` says that the dequeue
in `l` is past a peek it will return 0 from. -/
def LabelOk (items : M → List V) (phase : L → Phase V) (emptied : L → Prop)
    (m : M) (l : L) (m' : M) (l' : L) : Option (Label V) → Prop
  | none => items m' = items m ∧ phase l' = phase l ∧ (emptied l' → emptied l)
  | some .peek => items m' = items m ∧ phase l' = phase l ∧ (emptied l' → items m = [])
  | some (.retEmpty out) =>
      items m' = items m ∧ emptied l ∧ phase l = .called (.deq out) ∧ phase l' = .idle ∧
        ¬ emptied l'
  | some (.act a) => a.apply (items m) (phase l) = some (items m', phase l') ∧ ¬ emptied l'

/-- A simulation of the atomic queue by `P` under the invariant `I`. -/
structure Linearizes (P : Program ι C M L) (lab : ι → C → M → L → Option (Label V))
    (I : Config ι M L → Prop) where
  items : M → List V
  phase : L → Phase V
  emptied : L → Prop
  emptied_deq : ∀ l, emptied l → ∃ out, phase l = .called (.deq out)
  inv : ∀ {s e s'}, I s → fire P s e = some s' → I s'
  step : ∀ {s : Config ι M L} {t c m' l'}, I s → P t c s.mem (s.th t) = .next m' l' →
    LabelOk items phase emptied s.mem (s.th t) m' l' (lab t c s.mem (s.th t))

/-- The labels of a run, each with the thread that announced it. -/
def labels (P : Program ι C M L) (lab : ι → C → M → L → Option (Label V))
    (s : Config ι M L) (es : List (ι × C)) : List (ι × Label V) :=
  trace P (fun t c m l => (lab t c m l).map (t, ·)) s es

namespace Linearizes

variable {P : Program ι C M L} {lab : ι → C → M → L → Option (Label V)}
  {I : Config ι M L → Prop}

/-- The abstract state of a configuration in which the dequeues in `late` have been settled. -/
def settledFifo (R : Linearizes P lab I) (late : ι → Bool) (s : Config ι M L) : Fifo ι V :=
  ⟨R.items s.mem, fun t =>
    if late t then (R.phase (s.th t)).settled else R.phase (s.th t)⟩

omit [DecidableEq ι] in
/-- The abstract state of a configuration. -/
def fifo (R : Linearizes P lab I) (s : Config ι M L) : Fifo ι V :=
  ⟨R.items s.mem, fun t => R.phase (s.th t)⟩

theorem settledFifo_update (R : Linearizes P lab I) {late : ι → Bool} {s : Config ι M L} {t : ι}
    {m' : M} {l' : L} (b : Bool) :
    R.settledFifo late ⟨m', Function.update s.th t l'⟩ =
      ⟨R.items m', Function.update (R.settledFifo (Function.update late t b) s).phase t
        (if late t then (R.phase l').settled else R.phase l')⟩ := by
  unfold settledFifo
  congr 1
  funext u
  by_cases hu : u = t
  · subst hu; simp
  · simp [Function.update_of_ne hu]

/-- The labels `tr`, newest first, lead the atomic queue from `q` to every settling of `s`. -/
def Settles (R : Linearizes P lab I) (q : Fifo ι V) (tr : List (ι × Label V))
    (s : Config ι M L) : Prop :=
  ∀ late : ι → Bool, (∀ t, late t = true → R.emptied (s.th t)) →
    q.run (linearizeRev late tr).reverse = some (R.settledFifo late s)

section Step

variable {R : Linearizes P lab I} {q : Fifo ι V} {tr : List (ι × Label V)} {s : Config ι M L}
  {t : ι} {m' : M} {l' : L} {late : ι → Bool}

/-- Settling is judged after a step; for the threads that did not move it was judged before. -/
theorem emptied_before {b : Bool}
    (h : ∀ u, late u = true → R.emptied (Function.update s.th t l' u))
    (ht : b = true → R.emptied (s.th t)) :
    ∀ u, Function.update late t b u = true → R.emptied (s.th u) := by
  intro u hu
  by_cases heq : u = t
  · subst heq; exact ht (by simpa using hu)
  · simpa [Function.update_of_ne heq] using h u (by simpa [Function.update_of_ne heq] using hu)

theorem late_eq_false (h : ∀ u, late u = true → R.emptied (Function.update s.th t l' u))
    (hnot : ¬ R.emptied l') : late t = false := by
  cases hv : late t
  · rfl
  · exact absurd (by simpa using h t hv) hnot

theorem Settles.silent (h : R.Settles q tr s) (hitems : R.items m' = R.items s.mem)
    (hphase : R.phase l' = R.phase (s.th t)) (hback : R.emptied l' → R.emptied (s.th t)) :
    R.Settles q tr ⟨m', Function.update s.th t l'⟩ := by
  intro late hlate
  -- what is settled after the step was settled before it
  have hpre := emptied_before (b := late t) hlate fun hl => hback (by simpa using hlate t hl)
  rw [Function.update_eq_self] at hpre
  rw [h late hpre, R.settledFifo_update (late t), Function.update_eq_self, hitems, hphase]
  congr 1
  exact Fifo.mk.injEq .. |>.mpr ⟨rfl, (Function.update_eq_self t _).symm⟩

theorem Settles.act {a : Act V} (h : R.Settles q tr s)
    (happ : a.apply (R.items s.mem) (R.phase (s.th t)) = some (R.items m', R.phase l'))
    (hnot : ¬ R.emptied l') :
    R.Settles q ((t, .act a) :: tr) ⟨m', Function.update s.th t l'⟩ := by
  intro late hlate
  -- the thread takes effect itself, so its dequeue is not settled as empty
  have hfalse := late_eq_false hlate hnot
  have hpre := emptied_before (b := late t) hlate (by simp [hfalse])
  rw [Function.update_eq_self] at hpre
  rw [linearizeRev, List.reverse_cons]
  refine Fifo.run_snoc.mpr ⟨_, h late hpre, ?_⟩
  rw [R.settledFifo_update (late t), Function.update_eq_self]
  simp [Fifo.act, settledFifo, hfalse, happ]

/-- A peek becomes the effect of the dequeue exactly when that dequeue is settled. -/
theorem Settles.peek (h : R.Settles q tr s) (hitems : R.items m' = R.items s.mem)
    (hphase : R.phase l' = R.phase (s.th t)) (hempty : R.emptied l' → R.items s.mem = []) :
    R.Settles q ((t, .peek) :: tr) ⟨m', Function.update s.th t l'⟩ := by
  intro late hlate
  have hpre := emptied_before (b := false) hlate (by simp)
  cases hv : late t with
  | false =>
      rw [linearizeRev, if_neg (by simp [hv]),
        h late (by simpa [← hv, Function.update_eq_self] using hpre),
        R.settledFifo_update (late t), Function.update_eq_self, hitems, hphase]
      congr 1
      exact Fifo.mk.injEq .. |>.mpr ⟨rfl, by simp [settledFifo, hv]⟩
  | true =>
      -- the dequeue takes effect here: it was called, and the queue is empty
      have hemp : R.emptied l' := by simpa using hlate t hv
      obtain ⟨out, hout⟩ := R.emptied_deq l' hemp
      rw [linearizeRev, if_pos hv, List.reverse_cons]
      refine Fifo.run_snoc.mpr ⟨_, h _ hpre, ?_⟩
      rw [R.settledFifo_update false, hitems, hv, hout]
      simp [Fifo.act, settledFifo, ← hphase, hout, hempty hemp, Act.apply, Phase.settled]

theorem Settles.retEmpty {out : V} (h : R.Settles q tr s) (hitems : R.items m' = R.items s.mem)
    (hemp : R.emptied (s.th t)) (hphase : R.phase (s.th t) = .called (.deq out))
    (hidle : R.phase l' = .idle) (hnot : ¬ R.emptied l') :
    R.Settles q ((t, .retEmpty out) :: tr) ⟨m', Function.update s.th t l'⟩ := by
  intro late hlate
  have hfalse := late_eq_false hlate hnot
  -- before the return the dequeue is settled: its effect is at the last peek
  have hpre := emptied_before (b := true) hlate fun _ => hemp
  rw [linearizeRev, List.reverse_cons]
  refine Fifo.run_snoc.mpr ⟨_, h _ hpre, ?_⟩
  rw [R.settledFifo_update true, hitems, hfalse, hidle]
  simp [Fifo.act, settledFifo, hphase, Act.apply, Phase.settled]

end Step

theorem settles_step (R : Linearizes P lab I) {q : Fifo ι V} {tr : List (ι × Label V)}
    {s s' : Config ι M L} {e : ι × C} (hI : I s) (h : R.Settles q tr s)
    (hf : fire P s e = some s') :
    R.Settles q (((lab e.1 e.2 s.mem (s.th e.1)).map (e.1, ·)).toList ++ tr) s' := by
  obtain ⟨m', l', hstep, rfl⟩ := fire_eq_some.mp hf
  have hok := R.step hI hstep
  cases hl : lab e.1 e.2 s.mem (s.th e.1) with
  | none =>
      rw [hl] at hok
      exact h.silent hok.1 hok.2.1 hok.2.2
  | some lab' =>
      rw [hl] at hok
      cases lab' with
      | act a => exact h.act hok.1 hok.2
      | peek => exact h.peek hok.1 hok.2.1 hok.2.2
      | retEmpty out =>
          obtain ⟨hitems, hemp, hphase, hidle, hnot⟩ := hok
          exact h.retEmpty hitems hemp hphase hidle hnot

theorem run_settles (R : Linearizes P lab I) {s₀ : Config ι M L} (h₀ : I s₀)
    (hidle : ∀ t, R.phase (s₀.th t) = .idle) :
    ∀ es s, run P s₀ es = some s →
      I s ∧ R.Settles (R.fifo s₀) (labels P lab s₀ es).reverse s := by
  refine run_induction ⟨h₀, fun late _ => ?_⟩ ?_
  · -- no call is in progress at the start, so settling changes nothing
    have hphase : R.settledFifo late s₀ = R.fifo s₀ := by
      unfold settledFifo fifo
      congr 1
      funext t
      simp [hidle t, Phase.settled]
    rw [hphase]
    rfl
  · rintro es e s s' hrun ⟨hI, ih⟩ hf
    have hlab : labels P lab s₀ (es ++ [e]) = labels P lab s₀ es ++
        ((lab e.1 e.2 s.mem (s.th e.1)).map (e.1, ·)).toList := trace_snoc e hrun
    have hstep := R.settles_step hI ih hf
    refine ⟨R.inv hI hf, ?_⟩
    rw [hlab, List.reverse_append]
    cases hl : lab e.1 e.2 s.mem (s.th e.1) <;> simpa [hl] using hstep

/-- **Simulation.**  Every run, with its operations placed where they take effect, is a run of the
atomic queue with the same content and the same phases. -/
theorem run_linearize (R : Linearizes P lab I) {s₀ s : Config ι M L} {es : List (ι × C)}
    (h₀ : I s₀) (hidle : ∀ t, R.phase (s₀.th t) = .idle) (h : run P s₀ es = some s) :
    (R.fifo s₀).run (linearize (labels P lab s₀ es)) = some (R.fifo s) := by
  have hall := (R.run_settles h₀ hidle es s h).2 (fun _ => false) (by simp)
  simpa [linearize, settledFifo, fifo] using hall

omit [DecidableEq V] in
theorem labels_withHistory {G : Type*} (record : ι → C → M → L → G → G)
    {s₀ s : Config ι M L} {es : List (ι × C)} (g₀ : G) (h : run P s₀ es = some s) :
    labels (withHistory P record) (fun t c mg l => lab t c mg.1 l) (s₀.withHistory g₀) es =
      labels P lab s₀ es :=
  trace_withHistory record (fun t c m l => (lab t c m l).map (t, ·)) g₀ h

/-- A simulation that needs a history variable linearizes the runs of the program without it. -/
theorem run_linearize_history {G : Type*} {record : ι → C → M → L → G → G}
    {J : Config ι (M × G) L → Prop}
    (R : Linearizes (withHistory P record) (fun t c mg l => lab t c mg.1 l) J)
    {s₀ s : Config ι M L} {es : List (ι × C)} {g₀ : G} (h₀ : J (s₀.withHistory g₀))
    (hidle : ∀ t, R.phase (s₀.th t) = .idle) (h : run P s₀ es = some s) :
    ∃ g, J (s.withHistory g) ∧
      (R.fifo (s₀.withHistory g₀)).run (linearize (labels P lab s₀ es)) =
        some (R.fifo (s.withHistory g)) := by
  obtain ⟨g, hrun⟩ := run_withHistory record g₀ h
  have hinv : J (s.withHistory g) := (R.run_settles h₀ hidle es _ hrun).1
  have hfifo := R.run_linearize h₀ hidle hrun
  rw [labels_withHistory record g₀ h] at hfifo
  exact ⟨g, hinv, hfifo⟩

end Linearizes

end ConcurrentQueues.Reasoning
