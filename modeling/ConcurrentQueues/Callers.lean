import ConcurrentQueues.Flow

/-!
# Callers — programs whose threads call a queue

The parallel region of the benchmark and the concurrent test make the steps of the calls part of
their own steps.  What they share is here: a step in a call, the state of the queue among the locals
of the threads, and what a thread knows of the call it is in.
-/

namespace ConcurrentQueues

open Reasoning

variable {n : Nat} {X : Type}

/-- A step of the call of `op`, which begins here if the thread is in no call.  `stay` is the thread
in the middle of the call, `back` the thread behind it. -/
def inCall (Q : Queue n) (t : Fin n) (op : Op Value) (counted : Bool) (c : Q.Choice) (m : Q.Mem)
    (l : Q.Local) (stay : Q.Local → X) (back : Q.Mem → Q.Local → Res Value → Option X) :
    Outcome Q.Mem X :=
  match Q.step t (Q.calling op counted c) m l with
  | .next m' l' =>
      match Q.mark t (Q.calling op counted c) m l with
      | some (.ret res) =>
          match back m' l' res with
          | some x' => .next m' x'
          | none => .fault
      | _ => .next m' (stay l')
  | .blocked => .blocked
  | .fault => .fault

/-- The state of the queue in a program whose threads keep their part of it in `l`. -/
def queueState (Q : Queue n) (l : X → Q.Local) (s : Config (Fin n) Q.Mem X) : Q.State :=
  ⟨s.mem, fun t => l (s.th t)⟩

section Step

variable {Q : Queue n} {t : Fin n} {op : Op Value} {counted : Bool} {c : Q.Choice} {m m' : Q.Mem}
  {l l' : Q.Local} {stay : Q.Local → X} {back : Q.Mem → Q.Local → Res Value → Option X} {x' : X}

theorem inCall_cases (h : inCall Q t op counted c m l stay back = .next m' x') :
    ∃ l', Q.step t (Q.calling op counted c) m l = .next m' l' ∧
      (((∀ res, Q.mark t (Q.calling op counted c) m l ≠ some (.ret res)) ∧ x' = stay l') ∨
        ∃ res, Q.mark t (Q.calling op counted c) m l = some (.ret res) ∧
          back m' l' res = some x') := by
  unfold inCall at h
  split at h
  next m₁ l' hstep =>
    split at h
    next res hmark =>
      split at h
      next x₁ hback =>
        cases h
        exact ⟨l', hstep, .inr ⟨res, hmark, hback⟩⟩
      next => cases h
    next hmark =>
      cases h
      exact ⟨l', hstep, .inl ⟨hmark, rfl⟩⟩
  next => cases h
  next => cases h

theorem queueState_update {f : X → Q.Local} (s : Config (Fin n) Q.Mem X) (m' : Q.Mem) (t : Fin n)
    (x' : X) :
    queueState Q f ⟨m', Function.update s.th t x'⟩ =
      ⟨m', Function.update (queueState Q f s).th t (f x')⟩ := by
  refine congrArg (Config.mk m') (funext fun u => ?_)
  by_cases hu : u = t
  · subst hu
    simp
  · simp [queueState, Function.update_of_ne hu]

/-- A step beside the queue leaves it where it is. -/
theorem queueState_same {f : X → Q.Local} {s : Config (Fin n) Q.Mem X} (h : f x' = f (s.th t)) :
    queueState Q f ⟨s.mem, Function.update s.th t x'⟩ = queueState Q f s := by
  rw [queueState_update, show f x' = (queueState Q f s).th t from h, Function.update_eq_self]
  rfl

end Step

namespace Queue.Correct

variable {Q : Queue n} {s : Q.State} {t : Fin n} {op : Op Value} {counted : Bool} {c : Q.Choice}
  {m' : Q.Mem} {l' : Q.Local} {res : Res Value}

/-- A thread that returns has been in its call. -/
theorem busy_of_ret (C : Q.Correct) {m : Q.Mem} {l : Q.Local}
    (hmark : Q.mark t (Q.calling op counted c) m l = some (.ret res)) : Q.idle l = false := by
  cases hidle : Q.idle l with
  | false => rfl
  | true =>
      rw [C.mark_calling hidle] at hmark
      cases hmark

/-- A call that returns leaves no open call behind, and its code is 0 or 1. -/
theorem of_ret (C : Q.Correct) {g : C.G} (hI : C.I s g) (hok : (C.moves.stage (s.th t)).CodeOk)
    (hstep : Q.step t (Q.calling op counted c) s.mem (s.th t) = .next m' l')
    (hmark : Q.mark t (Q.calling op counted c) s.mem (s.th t) = some (.ret res)) :
    Q.idle l' = true ∧ Q.idle (s.th t) = false ∧ C.moves.stage (s.th t) = .done res ∧
      CodeOk res := by
  obtain ⟨g', -, hmove⟩ := C.exists_step hI hstep
  have hdone := hmove.stage_of_ret hmark
  rw [hdone] at hok
  exact ⟨C.idle_of_ret hI hstep hmark, C.busy_of_ret hmark, hdone, hok⟩

/-- A step of the queue is a step of its caller, if that knows how to go on behind the return. -/
theorem exists_inCall (C : Q.Correct) {g : C.G} (hI : C.I s g) {stay : Q.Local → X}
    {back : Q.Mem → Q.Local → Res Value → Option X}
    (hstep : Q.step t (Q.calling op counted c) s.mem (s.th t) = .next m' l')
    (hback : ∀ res, C.moves.stage (s.th t) = .done res → ∃ x', back m' l' res = some x') :
    ∃ x', inCall Q t op counted c s.mem (s.th t) stay back = .next m' x' := by
  obtain ⟨g', -, hmove⟩ := C.exists_step hI hstep
  unfold inCall
  simp only [hstep]
  split
  next res hmark =>
    obtain ⟨x', hx'⟩ := hback res (hmove.stage_of_ret hmark)
    exact ⟨x', by simp only [hx']⟩
  next => exact ⟨_, rfl⟩

end Queue.Correct

/-! ## The run of the queue in a run of its callers -/

/-- The queue is in a run of its own.  What each thread knows of the marks of its calls, `K`, it
knows in the whole run, if every step keeps it: those beside the queue and those of the queue. -/
theorem exists_queueRun_of_step {Q : Queue n} {D : Type} {P : Program (Fin n) D Q.Mem X}
    {f : X → Q.Local} {s₀ s : Config (Fin n) Q.Mem X} {es : List (Fin n × D)}
    {K : Fin n → X → List (Fin n × Mark) → Prop} (hinit : queueState Q f s₀ = Q.init)
    (hstart : ∀ t, K t (s₀.th t) [])
    (hother : ∀ {t u x ms} (mk : Option Mark), u ≠ t → K u x ms →
      K u x (ms ++ (mk.map (t, ·)).toList))
    (hstep : ∀ {v t d m' x' fs}, run Q.step Q.init fs = some (queueState Q f v) →
      K t (v.th t) (marks Q.step Q.mark Q.init fs) → P t d v.mem (v.th t) = .next m' x' →
      (m' = v.mem ∧ f x' = f (v.th t) ∧ K t x' (marks Q.step Q.mark Q.init fs)) ∨
        ∃ c, Q.step t c v.mem (f (v.th t)) = .next m' (f x') ∧
          K t x' (marks Q.step Q.mark Q.init fs ++
            ((Q.mark t c v.mem (f (v.th t))).map (t, ·)).toList))
    (h : run P s₀ es = some s) :
    ∃ fs, run Q.step Q.init fs = some (queueState Q f s) ∧
      ∀ t, K t (s.th t) (marks Q.step Q.mark Q.init fs) := by
  refine run_induction (motive := fun _ v => ∃ fs,
    run Q.step Q.init fs = some (queueState Q f v) ∧
      ∀ t, K t (v.th t) (marks Q.step Q.mark Q.init fs)) ?_ ?_ es s h
  · exact ⟨[], congrArg some hinit.symm, hstart⟩
  rintro es ⟨t, d⟩ v w - ⟨fs, hrun, hknown⟩ hf
  obtain ⟨m', x', hnext, rfl⟩ := fire_eq_some.mp hf
  rcases hstep hrun (hknown t) hnext with ⟨rfl, hl, hnew⟩ | ⟨c, hq, hnew⟩
  · -- the queue stays where it is
    refine ⟨fs, by rwa [queueState_same hl], fun u => ?_⟩
    by_cases hu : u = t
    · subst hu
      simpa only [Function.update_self] using hnew
    · simpa only [Function.update_of_ne hu] using hknown u
  · have hfire : fire Q.step (queueState Q f v) (t, c) =
        some (queueState Q f ⟨m', Function.update v.th t x'⟩) := by
      rw [queueState_update v]
      exact fire_eq_some.mpr ⟨m', f x', hq, rfl⟩
    refine ⟨fs ++ [(t, c)], run_snoc.mpr ⟨_, hrun, hfire⟩, fun u => ?_⟩
    rw [marks_snoc _ hrun]
    by_cases hu : u = t
    · subst hu
      simp only [Function.update_self]
      exact hnew
    · simp only [Function.update_of_ne hu]
      exact hother _ hu (hknown u)

/-! ## A thread and the marks of its calls -/

/-- What a thread notes of its calls: `put` are the arguments of the calls of `enq` that returned 1,
`got` the values that calls of `deq` have returned, and an open call is one of those that the thread
makes at its place. -/
structure Noted {Q : Queue n} (C : Q.Correct) (t : Fin n) (l : Q.Local) (calls : Op Value → Prop)
    (put got : List Value) (ms : List (Fin n × Mark)) : Prop where
  put : put = (entries t ms).entered
  got : got = delivered (returns t ms)
  codeOk : (C.moves.stage l).CodeOk
  inside : Q.idle l = false → ∃ op, calls op ∧ (C.moves.stage l).kind = some (.ofOp op) ∧
    ∀ v, op = .enq v → (entries t ms).offered = v

namespace Noted

variable {Q : Queue n} {C : Q.Correct} {t u : Fin n} {l l' : Q.Local}
  {calls calls' : Op Value → Prop} {put got put' got' : List Value} {ms : List (Fin n × Mark)}
  {mk : Option Mark} {op : Op Value}

theorem other (h : Noted C u l calls put got ms) (hu : u ≠ t) :
    Noted C u l calls put got (ms ++ (mk.map (t, ·)).toList) := by
  have hentries := entries_snoc_other ms mk hu
  exact
  { put := by rw [hentries]; exact h.put
    got := by rw [returns_snoc_other ms mk hu]; exact h.got
    codeOk := h.codeOk
    inside := by rw [hentries]; exact h.inside }

theorem of_idle (hidle : Q.idle l = true) (hput : put = (entries t ms).entered)
    (hgot : got = delivered (returns t ms)) : Noted C t l calls put got ms where
  put := hput
  got := hgot
  codeOk := by
    rw [(C.idle_iff _).mp hidle]
    trivial
  inside := fun hbusy => absurd (hidle.symm.trans hbusy) (by decide)

/-- A step beside the queue. -/
theorem same (h : Noted C t l calls put got ms)
    (hcalls : Q.idle l = false → ∀ op, calls op → calls' op) : Noted C t l calls' put got ms where
  put := h.put
  got := h.got
  codeOk := h.codeOk
  inside := fun hbusy =>
    let ⟨op, hop, hrest⟩ := h.inside hbusy
    ⟨op, hcalls hbusy op hop, hrest⟩

/-- A step that does not return from a call. -/
theorem call {k k' : Nodes n} {mem : Bool} (h : Noted C t l calls put got ms) (hop : calls op)
    (hcalls : Q.idle l' = false → ∀ op, calls op → calls' op)
    (hmove : Nodes.Step t mem mk k (C.moves.stage l) k' (C.moves.stage l'))
    (hcall : Q.idle l = true → mk = some (.call op)) (hret : ∀ res, mk ≠ some (.ret res)) :
    Noted C t l' calls' put got (ms ++ (mk.map (t, ·)).toList) := by
  have hgot : got = delivered (returns t (ms ++ (mk.map (t, ·)).toList)) := by
    rw [returns_snoc_of_none _ _ _ hret]
    exact h.got
  cases hidle : Q.idle l with
  | true =>
      -- the call begins
      obtain rfl := hcall hidle
      refine ⟨?_, hgot, hmove.codeOk h.codeOk, fun hbusy => ⟨op, hcalls hbusy op hop, ?_, ?_⟩⟩
      · rw [entries_snoc_self]
        cases op <;> exact h.put
      · rw [hmove.of_call rfl]
        rfl
      · rw [entries_snoc_self]
        rintro v rfl
        rfl
  | false =>
      have hst := C.stage_of_busy hidle
      have hsame : entries t (ms ++ (mk.map (t, ·)).toList) = entries t ms := by
        rw [entries_snoc_self]
        cases mk with
        | none => rfl
        | some mk =>
            cases mk with
            | call op' => exact absurd (hmove.idle_of_call rfl) hst
            | malloc => rfl
            | ret res => exact absurd rfl (hret res)
      refine ⟨?_, hgot, hmove.codeOk h.codeOk, fun hbusy => ?_⟩
      · rw [hsame]
        exact h.put
      · obtain ⟨op', hop', hkind, hoff⟩ := h.inside hidle
        have hkind' := (hmove.kind hst (C.stage_of_busy hbusy)).trans hkind
        exact ⟨op', hcalls hbusy op' hop', hkind', by rwa [hsame]⟩

/-- A thread that has returned from its call. -/
theorem ret {res : Res Value} (h : Noted C t l calls put got ms) (hidle : Q.idle l' = true)
    (hput : put' = ((entries t ms).mark (.ret res)).entered)
    (hgot : got' = got ++ delivered [res]) :
    Noted C t l' calls' put' got' (ms ++ ((some (Mark.ret res)).map (t, ·)).toList) := by
  apply of_idle hidle
  · rw [entries_snoc_self]
    exact hput
  · rw [returns_snoc_self, hgot, h.got, delivered_append]
    rfl

end Noted

end ConcurrentQueues
