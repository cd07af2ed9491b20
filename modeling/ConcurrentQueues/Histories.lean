import ConcurrentQueues.Queue

/-!
# Histories — calls executed one after the other

Each call runs from its beginning to its return while no other thread moves.  Whatever the steps of
an implementation are, such a call is `Nodes.call`, so the state behind a sequence of calls is found
by replaying it on the lists.
-/

namespace ConcurrentQueues

open Reasoning

variable {n : Nat}

/-- A call to be made; `counted` says whether the caller passes its counter. -/
structure Request (n : Nat) where
  thread : Fin n
  op : Op Value
  counted : Bool
  deriving DecidableEq

/-! ## The replay -/

/-- The lists and the insertion counters behind a sequence of calls, and what these returned. -/
@[ext] structure Replay (n : Nat) where
  nodes : Nodes n
  insertions : Fin n → Nat
  results : List (Res Value)

def Replay.init (n : Nat) : Replay n := ⟨Nodes.init n, fun _ => 0, []⟩

/-- One more call, for which `malloc` has a node. -/
def Replay.perform (x : Replay n) (r : Request n) : Replay n where
  nodes := (x.nodes.call r.thread true r.op).1
  insertions := Function.update x.insertions r.thread
    (x.insertions r.thread + inserted r.counted (x.nodes.call r.thread true r.op).2)
  results := x.results ++ [(x.nodes.call r.thread true r.op).2]

def replay (rs : List (Request n)) : Replay n := rs.foldl Replay.perform (Replay.init n)

theorem replay_concat (rs : List (Request n)) (r : Request n) :
    replay (rs ++ [r]) = (replay rs).perform r := by
  rw [replay, List.foldl_concat]
  rfl

/-! ## Sequential executions -/

namespace Queue

variable (Q : Queue n)

/-- Thread `t` alone finishes its call; `malloc` has memory, a weak CAS may fail. -/
inductive Finishes (t : Fin n) : Q.State → Res Value → Q.State → Prop
  | ret {s s' c res} (hfire : fire Q.step s (t, c) = some s')
      (hmark : Q.mark t c s.mem (s.th t) = some (.ret res)) : Finishes t s res s'
  | step {s s₁ s' c res} (hmem : Q.allocates c = true) (hfire : fire Q.step s (t, c) = some s₁)
      (hmark : ∀ res, Q.mark t c s.mem (s.th t) ≠ some (.ret res))
      (hrest : Finishes t s₁ res s') : Finishes t s res s'

/-- The states behind a sequence of calls, each executed alone, with what they returned. -/
inductive Serial : List (Request n × Res Value) → Q.State → Prop
  | init : Serial [] Q.init
  | call {hs s s₁ s' r c res} (h : Serial hs s)
      (hcall : fire Q.step s (r.thread, Q.calling r.op r.counted c) = some s₁)
      (hrun : Q.Finishes r.thread s₁ res s') : Serial (hs ++ [(r, res)]) s'

end Queue

/-! ## A call on the lists -/

section Within

variable {t : Fin n} {mem : Bool} {mk : Option Mark} {k₀ k k' : Nodes n} {st st' : Stage}
  {op : Op Value} {res : Res Value}

/-- How the lists `k` in the middle of a call relate to those before it. -/
def Within (k₀ : Nodes n) (t : Fin n) (op : Op Value) (k : Nodes n) : Stage → Prop
  | .idle => False
  | .called op' => op' = op ∧ k = k₀
  | .taken v p => op = .enq v ∧ ∃ a, p = some a ∧ (a, k) = k₀.take t
  | .emptied out => op = .deq out ∧ k = k₀ ∧ k₀.items = []
  | .unlinked v p =>
      (∃ out, op = .deq out) ∧ ∃ a main items, p = some a ∧ k₀.main = a :: main ∧
        k₀.items = v :: items ∧ k = k₀.unlink
  | .done res => (k, res) = k₀.call t true op

theorem Within.step (h : Within k₀ t op k st) (hs : Nodes.Step t true mk k st k' st')
    (hmark : ∀ res, mk ≠ some (.ret res)) : Within k₀ t op k' st' := by
  cases hs with
  | silent => exact h
  | call => exact h.elim
  | pop _ v p rest hfree =>
      obtain ⟨rfl, rfl⟩ := h
      exact ⟨rfl, p, rfl, by simp [Nodes.take, hfree]⟩
  | malloc _ v hfree =>
      obtain ⟨rfl, rfl⟩ := h
      exact ⟨rfl, k.brk, rfl, by simp [Nodes.take, hfree]⟩
  | outOfMemory _ v hfree hmem => cases hmem
  | append _ v p =>
      obtain ⟨rfl, a, ha, htake⟩ := h
      cases ha
      rw [Within, Nodes.call, if_neg (by simp), ← htake]
  | peek _ out hitems =>
      obtain ⟨rfl, rfl⟩ := h
      exact ⟨rfl, rfl, hitems⟩
  | retry _ out => exact ⟨h.1.symm, h.2.1⟩
  | settle _ out =>
      obtain ⟨rfl, rfl, hitems⟩ := h
      simp [Within, Nodes.call, hitems]
  | unlink _ out v p main items hmain hitems =>
      obtain ⟨rfl, rfl⟩ := h
      exact ⟨⟨out, rfl⟩, p, main, items, rfl, hmain, hitems, rfl⟩
  | push _ v p =>
      obtain ⟨⟨out, rfl⟩, a, main, items, ha, hmain, hitems, rfl⟩ := h
      cases ha
      simp [Within, Nodes.call, hmain, hitems]
  | atomic _ op' =>
      obtain ⟨rfl, rfl⟩ := h
      rfl
  | ret _ res => exact absurd rfl (hmark res)

theorem Nodes.Step.nodes_of_ret (hs : Nodes.Step t mem mk k st k' st')
    (hmk : mk = some (.ret res)) : k' = k := by
  cases hs with
  | ret => rfl
  | atomic _ op => split at hmk <;> cases hmk
  | _ => cases hmk

theorem Nodes.Step.nodes_of_call (hs : Nodes.Step t mem mk k st k' st')
    (hmk : mk = some (.call op)) : k' = k := by
  cases hs with
  | call => rfl
  | atomic _ op => split at hmk <;> cases hmk
  | _ => cases hmk

end Within

/-! ## A call of an implementation -/

namespace Queue.Correct

variable {Q : Queue n} (C : Q.Correct) {s s' : Q.State} {g : C.G} {x : Replay n} {r : Request n}
  {c : Q.Choice} {res : Res Value}

/-- A state between calls, and the replay of the calls before it. -/
structure Between (x : Replay n) (s : Q.State) (g : C.G) : Prop where
  inv : C.I s g
  quiet : Q.Quiet s
  nodes : C.moves.nodes s.mem g = x.nodes
  insertions : ∀ t, Q.insertions s.mem t (s.th t) = x.insertions t

/-- A state in the middle of the call `r`, and the replay of the calls before it. -/
structure Executing (x : Replay n) (r : Request n) (s : Q.State) (g : C.G) : Prop where
  inv : C.I s g
  rest : Others (fun l => Q.idle l = true) r.thread s
  within : Within x.nodes r.thread r.op (C.moves.nodes s.mem g) (C.moves.stage (s.th r.thread))
  counts : C.counts (s.th r.thread) = r.counted
  insertions : Q.insertions s.mem r.thread (s.th r.thread) =
    x.insertions r.thread + C.tallied (s.th r.thread)
  others : ∀ u, u ≠ r.thread → Q.insertions s.mem u (s.th u) = x.insertions u

variable {C}

theorem Executing.busy (h : C.Executing x r s g) : Q.idle (s.th r.thread) = false := by
  refine C.busy_of_stage fun hidle => ?_
  have hwithin := h.within
  rw [hidle] at hwithin
  exact hwithin

/-- The other threads and their counters stay as they are. -/
theorem others_step {t : Fin n} {m' : Q.Mem} {l' : Q.Local} (hI : C.I s g)
    (hs : Q.step t c s.mem (s.th t) = .next m' l')
    (hothers : ∀ u, u ≠ t → Q.insertions s.mem u (s.th u) = x.insertions u) :
    ∀ u, u ≠ t → Q.insertions m' u (Function.update s.th t l' u) = x.insertions u := by
  intro u hu
  rw [Function.update_of_ne hu, C.insertions_other hI hs hu]
  exact hothers u hu

/-- The call begins. -/
theorem Between.call (h : C.Between x s g)
    (hf : fire Q.step s (r.thread, Q.calling r.op r.counted c) = some s') :
    ∃ g', C.Executing x r s' g' := by
  obtain ⟨m', l', hs, rfl⟩ := fire_eq_some.mp hf
  obtain ⟨g', hI', hmove⟩ := C.exists_step h.inv hs
  have hidle := h.quiet r.thread
  have hmark : Q.mark r.thread (Q.calling r.op r.counted c) s.mem (s.th r.thread) =
    some (.call r.op) := C.mark_calling hidle
  have hins := C.insertions_step h.inv hs
  refine ⟨g', hI', Others.update (fun u _ => h.quiet u) _ _, ?_, ?_, ?_,
    others_step h.inv hs fun u _ => h.insertions u⟩
  · simp only [Function.update_self]
    rw [hmove.of_call hmark, hmove.nodes_of_call hmark]
    exact ⟨rfl, h.nodes⟩
  · simpa only [Function.update_self] using C.counts_call hidle hs
  · simp only [Function.update_self]
    rw [hmark, C.tallied_idle _ hidle, h.insertions] at hins
    simpa [Mark.inserted] using hins

theorem Executing.step (h : C.Executing x r s g) (hmem : Q.allocates c = true)
    (hf : fire Q.step s (r.thread, c) = some s')
    (hmark : ∀ res, Q.mark r.thread c s.mem (s.th r.thread) ≠ some (.ret res)) :
    ∃ g', C.Executing x r s' g' := by
  obtain ⟨m', l', hs, rfl⟩ := fire_eq_some.mp hf
  obtain ⟨g', hI', hmove⟩ := C.exists_step h.inv hs
  rw [C.mem_of_allocates hmem] at hmove
  have hnone : Mark.inserted (C.counts (s.th r.thread))
      (Q.mark r.thread c s.mem (s.th r.thread)) = 0 := by
    unfold Mark.inserted
    split
    next res hres => exact absurd hres (hmark res)
    next => rfl
  have hins := C.insertions_step h.inv hs
  dsimp only at hins
  rw [hnone, h.insertions] at hins
  refine ⟨g', hI', h.rest.update m' l', ?_, ?_, ?_, others_step h.inv hs h.others⟩
  · simpa only [Function.update_self] using h.within.step hmove hmark
  · simpa only [Function.update_self] using (C.counts_step h.inv h.busy hs).trans h.counts
  · simp only [Function.update_self]
    omega

/-- The call returns what the replay returns, and leaves what the replay leaves. -/
theorem Executing.ret (h : C.Executing x r s g) (hf : fire Q.step s (r.thread, c) = some s')
    (hmark : Q.mark r.thread c s.mem (s.th r.thread) = some (.ret res)) :
    res = (x.nodes.call r.thread true r.op).2 ∧ ∃ g', C.Between (x.perform r) s' g' := by
  obtain ⟨m', l', hs, rfl⟩ := fire_eq_some.mp hf
  obtain ⟨g', hI', hmove⟩ := C.exists_step h.inv hs
  have hidle := C.idle_of_ret h.inv hs hmark
  have hwithin := h.within
  rw [hmove.stage_of_ret hmark] at hwithin
  have hcall : (C.moves.nodes s.mem g, res) = x.nodes.call r.thread true r.op := hwithin
  have hres := congrArg Prod.snd hcall
  have hins := C.insertions_step h.inv hs
  rw [hmark, C.tallied_idle l' hidle, h.counts, h.insertions] at hins
  refine ⟨hres, g', hI', fun u => ?_, ?_, fun u => ?_⟩
  · by_cases hu : u = r.thread
    · subst hu
      simpa only [Function.update_self] using hidle
    · simpa only [Function.update_of_ne hu] using h.rest u hu
  · rw [hmove.nodes_of_ret hmark]
    exact congrArg Prod.fst hcall
  · by_cases hu : u = r.thread
    · subst hu
      simp only [Function.update_self, Replay.perform, ← hcall]
      simp only [Mark.inserted] at hins
      omega
    · simpa only [Replay.perform, Function.update_of_ne hu] using
        others_step h.inv hs h.others u hu

theorem Executing.finishes (h : C.Executing x r s g) (hrun : Q.Finishes r.thread s res s') :
    res = (x.nodes.call r.thread true r.op).2 ∧ ∃ g', C.Between (x.perform r) s' g' := by
  induction hrun generalizing g with
  | ret hfire hmark => exact h.ret hfire hmark
  | step hmem hfire hmark _ ih =>
      obtain ⟨g', h'⟩ := h.step hmem hfire hmark
      exact ih h'

/-- **Replay.**  A sequence of calls leaves the lists and counters of its replay and returns its
results. -/
theorem serial_replay (C : Q.Correct) {hs : List (Request n × Res Value)} (h : Q.Serial hs s) :
    hs.map Prod.snd = (replay (hs.map Prod.fst)).results ∧
      ∃ g, C.Between (replay (hs.map Prod.fst)) s g := by
  induction h with
  | init => exact ⟨rfl, C.start, C.init, C.quiet_init, C.nodes_init, C.insertions_init⟩
  | @call hs s s₁ s' r c res _ hcall hrun ih =>
      obtain ⟨hresults, g, hbetween⟩ := ih
      obtain ⟨g₁, hexec⟩ := hbetween.call hcall
      obtain ⟨hres, g', hnext⟩ := hexec.finishes hrun
      rw [List.map_append, List.map_append, List.map_singleton, List.map_singleton,
        replay_concat]
      refine ⟨?_, g', hnext⟩
      rw [hresults, hres]
      rfl

/-- A call that returns when it is executed alone can be finished. -/
theorem Executing.exists_finishes
    (hret : Returns Q.step (fun c => Q.allocates c = true ∧ Q.spurious c = false)
      (fun l => Q.idle l = true) r.thread s) (h : C.Executing x r s g) :
    ∃ res s', Q.Finishes r.thread s res s' := by
  induction hret generalizing g with
  | @intro s enabled _ ih =>
      obtain ⟨c, hc⟩ := C.strong
      obtain ⟨s₁, hf⟩ := enabled c hc
      by_cases hmark : ∃ res, Q.mark r.thread c s.mem (s.th r.thread) = some (.ret res)
      · obtain ⟨res, hmark⟩ := hmark
        exact ⟨res, s₁, .ret hf hmark⟩
      · have hmark : ∀ res, Q.mark r.thread c s.mem (s.th r.thread) ≠ some (.ret res) :=
          not_exists.mp hmark
        obtain ⟨g₁, h₁⟩ := h.step hc.1 hf hmark
        obtain ⟨res, s', hrun⟩ := ih c s₁ hc hf (by simp [h₁.busy]) h₁
        exact ⟨res, s', .step hc.1 hf hmark hrun⟩

/-- Every sequence of calls can be executed. -/
theorem exists_serial (C : Q.Correct) (rs : List (Request n)) :
    ∃ hs s, Q.Serial hs s ∧ hs.map Prod.fst = rs := by
  induction rs using List.reverseRecOn with
  | nil => exact ⟨[], Q.init, .init, rfl⟩
  | append_singleton rs r ih =>
      obtain ⟨hs, s, hserial, rfl⟩ := ih
      obtain ⟨-, g, hbetween⟩ := C.serial_replay hserial
      obtain ⟨c, -⟩ := C.strong
      obtain ⟨s₁, hcall, hret⟩ :=
        C.call_returns hbetween.inv hbetween.quiet r.thread r.op r.counted c
      obtain ⟨g₁, hexec⟩ := hbetween.call hcall
      obtain ⟨res, s', hrun⟩ := hexec.exists_finishes hret
      exact ⟨hs ++ [(r, res)], s', .call hserial hcall hrun, by simp⟩

/-! ## The run behind a sequence of calls -/

/-- The rest of a call is a run, in which no thread but `t` returns anything. -/
theorem exists_run_of_finishes {t : Fin n} (h : Q.Finishes t s res s')
    {es : List (Fin n × Q.Choice)} (hrun : run Q.step Q.init es = some s) :
    ∃ fs, run Q.step Q.init fs = some s' ∧ ∀ u, returns u (marks Q.step Q.mark Q.init fs) =
      returns u (marks Q.step Q.mark Q.init es) ++ if u = t then [res] else [] := by
  induction h generalizing es with
  | @ret s s' c res hfire hmark =>
      refine ⟨es ++ [(t, c)], run_snoc.mpr ⟨s, hrun, hfire⟩, fun u => ?_⟩
      rw [marks_snoc _ hrun, hmark]
      by_cases hu : u = t
      · subst hu
        rw [returns_snoc_self, if_pos rfl]
        rfl
      · rw [returns_snoc_other _ _ hu, if_neg hu, List.append_nil]
  | @step s s₁ s' c res hmem hfire hmark hrest ih =>
      obtain ⟨fs, hfs, hreturns⟩ := ih (run_snoc.mpr ⟨s, hrun, hfire⟩)
      refine ⟨fs, hfs, fun u => ?_⟩
      rw [hreturns u, marks_snoc _ hrun, returns_snoc_of_none _ _ _ hmark]

/-- A sequence of calls is a run, in which every thread returns from its calls in their order. -/
theorem exists_run_of_serial (C : Q.Correct) {hs : List (Request n × Res Value)}
    (h : Q.Serial hs s) :
    ∃ es, run Q.step Q.init es = some s ∧ ∀ u, returns u (marks Q.step Q.mark Q.init es) =
      (hs.filter fun e => e.1.thread = u).map Prod.snd := by
  induction h with
  | init => exact ⟨[], rfl, fun _ => rfl⟩
  | @call hs s s₁ s' r c res hserial hcall hfinish ih =>
      obtain ⟨es, hrun, hreturns⟩ := ih
      obtain ⟨-, g, hbetween⟩ := C.serial_replay hserial
      have hmark : Q.mark r.thread (Q.calling r.op r.counted c) s.mem (s.th r.thread) =
          some (.call r.op) := C.mark_calling (hbetween.quiet r.thread)
      obtain ⟨fs, hfs, hreturns'⟩ := exists_run_of_finishes hfinish
        (run_snoc.mpr ⟨s, hrun, hcall⟩)
      refine ⟨fs, hfs, fun u => ?_⟩
      rw [hreturns' u, marks_snoc _ hrun, returns_snoc_of_none _ _ _ (by simp [hmark]), hreturns u,
        List.filter_append, List.map_append]
      by_cases hu : u = r.thread
      · subst hu
        simp
      · simp [hu, Ne.symm hu]

end Queue.Correct

end ConcurrentQueues
