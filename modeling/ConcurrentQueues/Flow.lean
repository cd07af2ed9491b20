import ConcurrentQueues.Versions

/-!
# Flow — what goes into a queue and what comes out

Every value enters the list of a queue with one move of an `enq` and leaves it with one move of a
`deq`.  In every run of every version the values that have left are the first of those that have
entered, in the same order, and what a thread has put in or taken out is what its own calls say.
-/

namespace ConcurrentQueues

open Reasoning

variable {n : Nat} {t u : Fin n} {k k' : Nodes n} {st st' : Stage} {mk : Option Mark}
  {mem : Bool} {ms : List (Fin n × Mark)}

/-- The argument of the last call of `enq`, and the arguments of the calls that have returned 1. -/
structure Entries where
  offered : Value
  entered : List Value

namespace Entries

def mark (x : Entries) : Mark → Entries
  | .call (.enq v) => { x with offered := v }
  | .ret (.enq code) => { x with entered := x.entered ++ if code = 1 then [x.offered] else [] }
  | .call (.deq _) | .ret (.deq _ _) | .malloc => x

end Entries

/-- The entries of thread `t`. -/
def entries (t : Fin n) (ms : List (Fin n × Mark)) : Entries :=
  (ms.filter fun e => e.1 = t).foldl (fun x e => x.mark e.2) ⟨0, []⟩

/-- The values that calls of `deq` have returned. -/
def delivered (rs : List (Res Value)) : List Value :=
  rs.flatMap fun
    | .deq code v => if code = 1 then [v] else []
    | .enq _ => []

theorem entries_snoc_self (ms : List (Fin n × Mark)) (mk : Option Mark) :
    entries t (ms ++ (mk.map (t, ·)).toList) = mk.elim (entries t ms) (entries t ms).mark := by
  cases mk <;> simp [entries, List.filter_append]

theorem entries_snoc_other (ms : List (Fin n × Mark)) (mk : Option Mark) (htu : t ≠ u) :
    entries t (ms ++ (mk.map (u, ·)).toList) = entries t ms := by
  cases mk <;> simp [entries, List.filter_append, Ne.symm htu]

theorem delivered_append (rs rs' : List (Res Value)) :
    delivered (rs ++ rs') = delivered rs ++ delivered rs' := by simp [delivered]

/-! ## One move -/

/-- What the open call has put in; `v` is its argument. -/
def Stage.putIn (v : Value) : Stage → List Value
  | .done (.enq code) => if code = 1 then [v] else []
  | _ => []

/-- What the open call has taken out. -/
def Stage.takenOut : Stage → List Value
  | .unlinked v _ => [v]
  | .done (.deq code v) => if code = 1 then [v] else []
  | _ => []

/-- The open `enq` has the argument `v`. -/
def Stage.Offers (v : Value) : Stage → Prop
  | .called (.enq w) | .taken w _ => w = v
  | _ => True

/-- A whole call puts its argument in, takes the first value out, or fails. -/
theorem Nodes.call_flow (k : Nodes n) (t : Fin n) (mem : Bool) (op : Op Value) {v : Value}
    (h : (Stage.called op).Offers v) :
    k.items ++ (Stage.done (k.call t mem op).2).putIn v =
      (Stage.done (k.call t mem op).2).takenOut ++ (k.call t mem op).1.items := by
  cases op with
  | enq w =>
      obtain rfl : w = v := h
      by_cases hmem : k.free t = [] ∧ mem = false
      · simp [Nodes.call, hmem, Stage.putIn, Stage.takenOut]
      · cases hfree : k.free t <;>
          simp_all [Nodes.call, Nodes.take, Stage.putIn, Stage.takenOut]
  | deq out =>
      cases hmain : k.main <;> cases hitems : k.items <;>
        simp [Nodes.call, hmain, hitems, Stage.putIn, Stage.takenOut]

/-- Whatever a step puts in or takes out is accounted for by its call. -/
theorem Nodes.Step.flow (h : Nodes.Step t mem mk k st k' st') {x : Entries}
    (hoff : st.Offers x.offered) :
    ∃ put got, k.items ++ put = got ++ k'.items ∧
      st'.Offers (mk.elim x x.mark).offered ∧
      (mk.elim x x.mark).entered ++ st'.putIn (mk.elim x x.mark).offered =
        x.entered ++ st.putIn x.offered ++ put ∧
      delivered (Mark.result mk).toList ++ st'.takenOut = st.takenOut ++ got := by
  cases h with
  | silent => exact ⟨[], [], by simp, hoff, by simp, by simp [delivered, Mark.result]⟩
  | call _ op =>
      refine ⟨[], [], by simp, ?_, ?_, by simp [delivered, Mark.result, Stage.takenOut]⟩
      · cases op <;> simp [Stage.Offers, Entries.mark]
      · cases op <;> simp [Stage.putIn, Entries.mark]
  | pop | malloc =>
      exact ⟨[], [], by simp, hoff, by simp [Stage.putIn, Entries.mark],
        by simp [delivered, Mark.result, Stage.takenOut]⟩
  | outOfMemory | peek | retry | settle | push =>
      exact ⟨[], [], by simp, trivial, by simp [Stage.putIn],
        by simp [delivered, Mark.result, Stage.takenOut]⟩
  | append _ v p =>
      -- the value enters here
      obtain rfl : v = x.offered := hoff
      exact ⟨[x.offered], [], by simp, trivial, by simp [Stage.putIn],
        by simp [delivered, Mark.result, Stage.takenOut]⟩
  | unlink _ w v p main items hmain hitems =>
      -- and leaves here
      exact ⟨[], [v], by simp [hitems], trivial, by simp [Stage.putIn],
        by simp [delivered, Mark.result, Stage.takenOut]⟩
  | atomic _ op =>
      have hnone : Mark.result (if k.allocates t mem op then some .malloc else none) = none := by
        split <;> rfl
      have hsame : (if k.allocates t mem op then some Mark.malloc else none).elim x x.mark = x := by
        split <;> rfl
      rw [hnone, hsame]
      exact ⟨_, _, k.call_flow t mem op hoff, trivial, by simp [Stage.putIn],
        by simp [delivered, Stage.takenOut]⟩
  | ret _ res =>
      refine ⟨[], [], by simp, trivial, ?_, ?_⟩
      · cases res <;> simp [Stage.putIn, Entries.mark]
      · cases res <;> simp [delivered, Mark.result, Stage.takenOut]

/-- Only an `enq` fills an empty queue. -/
theorem Nodes.Step.kind_of_fill (h : Nodes.Step t mem mk k st k' st') (hempty : k.items = [])
    (hitems : k'.items ≠ []) : st.kind = some .enq := by
  cases h with
  | append => rfl
  | unlink _ out v p main items hmain hitem =>
      rw [hempty] at hitem
      cases hitem
  | atomic _ op =>
      cases op with
      | enq v => rfl
      | deq out =>
          refine absurd ?_ hitems
          cases hmain : k.main <;> simp [Nodes.call, hmain, hempty]
  | silent | call | pop | malloc | outOfMemory | peek | retry | settle | push | ret =>
      exact absurd hempty hitems

/-- Only a thread without an open call begins one. -/
theorem Nodes.Step.idle_of_call (h : Nodes.Step t mem mk k st k' st') {op : Op Value}
    (hmk : mk = some (.call op)) : st = .idle := by
  cases h with
  | call => rfl
  | atomic _ op => split at hmk <;> cases hmk
  | _ => cases hmk

/-! ## A run -/

/-- The values of thread `t` in a list of transfers. -/
def ofThread (t : Fin n) (xs : List (Fin n × Value)) : List Value :=
  (xs.filter fun e => e.1 = t).map Prod.snd

theorem ofThread_append_self (xs : List (Fin n × Value)) (vs : List Value) :
    ofThread t (xs ++ vs.map (t, ·)) = ofThread t xs ++ vs := by
  simp [ofThread, List.filter_map, Function.comp_def]

theorem ofThread_append_other (xs : List (Fin n × Value)) (vs : List Value) (htu : t ≠ u) :
    ofThread t (xs ++ vs.map (u, ·)) = ofThread t xs := by
  simp [ofThread, List.filter_map, Function.comp_def, Ne.symm htu]

/-- The values of all threads are all values. -/
theorem flatMap_ofThread_perm (xs : List (Fin n × Value)) :
    ((List.finRange n).flatMap fun t => ofThread t xs).Perm (xs.map Prod.snd) := by
  induction xs with
  | nil => simp [ofThread]
  | cons e xs ih =>
      refine List.Perm.trans ?_ (List.Perm.cons e.2 ih)
      obtain ⟨before, after, hsplit⟩ := List.append_of_mem (List.mem_finRange e.1)
      have hnodup := List.nodup_finRange n
      rw [hsplit, List.nodup_middle, List.nodup_cons] at hnodup
      have hne : ∀ t ∈ before ++ after, ofThread t (e :: xs) = ofThread t xs := by
        intro t ht
        have het : e.1 ≠ t := fun he => hnodup.1 (he ▸ ht)
        simp [ofThread, het]
      have hself : ofThread e.1 (e :: xs) = e.2 :: ofThread e.1 xs := by simp [ofThread]
      rw [hsplit, List.flatMap_append, List.flatMap_append, List.flatMap_cons, List.flatMap_cons,
        hself, List.flatMap_congr fun t ht => hne t (List.mem_append_left _ ht),
        List.flatMap_congr fun t ht => hne t (List.mem_append_right _ ht)]
      exact List.perm_middle

/-- All that has entered and left so far, each with the thread that moved it. -/
structure Flow (k : Nodes n) (stage : Fin n → Stage) (ms : List (Fin n × Mark))
    (ins outs : List (Fin n × Value)) : Prop where
  fifo : ins.map Prod.snd = outs.map Prod.snd ++ k.items
  offers : ∀ t, (stage t).Offers (entries t ms).offered
  ins : ∀ t, ofThread t ins =
    (entries t ms).entered ++ (stage t).putIn (entries t ms).offered
  outs : ∀ t, ofThread t outs = delivered (returns t ms) ++ (stage t).takenOut

theorem Flow.init : Flow (Nodes.init n) (fun _ => .idle) [] [] [] where
  fifo := rfl
  offers := fun _ => trivial
  ins := fun _ => rfl
  outs := fun _ => rfl

theorem Flow.step {stage : Fin n → Stage} {ins outs : List (Fin n × Value)}
    (h : Flow k stage ms ins outs) (hs : Nodes.Step t mem mk k (stage t) k' st') :
    ∃ ins' outs', Flow k' (Function.update stage t st') (ms ++ (mk.map (t, ·)).toList) ins' outs' ∧
      ins <+: ins' ∧ outs <+: outs' := by
  obtain ⟨put, got, hitems, hoff, hput, hgot⟩ :=
    hs.flow (h.offers t)
  refine ⟨ins ++ put.map (t, ·), outs ++ got.map (t, ·), ⟨?_, ?_, ?_, ?_⟩,
    List.prefix_append _ _, List.prefix_append _ _⟩
  · simp only [List.map_append, List.map_map, Function.comp_def, List.map_id', h.fifo,
      List.append_assoc, hitems]
  all_goals
    intro u
    by_cases hu : u = t
  · subst hu
    rw [entries_snoc_self, Function.update_self]
    exact hoff
  · rw [entries_snoc_other _ _ hu, Function.update_of_ne hu]
    exact h.offers u
  · subst hu
    rw [entries_snoc_self, Function.update_self, ofThread_append_self, h.ins, hput]
  · rw [entries_snoc_other _ _ hu, Function.update_of_ne hu, ofThread_append_other _ _ hu, h.ins]
  · subst hu
    rw [returns_snoc_self, Function.update_self, ofThread_append_self, h.outs, delivered_append,
      List.append_assoc, List.append_assoc, hgot]
  · rw [returns_snoc_other _ _ hu, Function.update_of_ne hu, ofThread_append_other _ _ hu, h.outs]

/-- The lists of a reachable state, with all that has passed through them. -/
theorem Queue.Correct.exists_flow {Q : Queue n} (C : Q.Correct) {s : Q.State}
    {sched : List (Fin n × Q.Choice)} (h : run Q.step Q.init sched = some s) :
    ∃ g ins outs, C.I s g ∧ Flow (C.moves.nodes s.mem g) (fun t => C.moves.stage (s.th t))
      (marks Q.step Q.mark Q.init sched) ins outs := by
  refine run_induction (motive := fun es v => ∃ g ins outs, C.I v g ∧
    Flow (C.moves.nodes v.mem g) (fun t => C.moves.stage (v.th t))
      (marks Q.step Q.mark Q.init es) ins outs) ?_ ?_ sched s h
  · refine ⟨C.start, [], [], C.init, ?_⟩
    rw [C.nodes_init, show (fun t => C.moves.stage (Q.init.th t)) = fun _ => Stage.idle from
      funext fun t => (C.idle_iff _).mp (C.quiet_init t)]
    exact Flow.init
  rintro es ⟨t, c⟩ v w hrun ⟨g, ins, outs, hI, hflow⟩ hf
  obtain ⟨g', hI', hstep⟩ := C.moves.step hI hf
  obtain ⟨ins', outs', hflow', -, -⟩ := hflow.step hstep
  refine ⟨g', ins', outs', hI', ?_⟩
  rw [marks_snoc (t, c) hrun]
  have hth : (fun u => C.moves.stage (w.th u)) =
      Function.update (fun u => C.moves.stage (v.th u)) t (C.moves.stage (w.th t)) := by
    obtain ⟨m', l', -, rfl⟩ := fire_eq_some.mp hf
    funext u
    by_cases hu : u = t
    · subst hu
      simp
    · simp [Function.update_of_ne hu]
  rw [hth]
  exact hflow'

end ConcurrentQueues
