import ConcurrentQueues.Versions
import ConcurrentQueues.Reasoning.Linearizable

/-!
# Linearization — the calls and returns of every version

What the callers of a queue see are calls and returns.  Whatever the version and the interleaving,
these can be put into one sequential order of a FIFO queue that respects real time: a call takes
effect where its `enq` or `deq` moves a value, and a `deq` that returns 0 where it has last found
the queue empty.
-/

namespace ConcurrentQueues

open Reasoning

variable {n : Nat} {t : Fin n} {k k' : Nodes n} {st st' : Stage} {mk : Option Mark} {mem : Bool}

/-- A FIFO queue whose `enq` may fail. -/
inductive FifoSpec : List Value → Op Value → Res Value → List Value → Prop
  | enq (items v) : FifoSpec items (.enq v) (.enq 1) (items ++ [v])
  | enqFail (items v) : FifoSpec items (.enq v) (.enq 0) items
  | deq (v items out) : FifoSpec (v :: items) (.deq out) (.deq 1 v) items
  | deqEmpty (out) : FifoSpec [] (.deq out) (.deq 0 out) []

/-- The event at a mark, if the callers see one. -/
def Mark.event : Mark → Option (Event (Op Value) (Res Value))
  | .call op => some (.call op)
  | .malloc => none
  | .ret res => some (.ret res)

/-- What the callers see of a run. -/
def history (ms : List (Fin n × Mark)) : List (Fin n × Event (Op Value) (Res Value)) :=
  ms.filterMap fun e => e.2.event.map (e.1, ·)

theorem history_snoc (ms : List (Fin n × Mark)) (t : Fin n) (mk : Option Mark) :
    history (ms ++ (mk.map (t, ·)).toList) =
      history ms ++ ((mk.bind Mark.event).map (t, ·)).toList := by
  cases mk with
  | none => simp [history]
  | some mk => cases mk <;> simp [history, Mark.event]

/-- A call that has moved its value, or is about to return 0, has taken effect. -/
def Stage.At : Stage → Status (Op Value) (Res Value) → Prop
  | .idle, st => st = .idle
  | .called op, st => st = .pending op
  | .taken v _, st => st = .pending (.enq v)
  | .emptied out, st => st = .effected (.deq out) (.deq 0 out)
  | .unlinked v _, st => ∃ out, st = .effected (.deq out) (.deq 1 v)
  | .done res, st => ∃ op, st = .effected op res

theorem Nodes.call_fifo (k : Nodes n) (t : Fin n) (mem : Bool) (op : Op Value)
    (hlen : k.main.length = k.items.length + 1) :
    FifoSpec k.items op (k.call t mem op).2 (k.call t mem op).1.items := by
  cases op with
  | enq v =>
      by_cases hmem : k.free t = [] ∧ mem = false
      · simpa [Nodes.call, hmem] using FifoSpec.enqFail k.items v
      · rw [Nodes.call, if_neg hmem]
        cases hfree : k.free t <;> simpa [Nodes.take, hfree] using FifoSpec.enq k.items v
  | deq out =>
      cases hitems : k.items with
      | nil => simpa [Nodes.call, hitems] using FifoSpec.deqEmpty out
      | cons v items =>
          cases hmain : k.main with
          | nil => simp [hmain] at hlen
          | cons p main => simpa [Nodes.call, hmain, hitems] using FifoSpec.deq v items out

/-- Each move of a call is a move of its operation. -/
theorem Nodes.Step.move (h : Nodes.Step t mem mk k st k' st')
    (hlen : k.main.length = k.items.length + 1) {status : Status (Op Value) (Res Value)}
    (hst : st.At status) :
    ∃ status', st'.At status' ∧
      Move FifoSpec (mk.bind Mark.event) k.items status k'.items status' := by
  cases h with
  | silent => exact ⟨status, hst, .silent _ _⟩
  | call _ op =>
      obtain rfl : status = .idle := hst
      exact ⟨.pending op, rfl, .call _ op⟩
  | pop _ v p rest hfree | malloc _ v hfree =>
      obtain rfl : status = .pending (.enq v) := hst
      exact ⟨_, rfl, .silent _ _⟩
  | outOfMemory _ v hfree hmem =>
      obtain rfl : status = .pending (.enq v) := hst
      exact ⟨_, ⟨.enq v, rfl⟩, .effect _ _ _ _ (.enqFail _ v)⟩
  | append _ v p =>
      obtain rfl : status = .pending (.enq v) := hst
      exact ⟨_, ⟨.enq v, rfl⟩, .effect _ _ _ _ (.enq _ v)⟩
  | peek _ out hempty =>
      obtain rfl : status = .pending (.deq out) := hst
      refine ⟨.effected (.deq out) (.deq 0 out), rfl, .effect _ _ _ _ ?_⟩
      rw [hempty]
      exact .deqEmpty out
  | retry _ out =>
      -- the queue was empty, and nobody has been told so
      obtain rfl : status = .effected (.deq out) (.deq 0 out) := hst
      refine ⟨.pending (.deq out), rfl, .giveUp _ _ _ fun s₁ s₂ hs => ?_⟩
      cases hs
      rfl
  | settle _ out => exact ⟨status, ⟨.deq out, hst⟩, .silent _ _⟩
  | unlink _ out v p main items hmain hitems =>
      obtain rfl : status = .pending (.deq out) := hst
      refine ⟨_, ⟨out, rfl⟩, .effect _ _ _ _ ?_⟩
      rw [Nodes.unlink_items, hitems]
      exact .deq v items out
  | push _ v p =>
      obtain ⟨out, rfl⟩ := hst
      exact ⟨_, ⟨.deq out, rfl⟩, .silent _ _⟩
  | atomic _ op =>
      obtain rfl : status = .pending op := hst
      have hnone : (if k.allocates t mem op then some Mark.malloc else none).bind Mark.event =
          none := by split <;> rfl
      rw [hnone]
      exact ⟨_, ⟨op, rfl⟩, .effect _ _ _ _ (k.call_fifo t mem op hlen)⟩
  | ret _ res =>
      obtain ⟨op, rfl⟩ := hst
      exact ⟨.idle, rfl, .ret _ op res⟩

/-- The history of a run has a linearization, after which the queue holds what is in its lists. -/
theorem Queue.Correct.exists_linearization {Q : Queue n} (C : Q.Correct) {s : Q.State}
    {sched : List (Fin n × Q.Choice)} (h : run Q.step Q.init sched = some s) :
    ∃ g lin, C.I s g ∧ IsLinearization FifoSpec [] (history (marks Q.step Q.mark Q.init sched)) lin
      (C.moves.nodes s.mem g).items := by
  suffices hsuff : ∃ g lin status, C.I s g ∧
      (C.moves.nodes s.mem g).main.length = (C.moves.nodes s.mem g).items.length + 1 ∧
      (∀ t, (C.moves.stage (s.th t)).At (status t)) ∧
      Linearized FifoSpec [] (history (marks Q.step Q.mark Q.init sched)) lin
        (C.moves.nodes s.mem g).items status by
    obtain ⟨g, lin, status, hI, -, -, hlin⟩ := hsuff
    exact ⟨g, lin, hI, hlin.linearizes⟩
  refine run_induction (motive := fun es v => ∃ g lin status, C.I v g ∧
    (C.moves.nodes v.mem g).main.length = (C.moves.nodes v.mem g).items.length + 1 ∧
    (∀ t, (C.moves.stage (v.th t)).At (status t)) ∧
    Linearized FifoSpec [] (history (marks Q.step Q.mark Q.init es)) lin
      (C.moves.nodes v.mem g).items status) ?_ ?_ sched s h
  · refine ⟨C.start, [], fun _ => .idle, C.init, ?_, fun t => ?_, ?_⟩
    · simp [C.nodes_init]
    · rw [(C.idle_iff _).mp (C.quiet_init t)]
      rfl
    · rw [C.nodes_init]
      exact Linearized.init FifoSpec []
  rintro es ⟨t, c⟩ v w hrun ⟨g, lin, status, hI, hlen, hat, hlin⟩ hf
  obtain ⟨m', l', hs, rfl⟩ := fire_eq_some.mp hf
  obtain ⟨g', hI', hmove⟩ := C.exists_step hI hs
  obtain ⟨status', hat', hmoved⟩ := hmove.move hlen (hat t)
  obtain ⟨lin', hlin'⟩ := hlin.move hmoved
  refine ⟨g', lin', Function.update status t status', hI', hmove.length_main hlen, fun u => ?_, ?_⟩
  · by_cases hu : u = t
    · subst hu
      simpa only [Function.update_self] using hat'
    · simpa only [Function.update_of_ne hu] using hat u
  · rw [marks_snoc (t, c) hrun, history_snoc]
    exact hlin'

/-- **Linearizability in real time.**  In every version and under every interleaving, the calls and
returns of a run have a linearization to a FIFO queue; between calls it leaves the values that the
main list holds.  Version 1 is run with one thread only, or with bodies of calls that do not
overlap. -/
theorem histories_linearizable (n v : Nat) {sched : List (Fin n × (version n v).Choice)}
    {s : (version n v).State} (h : run (version n v).step (version n v).init sched = some s) :
    ∃ lin items, IsLinearization FifoSpec []
        (history (marks (version n v).step (version n v).mark (version n v).init sched)) lin items ∧
      ((version n v).Quiet s →
        ∃ k, ((version n v).store s.mem).Carries k ∧ k.items = items) := by
  obtain ⟨C⟩ := version_correct n v
  obtain ⟨g, lin, hI, hlin⟩ := C.exists_linearization h
  exact ⟨lin, _, hlin, fun hquiet => ⟨_, C.carries hI hquiet, rfl⟩⟩

/-- Thread 1 of Ex5 finds the queue empty while thread 0 is in a call of `enq` that never returns,
and then dequeues its value. -/
theorem histories_linearizable_overlapped :
    ∃ lin items, IsLinearization FifoSpec []
      [((1 : Fin 2), .call (.deq 0)), (0, .call (.enq 7)), (1, .ret (.deq 0 0)),
        (1, .call (.deq 0)), (1, .ret (.deq 1 7))] lin items := by
  obtain ⟨s, hs⟩ : ∃ s, run (version 2 5).step (version 2 5).init
      (Ex5.solo 1 (.deq 0) 6 ++ Ex5.solo 0 (.enq 7) 15 ++ Ex5.solo 1 (.deq 0) 33) = some s :=
    ⟨_, rfl⟩
  obtain ⟨lin, items, hlin, -⟩ := histories_linearizable 2 5 hs
  exact ⟨lin, items, hlin⟩

end ConcurrentQueues
