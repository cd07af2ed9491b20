import ConcurrentQueues.Accounts
import ConcurrentQueues.Destroy
import ConcurrentQueues.Reasoning.Alone

/-!
# Queue — what the callers see of an implementation

`bench.h` includes one of the four headers; the callers know a queue by its `enq` and `deq`.  A
`Queue` is such an implementation as a program, with what a caller can read of it, and `Correct` is
what the callers rely on: the nodes move as the calls allow, and the insertion counter counts the
nodes put on the free list.
-/

namespace ConcurrentQueues

open Reasoning

structure Queue (n : Nat) where
  Choice : Type
  Mem : Type
  Local : Type
  step : Program (Fin n) Choice Mem Local
  /-- after `init_queue` -/
  init : Config (Fin n) Mem Local
  /-- the choice with this operation as the next call; the flag says whether the caller passes its
  counters or `NULL` -/
  calling : Op Value → Bool → Choice → Choice
  idle : Local → Bool
  mark : Fin n → Choice → Mem → Local → Option Mark
  store : Mem → Store n
  /-- `*free_list_insertion_count` -/
  insertions : Mem → Fin n → Local → Nat
  /-- `*failed_CAS_count` of the `enq` and of the `deq` calls -/
  failedEnqCAS : Local → Nat
  failedDeqCAS : Local → Nat
  /-- no `malloc` of this step returns `NULL` -/
  allocates : Choice → Bool
  /-- a weak CAS of this step fails whatever it finds -/
  spurious : Choice → Bool
  /-- `destroy_queue`, with a bound on the rounds of a loop -/
  destroyQueue : Mem → Nat → List Block → Except Stop (List Block)
  /-- the blocks that the calls have freed -/
  freed : Mem → List Block
  /-- the blocks that `init_queue` and the calls have obtained -/
  allocated : Mem → List Block

namespace Queue

variable {n : Nat}

abbrev State (Q : Queue n) := Config (Fin n) Q.Mem Q.Local

/-- No call is open. -/
def Quiet (Q : Queue n) (s : Q.State) : Prop := ∀ t, Q.idle (s.th t) = true

structure Correct (Q : Queue n) where
  G : Type
  I : Q.State → G → Prop
  moves : MovesNodes Q.step Q.mark I
  start : G
  init : I Q.init start
  nodes_init : moves.nodes Q.init.mem start = Nodes.init n
  quiet_init : Q.Quiet Q.init
  idle_iff : ∀ l, Q.idle l = true ↔ moves.stage l = .idle
  mark_idle : ∀ {t c m l}, Q.idle l = true → ∃ op, Q.mark t c m l = some (.call op)
  mark_calling : ∀ {t op b c m l}, Q.idle l = true →
    Q.mark t (Q.calling op b c) m l = some (.call op)
  mem_calling : ∀ op b c, moves.mem (Q.calling op b c) = moves.mem c
  /-- the free list of a thread without an open call -/
  size : ∀ {s g t}, I s g → Q.idle (s.th t) = true →
    ((Q.store s.mem).freeLists t).size = .ofNat ((moves.nodes s.mem g).free t).length
  carries : ∀ {s g}, I s g → Q.Quiet s → (Q.store s.mem).Carries (moves.nodes s.mem g)
  /-- the open call has been given a counter -/
  counts : Q.Local → Bool
  /-- what the open call has counted so far -/
  tallied : Q.Local → Nat
  tallied_idle : ∀ l, Q.idle l = true → tallied l = 0
  mem_of_allocates : ∀ {c}, Q.allocates c = true → moves.mem c = true
  /-- by how many nodes `tail` may lag behind -/
  lag : Nat
  tail : ∀ {s g}, I s g → Q.Quiet s → (Q.store s.mem).TailWithin (moves.nodes s.mem g) lag
  /-- some steps neither lack memory nor fail spuriously -/
  strong : ∃ c, Q.allocates c = true ∧ Q.spurious c = false
  /-- a call that is executed alone by such steps returns -/
  call_returns : ∀ {s g}, I s g → Q.Quiet s → ∀ t op b c,
    ∃ s', fire Q.step s (t, Q.calling op b c) = some s' ∧
      Returns Q.step (fun c => Q.allocates c = true ∧ Q.spurious c = false)
        (fun l => Q.idle l = true) t s'
  node_not_freed : ∀ m p, .node p ∉ Q.freed m
  /-- between calls `destroy_queue` frees what is left -/
  destroys : ∀ {s g fuel}, I s g → Q.Quiet s → (Q.store s.mem).brk ≤ fuel →
    ReleasesAll (Q.destroyQueue s.mem fuel) (Q.freed s.mem) (Q.allocated s.mem)
  counts_call : ∀ {t op b c m l m' l'}, Q.idle l = true →
    Q.step t (Q.calling op b c) m l = .next m' l' → counts l' = b
  counts_step : ∀ {s g t c m' l'}, I s g → Q.idle (s.th t) = false →
    Q.step t c s.mem (s.th t) = .next m' l' → counts l' = counts (s.th t)
  insertions_init : ∀ t, Q.insertions Q.init.mem t (Q.init.th t) = 0
  insertions_step : ∀ {s g t c m' l'}, I s g → Q.step t c s.mem (s.th t) = .next m' l' →
    Q.insertions m' t l' + tallied (s.th t) =
      Q.insertions s.mem t (s.th t) + tallied l' +
        Mark.inserted (counts (s.th t)) (Q.mark t c s.mem (s.th t))
  insertions_other : ∀ {s g t u c m' l'}, I s g → Q.step t c s.mem (s.th t) = .next m' l' →
    u ≠ t → ∀ l, Q.insertions m' u l = Q.insertions s.mem u l

namespace Correct

variable {Q : Queue n} {s : Q.State} {t : Fin n} {c : Q.Choice} {m' : Q.Mem}
  {l' : Q.Local} {sched : List (Fin n × Q.Choice)}

theorem exists_step (C : Q.Correct) {g : C.G} (hI : C.I s g)
    (hs : Q.step t c s.mem (s.th t) = .next m' l') :
    ∃ g', C.I ⟨m', Function.update s.th t l'⟩ g' ∧
      Nodes.Step t (C.moves.mem c) (Q.mark t c s.mem (s.th t)) (C.moves.nodes s.mem g)
        (C.moves.stage (s.th t)) (C.moves.nodes m' g') (C.moves.stage l') := by
  obtain ⟨g', hI', hstep⟩ := C.moves.step (e := (t, c)) hI (fire_eq_some.mpr ⟨m', l', hs, rfl⟩)
  exact ⟨g', hI', by simpa only [Function.update_self] using hstep⟩

theorem busy_of_stage (C : Q.Correct) {l : Q.Local} (h : C.moves.stage l ≠ .idle) :
    Q.idle l = false := Bool.eq_false_iff.mpr fun hidle => h ((C.idle_iff l).mp hidle)

theorem stage_of_busy (C : Q.Correct) {l : Q.Local} (h : Q.idle l = false) :
    C.moves.stage l ≠ .idle := by
  intro hstage
  rw [(C.idle_iff l).mpr hstage] at h
  cases h

/-- A call is over when it has returned. -/
theorem idle_of_ret (C : Q.Correct) {g : C.G} (hI : C.I s g)
    (hs : Q.step t c s.mem (s.th t) = .next m' l') {res : Res Value}
    (hmark : Q.mark t c s.mem (s.th t) = some (.ret res)) : Q.idle l' = true := by
  obtain ⟨g', -, hstep⟩ := C.exists_step hI hs
  exact (C.idle_iff l').mpr (hstep.idle_of_ret hmark)

/-- The accounts of every thread in a reachable state. -/
theorem exists_accounts (C : Q.Correct) (h : run Q.step Q.init sched = some s) :
    ∃ g, C.I s g ∧ ∀ t, Accounts t (C.moves.nodes s.mem g) (C.moves.stage (s.th t))
      (marks Q.step Q.mark Q.init sched) :=
  C.moves.accounts C.init C.nodes_init (fun t => (C.idle_iff _).mp (C.quiet_init t)) h

end Correct

end Queue

end ConcurrentQueues
