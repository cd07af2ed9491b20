import ConcurrentQueues.Ex1.Nodes
import ConcurrentQueues.Queue

/-!
# Ex1 — its calls as the steps of a program

The sequential queue supports one call at a time, so the body of a call is one step.
-/

namespace ConcurrentQueues.Ex1

open Reasoning

variable {n : Nat} {t u : Fin n} {q q' : State n} {g : Layout n}

inductive Pc where
  | idle | body | ret
  deriving DecidableEq, Repr

structure Local where
  pc : Pc
  op : Op Value
  countIns : Bool
  res : Res Value

/-- The next call, and the result of `malloc`. -/
structure Choice where
  op : Op Value
  countIns : Bool
  malloc : Option Node

def Local.init : Local := ⟨.idle, .deq 0, false, .deq 0 0⟩

/-- The open call of `t`. -/
def Local.toCall (l : Local) (t : Fin n) (c : Choice) : Call n := ⟨t, l.op, l.countIns, c.malloc⟩

/-- The body of a call is one step.  That is faithful as long as no two calls overlap, and `main`
runs this version with one thread only. -/
def step : Program (Fin n) Choice (State n) Local := fun t c q l =>
  match l.pc with
  | .idle => .next q { l with pc := .body, op := c.op, countIns := c.countIns }
  | .body =>
      match call q (l.toCall t c) with
      | some (q', res) => .next q' { l with pc := .ret, res := res }
      | none => .fault
  | .ret => .next q { l with pc := .idle }

/-- The queue after `init_queue` and before any call. -/
def init (n : Nat) : Config (Fin n) (State n) Local := ⟨State.init n, fun _ => Local.init⟩

/-- The body asks `malloc` for a node if the free list of `t` is empty. -/
def mark (t : Fin n) (c : Choice) (q : State n) (l : Local) : Option Mark :=
  match l.pc with
  | .idle => some (.call c.op)
  | .body =>
      match l.op with
      | .enq _ =>
          if (q.store.freeLists t).head = none ∧ c.malloc ≠ none then some .malloc else none
      | .deq _ => none
  | .ret => some (.ret l.res)

def Local.stage (l : Local) : Stage :=
  match l.pc with
  | .idle => .idle
  | .body => .called l.op
  | .ret => .done l.res

theorem mark_body {l : Local} {c : Choice} (h : Rep q.store g) (hpc : l.pc = .body) :
    mark t c q l =
      if (g.nodes q.store.brk).allocates t c.malloc.isSome l.op then some .malloc else none := by
  have hfree := h.free_eq_nil_iff (t := t)
  cases hop : l.op with
  | enq v => simp [mark, hpc, hop, Nodes.allocates, ← hfree, Option.isSome_iff_ne_none]
  | deq out => simp [mark, hpc, hop, Nodes.allocates]

/-- What the body of a call does. -/
theorem body_nodes {l l' : Local} {c : Choice} (h : Rep q.store g) (hpc : l.pc = .body)
    (hs : step t c q l = .next q' l') :
    l'.pc = .ret ∧ l'.countIns = l.countIns ∧
      ∃ g', Rep q'.store g' ∧ (g'.nodes q'.store.brk, l'.res) =
          (g.nodes q.store.brk).call t c.malloc.isSome l.op ∧
        q'.insertions = Function.update q.insertions t
          (q.insertions t + inserted l.countIns l'.res) := by
  obtain ⟨q₁, res, g', hcall, hrep, hnodes, -, hins⟩ := call_nodes h (l.toCall t c)
  simp only [step, hpc, hcall] at hs
  cases hs
  exact ⟨rfl, rfl, g', hrep, hnodes, hins⟩

/-- Ex1 moves the nodes of a call at once. -/
def movesNodes (n : Nat) : MovesNodes (step (n := n)) mark fun s g => Rep s.mem.store g where
  nodes q g := g.nodes q.store.brk
  stage := Local.stage
  mem c := c.malloc.isSome
  step := by
    rintro ⟨q, th⟩ ⟨t, c⟩ s' g hrep hf
    obtain ⟨q', l', hs, rfl⟩ := fire_eq_some.mp hf
    simp only [Function.update_self] at hs ⊢
    cases hpc : (th t).pc with
    | idle =>
        simp only [step, hpc] at hs
        cases hs
        refine ⟨g, hrep, ?_⟩
        simpa [mark, hpc, Local.stage] using Nodes.Step.call (g.nodes q.store.brk) c.op
    | body =>
        obtain ⟨hret, -, g', hrep', hnodes, -⟩ := body_nodes hrep hpc hs
        refine ⟨g', hrep', ?_⟩
        have hstep : Nodes.Step t c.malloc.isSome _ _ _ _ _ :=
          .atomic (g.nodes q.store.brk) (th t).op
        rw [← hnodes, ← mark_body hrep hpc] at hstep
        simpa [Local.stage, hpc, hret] using hstep
    | ret =>
        simp only [step, hpc] at hs
        cases hs
        refine ⟨g, hrep, ?_⟩
        simpa [mark, hpc, Local.stage] using Nodes.Step.ret (g.nodes q.store.brk) (th t).res

/-! ## The insertion counter -/

/-- What the open call has counted so far. -/
def Local.tallied (l : Local) : Nat :=
  match l.pc with
  | .ret => inserted l.countIns l.res
  | _ => 0

theorem step_insertions {l l' : Local} {c : Choice} (h : Rep q.store g)
    (hs : step t c q l = .next q' l') :
    q'.insertions t + l.tallied =
      q.insertions t + l'.tallied + Mark.inserted l.countIns (mark t c q l) := by
  cases hpc : l.pc with
  | idle =>
      simp only [step, hpc] at hs
      cases hs
      simp [mark, hpc, Local.tallied, Mark.inserted]
  | body =>
      obtain ⟨hret, hcount, -, -, -, hins⟩ := body_nodes h hpc hs
      have hmark : Mark.inserted l.countIns (mark t c q l) = 0 := by
        rw [mark_body h hpc]
        split <;> rfl
      simp [hmark, hins, Local.tallied, hpc, hret, hcount]
  | ret =>
      simp only [step, hpc] at hs
      cases hs
      simp [mark, hpc, Local.tallied, Mark.inserted]

theorem step_insertions_other {l l' : Local} {c : Choice} (h : Rep q.store g)
    (hs : step t c q l = .next q' l') (hu : u ≠ t) : q'.insertions u = q.insertions u := by
  cases hpc : l.pc with
  | idle | ret =>
      simp only [step, hpc] at hs
      cases hs
      rfl
  | body =>
      obtain ⟨-, -, -, -, -, hins⟩ := body_nodes h hpc hs
      rw [hins, Function.update_of_ne hu]

theorem step_countIns {l l' : Local} {c : Choice} (hs : step t c q l = .next q' l') :
    l'.countIns = if l.pc = .idle then c.countIns else l.countIns := by
  simp only [step] at hs
  split at hs
  · cases hs
    simp [*]
  · split at hs <;> cases hs
    simp [*]
  · cases hs
    simp [*]

/-! ## A call from beginning to end -/

theorem call_fires {s : Config (Fin n) (State n) Local} (hpc : (s.th t).pc = .idle) (c : Choice) :
    fire step s (t, c) = some ⟨s.mem, Function.update s.th t
      { s.th t with pc := .body, op := c.op, countIns := c.countIns }⟩ :=
  fire_eq_some.mpr ⟨_, _, by simp only [step, hpc], rfl⟩

theorem returns {s : Config (Fin n) (State n) Local} (h : Rep s.mem.store g)
    (hpc : (s.th t).pc = .body) {ok : Choice → Prop} :
    Returns step ok (fun l => (l.pc == .idle) = true) t s := by
  refine returns_of_rank (fun v k => (∃ g, Rep v.mem.store g) ∧
    ((v.th t).pc = .body ∧ k = 2 ∨ (v.th t).pc = .ret ∧ k = 1)) ?_ ⟨⟨g, h⟩, .inl ⟨hpc, rfl⟩⟩
  rintro v k c ⟨⟨g, h⟩, ⟨hpc, rfl⟩ | ⟨hpc, rfl⟩⟩ -
  · obtain ⟨q', res, g', hcall, hrep, -⟩ := call_nodes h ((v.th t).toCall t c)
    refine ⟨q', { v.th t with pc := .ret, res := res }, by simp [step, hpc, hcall], fun _ => ?_⟩
    exact ⟨1, by decide, ⟨g', hrep⟩, .inr ⟨by simp, rfl⟩⟩
  · exact ⟨v.mem, { v.th t with pc := .idle }, by simp [step, hpc], fun hbusy => absurd rfl hbusy⟩

/-! ## Ex1 as a queue -/

def destroyQueue (q : State n) (fuel : Nat) (freed : List Block) : Except Stop (List Block) :=
  destroyNodes q.store fuel freed

theorem destroys (h : Rep q.store g) {fuel : Nat} (hfuel : q.store.brk ≤ fuel) :
    ReleasesAll (destroyQueue q fuel) [] (nodeBlocks q.store) :=
  releasesAll_of_frees (frees_destroyNodes h.carries hfuel) List.nodup_nil
    (fun _ hb => nomatch hb) (by simp)

abbrev queue (n : Nat) : Queue n where
  Choice := Choice
  Mem := State n
  Local := Local
  step := step
  init := init n
  calling op countIns c := { c with op := op, countIns := countIns }
  idle l := l.pc == .idle
  mark := mark
  store := State.store
  insertions q t _ := q.insertions t
  -- there is no compare-and-swap
  failedEnqCAS _ := 0
  failedDeqCAS _ := 0
  allocates c := c.malloc.isSome
  spurious _ := false
  destroyQueue := destroyQueue
  freed _ := []
  allocated q := nodeBlocks q.store

def correct (n : Nat) : (queue n).Correct where
  G := Layout n
  I s g := Rep s.mem.store g
  moves := movesNodes n
  start := Layout.init n
  init := rep_init n
  nodes_init := rfl
  quiet_init := fun _ => rfl
  idle_iff := by
    rintro ⟨pc, op, countIns, res⟩
    cases pc <;> simp [movesNodes, Local.stage]
  mark_idle := fun {t c m l} hidle => ⟨c.op, by simp [mark, eq_of_beq hidle]⟩
  mark_calling := fun hidle => by simp [mark, eq_of_beq hidle]
  mem_calling := fun _ _ _ => rfl
  size := fun hrep _ => hrep.size _
  carries := fun hrep _ => hrep.carries
  mem_of_allocates := fun h => h
  lag := 0
  tail := fun hrep _ => hrep.tailWithin _
  strong := ⟨⟨.deq 0, false, some ⟨0, none⟩⟩, rfl, rfl⟩
  call_returns := by
    intro s g hrep hquiet t op b c
    refine ⟨_, call_fires (eq_of_beq (hquiet t)) { c with op := op, countIns := b }, ?_⟩
    refine returns (g := g) ?_ ?_
    · exact hrep
    · simp
  node_not_freed := fun _ _ h => nomatch h
  destroys := fun hrep _ hfuel => destroys hrep hfuel
  counts := Local.countIns
  tallied := Local.tallied
  tallied_idle := fun l hidle => by simp [Local.tallied, eq_of_beq hidle]
  counts_call := fun hidle hs => by simp [step_countIns hs, eq_of_beq hidle]
  counts_step := fun _ hbusy hs => by simp [step_countIns hs, ne_of_beq_false hbusy]
  insertions_init := fun _ => rfl
  insertions_step := fun hrep hs => step_insertions hrep hs
  insertions_other := fun hrep hs hu _ => step_insertions_other hrep hs hu

end ConcurrentQueues.Ex1
