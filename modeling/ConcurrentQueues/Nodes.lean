import ConcurrentQueues.Layout
import ConcurrentQueues.Reasoning.AtomicQueue
import ConcurrentQueues.Reasoning.Walk

/-!
# Nodes — the queue as lists of nodes

Between the heap and the abstract queue: the main list, the values in it and the free lists, without
pointers.  A call moves nodes between these lists in one or two moves; what it has moved so far is
its `Stage`.  The implementations differ in when they move, not in what.
-/

namespace ConcurrentQueues

open Reasoning

/-- The lists of a queue: the main list with the sentinel in front, the values behind the sentinel,
and the free lists.  `brk` nodes have been allocated. -/
@[ext] structure Nodes (n : Nat) where
  main : List Addr
  items : List Value
  free : Fin n → List Addr
  brk : Addr

namespace Nodes

variable {n : Nat}

@[simps] def init (n : Nat) : Nodes n where
  main := [0]
  items := []
  free := fun _ => []
  brk := 1

@[simps] def setFree (k : Nodes n) (t : Fin n) (ps : List Addr) : Nodes n :=
  { k with free := Function.update k.free t ps }

@[simps] def grow (k : Nodes n) : Nodes n := { k with brk := k.brk + 1 }

@[simps] def append (k : Nodes n) (p : Addr) (v : Value) : Nodes n :=
  { k with main := k.main ++ [p], items := k.items ++ [v] }

/-- The sentinel leaves the main list, and the node behind it is the new one. -/
@[simps] def unlink (k : Nodes n) : Nodes n :=
  { k with main := k.main.tail, items := k.items.tail }

@[simps!] def push (k : Nodes n) (t : Fin n) (p : Addr) : Nodes n := k.setFree t (p :: k.free t)

/-- The node of an `enq`: the first of the free list, or a new one. -/
def take (k : Nodes n) (t : Fin n) : Addr × Nodes n :=
  match k.free t with
  | p :: rest => (p, k.setFree t rest)
  | [] => (k.brk, k.grow)

/-- A whole call; `mem` says whether `malloc` has a node for it. -/
def call (k : Nodes n) (t : Fin n) (mem : Bool) : Op Value → Nodes n × Res Value
  | .enq v =>
      if k.free t = [] ∧ mem = false then (k, .enq 0)
      else ((k.take t).2.append (k.take t).1 v, .enq 1)
  | .deq out =>
      match k.main, k.items with
      | p :: _, v :: _ => (k.unlink.push t p, .deq 1 v)
      | _, _ => (k, .deq 0 out)

/-- The call gets its node from `malloc`. -/
def allocates (k : Nodes n) (t : Fin n) (mem : Bool) : Op Value → Bool
  | .enq _ => (k.free t).isEmpty && mem
  | .deq _ => false

end Nodes

/-! ## The lists of a store -/

namespace Layout

variable {n : Nat}

/-- The main list. -/
def main (g : Layout n) : List Addr := (List.range' g.hd (g.len - g.hd)).map g.node

theorem main_link (g : Layout n) (hlt : g.hd < g.len) (t : Fin n) (p : Addr) (v : Value) :
    (g.link t p v).main = g.main ++ [p] := by
  obtain ⟨k, hk⟩ : ∃ k, g.len = g.hd + k := ⟨g.len - g.hd, by omega⟩
  have hnode : ∀ i ∈ List.range' g.hd k, (g.link t p v).node i = g.node i := by
    intro i hi
    have hilt := (List.mem_range'_1.mp hi).2
    exact Function.update_of_ne (by omega) _ _
  simp only [main, link_hd, link_len, show g.len - g.hd = k by omega,
    show g.len + 1 - g.hd = k + 1 by omega]
  rw [List.range'_concat, List.map_append, List.map_congr_left hnode]
  simp [hk]

theorem main_moveHead (g : Layout n) (hlt : g.hd < g.len) (t : Fin n) :
    g.main = g.node g.hd :: (g.moveHead t).main := by
  obtain ⟨k, hk⟩ : ∃ k, g.len = g.hd + (k + 1) := ⟨g.len - (g.hd + 1), by omega⟩
  simp only [main, moveHead_hd, moveHead_len, show g.len - g.hd = k + 1 by omega,
    show g.len - (g.hd + 1) = k by omega, List.range'_succ, List.map_cons]
  rfl

/-- The lists of a store with `brk` allocated nodes. -/
@[simps] def nodes (g : Layout n) (brk : Addr) : Nodes n := ⟨g.main, g.items, g.free, brk⟩

theorem nodes_pop (g : Layout n) (t : Fin n) (p : Addr) (brk : Addr) :
    (g.pop t p).nodes brk = (g.nodes brk).setFree t (g.free t).tail := rfl

theorem nodes_take (g : Layout n) (t : Fin n) (p : Addr) (brk : Addr) :
    (g.take t p).nodes (brk + 1) = (g.nodes brk).grow := rfl

theorem nodes_link (g : Layout n) (hlt : g.hd < g.len) (t : Fin n) (p : Addr) (v : Value)
    (brk : Addr) : (g.link t p v).nodes brk = (g.nodes brk).append p v :=
  Nodes.ext (g.main_link hlt t p v) (g.items_link hlt t p v) rfl rfl

theorem nodes_moveTail (g : Layout n) (i : Nat) (brk : Addr) :
    (g.moveTail i).nodes brk = g.nodes brk := rfl

theorem nodes_moveHead (g : Layout n) (hlt : g.hd + 1 < g.len) (t : Fin n) (brk : Addr) :
    (g.moveHead t).nodes brk = (g.nodes brk).unlink := by
  have hmain := g.main_moveHead (by omega) t
  have hitems := g.items_moveHead hlt t
  refine Nodes.ext ?_ ?_ rfl rfl
  · rw [Nodes.unlink_main, nodes_main, nodes_main, hmain, List.tail_cons]
  · rw [Nodes.unlink_items, nodes_items, nodes_items, hitems, List.tail_cons]

theorem nodes_detach (g : Layout n) (t : Fin n) (p : Addr) (brk : Addr) :
    (g.detach t p).nodes brk = g.nodes brk := rfl

theorem nodes_push (g : Layout n) (t : Fin n) (p : Addr) (brk : Addr) :
    (g.push t p).nodes brk = (g.nodes brk).push t p := rfl

end Layout

/-! ## The store between calls -/

/-- Every node of the store `q` is in exactly one of the lists `k`, the lists are chains, and the
`size` fields are their lengths, modulo `2 ^ 32`. -/
structure Store.Carries {n : Nat} (q : Store n) (k : Nodes n) : Prop where
  main : Chain q.next q.head k.main
  length : k.main.length = k.items.length + 1
  items : k.items = k.main.tail.map fun p => (q.heap p).data
  free : ∀ t, Chain q.next (q.freeLists t).head (k.free t)
  size : ∀ t, (q.freeLists t).size = .ofNat (k.free t).length
  brk : k.brk = q.brk
  lt_brk : ∀ p, p < q.brk ↔ p ∈ k.main ∨ ∃ t, p ∈ k.free t
  not_main : ∀ {t p}, p ∈ k.free t → p ∉ k.main
  free_inj : ∀ {t u p}, p ∈ k.free t → p ∈ k.free u → t = u

/-- `tail` points into the main list, at most `lag` nodes before its end. -/
def Store.TailWithin {n : Nat} (q : Store n) (k : Nodes n) (lag : Nat) : Prop :=
  ∃ before p after, q.tail = some p ∧ k.main = before ++ p :: after ∧ after.length ≤ lag

namespace Layout

variable {n : Nat} {q : Store n} {g : Layout n}

theorem length_main (g : Layout n) : g.main.length = g.len - g.hd := by simp [main]

theorem length_items (g : Layout n) : g.items.length = g.len - (g.hd + 1) := by simp [items]

/-- A store without open calls. -/
theorem carries (h : g.Valid q) (hold : ∀ t, g.hold t = none) (pend : ∀ t, g.pend t = none)
    (size : ∀ t, (q.freeLists t).size = .ofNat (g.free t).length) : q.Carries (g.nodes q.brk) where
  main := h.main_chain
  length := by
    have hlt := h.hd_lt
    rw [nodes_main, nodes_items, length_main, length_items]
    omega
  items := h.items_eq
  free := h.chain
  size := size
  brk := rfl
  lt_brk := by
    intro p
    have hraw : p < q.brk ↔ g.owner p ≠ .raw := by rw [ne_eq, h.owner_raw, not_le]
    rw [hraw]
    constructor
    · intro hne
      cases hown : g.owner p with
      | raw => exact absurd hown hne
      | linked i =>
          obtain ⟨⟨hlt, hmain | ⟨t, ht⟩⟩, rfl⟩ := h.owner_linked p i hown
          · exact .inl (List.mem_map_of_mem (List.mem_range'_1.mpr ⟨hmain, by omega⟩))
          · rw [pend t] at ht
            cases ht
      | free t => exact .inr ⟨t, (h.owner_free p t).mp hown⟩
      | held t =>
          have hheld := (h.owner_held p t).mp hown
          rw [hold t] at hheld
          cases hheld
    · rintro (hmain | ⟨t, ht⟩)
      · obtain ⟨i, hown, -⟩ := h.mem_main_iff.mp ⟨_, h.main_chain, hmain⟩
        simp [hown]
      · simp [(h.owner_free p t).mpr ht]
  not_main := by
    intro t p ht hmain
    obtain ⟨i, hown, -⟩ := h.mem_main_iff.mp ⟨_, h.main_chain, hmain⟩
    rw [(h.owner_free p t).mpr ht] at hown
    cases hown
  free_inj := by
    intro t u p ht hu
    have hown := (h.owner_free p t).mpr ht
    rw [(h.owner_free p u).mpr hu] at hown
    exact (Owner.free.inj hown).symm

theorem tailWithin (h : g.Valid q) {lag : Nat} (hle : g.hd ≤ g.tl) (hlag : g.len ≤ g.tl + 1 + lag)
    (brk : Addr) : q.TailWithin (g.nodes brk) lag := by
  have hlt := h.tl_lt
  refine ⟨(List.range' g.hd (g.tl - g.hd)).map g.node, g.node g.tl,
    (List.range' (g.tl + 1) (g.len - (g.tl + 1))).map g.node, h.tail, ?_, ?_⟩
  · rw [nodes_main, main, ← List.map_cons, ← List.map_append]
    refine congrArg (List.map g.node) ?_
    obtain ⟨i, hi⟩ : ∃ i, g.tl = g.hd + i := ⟨g.tl - g.hd, by omega⟩
    obtain ⟨j, hj⟩ : ∃ j, g.len = g.tl + 1 + j := ⟨g.len - (g.tl + 1), by omega⟩
    rw [show g.len - g.hd = i + (j + 1) by omega, show g.tl - g.hd = i by omega,
      show g.len - (g.tl + 1) = j by omega, ← List.range'_append_1, List.range'_succ, ← hi]
  · rw [List.length_map, List.length_range']
    omega

end Layout

/-! ## The moves of a call -/

/-- How far a call is: what it has moved between the lists. -/
inductive Stage where
  | idle
  | called (op : Op Value)
  /-- an `enq` has its node -/
  | taken (v : Value) (p : Ptr)
  /-- a `deq` has found the queue empty -/
  | emptied (out : Value)
  /-- a `deq` has unlinked the sentinel -/
  | unlinked (v : Value) (p : Ptr)
  | done (res : Res Value)
  deriving DecidableEq

/-- By how much a call with this result raises the insertion counter; the flag says
whether it was given one. -/
def inserted (countIns : Bool) : Res Value → Nat
  | .deq code _ => if code = 1 ∧ countIns = true then 1 else 0
  | .enq _ => 0

/-- What is counted along a run. -/
inductive Mark where
  | call (op : Op Value)
  | malloc
  | ret (res : Res Value)
  deriving DecidableEq

/-- The result of the call that returns at such a step. -/
def Mark.result : Option Mark → Option (Res Value)
  | some (.ret res) => some res
  | _ => none

theorem Mark.result_eq_some {mk : Option Mark} {res : Res Value} :
    Mark.result mk = some res ↔ mk = some (.ret res) := by
  unfold Mark.result
  split <;> simp_all

/-- By how much the call that returns at such a step has raised the counter. -/
def Mark.inserted (countIns : Bool) : Option Mark → Nat
  | some (.ret res) => ConcurrentQueues.inserted countIns res
  | _ => 0

namespace Nodes

variable {n : Nat}

/-- A step of thread `t`, which is at the given stage; `mem` says whether `malloc` has a node. -/
inductive Step (t : Fin n) (mem : Bool) :
    Option Mark → Nodes n → Stage → Nodes n → Stage → Prop
  | silent (k st) : Step t mem none k st k st
  | call (k op) : Step t mem (some (.call op)) k .idle k (.called op)
  | pop (k v p rest) (h : k.free t = p :: rest) :
      Step t mem none k (.called (.enq v)) (k.setFree t rest) (.taken v (some p))
  | malloc (k v) (h : k.free t = []) :
      Step t mem (some .malloc) k (.called (.enq v)) k.grow (.taken v (some k.brk))
  | outOfMemory (k v) (h : k.free t = []) (hmem : mem = false) :
      Step t mem none k (.called (.enq v)) k (.done (.enq 0))
  | append (k v p) : Step t mem none k (.taken v (some p)) (k.append p v) (.done (.enq 1))
  | peek (k out) (h : k.items = []) : Step t mem none k (.called (.deq out)) k (.emptied out)
  | retry (k out) : Step t mem none k (.emptied out) k (.called (.deq out))
  | settle (k out) : Step t mem none k (.emptied out) k (.done (.deq 0 out))
  | unlink (k out v p) (main items) (hmain : k.main = p :: main) (hitems : k.items = v :: items) :
      Step t mem none k (.called (.deq out)) k.unlink (.unlinked v (some p))
  | push (k v p) : Step t mem none k (.unlinked v (some p)) (k.push t p) (.done (.deq 1 v))
  /-- the whole call at once -/
  | atomic (k op) :
      Step t mem (if k.allocates t mem op then some .malloc else none) k (.called op)
        (k.call t mem op).1 (.done (k.call t mem op).2)
  | ret (k res) : Step t mem (some (.ret res)) k (.done res) k .idle

theorem Step.stage_of_ret {t : Fin n} {mem : Bool} {mk : Option Mark} {res : Res Value}
    {k k' : Nodes n} {st st' : Stage} (h : Step t mem mk k st k' st') (hmk : mk = some (.ret res)) :
    st = .done res := by
  cases h with
  | ret _ res' => rw [Mark.ret.inj (Option.some.inj hmk)]
  | atomic _ op => split at hmk <;> cases hmk
  | _ => cases hmk

theorem Step.idle_of_ret {t : Fin n} {mem : Bool} {mk : Option Mark} {res : Res Value}
    {k k' : Nodes n} {st st' : Stage} (h : Step t mem mk k st k' st')
    (hmk : mk = some (.ret res)) : st' = .idle := by
  cases h with
  | ret _ res' => rfl
  | atomic _ op => split at hmk <;> cases hmk
  | _ => cases hmk

/-- Only the return ends a call. -/
theorem Step.busy {t : Fin n} {mem : Bool} {mk : Option Mark} {k k' : Nodes n} {st st' : Stage}
    (h : Step t mem mk k st k' st') (hcall : st ≠ .idle) (hret : ∀ res, mk ≠ some (.ret res)) :
    st' ≠ .idle := by
  cases h with
  | silent => exact hcall
  | ret _ res => exact absurd rfl (hret res)
  | call | pop | malloc | outOfMemory | append | peek | retry | settle | unlink | push | atomic =>
      intro hst
      cases hst

/-- With memory no `enq` fails. -/
theorem Step.not_failed {t : Fin n} {mk : Option Mark} {k k' : Nodes n} {st st' : Stage}
    (h : Step t true mk k st k' st') (hst : st ≠ .done (.enq 0)) : st' ≠ .done (.enq 0) := by
  cases h with
  | silent => exact hst
  | outOfMemory _ _ _ hmem => cases hmem
  | atomic _ op =>
      cases op with
      | enq v => simp [Nodes.call]
      | deq out =>
          cases hmain : k.main <;> cases hitems : k.items <;> simp [Nodes.call, hmain, hitems]
  | call | pop | malloc | append | peek | retry | settle | unlink | push | ret => simp

theorem Step.of_call {t : Fin n} {mem : Bool} {mk : Option Mark} {op : Op Value} {k k' : Nodes n}
    {st st' : Stage} (h : Step t mem mk k st k' st') (hmk : mk = some (.call op)) :
    st' = .called op := by
  cases h with
  | call _ op' => rw [Mark.call.inj (Option.some.inj hmk)]
  | atomic _ op => split at hmk <;> cases hmk
  | _ => cases hmk

theorem take_free_of_ne (k : Nodes n) {t u : Fin n} (hu : u ≠ t) :
    (k.take t).2.free u = k.free u := by
  unfold take
  split
  · exact Function.update_of_ne hu _ _
  · rfl

theorem call_free_of_ne (k : Nodes n) {t u : Fin n} (hu : u ≠ t) (mem : Bool) (op : Op Value) :
    (k.call t mem op).1.free u = k.free u := by
  unfold call
  split
  · split
    · rfl
    · exact k.take_free_of_ne hu
  · split
    · exact Function.update_of_ne hu _ _
    · rfl

/-- A step of `t` changes no free list but that of `t`. -/
theorem Step.free_of_ne {t u : Fin n} {mem : Bool} {mk : Option Mark} {k k' : Nodes n}
    {st st' : Stage} (h : Step t mem mk k st k' st') (hu : u ≠ t) : k'.free u = k.free u := by
  cases h <;> first
    | rfl
    | exact Function.update_of_ne hu _ _
    | exact k.call_free_of_ne hu _ _

end Nodes

/-- The return codes are 0 and 1. -/
def CodeOk : Res Value → Prop
  | .enq code => code = 0 ∨ code = 1
  | .deq code _ => code = 0 ∨ code = 1

/-- The result of the open call, if it is settled, has a code of 0 or 1. -/
def Stage.CodeOk : Stage → Prop
  | .done res => ConcurrentQueues.CodeOk res
  | _ => True

/-- The function that is called. -/
inductive Kind where
  | enq
  | deq
  deriving DecidableEq

def Kind.ofOp : Op Value → Kind
  | .enq _ => .enq
  | .deq _ => .deq

def Kind.ofRes : Res Value → Kind
  | .enq _ => .enq
  | .deq _ _ => .deq

/-- The function of the open call. -/
def Stage.kind : Stage → Option Kind
  | .idle => none
  | .called op => some (.ofOp op)
  | .taken _ _ => some .enq
  | .emptied _ | .unlinked _ _ => some .deq
  | .done res => some (.ofRes res)

theorem Stage.kind_eq_none_iff {st : Stage} : st.kind = none ↔ st = .idle := by
  cases st <;> simp [Stage.kind]

namespace Nodes

variable {n : Nat} {t : Fin n} {mem : Bool} {mk : Option Mark} {k k' : Nodes n} {st st' : Stage}

theorem call_codeOk (k : Nodes n) (t : Fin n) (mem : Bool) (op : Op Value) :
    ConcurrentQueues.CodeOk (k.call t mem op).2 := by
  unfold call
  split
  · split
    · exact .inl rfl
    · exact .inr rfl
  · split
    · exact .inr rfl
    · exact .inl rfl

theorem call_kind (k : Nodes n) (t : Fin n) (mem : Bool) (op : Op Value) :
    Kind.ofRes (k.call t mem op).2 = .ofOp op := by
  unfold call
  split <;> split <;> rfl

theorem Step.codeOk (h : Step t mem mk k st k' st') (hst : st.CodeOk) : st'.CodeOk := by
  cases h with
  | silent => exact hst
  | outOfMemory | settle => exact .inl rfl
  | append | push => exact .inr rfl
  | atomic _ op => exact k.call_codeOk t mem op
  | call | pop | malloc | peek | retry | unlink | ret => trivial

/-- A call keeps its kind from beginning to end. -/
theorem Step.kind (h : Step t mem mk k st k' st') (hcall : st ≠ .idle) (hret : st' ≠ .idle) :
    st'.kind = st.kind := by
  cases h with
  | call => exact absurd rfl hcall
  | ret => exact absurd rfl hret
  | atomic _ op => exact congrArg some (k.call_kind t mem op)
  | _ => rfl

theorem call_length_main (k : Nodes n) (t : Fin n) (mem : Bool) (op : Op Value)
    (hlen : k.main.length = k.items.length + 1) :
    (k.call t mem op).1.main.length = (k.call t mem op).1.items.length + 1 := by
  cases op with
  | enq v =>
      by_cases hmem : k.free t = [] ∧ mem = false
      · simpa [call, hmem] using hlen
      · cases hfree : k.free t <;> simp_all [call, take]
  | deq out =>
      cases hitem : k.items with
      | nil => simpa [call, hitem] using hlen
      | cons v items =>
          cases hmain : k.main with
          | nil => simp [hmain] at hlen
          | cons p main => simpa [call, hmain, hitem] using hlen

/-- The main list always holds one node more than the queue holds values. -/
theorem Step.length_main (h : Step t mem mk k st k' st')
    (hlen : k.main.length = k.items.length + 1) : k'.main.length = k'.items.length + 1 := by
  cases h with
  | append _ v p => simpa using hlen
  | unlink _ out v p main items hmain hitems =>
      rw [hmain, hitems] at hlen
      simpa [hmain, hitems] using hlen
  | atomic _ op => exact k.call_length_main t mem op hlen
  | _ => exact hlen

end Nodes

/-! ## Programs that move nodes -/

section Simulation

variable {n : Nat} {C M L G : Type}

/-- `P` moves nodes between its lists in the moves of a call; `I` is an invariant of configuration
and history. -/
structure MovesNodes (P : Program (Fin n) C M L) (mark : Fin n → C → M → L → Option Mark)
    (I : Config (Fin n) M L → G → Prop) where
  nodes : M → G → Nodes n
  stage : L → Stage
  /-- `malloc` has a node in this step -/
  mem : C → Bool
  step : ∀ {s e s' g}, I s g → fire P s e = some s' → ∃ g', I s' g' ∧
    Nodes.Step e.1 (mem e.2) (mark e.1 e.2 s.mem (s.th e.1)) (nodes s.mem g) (stage (s.th e.1))
      (nodes s'.mem g') (stage (s'.th e.1))

/-- The marks of a run, each with its thread. -/
def marks (P : Program (Fin n) C M L) (mark : Fin n → C → M → L → Option Mark)
    (s : Config (Fin n) M L) (es : List (Fin n × C)) : List (Fin n × Mark) :=
  trace P (fun t c m l => (mark t c m l).map (t, ·)) s es

theorem marks_snoc {P : Program (Fin n) C M L} {mark : Fin n → C → M → L → Option Mark}
    {s u : Config (Fin n) M L} {es : List (Fin n × C)} (e : Fin n × C) (h : run P s es = some u) :
    marks P mark s (es ++ [e]) =
      marks P mark s es ++ ((mark e.1 e.2 u.mem (u.th e.1)).map (e.1, ·)).toList := trace_snoc e h

/-- How many nodes `t` has obtained from `malloc`. -/
def mallocs (t : Fin n) (ms : List (Fin n × Mark)) : Nat := ms.count (t, .malloc)

/-- What the calls of `t` have returned, in order. -/
def returns (t : Fin n) (ms : List (Fin n × Mark)) : List (Res Value) :=
  ms.filterMap fun e =>
    match e.2 with
    | .ret res => if e.1 = t then some res else none
    | _ => none

end Simulation

end ConcurrentQueues
