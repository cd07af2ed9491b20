import ConcurrentQueues.Ex1.Nodes

/-!
# Ex1 — an unbounded FIFO queue

Without the nodes, a free list is the number of nodes in it: this number decides whether an `enq`
needs memory.
-/

namespace ConcurrentQueues.Ex1

open Reasoning Layout

variable {n : Nat} {g : Layout n}

/-- A list queue that counts the free nodes of each thread id. -/
@[ext] structure Fifo (n : Nat) where
  items : List Value
  free : Fin n → Nat

namespace Fifo

def empty : Fifo n := ⟨[], fun _ => 0⟩

/-- What a call returns, and the queue after it. -/
def call (a : Fifo n) (c : Call n) : Fifo n × Res Value :=
  match c.op with
  | .enq v =>
      -- no free node and no memory
      if a.free c.thread = 0 ∧ c.malloc = none then (a, .enq 0)
      else
        (⟨a.items ++ [v], Function.update a.free c.thread (a.free c.thread - 1)⟩, .enq 1)
  | .deq out =>
      match a.items with
      | [] => (a, .deq 0 out)
      | v :: items =>
          (⟨items, Function.update a.free c.thread (a.free c.thread + 1)⟩, .deq 1 v)

def run (a : Fifo n) : List (Call n) → Fifo n × List (Return n)
  | [] => (a, [])
  | c :: cs => (((a.call c).1.run cs).1, ⟨c.thread, c.op, (a.call c).2⟩ :: ((a.call c).1.run cs).2)

theorem run_append (a : Fifo n) (cs ds : List (Call n)) :
    (a.run (cs ++ ds)).1 = ((a.run cs).1.run ds).1 := by
  induction cs generalizing a with
  | nil => rfl
  | cons c cs ih => exact ih (a.call c).1

/-- Enqueued values need new nodes as long as no node is free. -/
theorem run_fill (t : Fin n) (raw : Node) (k : Nat) :
    (empty.run (List.replicate k ⟨t, .enq 0, false, some raw⟩)).1 =
      ⟨List.replicate k 0, fun _ => 0⟩ := by
  induction k with
  | zero => rfl
  | succ k ih =>
      rw [List.replicate_succ', run_append, ih]
      refine Fifo.ext ?_ (funext fun u => ?_)
      · simp [run, call, List.replicate_succ']
      · simp [run, call]

/-- Every value that is dequeued leaves a free node. -/
theorem run_drain {t : Fin n} {raw : Node} {k j : Nat} (hj : j ≤ k) :
    (empty.run (List.replicate k ⟨t, .enq 0, false, some raw⟩ ++
      List.replicate j ⟨t, .deq 0, false, none⟩)).1 =
      ⟨List.replicate (k - j) 0, Function.update (fun _ => 0) t j⟩ := by
  induction j with
  | zero => simpa using run_fill t raw k
  | succ j ih =>
      have hitems : List.replicate (k - j) (0 : Value) =
          0 :: List.replicate (k - (j + 1)) 0 := by
        rw [← List.replicate_succ, show k - (j + 1) + 1 = k - j by omega]
      rw [List.replicate_succ', ← List.append_assoc, run_append, ih (by omega)]
      refine Fifo.ext ?_ (funext fun u => ?_)
      · simp [run, call, hitems]
      · simp [run, call, hitems]

theorem free_run_drain (t : Fin n) (raw : Node) (k : Nat) :
    (empty.run (List.replicate k ⟨t, .enq 0, false, some raw⟩ ++
      List.replicate k ⟨t, .deq 0, false, none⟩)).1.free t = k := by
  simp [run_drain le_rfl]

/-- The list queue of a queue of nodes. -/
@[simps] def ofNodes (k : Nodes n) : Fifo n := ⟨k.items, fun t => (k.free t).length⟩

theorem ofNodes_push (k : Nodes n) (t : Fin n) (p : Addr) :
    ofNodes (k.push t p) =
      ⟨k.items, Function.update (ofNodes k).free t ((ofNodes k).free t + 1)⟩ := by
  refine Fifo.ext rfl (funext fun u => ?_)
  by_cases hu : u = t
  · subst hu; simp
  · simp [Function.update_of_ne hu]

theorem ofNodes_take (k : Nodes n) (t : Fin n) :
    ofNodes (k.take t).2 =
      ⟨k.items, Function.update (ofNodes k).free t ((ofNodes k).free t - 1)⟩ := by
  cases hfree : k.free t with
  | nil =>
      refine Fifo.ext (by simp [Nodes.take, hfree]) (funext fun u => ?_)
      by_cases hu : u = t
      · subst hu; simp [Nodes.take, hfree]
      · simp [Nodes.take, hfree, Function.update_of_ne hu]
  | cons p rest =>
      refine Fifo.ext (by simp [Nodes.take, hfree]) (funext fun u => ?_)
      by_cases hu : u = t
      · subst hu; simp [Nodes.take, hfree]
      · simp [Nodes.take, hfree, Function.update_of_ne hu]

/-- Counting the nodes commutes with every call. -/
theorem ofNodes_call (k : Nodes n) (hmain : k.items ≠ [] → k.main ≠ []) (c : Call n) :
    (ofNodes (k.call c.thread c.malloc.isSome c.op).1,
      (k.call c.thread c.malloc.isSome c.op).2) = (ofNodes k).call c := by
  obtain ⟨t, op, countIns, raw⟩ := c
  cases op with
  | enq v =>
      by_cases hmem : k.free t = [] ∧ raw = none
      · simp [Nodes.call, call, hmem]
      · have hnodes : ¬ (k.free t = [] ∧ raw.isSome = false) := by simpa using hmem
        have hcount : ¬ ((ofNodes k).free t = 0 ∧ raw = none) := by simpa using hmem
        simp only [Nodes.call, call, if_neg hnodes, if_neg hcount]
        refine Prod.ext (Fifo.ext ?_ ?_) rfl
        · have htake := congrArg Fifo.items (ofNodes_take k t)
          simp only [ofNodes_items] at htake
          simp [htake]
        · have htake := congrArg Fifo.free (ofNodes_take k t)
          exact htake
  | deq out =>
      cases hitems : k.items with
      | nil => cases hk : k.main <;> simp [Nodes.call, call, hitems, hk]
      | cons v items =>
          obtain ⟨p, main, hk⟩ := List.exists_cons_of_ne_nil (hmain (by simp [hitems]))
          simp only [Nodes.call, hk, hitems, call, ofNodes_items, ofNodes_push, Nodes.unlink_items,
            List.tail_cons]
          rfl

/-- A call that returns 0 changes nothing. -/
theorem call_of_zero {a : Fifo n} {c : Call n} (h : code (a.call c).2 = 0) :
    (a.call c).1 = a := by
  unfold call at h ⊢
  split at h
  · split at h
    next hmem => rw [if_pos hmem]
    next => cases h
  · split at h
    next => rfl
    next => cases h

end Fifo

/-! ## The representation -/

/-- The heap representation of the list queue `a`: the chain from `head` carries the items behind
its sentinel and ends at `tail`, the free lists are chains apart from it and from each other, and
their `size` fields are right as long as an `int` can hold the length. -/
structure Represents (q : Store n) (a : Fifo n) (main : List Addr) (free : Fin n → List Addr) :
    Prop where
  chain : Chain q.next q.head main
  nodup : main.Nodup
  length : main.length = a.items.length + 1
  items : (main.tail.map fun p => (q.heap p).data) = a.items
  tail : ∃ last, main.getLast? = some last ∧ q.tail = some last ∧ q.next last = none
  freeChain : ∀ t, Chain q.next (q.freeLists t).head (free t)
  freeNodup : ∀ t, (free t).Nodup
  freeMain : ∀ t, (free t).Disjoint main
  freeFree : ∀ t u, t ≠ u → (free t).Disjoint (free u)
  size : ∀ t, (q.freeLists t).size.toInt = (free t).length ↔ (free t).length < 2 ^ 31
  count : ∀ t, a.free t = (free t).length

theorem Rep.represents {q : Store n} (h : Rep q g) (brk : Addr) :
    Represents q (Fifo.ofNodes (g.nodes brk)) g.main g.free where
  chain := h.quiet.valid.main_chain
  nodup := h.quiet.valid.main_chain.nodup
  length := by
    have hlt := h.quiet.valid.hd_lt
    rw [length_main, Fifo.ofNodes_items, nodes_items, length_items]
    omega
  items := h.quiet.valid.items_eq.symm
  tail := by
    have hlt := h.quiet.valid.hd_lt
    have hlast := h.quiet.last
    obtain ⟨ps, hps, p, -, htail, hend, -⟩ := h.quiet.valid.exists_main (by omega)
    obtain rfl := hps.unique h.quiet.valid.main_chain
    refine ⟨p, hend hlast.symm, htail, ?_⟩
    rw [h.quiet.valid.tail] at htail
    rw [← Option.some.inj htail]
    exact (h.quiet.valid.next_eq_none_iff ⟨h.quiet.valid.tl_lt, .inl (by omega)⟩).mpr hlast.symm
  freeChain := h.quiet.valid.chain
  freeNodup := fun t => (h.quiet.valid.chain t).nodup
  freeMain := by
    intro t p hp hmain
    obtain ⟨i, hi, rfl⟩ := List.mem_map.mp hmain
    have hi' := List.mem_range'_1.mp hi
    exact h.quiet.valid.node_ne_free ⟨by omega, .inl hi'.1⟩ hp rfl
  freeFree := by
    intro t u htu p ht hu
    have hown := (h.quiet.valid.owner_free p t).mpr ht
    rw [(h.quiet.valid.owner_free p u).mpr hu] at hown
    exact htu (Owner.free.inj hown).symm
  size := by
    intro t
    rw [h.size]
    exact toInt_ofNat_iff
  count := fun _ => rfl

/-- There is a sentinel even in the empty queue. -/
theorem Rep.main_ne_nil {q : Store n} (h : Rep q g) : g.main ≠ [] := by
  intro hnil
  have hlen := length_main g
  have hlt := h.quiet.valid.hd_lt
  rw [hnil, List.length_nil] at hlen
  omega

theorem call_fifo {q : State n} (h : Rep q.store g) (c : Call n) :
    ∃ q' res g', call q c = some (q', res) ∧ Rep q'.store g' ∧
      (Fifo.ofNodes (g'.nodes q'.store.brk), res) =
        (Fifo.ofNodes (g.nodes q.store.brk)).call c ∧
      (code res = 0 → q' = q ∧ ∀ out, c.op = .deq out → res = .deq 0 out) := by
  obtain ⟨q', res, g', hcall, hrep, hnodes, hsame, -⟩ := call_nodes h c
  have hcount := Fifo.ofNodes_call (g.nodes q.store.brk) (fun _ => h.main_ne_nil) c
  rw [← hnodes] at hcount
  exact ⟨q', res, g', hcall, hrep, hcount, hsame⟩

theorem run_fifo {q : State n} (h : Rep q.store g) (cs : List (Call n)) :
    ∃ q' g', run q cs = some (q', ((Fifo.ofNodes (g.nodes q.store.brk)).run cs).2) ∧
      Rep q'.store g' ∧
      Fifo.ofNodes (g'.nodes q'.store.brk) = ((Fifo.ofNodes (g.nodes q.store.brk)).run cs).1 := by
  induction cs generalizing q g with
  | nil => exact ⟨q, g, rfl, h, rfl⟩
  | cons c cs ih =>
      obtain ⟨q₁, res, g₁, hcall, h₁, hcount, -⟩ := call_fifo h c
      obtain ⟨q', g', hrun, h', hlast⟩ := ih h₁
      rw [Fifo.run, ← hcount]
      exact ⟨q', g', by simp [run, hcall, hrun], h', hlast⟩

theorem run_represents (cs : List (Call n)) :
    ∃ q g, run (State.init n) cs = some (q, (Fifo.empty.run cs).2) ∧ Rep q.store g ∧
      Fifo.ofNodes (g.nodes q.store.brk) = (Fifo.empty.run cs).1 ∧
      Represents q.store (Fifo.empty.run cs).1 g.main g.free := by
  obtain ⟨q, g, hrun, hrep, hlast⟩ := run_fifo (q := State.init n) (rep_init n) cs
  have hinit : Fifo.ofNodes ((Layout.init n).nodes (State.init n).store.brk) = Fifo.empty := rfl
  rw [hinit] at hrun hlast
  exact ⟨q, g, hrun, hrep, hlast, hlast ▸ hrep.represents q.store.brk⟩

/-- **The sequential queue is an unbounded FIFO queue.**  Every sequence of calls, with `malloc`
failing in any of them, returns what the list queue returns and leaves a heap that represents it;
the call after it returns what the list queue returns, and changes nothing if this is 0. -/
theorem sequentialQueue_fifo (cs : List (Call n)) :
    ∃ q main free, run (State.init n) cs = some (q, (Fifo.empty.run cs).2) ∧
      Represents q.store (Fifo.empty.run cs).1 main free ∧
      ∀ c, ∃ q' res, call q c = some (q', res) ∧ res = ((Fifo.empty.run cs).1.call c).2 ∧
        (code res = 0 → q' = q ∧ ((Fifo.empty.run cs).1.call c).1 = (Fifo.empty.run cs).1 ∧
          ∀ out, c.op = .deq out → res = .deq 0 out) := by
  obtain ⟨q, g, hrun, hrep, hlast, hrepresents⟩ := run_represents cs
  refine ⟨q, g.main, g.free, hrun, hrepresents, fun c => ?_⟩
  obtain ⟨q', res, g', hcall, -, hcount, hsame⟩ := call_fifo hrep c
  rw [hlast] at hcount
  have hres : res = ((Fifo.empty.run cs).1.call c).2 := congrArg Prod.snd hcount
  refine ⟨q', res, hcall, hres, fun hzero => ?_⟩
  obtain ⟨hq, hout⟩ := hsame hzero
  exact ⟨hq, Fifo.call_of_zero (hres ▸ hzero), hout⟩

/-- Thread 0 enqueues `2 ^ 31` values and dequeues them: as many nodes are on its free list, and
`size` is another number. -/
theorem sequentialQueue_size_wraps :
    ∃ q rs ps, run (State.init 1) (List.replicate (2 ^ 31) ⟨0, .enq 0, false, some ⟨0, none⟩⟩ ++
        List.replicate (2 ^ 31) ⟨0, .deq 0, false, none⟩) = some (q, rs) ∧
      Chain q.store.next (q.store.freeLists 0).head ps ∧ ps.length = 2 ^ 31 ∧
      (q.store.freeLists 0).size.toInt ≠ 2 ^ 31 := by
  obtain ⟨q, g, hrun, -, -, hrepresents⟩ := run_represents (n := 1)
    (List.replicate (2 ^ 31) ⟨0, .enq 0, false, some ⟨0, none⟩⟩ ++
      List.replicate (2 ^ 31) ⟨0, .deq 0, false, none⟩)
  have hfree := Fifo.free_run_drain (0 : Fin 1) ⟨0, none⟩ (2 ^ 31)
  have hlen : (g.free 0).length = 2 ^ 31 := (hrepresents.count 0).symm.trans hfree
  refine ⟨q, _, g.free 0, hrun, hrepresents.freeChain 0, hlen, fun hsize => ?_⟩
  have hlt := (hrepresents.size 0).mp (by rw [hsize, hlen]; rfl)
  omega

end ConcurrentQueues.Ex1
