import ConcurrentQueues.Store
import ConcurrentQueues.Reasoning.Chain

/-!
# Layout — what the nodes of a store are used for

The history of a queue numbers the linked nodes `0, 1, 2, …` in the order of their linking, the
initial sentinel being 0.  The main list is the interval `[hd, len)` of that numbering.  Numbers
are never reused although addresses are: a recycled node gets a new number when it is linked
again.  `Valid` ties a store to its history and says who owns each address.
-/

namespace ConcurrentQueues

open Reasoning

/-- The owner of an address: nobody yet, a number of the linked history, the free list of a
thread, or an operation in progress. -/
inductive Owner (n : Nat) where
  | raw
  | linked (i : Nat)
  | free (t : Fin n)
  | held (t : Fin n)
  deriving DecidableEq

/-- The history of a store.  `pend t` is the number of the node that `t` has unlinked and not yet
recycled, `hold t` the node `t` keeps to itself, `free t` the content of its free list. -/
structure Layout (n : Nat) where
  node : Nat → Addr
  val : Nat → Value
  len : Nat
  hd : Nat
  tl : Nat
  pend : Fin n → Option Nat
  hold : Fin n → Option Addr
  free : Fin n → List Addr
  owner : Addr → Owner n

namespace Layout

variable {n : Nat}

/-- Number `i` is in the main list, or unlinked and not yet recycled. -/
def Live (g : Layout n) (i : Nat) : Prop := i < g.len ∧ (g.hd ≤ i ∨ ∃ t, g.pend t = some i)

structure Valid (q : Store n) (g : Layout n) : Prop where
  head : q.head = some (g.node g.hd)
  tail : q.tail = some (g.node g.tl)
  hd_lt : g.hd < g.len
  tl_lt : g.tl < g.len
  pend_lt : ∀ t i, g.pend t = some i → i < g.hd
  pend_inj : ∀ t u i, g.pend t = some i → g.pend u = some i → t = u
  owner_node : ∀ i, g.Live i → g.owner (g.node i) = .linked i
  owner_linked : ∀ p i, g.owner p = .linked i → g.Live i ∧ g.node i = p
  owner_held : ∀ p t, g.owner p = .held t ↔ g.hold t = some p
  owner_free : ∀ p t, g.owner p = .free t ↔ p ∈ g.free t
  owner_raw : ∀ p, g.owner p = .raw ↔ q.brk ≤ p
  next : ∀ i, g.Live i →
    (q.heap (g.node i)).next = if i + 1 < g.len then some (g.node (i + 1)) else none
  data : ∀ i, g.Live i → (q.heap (g.node i)).data = g.val i
  chain : ∀ t, Chain (fun p => (q.heap p).next) (q.freeLists t).head (g.free t)

/-! ## Moves of the history -/

@[simps] def pop (g : Layout n) (t : Fin n) (p : Addr) : Layout n :=
  { g with
    free := Function.update g.free t (g.free t).tail
    hold := Function.update g.hold t (some p)
    owner := Function.update g.owner p (.held t) }

@[simps] def take (g : Layout n) (t : Fin n) (p : Addr) : Layout n :=
  { g with
    hold := Function.update g.hold t (some p)
    owner := Function.update g.owner p (.held t) }

@[simps] def link (g : Layout n) (t : Fin n) (p : Addr) (v : Value) : Layout n :=
  { g with
    node := Function.update g.node g.len p
    val := Function.update g.val g.len v
    len := g.len + 1
    hold := Function.update g.hold t none
    owner := Function.update g.owner p (.linked g.len) }

@[simps] def moveTail (g : Layout n) (i : Nat) : Layout n := { g with tl := i }

@[simps] def moveHead (g : Layout n) (t : Fin n) : Layout n :=
  { g with hd := g.hd + 1, pend := Function.update g.pend t (some g.hd) }

@[simps] def detach (g : Layout n) (t : Fin n) (p : Addr) : Layout n :=
  { g with
    pend := Function.update g.pend t none
    hold := Function.update g.hold t (some p)
    owner := Function.update g.owner p (.held t) }

@[simps] def push (g : Layout n) (t : Fin n) (p : Addr) : Layout n :=
  { g with
    free := Function.update g.free t (p :: g.free t)
    hold := Function.update g.hold t none
    owner := Function.update g.owner p (.free t) }

@[simps] def init (n : Nat) : Layout n where
  node := fun _ => 0
  val := fun _ => 0
  len := 1
  hd := 0
  tl := 0
  pend := fun _ => none
  hold := fun _ => none
  free := fun _ => []
  owner := fun p => if p = 0 then .linked 0 else .raw

theorem valid_init : Valid (Store.init n) (init n) where
  head := rfl
  tail := rfl
  hd_lt := by simp
  tl_lt := by simp
  pend_lt := by simp
  pend_inj := by simp
  owner_node := by
    intro i hi
    obtain rfl : i = 0 := by simpa using hi.1
    rfl
  owner_linked := by
    intro p i h
    by_cases hp : p = 0
    · subst hp
      obtain rfl : 0 = i := by simpa using h
      exact ⟨⟨by simp, .inl (by simp)⟩, rfl⟩
    · simp [hp] at h
  owner_held := by
    intro p t
    by_cases hp : p = 0 <;> simp [hp]
  owner_free := by
    intro p t
    by_cases hp : p = 0 <;> simp [hp]
  owner_raw := by
    intro p
    by_cases hp : p = 0
    · simp [hp]
    · simpa [hp] using Nat.one_le_iff_ne_zero.mpr hp
  next := by
    intro i hi
    obtain rfl : i = 0 := by simpa using hi.1
    rfl
  data := by simp
  chain := by simp

/-! ## The abstract queue -/

/-- The content of the abstract queue: the values of the numbers behind the sentinel. -/
def items (g : Layout n) : List Value :=
  (List.range' (g.hd + 1) (g.len - (g.hd + 1))).map g.val

theorem items_link (g : Layout n) (hlt : g.hd < g.len) (t : Fin n) (p : Addr) (v : Value) :
    (g.link t p v).items = g.items ++ [v] := by
  obtain ⟨k, hk⟩ : ∃ k, g.len = g.hd + 1 + k := ⟨g.len - (g.hd + 1), by omega⟩
  have hval : ∀ i ∈ List.range' (g.hd + 1) k, (g.link t p v).val i = g.val i := by
    intro i hi
    have hilt := (List.mem_range'_1.mp hi).2
    exact Function.update_of_ne (by omega) _ _
  simp only [items, link_hd, link_len, show g.len - (g.hd + 1) = k by omega,
    show g.len + 1 - (g.hd + 1) = k + 1 by omega]
  rw [List.range'_concat, List.map_append, List.map_congr_left hval]
  simp [hk]

theorem items_moveHead (g : Layout n) (hlt : g.hd + 1 < g.len) (t : Fin n) :
    g.items = g.val (g.hd + 1) :: (g.moveHead t).items := by
  obtain ⟨k, hk⟩ : ∃ k, g.len = g.hd + 1 + (k + 1) := ⟨g.len - (g.hd + 2), by omega⟩
  simp only [items, moveHead_hd, moveHead_len, show g.len - (g.hd + 1) = k + 1 by omega,
    show g.len - (g.hd + 1 + 1) = k by omega, List.range'_succ, List.map_cons]
  rfl

theorem items_eq_nil_iff (g : Layout n) : g.items = [] ↔ g.len ≤ g.hd + 1 := by
  rw [items, List.map_eq_nil_iff, List.range'_eq_nil_iff]
  omega

namespace Valid

variable {q : Store n} {g : Layout n} {t : Fin n} {p : Addr} {i j : Nat}

theorem node_inj (h : Valid q g) (hi : g.Live i) (hj : g.Live j) (he : g.node i = g.node j) :
    i = j := by
  have hown := h.owner_node j hj
  rw [← he, h.owner_node i hi] at hown
  exact Owner.linked.inj hown

theorem live_hd (h : Valid q g) : g.Live g.hd := ⟨h.hd_lt, .inl le_rfl⟩

theorem live_of_le (hd : g.hd ≤ i) (hi : i < g.len) : g.Live i := ⟨hi, .inl hd⟩

theorem live_pend (h : Valid q g) (hp : g.pend t = some i) : g.Live i :=
  ⟨(h.pend_lt t i hp).trans h.hd_lt, .inr ⟨t, hp⟩⟩

theorem live_last (h : Valid q g) : g.Live (g.len - 1) := by
  have := h.hd_lt
  exact ⟨by omega, .inl (by omega)⟩

theorem node_ne_held (h : Valid q g) (hi : g.Live i) (hp : g.hold t = some p) :
    g.node i ≠ p := by
  intro he
  have hown := h.owner_node i hi
  rw [he, (h.owner_held p t).mpr hp] at hown
  cases hown

theorem node_ne_free (h : Valid q g) (hi : g.Live i) (hp : p ∈ g.free t) : g.node i ≠ p := by
  intro he
  have hown := h.owner_node i hi
  rw [he, (h.owner_free p t).mpr hp] at hown
  cases hown

theorem held_ne_free (h : Valid q g) {u : Fin n} {a : Addr} (hp : g.hold t = some p)
    (ha : a ∈ g.free u) : a ≠ p := by
  rintro rfl
  have hown := (h.owner_held a t).mpr hp
  rw [(h.owner_free a u).mpr ha] at hown
  cases hown

theorem node_lt_brk (h : Valid q g) (hi : g.Live i) : g.node i < q.brk := by
  by_contra hge
  have hown := (h.owner_raw _).mpr (Nat.not_lt.mp hge)
  rw [h.owner_node i hi] at hown
  cases hown

theorem free_lt_brk (h : Valid q g) (hp : p ∈ g.free t) : p < q.brk := by
  by_contra hge
  have hown := (h.owner_raw p).mpr (Nat.not_lt.mp hge)
  rw [(h.owner_free p t).mpr hp] at hown
  cases hown

theorem held_lt_brk (h : Valid q g) (hp : g.hold t = some p) : p < q.brk := by
  by_contra hge
  have hown := (h.owner_raw p).mpr (Nat.not_lt.mp hge)
  rw [(h.owner_held p t).mpr hp] at hown
  cases hown

/-- The last node of the history is the one whose `next` is `NULL`. -/
theorem next_eq_none_iff (h : Valid q g) (hi : g.Live i) :
    (q.heap (g.node i)).next = none ↔ i + 1 = g.len := by
  rw [h.next i hi]
  have := hi.1
  split <;> simp <;> omega

theorem next_eq_some (h : Valid q g) (hi : g.Live i) (hn : (q.heap (g.node i)).next = some p) :
    i + 1 < g.len ∧ p = g.node (i + 1) := by
  rw [h.next i hi] at hn
  split at hn
  next hlt => exact ⟨hlt, (Option.some.inj hn).symm⟩
  next => cases hn

/-- The main list is the interval `[hd, len)` of the history. -/
theorem main_chain (h : Valid q g) :
    Chain (fun p => (q.heap p).next) q.head ((List.range' g.hd (g.len - g.hd)).map g.node) := by
  have hlt := h.hd_lt
  obtain ⟨k, hk⟩ : ∃ k, g.len = g.hd + (k + 1) := ⟨g.len - g.hd - 1, by omega⟩
  rw [h.head, show g.len - g.hd = k + 1 by omega]
  refine chain_of_index fun j hj hjlt => ?_
  have hnext := h.next j ⟨by omega, .inl hj⟩
  rw [← hk]
  exact hnext

/-- The main list in order, with the node of `tail`. -/
theorem exists_main (h : Valid q g) (hle : g.hd ≤ g.tl) :
    ∃ ps, Chain q.next q.head ps ∧ ∃ p ∈ ps, q.tail = some p ∧
      (g.tl + 1 = g.len → ps.getLast? = some p) ∧
      (g.tl + 2 = g.len → ps.dropLast.getLast? = some p) := by
  have hlt := h.tl_lt
  refine ⟨_, h.main_chain, g.node g.tl, ?_, h.tail, fun hlast => ?_, fun hlast => ?_⟩
  · exact List.mem_map_of_mem (List.mem_range'_1.mpr ⟨hle, by omega⟩)
  · obtain ⟨k, hk⟩ : ∃ k, g.len - g.hd = k + 1 := ⟨g.len - g.hd - 1, by omega⟩
    rw [hk, List.range'_concat, List.map_append, List.map_singleton, List.getLast?_concat]
    congr 2
    omega
  · obtain ⟨k, hk⟩ : ∃ k, g.len - g.hd = k + 1 + 1 := ⟨g.len - g.hd - 2, by omega⟩
    rw [hk, List.range'_concat, List.range'_concat, List.map_append, List.map_singleton,
      List.dropLast_concat, List.map_append, List.map_singleton, List.getLast?_concat]
    congr 2
    omega

theorem mem_main_iff (h : Valid q g) :
    (∃ ps, Chain q.next q.head ps ∧ p ∈ ps) ↔ ∃ i, g.owner p = .linked i ∧ g.hd ≤ i := by
  constructor
  · rintro ⟨ps, hps, hp⟩
    rw [hps.unique h.main_chain] at hp
    obtain ⟨i, hi, rfl⟩ := List.mem_map.mp hp
    have hi' := List.mem_range'_1.mp hi
    exact ⟨i, h.owner_node i (live_of_le hi'.1 (by omega)), hi'.1⟩
  · rintro ⟨i, howner, hle⟩
    obtain ⟨hlive, rfl⟩ := h.owner_linked p i howner
    have hlt := hlive.1
    exact ⟨_, h.main_chain, List.mem_map_of_mem (List.mem_range'_1.mpr ⟨hle, by omega⟩)⟩

theorem mem_free_iff (h : Valid q g) :
    (∃ ps, Chain q.next (q.freeLists t).head ps ∧ p ∈ ps) ↔ g.owner p = .free t := by
  constructor
  · rintro ⟨ps, hps, hp⟩
    rw [hps.unique (h.chain t)] at hp
    exact (h.owner_free p t).mpr hp
  · exact fun howner => ⟨_, h.chain t, (h.owner_free p t).mp howner⟩

/-- The node of number `i` is owned by that number as long as `t` has it unlinked. -/
theorem pend_owner (h : Valid q g) (hp : g.pend t = some i) :
    (∃ j, g.owner p = .linked j ∧ g.pend t = some j) ↔ g.node i = p := by
  constructor
  · rintro ⟨j, howner, hj⟩
    obtain rfl : i = j := Option.some.inj (hp.symm.trans hj)
    exact (h.owner_linked p i howner).2
  · rintro rfl
    exact ⟨i, h.owner_node i (h.live_pend hp), hp⟩

/-- The content of the abstract queue is the data of the main list behind its sentinel. -/
theorem items_eq (h : Valid q g) :
    g.items = ((List.range' g.hd (g.len - g.hd)).map g.node).tail.map fun p => (q.heap p).data := by
  have hlt := h.hd_lt
  obtain ⟨k, hk⟩ : ∃ k, g.len = g.hd + (k + 1) := ⟨g.len - (g.hd + 1), by omega⟩
  rw [items, show g.len - g.hd = k + 1 by omega, show g.len - (g.hd + 1) = k by omega,
    List.range'_succ, List.map_cons, List.tail_cons, List.map_map]
  refine List.map_congr_left fun i hi => ?_
  have hi' := List.mem_range'_1.mp hi
  exact (h.data i (live_of_le (by omega) (by omega))).symm

/-! ## Each move keeps the layout valid -/

/-- The fields of the node an operation keeps to itself may be written freely. -/
theorem writeHeld (h : Valid q g) (hp : g.hold t = some p) (x : Node) :
    Valid { q with heap := Function.update q.heap p x } g where
  head := h.head
  tail := h.tail
  hd_lt := h.hd_lt
  tl_lt := h.tl_lt
  pend_lt := h.pend_lt
  pend_inj := h.pend_inj
  owner_node := h.owner_node
  owner_linked := h.owner_linked
  owner_held := h.owner_held
  owner_free := h.owner_free
  owner_raw := h.owner_raw
  next := by
    intro i hi
    simpa [Function.update_of_ne (h.node_ne_held hi hp)] using h.next i hi
  data := by
    intro i hi
    simpa [Function.update_of_ne (h.node_ne_held hi hp)] using h.data i hi
  chain := by
    intro u
    refine (h.chain u).congr fun a ha => ?_
    simp [Function.update_of_ne (h.held_ne_free hp ha)]

theorem setFreeSize (h : Valid q g) (k : Int32) : Valid (q.setFreeSize t k) g where
  head := h.head
  tail := h.tail
  hd_lt := h.hd_lt
  tl_lt := h.tl_lt
  pend_lt := h.pend_lt
  pend_inj := h.pend_inj
  owner_node := h.owner_node
  owner_linked := h.owner_linked
  owner_held := h.owner_held
  owner_free := h.owner_free
  owner_raw := h.owner_raw
  next := h.next
  data := h.data
  chain := by
    intro u
    by_cases hu : u = t
    · subst hu; simpa using h.chain u
    · simpa [Function.update_of_ne hu] using h.chain u

/-- Taking the first node off a free list: `Q->free_lists[t].head = next`. -/
theorem pop (h : Valid q g) {rest : List Addr} (hfree : g.free t = p :: rest)
    (hold : g.hold t = none) :
    Valid (q.setFreeHead t (q.heap p).next) (g.pop t p) where
  head := h.head
  tail := h.tail
  hd_lt := h.hd_lt
  tl_lt := h.tl_lt
  pend_lt := h.pend_lt
  pend_inj := h.pend_inj
  owner_node := by
    intro i hi
    have hne : g.node i ≠ p := h.node_ne_free hi (t := t) (by simp [hfree])
    simpa [Function.update_of_ne hne] using h.owner_node i hi
  owner_linked := by
    intro a i ha
    by_cases hap : a = p
    · subst hap; simp at ha
    · exact h.owner_linked a i (by simpa [Function.update_of_ne hap] using ha)
  owner_held := by
    intro a u
    -- only the owner of `p` changes, from the free list of `t` to `t`
    have hown := (h.owner_free p t).mpr (by simp [hfree])
    have := h.owner_held a u
    have := h.owner_held p u
    simp only [pop_owner, pop_hold, Function.update_apply]
    grind
  owner_free := by
    intro a u
    -- without duplicates `p` is gone from the tail of its free list
    have hnd := (h.chain t).nodup
    have hown := (h.owner_free p t).mpr (by simp [hfree])
    have := h.owner_free a u
    have := h.owner_free p u
    simp only [pop_owner, pop_free, Function.update_apply]
    grind
  owner_raw := by
    intro a
    have := h.owner_raw a
    have := (h.owner_free p t).mpr (by simp [hfree])
    simp only [pop_owner, Store.setFreeHead_brk, Function.update_apply]
    grind
  next := h.next
  data := h.data
  chain := by
    intro u
    by_cases hu : u = t
    · subst hu
      have hc := h.chain u
      rw [hfree] at hc
      simpa [hfree] using hc.2
    · simpa [Function.update_of_ne hu] using h.chain u

/-- A node fresh from `malloc`. -/
theorem malloc (h : Valid q g) (raw : Node) (hold : g.hold t = none) :
    Valid (q.malloc raw) (g.take t q.brk) where
  head := h.head
  tail := h.tail
  hd_lt := h.hd_lt
  tl_lt := h.tl_lt
  pend_lt := h.pend_lt
  pend_inj := h.pend_inj
  owner_node := by
    intro i hi
    have hne : g.node i ≠ q.brk := Nat.ne_of_lt (h.node_lt_brk hi)
    simpa [Function.update_of_ne hne] using h.owner_node i hi
  owner_linked := by
    intro a i ha
    by_cases hap : a = q.brk
    · subst hap; simp at ha
    · exact h.owner_linked a i (by simpa [Function.update_of_ne hap] using ha)
  owner_held := by
    intro a u
    -- nobody owned the new address before
    have hown := (h.owner_raw q.brk).mpr le_rfl
    have := h.owner_held a u
    have := h.owner_held q.brk u
    simp only [take_owner, take_hold, Function.update_apply]
    grind
  owner_free := by
    intro a u
    have hown := (h.owner_raw q.brk).mpr le_rfl
    have := h.owner_free a u
    have := h.owner_free q.brk u
    simp only [take_owner, take_free, Function.update_apply]
    grind
  owner_raw := by
    intro a
    have := h.owner_raw a
    simp only [take_owner, Store.malloc_brk, Function.update_apply]
    grind
  next := by
    intro i hi
    have hne : g.node i ≠ q.brk := Nat.ne_of_lt (h.node_lt_brk hi)
    simpa [Function.update_of_ne hne] using h.next i hi
  data := by
    intro i hi
    have hne : g.node i ≠ q.brk := Nat.ne_of_lt (h.node_lt_brk hi)
    simpa [Function.update_of_ne hne] using h.data i hi
  chain := by
    intro u
    refine (h.chain u).congr fun a ha => ?_
    -- the block is new, so it is on no list
    have hne : a ≠ q.brk := Nat.ne_of_lt (h.free_lt_brk ha)
    simp [Function.update_of_ne hne]

/-- Linking a held node with `next = NULL` behind the last node of the history. -/
theorem link (h : Valid q g) (hp : g.hold t = some p) (hnull : (q.heap p).next = none) :
    Valid (q.setNext (g.node (g.len - 1)) (some p)) (g.link t p (q.heap p).data) := by
  have hlen := h.hd_lt
  have hlast := h.live_last
  have hpl : p ≠ g.node (g.len - 1) := (h.node_ne_held hlast hp).symm
  -- the live numbers are the old ones and `len`
  have hlive : ∀ i, (g.link t p (q.heap p).data).Live i ↔ g.Live i ∨ i = g.len := by
    intro i
    simp only [Live, link_len, link_hd, link_pend]
    constructor
    · rintro ⟨hi, ho⟩
      by_cases he : i = g.len
      · exact .inr he
      · exact .inl ⟨by omega, ho⟩
    · rintro (⟨hi, ho⟩ | rfl)
      · exact ⟨by omega, ho⟩
      · exact ⟨by omega, .inl (by omega)⟩
  have hnode : ∀ i, g.Live i → Function.update g.node g.len p i = g.node i :=
    fun i hi => Function.update_of_ne (Nat.ne_of_lt hi.1) _ _
  have hval : ∀ i, g.Live i → Function.update g.val g.len (q.heap p).data i = g.val i :=
    fun i hi => Function.update_of_ne (Nat.ne_of_lt hi.1) _ _
  exact
  { head := by simpa [Function.update_of_ne (Nat.ne_of_lt h.hd_lt)] using h.head
    tail := by simpa [Function.update_of_ne (Nat.ne_of_lt h.tl_lt)] using h.tail
    hd_lt := by simp only [link_hd, link_len]; omega
    tl_lt := by have := h.tl_lt; simp only [link_tl, link_len]; omega
    pend_lt := h.pend_lt
    pend_inj := h.pend_inj
    owner_node := by
      intro i hi
      rcases (hlive i).mp hi with hi | rfl
      · have hne : g.node i ≠ p := h.node_ne_held hi hp
        simpa [hnode i hi, Function.update_of_ne hne] using h.owner_node i hi
      · simp
    owner_linked := by
      intro a i ha
      by_cases hap : a = p
      · subst hap
        obtain rfl : g.len = i := by simpa using ha
        exact ⟨(hlive _).mpr (.inr rfl), by simp⟩
      · obtain ⟨hi, rfl⟩ := h.owner_linked a i (by simpa [Function.update_of_ne hap] using ha)
        exact ⟨(hlive i).mpr (.inl hi), by simp [hnode i hi]⟩
    owner_held := by
      intro a u
      have hown := (h.owner_held p t).mpr hp
      have := h.owner_held a u
      have := h.owner_held p u
      simp only [link_owner, link_hold, Function.update_apply]
      grind
    owner_free := by
      intro a u
      have hown := (h.owner_held p t).mpr hp
      have := h.owner_free a u
      have := h.owner_free p u
      simp only [link_owner, link_free, Function.update_apply]
      grind
    owner_raw := by
      intro a
      have hown := (h.owner_held p t).mpr hp
      have := h.owner_raw a
      simp only [link_owner, Store.setNext_brk, Function.update_apply]
      grind
    next := by
      intro i hi
      rcases (hlive i).mp hi with hi | rfl
      · have hold := h.next i hi
        -- the store goes to the last node; the others keep their `next`
        by_cases he : i = g.len - 1
        · subst he
          have hs : g.len - 1 + 1 = g.len := by omega
          simp [hnode _ hlast, hs]
        · have hne : g.node i ≠ g.node (g.len - 1) := fun hc => he (h.node_inj hi hlast hc)
          have hi1 : i + 1 < g.len := by have := hi.1; omega
          have hi2 : Function.update g.node g.len p (i + 1) = g.node (i + 1) :=
            Function.update_of_ne (Nat.ne_of_lt hi1) _ _
          rw [if_pos hi1] at hold
          have hi3 : i + 1 < g.len + 1 := by omega
          simp [hnode i hi, hi2, hi3, Function.update_of_ne hne, hold]
      -- the new last node still has the `NULL` its owner wrote
      · simp [Function.update_of_ne hpl, hnull]
    data := by
      intro i hi
      rcases (hlive i).mp hi with hi | rfl
      · have hold := h.data i hi
        by_cases he : g.node i = g.node (g.len - 1)
        · rw [he] at hold
          simp [hnode i hi, hval i hi, he, hold]
        · simp [hnode i hi, hval i hi, Function.update_of_ne he, hold]
      · simp [Function.update_of_ne hpl]
    chain := by
      intro u
      refine (h.chain u).congr fun a ha => ?_
      have hne : a ≠ g.node (g.len - 1) := (h.node_ne_free hlast ha).symm
      simp [Function.update_of_ne hne] }

theorem moveTail (h : Valid q g) (hi : i < g.len) :
    Valid (q.setTail (some (g.node i))) (g.moveTail i) :=
  { h with
    tail := rfl
    tl_lt := hi }

/-- Unlinking the sentinel: `Q->head = next`. -/
theorem moveHead (h : Valid q g) (hlt : g.hd + 1 < g.len) (hp : g.pend t = none) :
    Valid (q.setHead (some (g.node (g.hd + 1)))) (g.moveHead t) := by
  -- `t` owns the number `hd` now, and the other threads what they owned
  have hpend : ∀ u i, Function.update g.pend t (some g.hd) u = some i ↔
      (u = t ∧ i = g.hd) ∨ g.pend u = some i := by
    intro u i
    by_cases hu : u = t
    · subst hu; simp [hp, eq_comm]
    · simp [hu]
  -- the old sentinel leaves the main list and stays live as the unlinked node of `t`
  have hlive : ∀ i, (g.moveHead t).Live i ↔ g.Live i := by
    intro i
    simp only [Live, moveHead_len, moveHead_hd, moveHead_pend, hpend]
    refine and_congr_right fun _ => ⟨?_, ?_⟩
    · rintro (hi | ⟨u, ⟨_, rfl⟩ | hu⟩)
      · exact .inl (by omega)
      · exact .inl le_rfl
      · exact .inr ⟨u, hu⟩
    · rintro (hi | ⟨u, hu⟩)
      · rcases Nat.eq_or_lt_of_le hi with he | hgt
        · exact .inr ⟨t, .inl ⟨rfl, he.symm⟩⟩
        · exact .inl hgt
      · exact .inr ⟨u, .inr hu⟩
  exact
  { head := rfl
    tail := h.tail
    hd_lt := hlt
    tl_lt := h.tl_lt
    pend_lt := by
      intro u i hu
      rcases (hpend u i).mp hu with ⟨_, rfl⟩ | hu
      · simp
      · have := h.pend_lt u i hu
        simp only [moveHead_hd]
        omega
    pend_inj := by
      intro u w i hu hw
      -- what another thread has unlinked is behind `hd`, so it is not the old sentinel
      rcases (hpend u i).mp hu with ⟨hut, hi⟩ | hu' <;>
        rcases (hpend w i).mp hw with ⟨hwt, hi'⟩ | hw'
      · rw [hut, hwt]
      · have := h.pend_lt w i hw'; omega
      · have := h.pend_lt u i hu'; omega
      · exact h.pend_inj u w i hu' hw'
    owner_node := fun i hi => h.owner_node i ((hlive i).mp hi)
    owner_linked := fun a i ha =>
      ⟨(hlive i).mpr (h.owner_linked a i ha).1, (h.owner_linked a i ha).2⟩
    owner_held := h.owner_held
    owner_free := h.owner_free
    owner_raw := h.owner_raw
    next := fun i hi => h.next i ((hlive i).mp hi)
    data := fun i hi => h.data i ((hlive i).mp hi)
    chain := h.chain }

/-- The first store of a recycle takes the unlinked node out of the history. -/
theorem detach (h : Valid q g) (hp : g.pend t = some i) (hold : g.hold t = none) (x : Ptr) :
    Valid (q.setNext (g.node i) x) (g.detach t (g.node i)) := by
  have hli := h.live_pend hp
  have hlt := h.pend_lt t i hp
  have hpend : ∀ u j, Function.update g.pend t none u = some j ↔ g.pend u = some j ∧ j ≠ i := by
    intro u j
    by_cases hu : u = t
    · subst hu; simp [hp, eq_comm]
    · have := h.pend_inj t u i hp
      rw [Function.update_of_ne hu]
      exact ⟨fun hj => ⟨hj, fun he => hu (this (he ▸ hj)).symm⟩, And.left⟩
  -- only the number of the detached node dies
  have hlive : ∀ j, (g.detach t (g.node i)).Live j ↔ g.Live j ∧ j ≠ i := by
    intro j
    simp only [Live, detach_len, detach_hd, detach_pend, hpend]
    constructor
    · rintro ⟨hj, hj' | ⟨u, hu, hne⟩⟩
      · exact ⟨⟨hj, .inl hj'⟩, by omega⟩
      · exact ⟨⟨hj, .inr ⟨u, hu⟩⟩, hne⟩
    · rintro ⟨⟨hj, hj' | ⟨u, hu⟩⟩, hne⟩
      · exact ⟨hj, .inl hj'⟩
      · exact ⟨hj, .inr ⟨u, hu, hne⟩⟩
  -- so the store into its node touches no live one
  have hne : ∀ j, g.Live j → j ≠ i → g.node j ≠ g.node i := fun j hj hji he =>
    hji (h.node_inj hj hli he)
  exact
  { head := h.head
    tail := h.tail
    hd_lt := h.hd_lt
    tl_lt := h.tl_lt
    pend_lt := fun u j hu => h.pend_lt u j ((hpend u j).mp hu).1
    pend_inj := fun u w j hu hw => h.pend_inj u w j ((hpend u j).mp hu).1 ((hpend w j).mp hw).1
    owner_node := by
      intro j hj
      obtain ⟨hj, hji⟩ := (hlive j).mp hj
      simpa [Function.update_of_ne (hne j hj hji)] using h.owner_node j hj
    owner_linked := by
      intro a j ha
      by_cases hap : a = g.node i
      · subst hap; simp at ha
      · obtain ⟨hj, rfl⟩ := h.owner_linked a j (by simpa [Function.update_of_ne hap] using ha)
        exact ⟨(hlive j).mpr ⟨hj, fun he => hap (by rw [he])⟩, rfl⟩
    owner_held := by
      intro a u
      have hown := h.owner_node i hli
      have := h.owner_held a u
      have := h.owner_held (g.node i) u
      simp only [detach_owner, detach_hold, Function.update_apply]
      grind
    owner_free := by
      intro a u
      have hown := h.owner_node i hli
      have := h.owner_free a u
      have := h.owner_free (g.node i) u
      simp only [detach_owner, detach_free, Function.update_apply]
      grind
    owner_raw := by
      intro a
      have hown := h.owner_node i hli
      have := h.owner_raw a
      simp only [detach_owner, Store.setNext_brk, Function.update_apply]
      grind
    next := by
      intro j hj
      obtain ⟨hj, hji⟩ := (hlive j).mp hj
      simpa [Function.update_of_ne (hne j hj hji)] using h.next j hj
    data := by
      intro j hj
      obtain ⟨hj, hji⟩ := (hlive j).mp hj
      simpa [Function.update_of_ne (hne j hj hji)] using h.data j hj
    chain := by
      intro u
      refine (h.chain u).congr fun a ha => ?_
      have hna : a ≠ g.node i := (h.node_ne_free hli ha).symm
      simp [Function.update_of_ne hna] }

/-- The second store of a recycle: `Q->free_lists[t].head = node`. -/
theorem push (h : Valid q g) (hp : g.hold t = some p)
    (hnext : (q.heap p).next = (q.freeLists t).head) :
    Valid (q.setFreeHead t (some p)) (g.push t p) where
  head := h.head
  tail := h.tail
  hd_lt := h.hd_lt
  tl_lt := h.tl_lt
  pend_lt := h.pend_lt
  pend_inj := h.pend_inj
  owner_node := by
    intro i hi
    have hne : g.node i ≠ p := h.node_ne_held hi hp
    simpa [Function.update_of_ne hne] using h.owner_node i hi
  owner_linked := by
    intro a i ha
    by_cases hap : a = p
    · subst hap; simp at ha
    · exact h.owner_linked a i (by simpa [Function.update_of_ne hap] using ha)
  owner_held := by
    intro a u
    have hown := (h.owner_held p t).mpr hp
    have := h.owner_held a u
    have := h.owner_held p u
    simp only [push_owner, push_hold, Function.update_apply]
    grind
  owner_free := by
    intro a u
    have hown := (h.owner_held p t).mpr hp
    have := h.owner_free a u
    have := h.owner_free p u
    simp only [push_owner, push_free, Function.update_apply]
    grind
  owner_raw := by
    intro a
    have hown := (h.owner_held p t).mpr hp
    have := h.owner_raw a
    simp only [push_owner, Store.setFreeHead_brk, Function.update_apply]
    grind
  next := h.next
  data := h.data
  chain := by
    intro u
    by_cases hu : u = t
    · subst hu
      simpa [hnext] using h.chain u
    · simpa [Function.update_of_ne hu] using h.chain u

end Valid

/-! ## What a step of another thread leaves alone -/

/-- The part of a store and its history that the steps of other threads keep for `t`: what `t`
owns stays as it is, and the history only grows. -/
structure Frame (t : Fin n) (q : Store n) (g : Layout n) (q' : Store n) (g' : Layout n) :
    Prop where
  hold : g'.hold t = g.hold t
  pend : g'.pend t = g.pend t
  free : g'.free t = g.free t
  freeList : q'.freeLists t = q.freeLists t
  len_le : g.len ≤ g'.len
  hd_le : g.hd ≤ g'.hd
  node : ∀ i, i < g.len → g'.node i = g.node i
  val : ∀ i, i < g.len → g'.val i = g.val i
  heap_hold : ∀ p, g.hold t = some p → q'.heap p = q.heap p
  heap_free : ∀ p ∈ g.free t, q'.heap p = q.heap p

namespace Frame

variable {q : Store n} {g : Layout n} {t u : Fin n} {p : Addr} {i : Nat}

theorem refl (t : Fin n) (q : Store n) (g : Layout n) : Frame t q g q g where
  hold := rfl
  pend := rfl
  free := rfl
  freeList := rfl
  len_le := le_rfl
  hd_le := le_rfl
  node := fun _ _ => rfl
  val := fun _ _ => rfl
  heap_hold := fun _ _ => rfl
  heap_free := fun _ _ => rfl

theorem writeHeld (h : Valid q g) (htu : t ≠ u) (hp : g.hold u = some p) (x : Node) :
    Frame t q g { q with heap := Function.update q.heap p x } g :=
  { refl t q g with
    heap_hold := by
      intro a ha
      have hne : a ≠ p := by
        rintro rfl
        have hown := (h.owner_held a t).mpr ha
        rw [(h.owner_held a u).mpr hp] at hown
        exact htu (Owner.held.inj hown).symm
      exact Function.update_of_ne hne _ _
    heap_free := fun a ha => Function.update_of_ne (h.held_ne_free hp ha) _ _ }

theorem setFreeSize (htu : t ≠ u) (k : Int32) : Frame t q g (q.setFreeSize u k) g :=
  { refl t q g with freeList := Function.update_of_ne htu _ _ }

theorem pop (htu : t ≠ u) (x : Ptr) : Frame t q g (q.setFreeHead u x) (g.pop u p) :=
  { refl t q g with
    hold := Function.update_of_ne htu _ _
    free := Function.update_of_ne htu _ _
    freeList := Function.update_of_ne htu _ _ }

theorem malloc (h : Valid q g) (htu : t ≠ u) (raw : Node) :
    Frame t q g (q.malloc raw) (g.take u q.brk) :=
  { refl t q g with
    hold := Function.update_of_ne htu _ _
    heap_hold := fun _ ha => Function.update_of_ne (Nat.ne_of_lt (h.held_lt_brk ha)) _ _
    heap_free := fun _ ha => Function.update_of_ne (Nat.ne_of_lt (h.free_lt_brk ha)) _ _ }

theorem link (h : Valid q g) (htu : t ≠ u) (x : Ptr) (v : Value) :
    Frame t q g (q.setNext (g.node (g.len - 1)) x) (g.link u p v) :=
  { refl t q g with
    hold := Function.update_of_ne htu _ _
    len_le := Nat.le_succ _
    node := fun _ hi => Function.update_of_ne (Nat.ne_of_lt hi) _ _
    val := fun _ hi => Function.update_of_ne (Nat.ne_of_lt hi) _ _
    heap_hold := fun _ ha => Function.update_of_ne (h.node_ne_held h.live_last ha).symm _ _
    heap_free := fun _ ha => Function.update_of_ne (h.node_ne_free h.live_last ha).symm _ _ }

theorem moveTail (x : Ptr) : Frame t q g (q.setTail x) (g.moveTail i) := { refl t q g with }

theorem moveHead (htu : t ≠ u) (x : Ptr) : Frame t q g (q.setHead x) (g.moveHead u) :=
  { refl t q g with
    pend := Function.update_of_ne htu _ _
    hd_le := Nat.le_succ _ }

theorem detach (h : Valid q g) (htu : t ≠ u) (hi : g.Live i) (x : Ptr) :
    Frame t q g (q.setNext (g.node i) x) (g.detach u (g.node i)) :=
  { refl t q g with
    hold := Function.update_of_ne htu _ _
    pend := Function.update_of_ne htu _ _
    heap_hold := fun _ ha => Function.update_of_ne (h.node_ne_held hi ha).symm _ _
    heap_free := fun _ ha => Function.update_of_ne (h.node_ne_free hi ha).symm _ _ }

theorem push (htu : t ≠ u) (x : Ptr) : Frame t q g (q.setFreeHead u x) (g.push u p) :=
  { refl t q g with
    hold := Function.update_of_ne htu _ _
    free := Function.update_of_ne htu _ _
    freeList := Function.update_of_ne htu _ _ }

end Frame

/-- The history only grows: numbers are assigned once, and `head` and `tail` move forward. -/
structure Grows (g g' : Layout n) : Prop where
  len_le : g.len ≤ g'.len
  hd_le : g.hd ≤ g'.hd
  tl_le : g.tl ≤ g'.tl
  node : ∀ i, i < g.len → g'.node i = g.node i

theorem Grows.refl (g : Layout n) : Grows g g := ⟨le_rfl, le_rfl, le_rfl, fun _ _ => rfl⟩

theorem Grows.trans {g g' g'' : Layout n} (h : Grows g g') (h' : Grows g' g'') : Grows g g'' where
  len_le := h.len_le.trans h'.len_le
  hd_le := h.hd_le.trans h'.hd_le
  tl_le := h.tl_le.trans h'.tl_le
  node := fun i hi => (h'.node i (hi.trans_le h.len_le)).trans (h.node i hi)

theorem Grows.link (g : Layout n) (t : Fin n) (p : Addr) (v : Value) : Grows g (g.link t p v) where
  len_le := Nat.le_succ _
  hd_le := le_rfl
  tl_le := le_rfl
  node := fun _ hi => Function.update_of_ne (Nat.ne_of_lt hi) _ _

end Layout

end ConcurrentQueues
