import ConcurrentQueues.Nodes

/-!
# Accounts — the free list of a thread as a stock

Only the calls of a thread take nodes from its free list and put nodes there, so what the thread has
obtained from `malloc` and what lies on its free list depend on the results of its own calls alone.
-/

namespace ConcurrentQueues

open Reasoning

variable {n : Nat} {t u : Fin n} {k k' : Nodes n} {st st' : Stage} {mk : Option Mark}
  {mem : Bool} {ms : List (Fin n × Mark)}

/-- What a call with this result does to the stock of its thread. -/
def dir : Res Value → Dir
  | .enq code => if code = 1 then .up else .stay
  | .deq code _ => if code = 1 then .down else .stay

/-- The walk of a thread: one step for each call that has returned. -/
def walk (rs : List (Res Value)) : List Dir := rs.map dir

/-- The calls of `enq` that returned 1. -/
def enqueues (rs : List (Res Value)) : Nat := rs.countP (· == .enq 1)

/-- The calls of `deq` that returned 1. -/
def dequeues (rs : List (Res Value)) : Nat :=
  rs.countP fun
    | .deq code _ => code == 1
    | .enq _ => false

section Snoc

variable (rs : List (Res Value)) (code : Int) (out : Value)

@[simp] theorem enqueues_snoc_enq :
    enqueues (rs ++ [.enq code]) = enqueues rs + if code = 1 then 1 else 0 := by
  simp [enqueues, List.countP_append, List.countP_singleton]

@[simp] theorem enqueues_snoc_deq : enqueues (rs ++ [.deq code out]) = enqueues rs := by
  simp [enqueues]

@[simp] theorem dequeues_snoc_enq : dequeues (rs ++ [.enq code]) = dequeues rs := by
  simp [dequeues]

@[simp] theorem dequeues_snoc_deq :
    dequeues (rs ++ [.deq code out]) = dequeues rs + if code = 1 then 1 else 0 := by
  simp [dequeues, List.countP_append, List.countP_singleton]

end Snoc

/-- Successful calls of `enq` without those of `deq`. -/
def net (rs : List (Res Value)) : Int := enqueues rs - dequeues rs

@[simp] theorem net_nil : net [] = 0 := rfl

theorem height_walk (rs : List (Res Value)) : height (walk rs) = net rs := by
  induction rs with
  | nil => rfl
  | cons r rs ih =>
      have hcons : height (walk (r :: rs)) = (dir r).delta + height (walk rs) := by
        simp [height, walk]
      rw [hcons, ih]
      cases r with
      | enq code =>
          by_cases hcode : code = 1 <;>
            simp [net, enqueues, dequeues, dir, Dir.delta, hcode]
          omega
      | deq code out =>
          by_cases hcode : code = 1 <;>
            simp [net, enqueues, dequeues, dir, Dir.delta, hcode]
          omega

theorem walk_take (rs : List (Res Value)) (q : Nat) : walk (rs.take q) = (walk rs).take q :=
  List.map_take

/-- The parts of a walk are the walks of the first results. -/
theorem prefix_walk_iff {ds : List Dir} {rs : List (Res Value)} :
    ds <+: walk rs ↔ ∃ q ≤ rs.length, ds = walk (rs.take q) := by
  constructor
  · intro h
    have hlen := h.length_le
    rw [walk, List.length_map] at hlen
    exact ⟨ds.length, hlen, by rw [walk_take]; exact List.prefix_iff_eq_take.mp h⟩
  · rintro ⟨q, -, rfl⟩
    rw [walk_take]
    exact List.take_prefix _ _

/-- What a call has done to the stock so far. -/
def Stage.dir : Stage → Dir
  | .taken _ _ => .up
  | .done res => ConcurrentQueues.dir res
  | _ => .stay

/-- The nodes `t` has obtained and the length of its free list follow from the results of `t` and
from what its open call has moved. -/
def Accounts (t : Fin n) (k : Nodes n) (st : Stage) (ms : List (Fin n × Mark)) : Prop :=
  (⟨mallocs t ms, (k.free t).length⟩ : Stock) = (Stock.after (walk (returns t ms))).move st.dir

theorem accounts_init (t : Fin n) : Accounts t (Nodes.init n) .idle [] := rfl

theorem mallocs_concat (ms : List (Fin n × Mark)) (e : Fin n × Mark) :
    mallocs t (ms ++ [e]) = mallocs t ms + if e = (t, .malloc) then 1 else 0 := by
  simp [mallocs, List.count_append, List.count_singleton]

theorem returns_snoc_self (ms : List (Fin n × Mark)) (mk : Option Mark) :
    returns t (ms ++ (mk.map (t, ·)).toList) = returns t ms ++ (Mark.result mk).toList := by
  cases mk with
  | none => simp [Mark.result]
  | some mk => cases mk <;> simp [returns, Mark.result]

theorem returns_snoc_other (ms : List (Fin n × Mark)) (mk : Option Mark) (htu : t ≠ u) :
    returns t (ms ++ (mk.map (u, ·)).toList) = returns t ms := by
  cases mk with
  | none => simp
  | some mk => cases mk <;> simp [returns, Ne.symm htu]

/-- A step that does not return from a call. -/
theorem returns_snoc_of_none (ms : List (Fin n × Mark)) (u : Fin n) (mk : Option Mark)
    (h : ∀ res, mk ≠ some (.ret res)) :
    returns t (ms ++ (mk.map (u, ·)).toList) = returns t ms := by
  by_cases htu : t = u
  · subst htu
    have hnone : Mark.result mk = none :=
      Option.eq_none_iff_forall_ne_some.mpr fun res hres => h res (Mark.result_eq_some.mp hres)
    rw [returns_snoc_self, hnone, Option.toList_none, List.append_nil]
  · exact returns_snoc_other ms mk htu

/-- The steps of other threads do not count. -/
theorem Accounts.other (h : Accounts t k st ms) (htu : t ≠ u)
    {k' : Nodes n} {st₁ st₂ : Stage} (hs : Nodes.Step u mem mk k st₁ k' st₂) :
    Accounts t k' st (ms ++ (mk.map (u, ·)).toList) := by
  have hfree := hs.free_of_ne htu
  unfold Accounts at h ⊢
  rw [hfree]
  cases mk with
  | none => simpa using h
  | some mk =>
      have hm : mallocs t (ms ++ [(u, mk)]) = mallocs t ms := by
        simp [mallocs_concat, Ne.symm htu]
      have hr : returns t (ms ++ [(u, mk)]) = returns t ms := returns_snoc_other ms (some mk) htu
      simpa [hm, hr] using h

/-- A whole call moves the stock by its result. -/
theorem call_stock (k : Nodes n) (t : Fin n) (mem : Bool) (op : Op Value) (obtained : Nat) :
    (⟨obtained + if k.allocates t mem op then 1 else 0,
      ((k.call t mem op).1.free t).length⟩ : Stock) =
        Stock.move ⟨obtained, (k.free t).length⟩ (dir (k.call t mem op).2) := by
  cases op with
  | enq v =>
      cases hfree : k.free t with
      | nil =>
          cases mem <;>
            simp [Nodes.call, Nodes.allocates, Nodes.take, hfree, dir, Stock.move]
      | cons p rest => simp [Nodes.call, Nodes.allocates, Nodes.take, hfree, dir, Stock.move]
  | deq out =>
      cases hmain : k.main <;> cases hitems : k.items <;>
        simp [Nodes.call, Nodes.allocates, hmain, hitems, dir, Stock.move]

/-- One case for each move of a call. -/
theorem Accounts.step (h : Accounts t k st ms) (hs : Nodes.Step t mem mk k st k' st') :
    Accounts t k' st' (ms ++ (mk.map (t, ·)).toList) := by
  unfold Accounts at h ⊢
  cases hs with
  | silent => simpa using h
  | call _ op =>
      have hr : returns t (ms ++ [(t, .call op)]) = returns t ms := by
        simp [returns]
      simpa [mallocs_concat, hr, Stage.dir] using h
  | pop _ v p rest hfree =>
      -- the free list is not empty, so its first node is taken
      simp only [Option.map_none, Option.toList_none, List.append_nil, Stage.dir, Stock.move]
        at h ⊢
      rw [← h]
      simp [hfree]
  | malloc _ v hfree =>
      have hr : returns t (ms ++ [(t, .malloc)]) = returns t ms := by
        simp [returns]
      simp only [Option.map_some, Option.toList_some, hr, mallocs_concat, Stage.dir, Stock.move]
        at h ⊢
      rw [← h]
      simp [hfree]
  | outOfMemory _ v hfree hmem => simpa [Stage.dir, dir] using h
  | append _ v p => simpa [Stage.dir, dir] using h
  | peek _ out hitems => simpa [Stage.dir] using h
  | retry _ out => simpa [Stage.dir] using h
  | settle _ out => simpa [Stage.dir, dir] using h
  | unlink _ out v p main items hmain hitems => simpa [Stage.dir] using h
  | push _ v p =>
      simp only [Option.map_none, Option.toList_none, List.append_nil, Stage.dir, Stock.move,
        dir, if_true] at h ⊢
      rw [← h]
      simp
  | atomic _ op =>
      have hstock := call_stock k t mem op (mallocs t ms)
      rw [show (⟨mallocs t ms, (k.free t).length⟩ : Stock) = _ from h] at hstock
      cases halloc : k.allocates t mem op with
      | false => simpa [halloc, Stage.dir] using hstock
      | true =>
          have hr : returns t (ms ++ [(t, .malloc)]) = returns t ms := by simp [returns]
          simpa [halloc, mallocs_concat, hr, Stage.dir] using hstock
  | ret _ res =>
      have hm : mallocs t (ms ++ [(t, .ret res)]) = mallocs t ms := by simp [mallocs_concat]
      have hr : returns t (ms ++ [(t, .ret res)]) = returns t ms ++ [res] := by
        simp [returns]
      simp only [Option.map_some, Option.toList_some, hm, hr, Stage.dir, walk, List.map_append,
        List.map_cons, List.map_nil, Stock.after_concat] at h ⊢
      exact h

/-- **Accounts of a run.** -/
theorem MovesNodes.accounts {C M L G : Type} {P : Program (Fin n) C M L}
    {mark : Fin n → C → M → L → Option Mark} {I : Config (Fin n) M L → G → Prop}
    (R : MovesNodes P mark I)
    {s₀ s : Config (Fin n) M L} {es : List (Fin n × C)} {g₀ : G} (h₀ : I s₀ g₀)
    (hnodes : R.nodes s₀.mem g₀ = Nodes.init n) (hidle : ∀ t, R.stage (s₀.th t) = .idle)
    (h : run P s₀ es = some s) :
    ∃ g, I s g ∧ ∀ t, Accounts t (R.nodes s.mem g) (R.stage (s.th t)) (marks P mark s₀ es) := by
  refine run_induction (motive := fun es v => ∃ g, I v g ∧ ∀ t,
    Accounts t (R.nodes v.mem g) (R.stage (v.th t)) (marks P mark s₀ es)) ?_ ?_ es s h
  · refine ⟨g₀, h₀, fun t => ?_⟩
    rw [hnodes, hidle]
    exact accounts_init t
  rintro es ⟨u, c⟩ v w hrun ⟨g, hI, hacc⟩ hf
  obtain ⟨g', hI', hstep⟩ := R.step hI hf
  refine ⟨g', hI', fun t => ?_⟩
  rw [marks_snoc (u, c) hrun]
  by_cases htu : t = u
  · subst htu
    exact (hacc t).step hstep
  · have hth : w.th t = v.th t := by
      obtain ⟨m', l', -, rfl⟩ := fire_eq_some.mp hf
      exact Function.update_of_ne htu _ _
    rw [hth]
    exact (hacc t).other htu hstep

/-! ## The length of the queue -/

/-- What a call has added to the items so far. -/
def Stage.surplus : Stage → Int
  | .unlinked _ _ => -1
  | .done res => net [res]
  | _ => 0

@[simp] theorem surplus_idle : Stage.idle.surplus = 0 := rfl

theorem net_append (rs rs' : List (Res Value)) : net (rs ++ rs') = net rs + net rs' := by
  simp only [net, enqueues, dequeues, List.countP_append]
  omega

/-- A step changes the length of the queue by what it adds to its call. -/
theorem Nodes.Step.length_items (h : Nodes.Step t mem mk k st k' st') :
    (k'.items.length : Int) + st.surplus =
      k.items.length + (st'.surplus + net (Mark.result mk).toList) := by
  cases h with
  | silent | call | pop | malloc | outOfMemory | peek | retry | settle =>
      simp [Stage.surplus, Mark.result, net, enqueues, dequeues]
  | append _ v p => simp [Stage.surplus, Mark.result, net, enqueues, dequeues]
  | unlink _ out v p main items hmain hitems => simp [Stage.surplus, Mark.result, hitems]
  | push _ v p => simp [Stage.surplus, Mark.result, net, enqueues, dequeues]
  | atomic _ op =>
      have hnone : Mark.result (if k.allocates t mem op then some .malloc else none) = none := by
        split <;> rfl
      rw [hnone]
      cases op with
      | enq v =>
          by_cases hmem : k.free t = [] ∧ mem = false
          · simp [Nodes.call, hmem, Stage.surplus, net, enqueues, dequeues]
          · cases hfree : k.free t <;>
              simp_all [Nodes.call, Nodes.take, Stage.surplus, net, enqueues, dequeues]
      | deq out =>
          cases hmain : k.main <;> cases hitems : k.items <;>
            simp [Nodes.call, hmain, hitems, Stage.surplus, net, enqueues, dequeues]
  | ret _ res => simp [Stage.surplus, Mark.result]

end ConcurrentQueues
