import Mathlib.Data.List.Nodup
import Mathlib.Data.List.Range

/-! Singly linked lists in a heap: the nodes reached from a pointer through a `next` function. -/

namespace ConcurrentQueues.Reasoning

variable {α : Type*} {next next' : α → Option α} {p : Option α} {a : α} {l l' : List α}

/-- `Chain next p l`: following `next` from `p` visits exactly `l` and then reaches `NULL`. -/
def Chain (next : α → Option α) : Option α → List α → Prop
  | p, [] => p = none
  | p, a :: l => p = some a ∧ Chain next (next a) l

@[simp] theorem chain_nil : Chain next p [] ↔ p = none := Iff.rfl

@[simp] theorem chain_cons : Chain next p (a :: l) ↔ p = some a ∧ Chain next (next a) l := Iff.rfl

theorem Chain.unique (h : Chain next p l) (h' : Chain next p l') : l = l' := by
  induction l generalizing p l' with
  | nil =>
      cases l' with
      | nil => rfl
      | cons b l' => simp_all
  | cons a l ih =>
      cases l' with
      | nil => simp_all
      | cons b l' =>
          obtain ⟨rfl, hl⟩ := h
          obtain ⟨hb, hl'⟩ := h'
          obtain rfl := Option.some.inj hb
          rw [ih hl hl']

/-- A chain reads only the `next` fields of its own nodes. -/
theorem Chain.congr (h : Chain next p l) (heq : ∀ a ∈ l, next' a = next a) : Chain next' p l := by
  induction l generalizing p with
  | nil => exact h
  | cons a l ih =>
      refine ⟨h.1, ?_⟩
      rw [heq a List.mem_cons_self]
      exact ih h.2 fun b hb => heq b (List.mem_cons_of_mem a hb)

theorem Chain.eq_none_iff (h : Chain next p l) : p = none ↔ l = [] := by
  cases l with
  | nil => simpa using h
  | cons a l => simp [h.1]

theorem Chain.of_some (h : Chain next (some a) l) : ∃ l', l = a :: l' ∧ Chain next (next a) l' := by
  cases l with
  | nil => simp at h
  | cons b l =>
      obtain ⟨hb, hl⟩ := h
      obtain rfl := Option.some.inj hb
      exact ⟨l, rfl, hl⟩

/-- The part of a chain from any of its nodes on is the chain of that node. -/
theorem Chain.suffix {l₁ l₂ : List α} (h : Chain next p (l₁ ++ a :: l₂)) :
    Chain next (some a) (a :: l₂) := by
  induction l₁ generalizing p with
  | nil => exact ⟨rfl, h.2⟩
  | cons b l₁ ih => exact ih h.2

/-- A chain that ends in `NULL` visits no node twice. -/
theorem Chain.nodup (h : Chain next p l) : l.Nodup := by
  induction l generalizing p with
  | nil => exact List.nodup_nil
  | cons a l ih =>
      refine List.nodup_cons.mpr ⟨fun hmem => ?_, ih h.2⟩
      obtain ⟨l₁, l₂, rfl⟩ := List.append_of_mem hmem
      -- from a node met twice the chain would go on in two ways of different length
      have hcyc : a :: l₂ = a :: (l₁ ++ a :: l₂) := (h.2.suffix).unique ⟨rfl, h.2⟩
      have hlen := congrArg List.length hcyc
      simp only [List.length_cons, List.length_append] at hlen
      omega

/-- The chain laid out by an indexed family of nodes between `i` and `i + k`. -/
theorem chain_of_index {node : ℕ → α} {k : ℕ} :
    ∀ {i : ℕ}, (∀ j, i ≤ j → j < i + (k + 1) →
      next (node j) = if j + 1 < i + (k + 1) then some (node (j + 1)) else none) →
    Chain next (some (node i)) ((List.range' i (k + 1)).map node) := by
  induction k with
  | zero =>
      intro i h
      simpa using h i le_rfl (by omega)
  | succ k ih =>
      intro i h
      rw [List.range'_succ, List.map_cons, chain_cons]
      refine ⟨rfl, ?_⟩
      rw [h i le_rfl (by omega), if_pos (by omega)]
      refine ih fun j hj hlt => ?_
      rw [h j (by omega) (by omega)]
      simp only [show i + (k + 1 + 1) = i + 1 + (k + 1) by omega]

end ConcurrentQueues.Reasoning
