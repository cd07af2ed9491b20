import Mathlib.Data.List.Dedup
import Mathlib.Data.List.Pairwise

/-!
# Groups — the elements of a list by key

The groups are in the order in which their keys come last in the list, and each keeps the order of
its elements.
-/

namespace ConcurrentQueues.Reasoning

variable {α β κ : Type} [DecidableEq κ] {key : α → κ} {l g : List α} {k : κ}

def groups (key : α → κ) (l : List α) : List (κ × List α) :=
  (l.map key).dedup.map fun k => (k, l.filter fun x => key x = k)

theorem mem_groups :
    (k, g) ∈ groups key l ↔ (∃ x ∈ l, key x = k) ∧ g = l.filter fun x => key x = k := by
  simp only [groups, List.mem_map, List.mem_dedup, Prod.mk.injEq]
  constructor
  · rintro ⟨_, hx, rfl, rfl⟩
    exact ⟨hx, rfl⟩
  · rintro ⟨hx, rfl⟩
    exact ⟨k, hx, rfl, rfl⟩

/-- Every element is in the group of its key. -/
theorem exists_mem_groups {x : α} (hx : x ∈ l) :
    ∃ g, (key x, g) ∈ groups key l ∧ x ∈ g :=
  ⟨_, mem_groups.mpr ⟨⟨x, hx, rfl⟩, rfl⟩, List.mem_filter.mpr ⟨hx, decide_eq_true rfl⟩⟩

theorem filter_of_key {k' : κ} (h : ∀ x ∈ l, key x = k') :
    l.filter (fun x => key x = k) = if k' = k then l else [] := by
  split
  next heq => exact List.filter_eq_self.mpr fun x hx => decide_eq_true ((h x hx).trans heq)
  next hne =>
    refine List.filter_eq_nil_iff.mpr fun x hx hk => hne ?_
    rw [← h x hx, of_decide_eq_true hk]

/-- Blocks of one key each stay together. -/
theorem filter_flatMap_of_key {f : β → List α} {bs : List β} {kb : β → κ}
    (h : ∀ b ∈ bs, ∀ x ∈ f b, key x = kb b) :
    (bs.flatMap f).filter (fun x => key x = k) = (bs.filter fun b => kb b = k).flatMap f := by
  induction bs with
  | nil => rfl
  | cons b bs ih =>
      rw [List.flatMap_cons, List.filter_append, filter_of_key (h b List.mem_cons_self),
        ih fun b' hb' => h b' (List.mem_cons_of_mem b hb'), List.filter_cons]
      by_cases hb : kb b = k
      · rw [if_pos hb, if_pos (decide_eq_true hb), List.flatMap_cons]
      · rw [if_neg hb, if_neg (by simpa using hb), List.nil_append]

theorem filter_flatten_of_key {ls : List (List α)}
    (h : ls.Pairwise fun l l' => ∀ x ∈ l, ∀ y ∈ l', key x ≠ key y) (hl : l ∈ ls) {x : α}
    (hx : x ∈ l) :
    ls.flatten.filter (fun y => key y = key x) = l.filter fun y => key y = key x := by
  induction ls with
  | nil => cases hl
  | cons l' ls ih =>
      rw [List.pairwise_cons] at h
      rw [List.flatten_cons, List.filter_append]
      rcases List.mem_cons.mp hl with rfl | hls
      · have hrest : ls.flatten.filter (fun y => key y = key x) = [] := by
          refine List.filter_eq_nil_iff.mpr fun y hy hkey => ?_
          obtain ⟨l', hl', hy⟩ := List.mem_flatten.mp hy
          exact h.1 l' hl' x hx y hy (of_decide_eq_true hkey).symm
        rw [hrest, List.append_nil]
      · have hhead : l'.filter (fun y => key y = key x) = [] :=
          List.filter_eq_nil_iff.mpr fun y hy hkey =>
            h.1 l hls y hy x hx (of_decide_eq_true hkey)
        rw [hhead, List.nil_append, ih h.2 hls]

/-- Lists without a common key are grouped one by one. -/
theorem mem_groups_flatten {ls : List (List α)}
    (h : ls.Pairwise fun l l' => ∀ x ∈ l, ∀ y ∈ l', key x ≠ key y) :
    (k, g) ∈ groups key ls.flatten ↔ ∃ l ∈ ls, (k, g) ∈ groups key l := by
  constructor
  · intro hg
    obtain ⟨⟨x, hx, rfl⟩, rfl⟩ := mem_groups.mp hg
    obtain ⟨l, hl, hx⟩ := List.mem_flatten.mp hx
    rw [filter_flatten_of_key h hl hx]
    exact ⟨l, hl, mem_groups.mpr ⟨⟨x, hx, rfl⟩, rfl⟩⟩
  · rintro ⟨l, hl, hg⟩
    obtain ⟨⟨x, hx, rfl⟩, rfl⟩ := mem_groups.mp hg
    rw [← filter_flatten_of_key h hl hx]
    exact mem_groups.mpr ⟨⟨x, List.mem_flatten.mpr ⟨l, hl, hx⟩, rfl⟩, rfl⟩

end ConcurrentQueues.Reasoning
