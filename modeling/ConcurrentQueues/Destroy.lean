import ConcurrentQueues.Nodes
import ConcurrentQueues.Reasoning.Release
import Mathlib.Data.List.FinRange
import Mathlib.Data.List.Perm.Subperm

/-! Destroy — the part of `destroy_queue` that all versions have. -/

namespace ConcurrentQueues

open Reasoning

variable {n : Nat} {q : Store n} {k : Nodes n} {fuel : Nat}

/-- The blocks that `malloc` and `calloc` return. -/
inductive Block where
  | node (p : Addr)
  | record (r : Nat)
  | freeLists
  | retired
  | ctr
  | retiredCount
  deriving DecidableEq, Repr

/-- The loop over the main list, the loops over the free lists, and `free(Q->free_lists)`. -/
def destroyNodes (q : Store n) (fuel : Nat) (freed : List Block) : Except Stop (List Block) := do
  let freed ← freeList q.next .node fuel q.head freed
  let freed ← (List.finRange n).foldlM
    (fun freed t => freeList q.next .node fuel (q.freeLists t).head freed) freed
  free .freeLists freed

/-- The nodes, and the block of the free lists. -/
def nodeBlocks (q : Store n) : List Block := .freeLists :: (List.range q.brk).map .node

/-- `omp_destroy_lock`, which a lock must not be held for. -/
def destroyLock {ι : Type} (holder : Option ι) (freed : List Block) : Except Stop (List Block) :=
  if holder.isNone then .ok freed else .error .fault

/-- The computation goes through after the blocks `freed`, and then the blocks `allocated` are freed
once each. -/
def ReleasesAll (f : List Block → Except Stop (List Block)) (freed allocated : List Block) : Prop :=
  ∃ freed', f freed = .ok freed' ∧ freed'.Nodup ∧ ∀ b, b ∈ freed' ↔ b ∈ allocated

theorem releasesAll_of_frees {f : List Block → Except Stop (List Block)} {S : Block → Prop}
    {freed allocated : List Block} (h : Frees f S) (hnodup : freed.Nodup)
    (hnew : ∀ b ∈ freed, ¬ S b) (hall : ∀ b, b ∈ allocated ↔ b ∈ freed ∨ S b) :
    ReleasesAll f freed allocated := by
  obtain ⟨freed', hf, hnodup', hmem⟩ := h freed hnodup hnew
  exact ⟨freed', hf, hnodup', fun b => (hmem b).trans (hall b).symm⟩

theorem length_le_brk {p : Ptr} {ps : List Addr} (h : Chain q.next p ps)
    (hlt : ∀ a ∈ ps, a < q.brk) : ps.length ≤ q.brk := by
  have hsub : ps ⊆ List.range q.brk := fun a ha => List.mem_range.mpr (hlt a ha)
  simpa using (h.nodup.subperm hsub).length_le

/-- Between calls every node is in one of the lists, and in one only. -/
theorem frees_destroyNodes (h : q.Carries k) (hfuel : q.brk ≤ fuel) :
    Frees (destroyNodes q fuel) fun b => b ∈ nodeBlocks q := by
  have hinj : ∀ x y : Addr, Block.node x = .node y → x = y := fun _ _ => Block.node.inj
  have hmain := frees_freeList hinj h.main
    ((length_le_brk h.main fun a ha => (h.lt_brk a).mpr (.inl ha)).trans hfuel)
  have hlist := fun t => frees_freeList hinj (h.free t)
    ((length_le_brk (h.free t) fun a ha => (h.lt_brk a).mpr (.inr ⟨t, ha⟩)).trans hfuel)
  have hlists := frees_foldlM (List.finRange n) (List.nodup_finRange n) (fun t _ => hlist t) (by
    rintro t u b ⟨x, hx, rfl⟩ ⟨y, hy, he⟩
    exact h.free_inj hx (Block.node.inj he ▸ hy))
  have hall := hmain.bind (hlists.bind (frees_free .freeLists) (by
    rintro b ⟨t, -, x, -, rfl⟩ he
    cases he)) (by
    rintro b ⟨x, hx, rfl⟩ (⟨t, -, y, hy, he⟩ | he)
    · exact h.not_main hy (Block.node.inj he ▸ hx)
    · cases he)
  refine hall.congr fun b => ?_
  simp only [nodeBlocks, List.mem_cons, List.mem_map, List.mem_range, h.lt_brk, List.mem_finRange,
    true_and]
  constructor
  · rintro (rfl | ⟨p, hp | ⟨t, hp⟩, rfl⟩)
    · exact .inr (.inr rfl)
    · exact .inl ⟨p, hp, rfl⟩
    · exact .inr (.inl ⟨t, p, hp, rfl⟩)
  · rintro (⟨p, hp, rfl⟩ | ⟨t, p, hp, rfl⟩ | rfl)
    · exact .inr ⟨p, .inl hp, rfl⟩
    · exact .inr ⟨p, .inr ⟨t, hp⟩, rfl⟩
    · exact .inl rfl

theorem frees_destroyLock {ι : Type} {holder : Option ι} (h : holder = none) :
    Frees (destroyLock holder) fun _ => False :=
  frees_nothing (fun _ => by simp [destroyLock, h]) fun _ => id

end ConcurrentQueues
