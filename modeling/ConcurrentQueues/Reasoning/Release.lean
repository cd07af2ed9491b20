import ConcurrentQueues.Reasoning.Chain

/-!
# Release — loops that free the blocks of lists

Freeing a block twice and reading a freed block are faults, and a loop may run out of fuel.  `Frees`
says that a computation meets neither and frees certain blocks once each; it composes like the
computations do.
-/

namespace ConcurrentQueues.Reasoning

inductive Stop where
  | outOfFuel
  | fault
  deriving DecidableEq, Repr

variable {α β A : Type}

/-- `free(b)`, after the blocks `freed`. -/
def free [DecidableEq β] (b : β) (freed : List β) : Except Stop (List β) :=
  if b ∈ freed then .error .fault else .ok (b :: freed)

/-- The value `x` is read from the block `b`. -/
def load [DecidableEq β] (b : β) (x : A) (freed : List β) : Except Stop A :=
  if b ∈ freed then .error .fault else .ok x

/-- `while (p != NULL) { next = p->next; free(p); p = next; }` -/
def freeList [DecidableEq β] (next : α → Option α) (block : α → β) :
    Nat → Option α → List β → Except Stop (List β)
  | _, none, freed => .ok freed
  | 0, some _, _ => .error .outOfFuel
  | fuel + 1, some a, freed => do
      let p ← load (block a) (next a) freed
      let freed ← free (block a) freed
      freeList next block fuel p freed

/-- From any list of freed blocks that has none of `S`, the computation goes through and frees
exactly the blocks of `S`, each once. -/
def Frees (f : List β → Except Stop (List β)) (S : β → Prop) : Prop :=
  ∀ freed : List β, freed.Nodup → (∀ b ∈ freed, ¬ S b) →
    ∃ freed', f freed = .ok freed' ∧ freed'.Nodup ∧ ∀ b, b ∈ freed' ↔ b ∈ freed ∨ S b

variable {f f' : List β → Except Stop (List β)} {S T : β → Prop} {b : β}

theorem frees_nothing (h : ∀ freed, f freed = .ok freed) (hS : ∀ b, ¬ S b) : Frees f S := by
  intro freed hnodup _
  exact ⟨freed, h freed, hnodup, fun b => by simp [hS b]⟩

theorem frees_free [DecidableEq β] (b : β) : Frees (free b) (· = b) := by
  intro freed hnodup hnew
  have hmem : b ∉ freed := fun h => hnew b h rfl
  refine ⟨b :: freed, if_neg hmem, List.nodup_cons.mpr ⟨hmem, hnodup⟩, fun c => ?_⟩
  rw [List.mem_cons, or_comm]

theorem Frees.congr (h : Frees f S) (hS : ∀ b, T b ↔ S b) : Frees f T := by
  obtain rfl : T = S := funext fun b => propext (hS b)
  exact h

/-- One computation after another. -/
theorem Frees.bind (h : Frees f S) (h' : Frees f' T) (hST : ∀ b, S b → ¬ T b) :
    Frees (fun freed => f freed >>= f') fun b => S b ∨ T b := by
  intro freed hnodup hnew
  obtain ⟨freed₁, hf, hnodup₁, hmem₁⟩ := h freed hnodup fun b hb hS => hnew b hb (.inl hS)
  have hnew₁ : ∀ b ∈ freed₁, ¬ T b := by
    intro b hb hT
    rcases (hmem₁ b).mp hb with hold | hS
    · exact hnew b hold (.inr hT)
    · exact hST b hS hT
  obtain ⟨freed₂, hf', hnodup₂, hmem₂⟩ := h' freed₁ hnodup₁ hnew₁
  refine ⟨freed₂, ?_, hnodup₂, fun b => ?_⟩
  · simp only [hf]
    exact hf'
  · rw [hmem₂, hmem₁, or_assoc]

/-- A loop over `is`, each round of which frees its own blocks. -/
theorem frees_foldlM {ι : Type} {body : List β → ι → Except Stop (List β)} {R : ι → β → Prop}
    (is : List ι) (hnodup : is.Nodup) (h : ∀ i ∈ is, Frees (fun freed => body freed i) (R i))
    (hdisj : ∀ i j b, R i b → R j b → i = j) :
    Frees (fun freed => is.foldlM body freed) fun b => ∃ i ∈ is, R i b := by
  induction is with
  | nil => exact frees_nothing (fun _ => rfl) (by simp)
  | cons i is ih =>
      obtain ⟨hi, his⟩ := List.nodup_cons.mp hnodup
      have hrest := ih his fun j hj => h j (List.mem_cons_of_mem i hj)
      have hboth := (h i List.mem_cons_self).bind hrest (by
        rintro b hb ⟨j, hj, hb'⟩
        exact hi (hdisj i j b hb hb' ▸ hj))
      exact hboth.congr fun b => by simp

/-- The loop over a chain frees the chain. -/
theorem frees_freeList [DecidableEq β] {next : α → Option α} {block : α → β}
    (hinj : ∀ x y, block x = block y → x = y) :
    ∀ {l : List α} {p : Option α} {fuel : Nat}, Chain next p l → l.length ≤ fuel →
      Frees (freeList next block fuel p) fun b => ∃ x ∈ l, b = block x := by
  intro l
  induction l with
  | nil =>
      intro p fuel h _
      obtain rfl : p = none := h
      exact frees_nothing (fun _ => by simp [freeList]) (by simp)
  | cons a l ih =>
      intro p fuel h hfuel freed hnodup hnew
      obtain ⟨rfl, htail⟩ := h
      obtain ⟨fuel, rfl⟩ : ∃ k, fuel = k + 1 :=
        ⟨fuel - 1, by rw [List.length_cons] at hfuel; omega⟩
      have ha : block a ∉ freed := fun hmem => hnew _ hmem ⟨a, List.mem_cons_self, rfl⟩
      have hnotin : a ∉ l := (List.nodup_cons.mp (Chain.nodup (p := some a) ⟨rfl, htail⟩)).1
      obtain ⟨freed', hf, hnodup', hmem⟩ :=
        ih htail (Nat.le_of_succ_le_succ hfuel) (block a :: freed)
          (List.nodup_cons.mpr ⟨ha, hnodup⟩) (by
            rintro b hb ⟨x, hx, rfl⟩
            rcases List.mem_cons.mp hb with he | hold
            · exact hnotin (hinj x a he ▸ hx)
            · exact hnew _ hold ⟨x, List.mem_cons_of_mem a hx, rfl⟩)
      refine ⟨freed', ?_, hnodup', fun b => ?_⟩
      · rw [freeList, load, if_neg ha, free, if_neg ha]
        exact hf
      · rw [hmem, List.mem_cons]
        simp only [List.mem_cons, exists_eq_or_imp]
        rw [or_comm (a := b = block a), or_assoc]

end ConcurrentQueues.Reasoning
