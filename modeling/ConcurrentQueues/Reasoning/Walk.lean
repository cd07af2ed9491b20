import Mathlib.Algebra.BigOperators.Group.List.Basic
import Mathlib.Data.List.Induction
import Mathlib.Order.Bounds.Basic
import Mathlib.Tactic.Linarith

/-!
# Walk — a stock that is refilled only when it is empty

A step up takes one piece from a stock and obtains a new piece if there is none; a step down puts
one back.  What has been obtained is the greatest height of the walk, what is left its distance
from there.
-/

namespace ConcurrentQueues.Reasoning

inductive Dir where
  | up
  | down
  | stay
  deriving DecidableEq, Repr

def Dir.delta : Dir → Int
  | .up => 1
  | .down => -1
  | .stay => 0

/-- The height of a walk after its steps. -/
def height (ds : List Dir) : Int := (ds.map Dir.delta).sum

@[simp] theorem height_nil : height [] = 0 := rfl

@[simp] theorem height_concat (ds : List Dir) (d : Dir) :
    height (ds ++ [d]) = height ds + d.delta := by
  simp [height]

/-- What has been obtained and what is left of it. -/
@[ext] structure Stock where
  obtained : Nat
  left : Nat
  deriving DecidableEq, Repr

namespace Stock

def move (s : Stock) : Dir → Stock
  | .up => if s.left = 0 then ⟨s.obtained + 1, 0⟩ else ⟨s.obtained, s.left - 1⟩
  | .down => ⟨s.obtained, s.left + 1⟩
  | .stay => s

@[simp] theorem move_stay (s : Stock) : s.move .stay = s := rfl

def empty : Stock := ⟨0, 0⟩

/-- The stock after a walk. -/
def after (ds : List Dir) : Stock := ds.foldl move empty

@[simp] theorem after_nil : after [] = empty := rfl

@[simp] theorem after_concat (ds : List Dir) (d : Dir) : after (ds ++ [d]) = (after ds).move d :=
  List.foldl_append

theorem left_eq (ds : List Dir) : ((after ds).left : Int) = (after ds).obtained - height ds := by
  induction ds using List.reverseRecOn with
  | nil => rfl
  | append_singleton ds d ih =>
      rw [after_concat, height_concat]
      cases d with
      | up =>
          by_cases h : (after ds).left = 0
          · simp only [move, h, if_true, Dir.delta]
            omega
          · simp only [move, h, if_false, Dir.delta]
            omega
      | down =>
          simp only [move, Dir.delta]
          omega
      | stay => simpa [move, Dir.delta] using ih

/-- The heights a walk has reached so far, its beginning included. -/
def heights (ds : List Dir) : Set Int := {x | ∃ es, es <+: ds ∧ x = height es}

theorem heights_concat (ds : List Dir) (d : Dir) :
    heights (ds ++ [d]) = heights ds ∪ {height (ds ++ [d])} := by
  ext x
  simp only [heights, List.prefix_concat_iff, Set.mem_ofPred_eq, Set.mem_union,
    Set.mem_singleton_iff]
  constructor
  · rintro ⟨es, rfl | hes, rfl⟩
    · exact .inr rfl
    · exact .inl ⟨es, hes, rfl⟩
  · rintro (⟨es, hes, rfl⟩ | rfl)
    · exact ⟨es, .inr hes, rfl⟩
    · exact ⟨_, .inl rfl, rfl⟩

/-- What has been obtained is the greatest height reached. -/
theorem obtained_isGreatest (ds : List Dir) :
    IsGreatest (heights ds) ((after ds).obtained : Int) := by
  induction ds using List.reverseRecOn with
  | nil =>
      refine ⟨⟨[], List.prefix_rfl, rfl⟩, ?_⟩
      rintro x ⟨es, hes, rfl⟩
      rw [List.prefix_nil.mp hes]
      exact le_rfl
  | append_singleton ds d ih =>
      have hleft := left_eq (ds ++ [d])
      have hbefore := left_eq ds
      have hheight := height_concat ds d
      rw [heights_concat]
      -- a step up from the empty stock is the only way to a new greatest height
      have hcase : (after (ds ++ [d])).obtained = (after ds).obtained ∨
          ((after (ds ++ [d])).obtained = (after ds).obtained + 1 ∧
            (after (ds ++ [d])).left = 0) := by
        rw [after_concat]
        cases d with
        | up => by_cases h : (after ds).left = 0 <;> simp [move, h]
        | down | stay => exact .inl rfl
      obtain hsame | ⟨hmore, hzero⟩ := hcase
      · rw [hsame] at hleft ⊢
        refine ⟨.inl ih.1, ?_⟩
        rintro x (hx | rfl)
        · exact ih.2 hx
        · omega
      · refine ⟨.inr ?_, ?_⟩
        · simp only [Set.mem_singleton_iff]
          omega
        · rintro x (hx | rfl)
          · have := ih.2 hx
            omega
          · omega

/-- What goes up to `k` and down again obtains `k` and keeps it. -/
theorem after_up_down (k : Nat) :
    after (List.replicate k .up ++ List.replicate k .down) = ⟨k, k⟩ := by
  have hup : ∀ j, after (List.replicate j .up) = ⟨j, 0⟩ := by
    intro j
    induction j with
    | zero => rfl
    | succ j ih => simp [List.replicate_succ', after_concat, ih, move]
  have hdown : ∀ j, after (List.replicate k .up ++ List.replicate j .down) = ⟨k, j⟩ := by
    intro j
    induction j with
    | zero => simp [hup]
    | succ j ih => rw [List.replicate_succ', ← List.append_assoc, after_concat, ih, move]
  exact hdown k

/-- The falls of a walk: how far it is, at some time, below a height reached before. -/
def falls (ds : List Dir) : Set Int :=
  {x | ∃ es fs, es <+: fs ∧ fs <+: ds ∧ x = height es - height fs}

/-- The stock at any time is the deepest fall that ends there. -/
theorem left_isGreatest (ds : List Dir) :
    IsGreatest {x | ∃ es, es <+: ds ∧ x = height es - height ds} ((after ds).left : Int) := by
  obtain ⟨⟨es, hes, hmax⟩, hle⟩ := obtained_isGreatest ds
  rw [left_eq]
  refine ⟨⟨es, hes, by rw [hmax]⟩, ?_⟩
  rintro x ⟨fs, hfs, rfl⟩
  have := hle ⟨fs, hfs, rfl⟩
  omega

/-- The greatest stock over a whole walk is its deepest fall. -/
theorem falls_isGreatest {ds : List Dir} {k : Int}
    (hk : IsGreatest {x | ∃ fs, fs <+: ds ∧ x = ((after fs).left : Int)} k) :
    IsGreatest (falls ds) k := by
  obtain ⟨⟨fs, hfs, rfl⟩, hle⟩ := hk
  obtain ⟨es, hes, heq⟩ := (left_isGreatest fs).1
  refine ⟨⟨es, fs, hes, hfs, heq⟩, ?_⟩
  rintro x ⟨es', fs', hes', hfs', rfl⟩
  have hdeep := (left_isGreatest fs').2 ⟨es', hes', rfl⟩
  exact hdeep.trans (hle ⟨fs', hfs', rfl⟩)

/-- What is left after each step of a walk. -/
def levels : Stock → List Dir → List Nat
  | _, [] => []
  | s, d :: ds => (s.move d).left :: levels (s.move d) ds

theorem levels_concat (s : Stock) (ds : List Dir) (d : Dir) :
    levels s (ds ++ [d]) = levels s ds ++ [((ds.foldl move s).move d).left] := by
  induction ds generalizing s with
  | nil => rfl
  | cons d' ds ih => simp only [List.cons_append, levels, ih, List.foldl_cons]

end Stock

/-- The running maximum of a list of samples, from 0 on. -/
def highWater (ks : List Int) : Int := ks.foldl (fun m k => if k > m then k else m) 0

@[simp] theorem highWater_concat (ks : List Int) (k : Int) :
    highWater (ks ++ [k]) = if k > highWater ks then k else highWater ks :=
  List.foldl_append

/-- The highest level of a stock along a walk is the deepest fall of the walk. -/
theorem highWater_levels (ds : List Dir) :
    IsGreatest (Stock.falls ds) (highWater ((Stock.levels .empty ds).map Int.ofNat)) := by
  apply Stock.falls_isGreatest
  induction ds using List.reverseRecOn with
  | nil =>
      refine ⟨⟨[], List.prefix_rfl, rfl⟩, ?_⟩
      rintro x ⟨fs, hfs, rfl⟩
      rw [List.prefix_nil.mp hfs]
      exact le_rfl
  | append_singleton ds d ih =>
      obtain ⟨⟨fs, hfs, hmax⟩, hle⟩ := ih
      have hlast : ((ds.foldl Stock.move .empty).move d) = Stock.after (ds ++ [d]) :=
        (Stock.after_concat ds d).symm
      rw [Stock.levels_concat, List.map_append, List.map_singleton, highWater_concat, hlast]
      split
      next hlt =>
        refine ⟨⟨_, List.prefix_rfl, rfl⟩, ?_⟩
        rintro x ⟨es, hes, rfl⟩
        rcases List.prefix_concat_iff.mp hes with rfl | hes
        · exact le_rfl
        · exact (hle ⟨es, hes, rfl⟩).trans hlt.le
      next hge =>
        refine ⟨⟨fs, hfs.trans (List.prefix_append _ _), hmax⟩, ?_⟩
        rintro x ⟨es, hes, rfl⟩
        rcases List.prefix_concat_iff.mp hes with rfl | hes
        · exact not_lt.mp hge
        · exact hle ⟨es, hes, rfl⟩

end ConcurrentQueues.Reasoning
