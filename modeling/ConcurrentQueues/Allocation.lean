import ConcurrentQueues.Overflow
import ConcurrentQueues.Bench.Client

/-!
# Allocation — how many nodes a thread needs

What a thread has obtained from `malloc`, the length of its free list and the `Max_free_list_size`
of the benchmark are functions of the results of its own calls, in all versions and under all
interleavings.
-/

namespace ConcurrentQueues

open Reasoning Bench

variable {n : Nat}

/-- The law for a thread whose calls have returned `rs`: its nodes from `malloc` are the greatest
surplus of enqueues so far, and the `int` size of its free list is what is left of them, if that
fits. -/
structure AllocationLaw (rs : List (Res Value)) (obtained : Nat) (size : Int32) : Prop where
  greatest : IsGreatest {x | ∃ q ≤ rs.length, x = max 0 (net (rs.take q))} (obtained : Int)
  left : size.toInt = obtained - net rs ↔ (obtained : Int) - net rs < 2 ^ 31

/-- By how much the surplus of enqueues has fallen between two calls. -/
def drawdowns (rs : List (Res Value)) : Set Int :=
  {x | ∃ p ≤ rs.length, ∃ q ≤ p, x = net (rs.take q) - net (rs.take p)}

theorem falls_walk (rs : List (Res Value)) : Stock.falls (walk rs) = drawdowns rs := by
  ext x
  constructor
  · rintro ⟨ds, es, hds, hes, rfl⟩
    obtain ⟨p, hp, rfl⟩ := prefix_walk_iff.mp hes
    obtain ⟨q, hq, rfl⟩ := prefix_walk_iff.mp hds
    rw [List.length_take, Nat.min_eq_left hp] at hq
    refine ⟨p, hp, q, hq, ?_⟩
    rw [height_walk, height_walk, List.take_take, Nat.min_eq_left hq]
  · rintro ⟨p, hp, q, hq, rfl⟩
    refine ⟨walk (rs.take q), walk (rs.take p), ?_, ?_, by rw [height_walk, height_walk]⟩
    · rw [walk_take, walk_take]
      exact List.take_prefix_take_left hq
    · rw [walk_take]
      exact List.take_prefix _ _

theorem heights_walk (rs : List (Res Value)) :
    Stock.heights (walk rs) = {x | ∃ q ≤ rs.length, x = net (rs.take q)} := by
  ext x
  constructor
  · rintro ⟨ds, hds, rfl⟩
    obtain ⟨q, hq, rfl⟩ := prefix_walk_iff.mp hds
    exact ⟨q, hq, height_walk _⟩
  · rintro ⟨q, hq, rfl⟩
    exact ⟨_, prefix_walk_iff.mpr ⟨q, hq, rfl⟩, (height_walk _).symm⟩

theorem allocationLaw_of_stock {rs : List (Res Value)} {obtained left : Nat}
    (h : (⟨obtained, left⟩ : Stock) = Stock.after (walk rs)) :
    AllocationLaw rs obtained (.ofNat left) := by
  have hleft := Stock.left_eq (walk rs)
  obtain ⟨⟨q, hq, hmax⟩, hle⟩ := heights_walk rs ▸ Stock.obtained_isGreatest (walk rs)
  rw [← h] at hleft hmax hle
  rw [height_walk] at hleft
  refine ⟨⟨⟨q, hq, ?_⟩, ?_⟩, ?_⟩
  · rw [← hmax]
    exact (max_eq_right (Int.natCast_nonneg _)).symm
  · rintro x ⟨q', hq', rfl⟩
    exact max_le (Int.natCast_nonneg _) (hle ⟨q', hq', rfl⟩)
  · rw [← hleft]
    exact_mod_cast toInt_ofNat_iff

/-! ## Threads between calls -/

namespace Queue.Correct

variable {Q : Queue n} {s : Q.State} {sched : List (Fin n × Q.Choice)} {t : Fin n}

/-- The accounts of a thread that is in no call. -/
theorem stock_idle (C : Q.Correct) (h : run Q.step Q.init sched = some s)
    (hidle : Q.idle (s.th t) = true) :
    ∃ left : Nat, ((Q.store s.mem).freeLists t).size = .ofNat left ∧
      (⟨mallocs t (marks Q.step Q.mark Q.init sched), left⟩ : Stock) =
        Stock.after (walk (returns t (marks Q.step Q.mark Q.init sched))) := by
  obtain ⟨g, hI, hacc⟩ := C.exists_accounts h
  have hstock := hacc t
  rw [Accounts, (C.idle_iff _).mp hidle] at hstock
  exact ⟨_, C.size hI hidle, hstock⟩

theorem allocationLaw (C : Q.Correct) (h : run Q.step Q.init sched = some s)
    (hidle : Q.idle (s.th t) = true) :
    AllocationLaw (returns t (marks Q.step Q.mark Q.init sched))
      (mallocs t (marks Q.step Q.mark Q.init sched)) ((Q.store s.mem).freeLists t).size := by
  obtain ⟨left, hsize, hstock⟩ := C.stock_idle h hidle
  rw [hsize]
  exact allocationLaw_of_stock hstock

end Queue.Correct

/-! ## The maximum of the benchmark -/

/-- The sizes of the free list after each call. -/
def sizes (rs : List (Res Value)) : List Int := (Stock.levels .empty (walk rs)).map Int.ofNat

theorem sizes_isGreatest (rs : List (Res Value)) :
    IsGreatest (drawdowns rs) (highWater (sizes rs)) :=
  falls_walk rs ▸ highWater_levels (walk rs)

theorem sizes_concat (rs : List (Res Value)) (r : Res Value) :
    sizes (rs ++ [r]) = sizes rs ++ [((Stock.after (walk (rs ++ [r]))).left : Int)] := by
  have hwalk : walk (rs ++ [r]) = walk rs ++ [dir r] := List.map_append
  rw [sizes, hwalk, Stock.levels_concat, List.map_append, List.map_singleton, Stock.after_concat]
  rfl

/-- `int` sizes are compared as they are as long as they fit. -/
theorem toInt_max {w : Int32} {m : Int} {k : Nat} (hm : m < 2 ^ 31 → w.toInt = m)
    (hfit : (if (k : Int) > m then (k : Int) else m) < 2 ^ 31) :
    (if Int32.ofNat k > w then Int32.ofNat k else w).toInt =
      if (k : Int) > m then (k : Int) else m := by
  have hlt : (k : Int) < 2 ^ 31 ∧ m < 2 ^ 31 := by split at hfit <;> omega
  have hint : (Int32.ofNat k).toInt = k := toInt_ofNat_iff.mpr (by omega)
  have hw := hm hlt.2
  have hiff : Int32.ofNat k > w ↔ (k : Int) > m := by
    rw [gt_iff_lt, Int32.lt_iff_toInt_lt, hint, hw]
  by_cases hgt : (k : Int) > m
  · rw [if_pos (hiff.mpr hgt), if_pos hgt, hint]
  · rw [if_neg (hiff.not.mpr hgt), if_neg hgt, hw]

section Benchmark

variable {Q : Queue n} {enqSpecs deqSpecs : Fin n → BatchSpec}
  {s : Config (Fin n) Q.Mem (Client Q.Local)} {es : List (Fin n × ClientChoice Q.Choice)}

/-- A thread that has just returned from a call reads the stock of its results. -/
theorem size_of_run (C : Q.Correct)
    (h : run (runBenchmark Q enqSpecs deqSpecs) (benchmarkInit Q) es = some s) {t : Fin n}
    (hidle : Q.idle (s.th t).l = true) :
    ((Q.store s.mem).freeLists t).size = .ofNat (Stock.after (walk (s.th t).results)).left := by
  obtain ⟨fs, hrun, hresults⟩ := exists_queueRun h
  obtain ⟨left, hsize, hstock⟩ := C.stock_idle (t := t) hrun hidle
  rw [hresults] at hstock
  rw [← hstock]
  exact hsize

/-- The maximum that a thread has entered is that of the sizes of its free list, if it fits. -/
def Entered (x : Client Q.Local) : Prop :=
  highWater (sizes x.results) < 2 ^ 31 → x.w.maxFreeListSize.toInt = highWater (sizes x.results)

/-- A return enters the size of the free list. -/
theorem Entered.ret {x x' : Client Q.Local} {r : Res Value} {size : Int32} (h : Entered x)
    (hsize : size = .ofNat (Stock.after (walk x'.results)).left)
    (hresults : x'.results = x.results ++ [r])
    (hw : x'.w.maxFreeListSize =
      if size > x.w.maxFreeListSize then size else x.w.maxFreeListSize) : Entered x' := by
  intro hfit
  rw [hresults, sizes_concat, highWater_concat] at hfit ⊢
  rw [hw, hsize, hresults]
  exact toInt_max h hfit

theorem entered_of_run (C : Q.Correct)
    (h : run (runBenchmark Q enqSpecs deqSpecs) (benchmarkInit Q) es = some s) (t : Fin n) :
    Entered (s.th t) := by
  refine run_induction (motive := fun _ v => ∀ t, Entered (v.th t))
    (fun _ _ => rfl) ?_ es s h t
  rintro es ⟨u, c⟩ v w hrun ih hf t
  have hrun' := run_snoc.mpr ⟨v, hrun, hf⟩
  obtain ⟨m', x', hstep, rfl⟩ := fire_eq_some.mp hf
  by_cases htu : t = u
  · subst htu
    have hsize := size_of_run C hrun' (t := t)
    obtain ⟨fs, hq, -⟩ := exists_queueRun hrun
    obtain ⟨g, hI, -⟩ := C.exists_accounts hq
    simp only [Function.update_self] at hsize ⊢
    cases runBenchmark_cases hstep with
    | batch | leave | turn | again | call => exact ih t
    | enqReturn hloc hcalls hs hmark =>
        have hidle := C.idle_of_ret (t := t) hI hs hmark
        exact (ih t).ret (hsize hidle) rfl rfl
    | deqReturn hloc hcalls hs hmark =>
        have hidle := C.idle_of_ret (t := t) hI hs hmark
        exact (ih t).ret (hsize hidle) rfl rfl
  · simpa only [Function.update_of_ne htu] using ih t

end Benchmark

/-- **Allocation law.**  In every version and every run, a thread between calls has obtained as many
nodes from `malloc` as its surplus of successful enqueues has ever been, and its free list holds
what is left of them.  The maximum that `run_benchmark` takes over the sizes is the largest fall of
the surplus.  Both numbers are of type `int`: they are right exactly as long as they fit. -/
theorem allocation_law (n v : Nat) :
    (∀ sched s t, run (version n v).step (version n v).init sched = some s →
      (version n v).idle (s.th t) = true →
      AllocationLaw
        (returns t (marks (version n v).step (version n v).mark (version n v).init sched))
        (mallocs t (marks (version n v).step (version n v).mark (version n v).init sched))
        (((version n v).store s.mem).freeLists t).size) ∧
    ∀ enqSpecs deqSpecs es s t,
      run (runBenchmark (version n v) enqSpecs deqSpecs) (benchmarkInit (version n v)) es = some s →
      ∃ d, IsGreatest (drawdowns (s.th t).results) d ∧
        ((s.th t).w.maxFreeListSize.toInt = d ↔ d < 2 ^ 31) := by
  obtain ⟨C⟩ := version_correct n v
  refine ⟨fun sched s t h hidle => C.allocationLaw h hidle, fun enqSpecs deqSpecs es s t h => ?_⟩
  refine ⟨_, sizes_isGreatest _, fun heq => ?_, entered_of_run C h t⟩
  rw [← heq]
  exact Int32.toInt_lt _

/-- The only thread of Ex5 has obtained `2 ^ 31` nodes and has as many left, but `size` is
negative. -/
theorem allocation_law_wraps :
    ∃ sched s, run Ex5.step (Ex5.init 1) sched = some s ∧ (s.th 0).pc = .idle ∧
      returns 0 (marks Ex5.step Ex5.mark (Ex5.init 1) sched) =
        List.replicate (2 ^ 31) (.enq 1) ++ List.replicate (2 ^ 31) (.deq 1 0) ∧
      mallocs 0 (marks Ex5.step Ex5.mark (Ex5.init 1) sched) = 2 ^ 31 ∧
      net (returns 0 (marks Ex5.step Ex5.mark (Ex5.init 1) sched)) = 0 ∧
      (s.mem.store.freeLists 0).size.toInt = -2 ^ 31 := by
  obtain ⟨sched, s, hrun, hquiet, hreturns, hmallocs, hsize, -⟩ :=
    (Ex5.correct 1).exists_recycled 0 (2 ^ 31)
  have hnet : ∀ k : Nat,
      net (List.replicate k (.enq 1) ++ List.replicate k (.deq 1 0)) = 0 := by
    intro k
    simp [net, enqueues, dequeues, List.countP_replicate]
  refine ⟨sched, s, hrun, beq_iff_eq.mp (hquiet 0), hreturns, hmallocs, ?_, ?_⟩
  · exact (congrArg net hreturns).trans (hnet _)
  · exact (congrArg Int32.toInt hsize).trans toInt_two_pow

/-- In `handover` of Ex5 the dequeuer needs no node and keeps the one it has recycled; in one round
of Ex1 the free list is filled once. -/
theorem allocation_law_examples :
    (∃ s, run Ex5.step (Ex5.init 2) (Ex5.handover 0 1) = some s ∧
      AllocationLaw [.enq 1] 1 (s.mem.store.freeLists 0).size ∧
      AllocationLaw [.deq 1 7] 0 (s.mem.store.freeLists 1).size) ∧
    ∃ s, run (runBenchmark (version 1 1) (fun _ => ⟨.fixed, 1, 1⟩) fun _ => ⟨.fixed, 1, 1⟩)
        (benchmarkInit (version 1 1)) (alone 0 ⟨.deq 0, false, some ⟨0, none⟩⟩ 9) = some s ∧
      (s.th 0).w.maxFreeListSize.toInt = 1 ∧ IsGreatest (drawdowns [.enq 1, .deq 1 0]) 1 := by
  refine ⟨?_, ?_⟩
  · obtain ⟨s, hs⟩ : ∃ s, run Ex5.step (Ex5.init 2) (Ex5.handover 0 1) = some s := ⟨_, rfl⟩
    have hidle := run_observe hs (fun s => ((s.th 0).pc, (s.th 1).pc)) rfl
    obtain ⟨h₀, h₁⟩ := Prod.mk.inj hidle
    have hlaw := (allocation_law 2 5).1 (Ex5.handover 0 1) s
    exact ⟨s, hs, hlaw 0 hs (beq_iff_eq.mpr h₀), hlaw 1 hs (beq_iff_eq.mpr h₁)⟩
  · obtain ⟨s, hs⟩ : ∃ s, run (runBenchmark (version 1 1) (fun _ => ⟨.fixed, 1, 1⟩)
        fun _ => ⟨.fixed, 1, 1⟩) (benchmarkInit (version 1 1))
        (alone 0 ⟨.deq 0, false, some ⟨0, none⟩⟩ 9) = some s := ⟨_, rfl⟩
    have hresults : (s.th 0).results = [.enq 1, .deq 1 0] :=
      run_observe hs (fun s => (s.th 0).results) rfl
    obtain ⟨d, hgreatest, hsize⟩ :=
      (allocation_law 1 1).2 _ _ (alone 0 ⟨.deq 0, false, some ⟨0, none⟩⟩ 9) s 0 hs
    rw [hresults] at hgreatest
    have hd : d = 1 := hgreatest.unique (sizes_isGreatest [.enq 1, .deq 1 0])
    rw [hd] at hgreatest hsize
    exact ⟨s, hs, hsize.mpr (by decide), hgreatest⟩

end ConcurrentQueues
