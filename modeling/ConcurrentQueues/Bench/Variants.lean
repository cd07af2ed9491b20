import ConcurrentQueues.Allocation
import ConcurrentQueues.Bench.Balanced
import ConcurrentQueues.Bench.Scripts

/-!
# Variants — the rows that the variants of `bench.sh` write

In the variants b, c and d a thread either enqueues or dequeues, so the nodes that a dequeuer
recycles are never used again.  In variant a a thread takes its nodes back after every round.
-/

namespace ConcurrentQueues

open Reasoning

variable {n : Nat} {t : Fin n} {k k' : Nodes n} {st st' : Stage} {mk : Option Mark} {mem : Bool}

/-! ## All nodes -/

theorem Nodes.brk_call (k : Nodes n) (t : Fin n) (mem : Bool) (op : Op Value) :
    (k.call t mem op).1.brk = k.brk + if k.allocates t mem op then 1 else 0 := by
  cases op with
  | enq v =>
      cases hfree : k.free t <;> cases mem <;> simp [Nodes.call, Nodes.allocates, Nodes.take, hfree]
  | deq out =>
      cases hmain : k.main <;> cases hitems : k.items <;>
        simp [Nodes.call, Nodes.allocates, hmain, hitems]

/-- A node comes from `malloc` with each mark of it. -/
theorem Nodes.Step.brk_eq (h : Nodes.Step t mem mk k st k' st') :
    k'.brk = k.brk + if mk = some .malloc then 1 else 0 := by
  cases h with
  | atomic _ op =>
      rw [Nodes.brk_call]
      cases k.allocates t mem op <;> rfl
  | _ => simp

/-- A mark is counted for its thread. -/
theorem sum_mallocs_snoc (ms : List (Fin n × Mark)) (t : Fin n) (mk : Option Mark) :
    ∑ u, mallocs u (ms ++ (mk.map (t, ·)).toList) =
      ∑ u, mallocs u ms + if mk = some .malloc then 1 else 0 := by
  cases mk with
  | none => simp
  | some mk =>
      simp only [Option.map_some, Option.toList_some, mallocs_concat, Prod.mk.injEq,
        Option.some.injEq, Finset.sum_add_distrib]
      congr 1
      by_cases hmk : mk = .malloc <;> simp [hmk]

/-- The nodes there are: the sentinel of `init_queue` and what the threads have obtained. -/
theorem Queue.Correct.exists_brk {Q : Queue n} (C : Q.Correct) {s : Q.State}
    {sched : List (Fin n × Q.Choice)} (h : run Q.step Q.init sched = some s) :
    ∃ g, C.I s g ∧
      (C.moves.nodes s.mem g).brk = 1 + ∑ t, mallocs t (marks Q.step Q.mark Q.init sched) := by
  refine run_induction (motive := fun es v => ∃ g, C.I v g ∧
    (C.moves.nodes v.mem g).brk = 1 + ∑ t, mallocs t (marks Q.step Q.mark Q.init es)) ?_ ?_ sched s h
  · refine ⟨C.start, C.init, ?_⟩
    rw [C.nodes_init]
    simp [marks, trace, mallocs]
  rintro es ⟨u, c⟩ v w hrun ⟨g, hI, hbrk⟩ hf
  obtain ⟨g', hI', hstep⟩ := C.moves.step hI hf
  refine ⟨g', hI', ?_⟩
  rw [marks_snoc _ hrun, sum_mallocs_snoc, hstep.brk_eq, hbrk, Nat.add_assoc]

namespace Bench

/-! ## The walk of a thread with one role -/

section Walks

variable {rs : List (Res Value)} {obtained : Nat} {size : Int32} {k : Int}

theorem enqueues_take_le (rs : List (Res Value)) (q : Nat) : enqueues (rs.take q) ≤ enqueues rs :=
  (List.take_sublist q rs).countP_le

theorem dequeues_take_le (rs : List (Res Value)) (q : Nat) : dequeues (rs.take q) ≤ dequeues rs :=
  (List.take_sublist q rs).countP_le

/-- Who never dequeues gets every node from `malloc`. -/
theorem obtained_of_enqueuer (hdeq : dequeues rs = 0) (h : AllocationLaw rs obtained size) :
    (obtained : Int) = enqueues rs := by
  have hnet : ∀ q, net (rs.take q) = enqueues (rs.take q) := by
    intro q
    have hle := dequeues_take_le rs q
    unfold net
    omega
  obtain ⟨⟨q, -, hmax⟩, hge⟩ := h.greatest
  have hle := enqueues_take_le rs q
  have hlast := hge ⟨rs.length, le_rfl, rfl⟩
  rw [hnet, List.take_length] at hlast
  rw [hnet] at hmax
  omega

/-- Who never enqueues needs no node. -/
theorem obtained_of_dequeuer (henq : enqueues rs = 0) (h : AllocationLaw rs obtained size) :
    obtained = 0 := by
  obtain ⟨⟨q, -, hmax⟩, -⟩ := h.greatest
  have hle := enqueues_take_le rs q
  unfold net at hmax
  omega

theorem drawdown_of_enqueuer (hdeq : dequeues rs = 0) (h : IsGreatest (drawdowns rs) k) : k = 0 := by
  obtain ⟨⟨p, -, q, hq, hmax⟩, hge⟩ := h
  have hzero := hge ⟨0, Nat.zero_le _, 0, le_rfl, rfl⟩
  have hp := dequeues_take_le rs p
  have hle := enqueues_take_le (rs.take p) q
  rw [List.take_take, Nat.min_eq_left hq] at hle
  simp only [List.take_zero, net_nil, Int.sub_self] at hzero
  unfold net at hmax
  omega

theorem drawdown_of_dequeuer (henq : enqueues rs = 0) (h : IsGreatest (drawdowns rs) k) :
    k = dequeues rs := by
  obtain ⟨⟨p, -, q, hq, hmax⟩, hge⟩ := h
  have hlast := hge ⟨rs.length, le_rfl, 0, Nat.zero_le _, rfl⟩
  have hp := enqueues_take_le rs p
  have hq := enqueues_take_le rs q
  have hle := dequeues_take_le rs p
  simp only [List.take_zero, net_nil, List.take_length] at hlast
  unfold net at hmax hlast
  omega

end Walks

/-! ## The batches of a thread with one role -/

section Roles

variable {Q : Queue n} {enqSpecs deqSpecs : Fin n → BatchSpec} {C : Q.Correct}
  {s : Config (Fin n) Q.Mem (Client Q.Local)} {es : List (Fin n × ClientChoice Q.Choice)}
  {m m' : Q.Mem} {x x' : Client Q.Local} {c : ClientChoice Q.Choice}

/-- The sizes of all batches are samples of the specs of the thread. -/
def Client.Sampled (enqSpec deqSpec : BatchSpec) (x : Client Q.Local) : Prop :=
  ∀ b ∈ x.batches, ∃ r r', b = (enqSpec.sample r, deqSpec.sample r')

theorem ClientStep.sampled (h : ClientStep enqSpecs deqSpecs t c m x m' x')
    (hx : x.Sampled (enqSpecs t) (deqSpecs t)) : x'.Sampled (enqSpecs t) (deqSpecs t) := by
  cases h with
  | batch =>
      intro b hb
      rcases List.mem_append.mp hb with hb | hb
      · exact hx b hb
      · exact ⟨c.enqRand, c.deqRand, List.mem_singleton.mp hb⟩
  | leave | turn | again | call | enqReturn | deqReturn => exact hx

theorem sampled_of_run (h : run (runBenchmark Q enqSpecs deqSpecs) (benchmarkInit Q) es = some s)
    (t : Fin n) : (s.th t).Sampled (enqSpecs t) (deqSpecs t) := by
  refine run_induction (motive := fun _ v => ∀ t, (v.th t).Sampled (enqSpecs t) (deqSpecs t))
    (fun _ _ hb => absurd hb List.not_mem_nil) ?_ es s h t
  rintro es ⟨u, c⟩ v w - ih hf t
  obtain ⟨m', x', hstep, rfl⟩ := fire_eq_some.mp hf
  by_cases htu : t = u
  · subst htu
    simpa only [Function.update_self] using (runBenchmark_cases hstep).sampled (ih t)
  · simpa only [Function.update_of_ne htu] using ih t

theorem Client.Sampled.enqSum_eq_zero {enqSpec deqSpec : BatchSpec}
    (h : x.Sampled enqSpec deqSpec) (hzero : ∀ r, enqSpec.sample r = 0) : x.enqSum = 0 := by
  apply List.sum_eq_zero
  intro z hz
  obtain ⟨b, hb, rfl⟩ := List.mem_map.mp hz
  obtain ⟨r, r', rfl⟩ := h b hb
  simp [hzero]

theorem Client.Sampled.deqSum_eq_zero {enqSpec deqSpec : BatchSpec}
    (h : x.Sampled enqSpec deqSpec) (hzero : ∀ r, deqSpec.sample r = 0) : x.deqSum = 0 := by
  apply List.sum_eq_zero
  intro z hz
  obtain ⟨b, hb, rfl⟩ := List.mem_map.mp hz
  obtain ⟨r, r', rfl⟩ := h b hb
  simp [hzero]

/-- The loop of a dequeuer makes no call of `enq`. -/
theorem failedEnqueues_of_run (C : Q.Correct) (henq : ∀ t, (enqSpecs t).Valid)
    (hdeq : ∀ t, (deqSpecs t).Valid)
    (h : run (runBenchmark Q enqSpecs deqSpecs) (benchmarkInit Q) es = some s)
    (hzero : ∀ r, (enqSpecs t).sample r = 0) :
    (s.th t).enqSize = 0 ∧ failedEnqueues (s.th t).results = 0 := by
  refine run_induction (motive := fun _ v => (v.th t).enqSize = 0 ∧
    failedEnqueues (v.th t).results = 0) ⟨rfl, rfl⟩ ?_ es s h
  rintro es ⟨u, c⟩ v w hrun ih hf
  obtain ⟨g, hregion⟩ := exists_region C henq hdeq hrun
  obtain ⟨m', x', hstep, rfl⟩ := fire_eq_some.mp hf
  by_cases htu : t = u
  · subst htu
    simp only [Function.update_self]
    cases runBenchmark_cases hstep with
    | batch => exact ⟨hzero _, ih.2⟩
    | leave | turn | again | call => exact ih
    | enqReturn hloc hcalls hs hmark =>
        -- the condition of the loop has held since the call
        have hbusy := ((hregion.ledger t).ret hregion.inv hs hmark).2.1
        have hwithin := (hregion.ledger t).within hbusy
        have hprogress := (hregion.ledger t).progress
        simp only [Client.Within, Client.Progress, hloc, ih.1] at hwithin hprogress
        have hlt := Int32.lt_iff_toInt_lt.mp hwithin
        rw [Int32.toInt_zero] at hlt
        omega
    | deqReturn hloc hcalls hs hmark =>
        exact ⟨ih.1, (failedEnqueues_snoc_deq _ _ _).trans ih.2⟩
  · simpa only [Function.update_of_ne htu] using ih

/-- What the row of a thread says that only enqueues. -/
structure EnqueuerRow (w : Worker) : Prop where
  deqCount : w.deqCount = 0
  failedDeqCount : w.failedDeqCount = 0
  freeListInsertions : w.freeListInsertions = 0
  maxFreeListSize : w.maxFreeListSize = 0

/-- What the row of a thread says that only dequeues: its free list is never drawn from. -/
structure DequeuerRow (w : Worker) : Prop where
  enqCount : w.enqCount = 0
  failedEnqCount : w.failedEnqCount = 0
  freeListInsertions : w.freeListInsertions = w.deqCount
  maxFreeListSize : w.maxFreeListSize = w.deqCount

theorem enqueuerRow (hbooks : Books x.w x.results) (hentered : Entered x)
    (hdeq : dequeues x.results = 0) (hfailed : failedDequeues x.results = 0) :
    EnqueuerRow x.w := by
  have hmax : highWater (sizes x.results) = 0 :=
    drawdown_of_enqueuer hdeq (sizes_isGreatest x.results)
  have hfits := hentered
  rw [Entered, hmax] at hfits
  exact
  { deqCount := by rw [hbooks.deqCount, hdeq]; rfl
    failedDeqCount := by rw [hbooks.failedDeqCount, hfailed]; rfl
    freeListInsertions := by rw [hbooks.freeListInsertions, hdeq]; rfl
    maxFreeListSize := Int32.toInt_inj.mp (hfits (by decide)) }

theorem dequeuerRow (hbooks : Books x.w x.results) (hentered : Entered x)
    (hfits : Fits x.results) (henq : enqueues x.results = 0)
    (hfailed : failedEnqueues x.results = 0) : DequeuerRow x.w := by
  have hmax : highWater (sizes x.results) = dequeues x.results :=
    drawdown_of_dequeuer henq (sizes_isGreatest x.results)
  have hlt := hfits.deq
  have hmax' := hentered (by omega)
  exact
  { enqCount := by rw [hbooks.enqCount, henq]; rfl
    failedEnqCount := by rw [hbooks.failedEnqCount, hfailed]; rfl
    freeListInsertions := by rw [hbooks.freeListInsertions, hbooks.deqCount]
    maxFreeListSize := by
      rw [hbooks.deqCount, ← Int32.toInt_inj, hmax', hmax, Int32.toInt_ofNat_of_lt hlt] }

/-- The rows at the end, and the nodes that have been needed. -/
theorem rows_of_roles (C : Q.Correct) {b : Int32} (hb : 0 ≤ b.toInt) (role : Fin n → Bool)
    (h : run (runBenchmark Q (fun t => roleSpec (role t) b) fun t => roleSpec (!role t) b)
      (benchmarkInit Q) es = some s)
    (hdone : ∀ t, (s.th t).loc = .done) (hfits : ∀ t, Fits (s.th t).results) :
    (∀ t, if role t then EnqueuerRow (s.th t).w else DequeuerRow (s.th t).w) ∧
      ((Q.store s.mem).brk : Int) = 1 + ∑ t, (s.th t).w.enqCount.toInt := by
  have hvalid : ∀ active, (roleSpec active b).Valid := fun active => (roleSpec_parsed hb active).valid
  obtain ⟨g, hregion⟩ := exists_region C (fun _ => hvalid _) (fun _ => hvalid _) h
  have hidle : ∀ t, Q.idle (s.th t).l = true :=
    fun t => (hregion.ledger t).idle (by simp [hdone t, Loc.kind])
  have hbooks := fun t => (hregion.ledger t).books
  have hprogress := fun t => (hregion.ledger t).progress
  simp only [Client.Progress, hdone] at hprogress
  -- the sums of the sizes of the other role are 0
  have hrole : ∀ t, if role t then dequeues (s.th t).results = 0 ∧ failedDequeues (s.th t).results = 0
      else enqueues (s.th t).results = 0 ∧ failedEnqueues (s.th t).results = 0 := by
    intro t
    have hsampled := sampled_of_run h t
    have hlaw := hprogress t
    cases ht : role t with
    | true =>
        have hsum := hsampled.deqSum_eq_zero (by simp [ht, roleSpec_sample])
        simp only [if_true]
        omega
    | false =>
        have hzero : ∀ r, (roleSpec (role t) b).sample r = 0 := by simp [ht, roleSpec_sample]
        have hsum := hsampled.enqSum_eq_zero hzero
        have hfailed := failedEnqueues_of_run C (fun _ => hvalid _) (fun _ => hvalid _) h hzero
        simp only [Bool.false_eq_true, if_false]
        exact ⟨by omega, hfailed.2⟩
  constructor
  · intro t
    have hcalls := hrole t
    split at hcalls
    next ht =>
      rw [if_pos ht]
      exact enqueuerRow (hbooks t) (entered_of_run C h t) hcalls.1 hcalls.2
    next ht =>
      rw [if_neg ht]
      exact dequeuerRow (hbooks t) (entered_of_run C h t) (hfits t) hcalls.1 hcalls.2
  · obtain ⟨fs, hrun, hresults⟩ := exists_queueRun h
    obtain ⟨g', hI, hbrk⟩ := C.exists_brk hrun
    have hnodes := (C.carries hI hidle).brk
    rw [hbrk] at hnodes
    rw [show (Q.store s.mem).brk = _ from hnodes.symm]
    push_cast
    congr 1
    refine Finset.sum_congr rfl fun t _ => ?_
    have hlaw := C.allocationLaw hrun (hidle t)
    rw [hresults] at hlaw
    have hcalls := hrole t
    rw [(hbooks t).enqCount, Int32.toInt_ofNat_of_lt (hfits t).enq]
    split at hcalls
    · exact obtained_of_enqueuer hcalls.1 hlaw
    · rw [obtained_of_dequeuer hcalls.1 hlaw, hcalls.1]

end Roles

section Rounds

variable {Q : Queue n} {s : Config (Fin n) Q.Mem (Client Q.Local)}
  {es : List (Fin n × ClientChoice Q.Choice)} {m m' : Q.Mem} {x x' : Client Q.Local}
  {c : ClientChoice Q.Choice} {b : Int32}

/-- What the thread has in the queue beyond its dequeues, by its place in the loop. -/
def Loc.level (b : Int32) : Loc → Int
  | .enq i => i.toInt
  | .deq i => b.toInt - i.toInt
  | .top | .done => 0

/-- The walk of a thread whose batches all have size `b`. -/
structure Paced (b : Int32) (x : Client Q.Local) : Prop where
  sized : x.loc.kind ≠ none → x.enqSize = b ∧ x.deqSize = b
  band : ∀ q, 0 ≤ net (x.results.take q) ∧ net (x.results.take q) ≤ b.toInt
  peak : x.loc.kind ≠ some .enq → x.batches ≠ [] →
    ∃ q ≤ x.results.length, net (x.results.take q) = b.toInt

/-- Every batch has size `b`. -/
theorem Client.Sampled.batch_eq (h : x.Sampled (roleSpec true b) (roleSpec true b)) :
    ∀ d ∈ x.batches, d = (b, b) := by
  intro d hd
  obtain ⟨r, r', rfl⟩ := h d hd
  simp [roleSpec_sample]

theorem Client.Sampled.sums_eq (h : x.Sampled (roleSpec true b) (roleSpec true b)) :
    x.enqSum = x.batches.length * b.toInt ∧ x.deqSum = x.batches.length * b.toInt := by
  have hreplicate := List.eq_replicate_of_mem h.batch_eq
  unfold Client.enqSum Client.deqSum
  rw [hreplicate]
  simp

theorem net_level (hprogress : x.Progress) (hfailed : failedDequeues x.results = 0)
    (hsampled : x.Sampled (roleSpec true b) (roleSpec true b))
    (hsized : x.loc.kind ≠ none → x.enqSize = b ∧ x.deqSize = b) :
    net x.results = x.loc.level b := by
  obtain ⟨henq, hdeq⟩ := hsampled.sums_eq
  unfold net
  cases hloc : x.loc with
  | top | done =>
      simp only [Client.Progress, hloc] at hprogress
      simp only [Loc.level]
      omega
  | enq i | deq i =>
      have hsize := hsized (by simp [hloc, Loc.kind])
      simp only [Client.Progress, hloc, hsize] at hprogress
      simp only [Loc.level]
      omega

/-- The level is between 0 and the size of a batch. -/
theorem level_mem (hb : 0 ≤ b.toInt) (hprogress : x.Progress)
    (hsized : x.loc.kind ≠ none → x.enqSize = b ∧ x.deqSize = b) :
    0 ≤ x.loc.level b ∧ x.loc.level b ≤ b.toInt := by
  cases hloc : x.loc with
  | top | done => exact ⟨le_rfl, hb⟩
  | enq i | deq i =>
      have hsize := hsized (by simp [hloc, Loc.kind])
      simp only [Client.Progress, hloc, hsize] at hprogress
      simp only [Loc.level]
      omega

/-- A result more. -/
theorem net_take_concat {rs : List (Res Value)} {P : Int → Prop} (h : ∀ q, P (net (rs.take q)))
    (res : Option (Res Value)) (hlast : P (net (rs ++ res.toList))) (q : Nat) :
    P (net ((rs ++ res.toList).take q)) := by
  by_cases hq : q ≤ rs.length
  · rw [List.take_append_of_le_length hq]
    exact h q
  · rw [List.take_of_length_le]
    · exact hlast
    · cases res <;> simp <;> omega

theorem exists_take_append {rs : List (Res Value)} {k : Int}
    (h : ∃ q ≤ rs.length, net (rs.take q) = k) (rs' : List (Res Value)) :
    ∃ q ≤ (rs ++ rs').length, net ((rs ++ rs').take q) = k := by
  obtain ⟨q, hq, hk⟩ := h
  refine ⟨q, hq.trans ?_, ?_⟩
  · rw [List.length_append]
    exact Nat.le_add_right _ _
  · rwa [List.take_append_of_le_length hq]

/-- A step of a thread, given what holds after it. -/
theorem Paced.step (hb : 0 ≤ b.toInt)
    (hs : ClientStep (fun _ => roleSpec true b) (fun _ => roleSpec true b) t c m x m' x')
    (h : Paced b x) (hprogress : x'.Progress) (hfailed : failedDequeues x'.results = 0)
    (hsampled : x'.Sampled (roleSpec true b) (roleSpec true b)) : Paced b x' := by
  have hsized : x'.loc.kind ≠ none → x'.enqSize = b ∧ x'.deqSize = b := by
    cases hs with
    | batch => exact fun _ => ⟨roleSpec_sample true b c.enqRand, roleSpec_sample true b c.deqRand⟩
    | leave => exact fun hkind => absurd rfl hkind
    | again => exact fun hkind => absurd rfl hkind
    | turn hloc | enqReturn hloc | deqReturn hloc =>
        exact fun _ => h.sized (by simp [hloc, Loc.kind])
    | call => exact h.sized
  have hlevel := net_level hprogress hfailed hsampled hsized
  have hmem := level_mem hb hprogress hsized
  rw [← hlevel] at hmem
  refine ⟨hsized, ?_, ?_⟩
  · obtain ⟨-, -, hres⟩ | ⟨op, -, -, hres⟩ := hs.queue
    · rw [hres]
      exact h.band
    · rw [hres] at hmem ⊢
      exact net_take_concat (P := fun z => 0 ≤ z ∧ z ≤ b.toInt) h.band _ hmem
  · cases hs with
    | batch | enqReturn => exact fun hkind => absurd rfl hkind
    | leave hloc => exact fun _ => h.peak (by simp [hloc, Loc.kind])
    | again hloc => exact fun _ => h.peak (by simp [hloc, Loc.kind])
    | call => exact h.peak
    | deqReturn hloc =>
        exact fun _ hne => exists_take_append (h.peak (by simp [hloc, Loc.kind]) hne) _
    | turn hloc =>
        -- the enqueue batch is complete
        intro _ _
        refine ⟨x.results.length, le_rfl, ?_⟩
        rw [List.take_length]
        simpa [Loc.level] using hlevel

/-- The sizes are those of a balanced region. -/
theorem balanced_of_rounds
    (h : run (runBenchmark Q (fun _ => roleSpec true b) fun _ => roleSpec true b)
      (benchmarkInit Q) es = some s) (u : Fin n) : (s.th u).Balanced := by
  intro d hd
  rw [(sampled_of_run h u).batch_eq d hd]
  exact Int32.le_refl b

theorem paced_of_run (C : Q.Correct) (hb : 0 ≤ b.toInt)
    (h : run (runBenchmark Q (fun _ => roleSpec true b) fun _ => roleSpec true b)
      (benchmarkInit Q) es = some s) (t : Fin n) : Paced b (s.th t) := by
  have hvalid : (roleSpec true b).Valid := (roleSpec_parsed hb true).valid
  refine run_induction (motive := fun _ v => ∀ t, Paced b (v.th t)) ?_ ?_ es s h t
  · refine fun t => ⟨fun hkind => absurd rfl hkind, fun q => ?_, fun _ hne => absurd rfl hne⟩
    simp [benchmarkInit, hb]
  rintro es ⟨u, c⟩ v w hrun ih hf t
  have hrun' := run_snoc.mpr ⟨v, hrun, hf⟩
  have hsampled := sampled_of_run hrun' t
  obtain ⟨g, hg⟩ := exists_undisturbed C (fun _ => hvalid) (fun _ => hvalid) hrun'
    (balanced_of_rounds hrun')
  have hprogress := (hg.region.ledger t).progress
  have hfailed := failedDequeues_eq_zero (hg.results t)
  obtain ⟨m', x', hstep, rfl⟩ := fire_eq_some.mp hf
  by_cases htu : t = u
  · subst htu
    simp only [Function.update_self] at hsampled hprogress hfailed ⊢
    exact (ih t).step hb (runBenchmark_cases hstep) hprogress hfailed hsampled
  · simpa only [Function.update_of_ne htu] using ih t

/-- What a walk between 0 and `b` that ends at 0 needs, if it has reached `b`. -/
theorem Paced.obtained {obtained : Nat} {size : Int32} (h : Paced b x) (hdone : x.loc = .done)
    (hne : x.batches ≠ []) (hlaw : AllocationLaw x.results obtained size) :
    (obtained : Int) = b.toInt := by
  obtain ⟨⟨q, -, hmax⟩, hge⟩ := hlaw.greatest
  obtain ⟨p, hp, hpeak⟩ := h.peak (by simp [hdone, Loc.kind]) hne
  have hband := h.band q
  have hle := hge ⟨p, hp, rfl⟩
  omega

theorem Paced.drawdown {k : Int} (h : Paced b x) (hdone : x.loc = .done) (hne : x.batches ≠ [])
    (hlast : net x.results = 0) (hgreatest : IsGreatest (drawdowns x.results) k) :
    k = b.toInt := by
  obtain ⟨⟨p, -, q, -, hmax⟩, hge⟩ := hgreatest
  obtain ⟨q', hq', hpeak⟩ := h.peak (by simp [hdone, Loc.kind]) hne
  have hp := h.band p
  have hq := h.band q
  have hle := hge ⟨x.results.length, le_rfl, q', hq', rfl⟩
  rw [List.take_length] at hle
  omega

/-- What the row of a thread of variant a says. -/
structure RoundsRow (b : Int32) (x : Client Q.Local) : Prop where
  enqCount : x.w.enqCount.toInt = x.batches.length * b.toInt
  deqCount : x.w.deqCount = x.w.enqCount
  failedDeqCount : x.w.failedDeqCount = 0
  freeListInsertions : x.w.freeListInsertions = x.w.enqCount
  maxFreeListSize : x.w.maxFreeListSize = if x.batches = [] then 0 else b

theorem roundsRow (hbooks : Books x.w x.results) (hprogress : x.Progress) (hentered : Entered x)
    (hpaced : Paced b x) (hsampled : x.Sampled (roleSpec true b) (roleSpec true b))
    (hfailed : failedDequeues x.results = 0) (hdone : x.loc = .done) (hfits : Fits x.results) :
    RoundsRow b x := by
  obtain ⟨henq, hdeq⟩ := hsampled.sums_eq
  have hlevel := net_level hprogress hfailed hsampled hpaced.sized
  simp only [Client.Progress, hdone] at hprogress
  rw [hdone, Loc.level] at hlevel
  have heq : dequeues x.results = enqueues x.results := by
    unfold net at hlevel
    omega
  exact
  { enqCount := by
      rw [hbooks.enqCount, Int32.toInt_ofNat_of_lt hfits.enq, hprogress.1, henq]
    deqCount := by rw [hbooks.deqCount, hbooks.enqCount, heq]
    failedDeqCount := by rw [hbooks.failedDeqCount, hfailed]; rfl
    freeListInsertions := by rw [hbooks.freeListInsertions, hbooks.enqCount, heq]
    maxFreeListSize := by
      have hgreatest := sizes_isGreatest x.results
      by_cases hnone : x.batches = []
      · rw [hnone, List.length_nil, Int.ofNat_zero, Int.zero_mul] at hdeq
        have hmax := drawdown_of_enqueuer (by omega) hgreatest
        have hfit := hentered
        rw [Entered, hmax] at hfit
        rw [if_pos hnone]
        exact Int32.toInt_inj.mp (hfit (by decide))
      · have hmax := hpaced.drawdown hdone hnone hlevel hgreatest
        have hlt : b.toInt < 2 ^ 31 := b.toInt_lt
        rw [if_neg hnone, ← Int32.toInt_inj, hentered (by omega), hmax] }

/-- A thread with a round has needed the nodes of one batch. -/
theorem brk_of_rounds (C : Q.Correct) (hb : 0 ≤ b.toInt)
    (h : run (runBenchmark Q (fun _ => roleSpec true b) fun _ => roleSpec true b)
      (benchmarkInit Q) es = some s) (hdone : ∀ t, (s.th t).loc = .done)
    (hidle : ∀ t, Q.idle (s.th t).l = true) (hprogress : ∀ t, (s.th t).Progress) :
    ((Q.store s.mem).brk : Int) = 1 + ∑ t, (if (s.th t).batches = [] then 0 else b.toInt) := by
  obtain ⟨fs, hrun, hresults⟩ := exists_queueRun h
  obtain ⟨g, hI, hnodes⟩ := C.exists_brk hrun
  have hcarries := (C.carries hI hidle).brk
  rw [hnodes] at hcarries
  rw [show (Q.store s.mem).brk = _ from hcarries.symm]
  push_cast
  congr 1
  refine Finset.sum_congr rfl fun t _ => ?_
  have hlaw := C.allocationLaw hrun (hidle t)
  rw [hresults] at hlaw
  split
  next hnone =>
    have hsum := ((sampled_of_run h t).sums_eq).1
    have henq := hprogress t
    simp only [Client.Progress, hdone] at henq
    rw [hnone, List.length_nil, Int.ofNat_zero, Int.zero_mul] at hsum
    rw [obtained_of_dequeuer (by omega) hlaw]
    rfl
  next hne => exact (paced_of_run C hb h t).obtained (hdone t) hne hlaw

theorem rows_of_rounds (C : Q.Correct) (hb : 0 ≤ b.toInt)
    (h : run (runBenchmark Q (fun _ => roleSpec true b) fun _ => roleSpec true b)
      (benchmarkInit Q) es = some s) (hdone : ∀ t, (s.th t).loc = .done) :
    ((∀ t, Fits (s.th t).results) → ∀ t, RoundsRow b (s.th t)) ∧
      ((Q.store s.mem).brk : Int) = 1 + ∑ t, (if (s.th t).batches = [] then 0 else b.toInt) := by
  have hvalid : (roleSpec true b).Valid := (roleSpec_parsed hb true).valid
  obtain ⟨g, hg⟩ := exists_undisturbed C (fun _ => hvalid) (fun _ => hvalid) h
    (balanced_of_rounds h)
  have hledger := hg.region.ledger
  have hidle : ∀ t, Q.idle (s.th t).l = true :=
    fun t => (hledger t).idle (by simp [hdone t, Loc.kind])
  refine ⟨fun hfits t => ?_, brk_of_rounds C hb h hdone hidle fun t => (hledger t).progress⟩
  exact roundsRow (hledger t).books (hledger t).progress (entered_of_run C h t)
    (paced_of_run C hb h t) (sampled_of_run h t) (failedDequeues_eq_zero (hg.results t)) (hdone t)
    (hfits t)

end Rounds

end Bench

end ConcurrentQueues
