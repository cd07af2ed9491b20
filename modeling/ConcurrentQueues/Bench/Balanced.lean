import ConcurrentQueues.Bench.Counters
import Mathlib.Algebra.Order.BigOperators.Group.Finset

/-!
# Balanced — workloads that never find the queue empty

If no batch of any thread dequeues more than it enqueues, no thread has ever taken more out of the
queue than it has put in, and a thread inside a dequeue batch has put in more.  The length of the
queue is the sum of these surpluses, so a call of `deq` always finds an element, perhaps of another
thread.
-/

namespace ConcurrentQueues

open Reasoning

variable {n : Nat} {t : Fin n} {mem : Bool} {mk : Option Mark} {k k' : Nodes n} {st st' : Stage}

/-- The result of a successful call, or of an `enq`. -/
def Res.Served : Res Value → Prop
  | .deq code _ => code = 1
  | .enq _ => True

/-- The open call is no `deq` that has found the queue empty. -/
def Stage.Served : Stage → Prop
  | .emptied _ => False
  | .done res => Res.Served res
  | _ => True

theorem call_served (k : Nodes n) (t : Fin n) (mem : Bool) (op : Op Value)
    (hlen : k.main.length = k.items.length + 1)
    (hitems : Kind.ofOp op = .deq → k.items ≠ []) : Res.Served (k.call t mem op).2 := by
  cases op with
  | enq v =>
      by_cases hmem : k.free t = [] ∧ mem = false <;> simp [Nodes.call, hmem, Res.Served]
  | deq out =>
      cases hitem : k.items with
      | nil => exact absurd hitem (hitems rfl)
      | cons v items =>
          cases hmain : k.main with
          | nil => simp [hmain] at hlen
          | cons p main => simp [Nodes.call, hmain, hitem, Res.Served]

/-- A `deq` whose every step has an element before it does not fail. -/
theorem Nodes.Step.served (h : Nodes.Step t mem mk k st k' st') (hst : st.Served)
    (hlen : k.main.length = k.items.length + 1)
    (hitems : ∀ op, st = .called op → Kind.ofOp op = .deq → k.items ≠ []) : st'.Served := by
  cases h with
  | silent => exact hst
  | peek _ out hempty => exact absurd hempty (hitems _ rfl rfl)
  | settle _ out => exact absurd hst id
  | push => rfl
  | atomic _ op => exact call_served k t mem op hlen (hitems op rfl)
  | call | pop | malloc | outOfMemory | append | retry | unlink | ret => trivial

/-! ## What a thread has put in beyond what it has taken out -/

theorem neg_one_le_surplus (st : Stage) : -1 ≤ st.surplus := by
  cases st with
  | done res =>
      cases res with
      | enq code => by_cases hone : code = 1 <;> simp [Stage.surplus, net, enqueues, dequeues, hone]
      | deq code out =>
          by_cases hone : code = 1 <;> simp [Stage.surplus, net, enqueues, dequeues, hone]
  | _ => simp [Stage.surplus]

/-- Only a `deq` takes something out. -/
theorem surplus_nonneg (hkind : st.kind ≠ some .deq) : 0 ≤ st.surplus := by
  cases st with
  | unlinked v p => exact absurd rfl hkind
  | done res =>
      cases res with
      | enq code => by_cases hone : code = 1 <;> simp [Stage.surplus, net, enqueues, dequeues, hone]
      | deq code out => exact absurd rfl hkind
  | _ => exact le_rfl

namespace Bench

section Client

variable {L : Type} {x : Client L}

/-- No batch dequeues more than it enqueues. -/
def Client.Balanced (x : Client L) : Prop := ∀ b ∈ x.batches, b.2 ≤ b.1

/-- The sizes in use are those of a batch. -/
def Client.Current (x : Client L) : Prop :=
  ∀ i, x.loc = .enq i → (x.enqSize, x.deqSize) ∈ x.batches

theorem balanced_sum (x : Client L) :
    x.enqSum - x.deqSum = (x.batches.map fun b => b.1.toInt - b.2.toInt).sum := by
  rw [Client.enqSum, Client.deqSum]
  induction x.batches with
  | nil => rfl
  | cons b bs ih =>
      simp only [List.map_cons, List.sum_cons]
      omega

theorem Client.Balanced.diff_nonneg (h : x.Balanced) :
    ∀ d ∈ x.batches.map fun b => b.1.toInt - b.2.toInt, 0 ≤ d := by
  intro d hd
  obtain ⟨b, hb, rfl⟩ := List.mem_map.mp hd
  have hle := Int32.le_iff_toInt_le.mp (h b hb)
  omega

theorem Client.Balanced.deqSum_le (h : x.Balanced) : x.deqSum ≤ x.enqSum := by
  have hsum := balanced_sum x
  have hnonneg := List.sum_nonneg h.diff_nonneg
  omega

/-- Before the enqueue batch has begun, the earlier batches are balanced as well. -/
theorem Client.Balanced.current_le (h : x.Balanced) {i : Int32} (hcur : x.Current)
    (hloc : x.loc = .enq i) : x.deqSum + x.enqSize.toInt ≤ x.enqSum + x.deqSize.toInt := by
  have hsum := balanced_sum x
  have hmem := List.mem_map_of_mem (f := fun b : Int32 × Int32 => b.1.toInt - b.2.toInt)
    (hcur i hloc)
  have hle := List.single_le_sum h.diff_nonneg _ hmem
  dsimp only at hle
  omega

/-- What the thread has put in beyond what it has taken out. -/
theorem Client.Progress.net_nonneg (h : x.Progress) (hbal : x.Balanced) (hcur : x.Current) :
    0 ≤ net x.results := by
  have hall := hbal.deqSum_le
  unfold net
  cases hloc : x.loc with
  | top | done =>
      simp only [Client.Progress, hloc] at h
      omega
  | enq i =>
      have hearlier := hbal.current_le hcur hloc
      simp only [Client.Progress, hloc] at h
      omega
  | deq i =>
      simp only [Client.Progress, hloc] at h
      omega

/-- Inside a dequeue batch it is more. -/
theorem Client.Progress.one_le_net (h : x.Progress) (hbal : x.Balanced) {i : Int32}
    (hloc : x.loc = .deq i) (hlt : i < x.deqSize) : 1 ≤ net x.results := by
  have hall := hbal.deqSum_le
  have hlt' := Int32.lt_iff_toInt_lt.mp hlt
  simp only [Client.Progress, hloc] at h
  unfold net
  omega

end Client

/-! ## The region -/

section Region

variable {Q : Queue n} {enqSpecs deqSpecs : Fin n → BatchSpec} {C : Q.Correct}
  {s : Config (Fin n) Q.Mem (Client Q.Local)} {es : List (Fin n × ClientChoice Q.Choice)}
  {c : ClientChoice Q.Choice} {m m' : Q.Mem} {x x' : Client Q.Local}

/-- A step may begin a batch; it forgets none. -/
theorem ClientStep.batches (h : ClientStep enqSpecs deqSpecs t c m x m' x') :
    x.batches ⊆ x'.batches := by
  cases h with
  | batch => exact List.subset_append_left _ _
  | _ => exact List.Subset.refl _

theorem ClientStep.current (h : ClientStep enqSpecs deqSpecs t c m x m' x') (hcur : x.Current) :
    x'.Current := by
  cases h with
  | batch => exact fun _ _ => List.mem_append_right _ (List.mem_singleton.mpr rfl)
  | leave | turn | again | deqReturn => exact fun _ hloc => by cases hloc
  | call => exact hcur
  | enqReturn hloc => exact fun _ _ => hcur _ hloc

/-- What a thread adds to the length of the queue, its open call included. -/
theorem Ledger.term_nonneg (h : Ledger C m t x) (hbal : x.Balanced) (hcur : x.Current) :
    0 ≤ net x.results + (C.moves.stage x.l).surplus := by
  have hnet := h.progress.net_nonneg hbal hcur
  by_cases hkind : (C.moves.stage x.l).kind = some .deq
  · -- an open `deq` may have taken one element, but then the batch is not over
    have hbusy : Q.idle x.l = false := C.busy_of_stage fun hidle => by
      rw [hidle] at hkind
      cases hkind
    have hwithin := h.within hbusy
    rw [h.kind hbusy] at hkind
    cases hloc : x.loc with
    | deq i =>
        simp only [Client.Within, hloc] at hwithin
        have hone := h.progress.one_le_net hbal hloc hwithin
        have hle := neg_one_le_surplus (C.moves.stage x.l)
        omega
    | top | enq | done =>
        rw [hloc] at hkind
        cases hkind
  · have hle := surplus_nonneg hkind
    omega

/-- A thread that is about to dequeue has put in more than it has taken out. -/
theorem Ledger.one_le_term (h : Ledger C m t x) (hbal : x.Balanced) {op : Op Value}
    (hstage : C.moves.stage x.l = .called op) (hop : Kind.ofOp op = .deq) :
    1 ≤ net x.results + (C.moves.stage x.l).surplus := by
  have hbusy : Q.idle x.l = false := C.busy_of_stage (by simp [hstage])
  have hkind := h.kind hbusy
  have hwithin := h.within hbusy
  rw [hstage, Stage.kind, hop] at hkind
  cases hloc : x.loc with
  | deq i =>
      simp only [Client.Within, hloc] at hwithin
      have hone := h.progress.one_le_net hbal hloc hwithin
      simpa [hstage, Stage.surplus] using hone
  | top | enq | done =>
      rw [hloc] at hkind
      cases hkind

/-- What is known of a balanced region, besides `Region`: no call of `deq` has failed or is going to
fail. -/
structure Undisturbed (C : Q.Correct) (s : Config (Fin n) Q.Mem (Client Q.Local)) (g : C.G) :
    Prop where
  region : Region C s g
  length_main : (C.moves.nodes s.mem g).main.length = (C.moves.nodes s.mem g).items.length + 1
  current : ∀ t, (s.th t).Current
  served : ∀ t, (C.moves.stage (s.th t).l).Served
  results : ∀ t, ∀ res ∈ (s.th t).results, Res.Served res

/-- The queue is not empty when a `deq` looks for an element. -/
theorem Undisturbed.items_ne_nil {g : C.G} (h : Undisturbed C s g) (hbal : ∀ u, (s.th u).Balanced)
    {op : Op Value} (hstage : C.moves.stage (s.th t).l = .called op) (hop : Kind.ofOp op = .deq) :
    (C.moves.nodes s.mem g).items ≠ [] := by
  intro hempty
  have hlen := h.region.length
  have hone := (h.region.ledger t).one_le_term (hbal t) hstage hop
  have hle := Finset.single_le_sum
    (fun u _ => (h.region.ledger u).term_nonneg (hbal u) (h.current u)) (Finset.mem_univ t)
  rw [hempty, List.length_nil] at hlen
  omega

theorem Undisturbed.step (henq : ∀ t, (enqSpecs t).Valid) (hdeq : ∀ t, (deqSpecs t).Valid)
    {g : C.G} (h : Undisturbed C s g) (hbal : ∀ u, (s.th u).Balanced)
    (hs : ClientStep enqSpecs deqSpecs t c s.mem (s.th t) m' x') :
    ∃ g', Undisturbed C ⟨m', Function.update s.th t x'⟩ g' := by
  obtain ⟨g', mem, mk, hregion, hmove, hres⟩ := h.region.step henq hdeq hs
  have hserved := hmove.served (h.served t) h.length_main fun _ => h.items_ne_nil hbal
  refine ⟨g', hregion, hmove.length_main h.length_main, ?_, ?_, ?_⟩ <;> intro u <;>
    by_cases hu : u = t
  · subst hu
    simpa using hs.current (h.current u)
  · simpa [Function.update_of_ne hu] using h.current u
  · subst hu
    simpa using hserved
  · simpa [Function.update_of_ne hu] using h.served u
  · subst hu
    intro res hmem
    simp only [Function.update_self, hres, List.mem_append] at hmem
    rcases hmem with hold | hnew
    · exact h.results u res hold
    · -- the call that returns has the result it was settled with
      have hdone := hmove.stage_of_ret (Mark.result_eq_some.mp (Option.mem_toList.mp hnew))
      have hold := h.served u
      rwa [hdone] at hold
  · simpa [Function.update_of_ne hu] using h.results u

theorem exists_undisturbed (C : Q.Correct) (henq : ∀ t, (enqSpecs t).Valid)
    (hdeq : ∀ t, (deqSpecs t).Valid)
    (h : run (runBenchmark Q enqSpecs deqSpecs) (benchmarkInit Q) es = some s)
    (hbal : ∀ u, (s.th u).Balanced) : ∃ g, Undisturbed C s g := by
  revert hbal
  refine run_induction (motive := fun _ v => (∀ u, (v.th u).Balanced) → ∃ g, Undisturbed C v g)
    ?_ ?_ es s h
  · intro _
    have hstage : ∀ t, C.moves.stage (Q.init.th t) = .idle :=
      fun t => (C.idle_iff _).mp (C.quiet_init t)
    refine ⟨C.start, region_init C, ?_, fun _ _ hloc => (by cases hloc), fun t => ?_,
      fun _ _ hres => absurd hres List.not_mem_nil⟩
    · simp [benchmarkInit, C.nodes_init]
    · simp [benchmarkInit, hstage, Stage.Served]
  · rintro es ⟨t, c⟩ v w - ih hf hbal
    obtain ⟨m', x', hstep, rfl⟩ := fire_eq_some.mp hf
    have hs := runBenchmark_cases hstep
    have hbefore : ∀ u, (v.th u).Balanced := by
      intro u b hb
      have hafter := hbal u b
      by_cases hu : u = t
      · subst hu
        exact hafter (by simpa using hs.batches hb)
      · exact hafter (by simpa [Function.update_of_ne hu] using hb)
    obtain ⟨g, hg⟩ := ih hbefore
    exact hg.step henq hdeq hbefore hs

end Region

theorem failedDequeues_eq_zero {rs : List (Res Value)} (h : ∀ res ∈ rs, Res.Served res) :
    failedDequeues rs = 0 := by
  rw [failedDequeues, List.countP_eq_zero]
  intro res hres
  cases res with
  | enq code => simp
  | deq code out =>
      have hone : code = 1 := h _ hres
      simp [hone]

/-- **No spurious `empty`.**  If no batch has dequeued more than it has enqueued, every call of
`deq` has returned 1, in all threads and under all interleavings; `NrFailedDeqOps` is 0.  The
benchmark runs version 1 with one thread only. -/
theorem balanced_dequeues_succeed (n v : Nat) (enqSpecs deqSpecs : Fin n → BatchSpec)
    (henq : ∀ t, (enqSpecs t).Valid) (hdeq : ∀ t, (deqSpecs t).Valid)
    {es : List (Fin n × ClientChoice (version n v).Choice)}
    {s : Config (Fin n) (version n v).Mem (Client (version n v).Local)}
    (h : run (runBenchmark (version n v) enqSpecs deqSpecs) (benchmarkInit (version n v)) es =
      some s)
    (hbalanced : ∀ t, ∀ b ∈ (s.th t).batches, b.2 ≤ b.1) (t : Fin n) :
    (∀ code out, .deq code out ∈ (s.th t).results → code = 1) ∧
      (s.th t).w.failedDeqCount = 0 := by
  obtain ⟨C⟩ := version_correct n v
  obtain ⟨g, hg⟩ := exists_undisturbed C henq hdeq h hbalanced
  refine ⟨fun code out hmem => hg.results t _ hmem, ?_⟩
  rw [(hg.region.ledger t).books.failedDeqCount, failedDequeues_eq_zero (hg.results t)]
  rfl

set_option maxRecDepth 2000 in
/-- Two threads of Ex5 with one round each: thread 1 enqueues first, and each of them dequeues the
element of the other. -/
theorem balanced_dequeues_succeed_crossed :
    ∃ s, run (runBenchmark (version 2 5) (fun _ => ⟨.fixed, 1, 1⟩) fun _ => ⟨.fixed, 1, 1⟩)
        (benchmarkInit (version 2 5))
        (List.replicate 17 (1, ⟨true, 0, 0, 0, .plain (.deq 0)⟩) ++
          (alone 0 (.plain (.deq 0)) 49 ++ alone 1 (.plain (.deq 0)) 32)) = some s ∧
      (s.th 0).results = [.enq 1, .deq 1 1] ∧ (s.th 1).results = [.enq 1, .deq 1 0] ∧
      ∀ t, (s.th t).w.failedDeqCount = 0 := by
  obtain ⟨s, hs⟩ : ∃ s, run (runBenchmark (version 2 5) (fun _ => ⟨.fixed, 1, 1⟩)
      fun _ => ⟨.fixed, 1, 1⟩) (benchmarkInit (version 2 5))
      (List.replicate 17 (1, ⟨true, 0, 0, 0, .plain (.deq 0)⟩) ++
        (alone 0 (.plain (.deq 0)) 49 ++ alone 1 (.plain (.deq 0)) 32)) = some s := ⟨_, rfl⟩
  have hvalid : ∀ _ : Fin 2, (⟨.fixed, 1, 1⟩ : BatchSpec).Valid :=
    fun _ => ⟨by decide, by decide⟩
  have hbatches : ((s.th 0).batches, (s.th 1).batches) = ([(1, 1)], [(1, 1)]) :=
    run_observe hs (fun s => ((s.th 0).batches, (s.th 1).batches)) rfl
  have hresults : ((s.th 0).results, (s.th 1).results) =
      ([.enq 1, .deq 1 1], [.enq 1, .deq 1 0]) :=
    run_observe hs (fun s => ((s.th 0).results, (s.th 1).results)) rfl
  obtain ⟨hbatch₀, hbatch₁⟩ := Prod.mk.inj hbatches
  obtain ⟨hres₀, hres₁⟩ := Prod.mk.inj hresults
  have hbalanced : ∀ t, ∀ b ∈ (s.th t).batches, b.2 ≤ b.1 := by
    refine Fin.forall_fin_two.mpr ⟨?_, ?_⟩
    · simp [hbatch₀]
    · simp [hbatch₁]
  exact ⟨s, hs, hres₀, hres₁,
    fun t => (balanced_dequeues_succeed 2 5 _ _ hvalid hvalid hs hbalanced t).2⟩

end Bench

end ConcurrentQueues
