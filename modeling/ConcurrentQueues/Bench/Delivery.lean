import ConcurrentQueues.Flow
import ConcurrentQueues.Bench.Counters
import ConcurrentQueues.Bench.Check

/-!
# Delivery — which values the workers get

A worker enqueues `tid`, `num_threads + tid`, `2 * num_threads + tid`, … in this order.  As long as
these fit into an `int`, a value tells who has enqueued it and as the how-manieth, so one can say
what the workers dequeue: no value twice, and the values of one worker in their order.
-/

namespace ConcurrentQueues

open Reasoning

namespace Bench

variable {n : Nat} {Q : Queue n} {enqSpecs deqSpecs : Fin n → BatchSpec}

/-! ## A worker and the marks of its calls -/

/-- The lists of a worker are what its calls have passed and returned. -/
abbrev Client.Noted (C : Q.Correct) (t : Fin n) (x : Client Q.Local) (ms : List (Fin n × Mark)) :
    Prop :=
  ConcurrentQueues.Noted C t x.l (Calls t x) x.w.enqueued x.w.dequeued ms

section Noted

variable {C : Q.Correct} {s : Config (Fin n) Q.Mem (Client Q.Local)} {g : C.G} {t : Fin n}
  {ms : List (Fin n × Mark)} {m' : Q.Mem} {x x' : Client Q.Local}

/-- Calls are open in the inner loops only. -/
theorem Client.Noted.kind_ne_none (h : x.Noted C t ms) (hbusy : Q.idle x.l = false) :
    x.loc.kind ≠ none := by
  obtain ⟨op, hcalls, -⟩ := h.inside hbusy
  cases hcalls with
  | enq hloc => simp [hloc, Loc.kind]
  | deq out hloc => simp [hloc, Loc.kind]

/-- An open `enq` has been called with the next value. -/
theorem Client.Noted.offered (h : x.Noted C t ms) (hbusy : Q.idle x.l = false) {i : Int32}
    (hloc : x.loc = .enq i) : (entries t ms).offered = x.w.value (.ofNat n) (.ofNat t) := by
  obtain ⟨op, hcalls, -, hoff⟩ := h.inside hbusy
  cases hcalls with
  | enq => exact hoff _ rfl
  | deq out hdeq => cases hdeq.symm.trans hloc

/-- The worker notes what its step does. -/
theorem Client.Noted.step {c : ClientChoice Q.Choice} (h : (s.th t).Noted C t ms)
    (hI : C.I (queueState Q Client.l s) g)
    (hs : ClientStep enqSpecs deqSpecs t c s.mem (s.th t) m' x') :
    (m' = s.mem ∧ x'.l = (s.th t).l ∧ x'.Noted C t ms) ∨
      ∃ op, Q.step t (Q.calling op true c.queue) s.mem (s.th t).l = .next m' x'.l ∧
        x'.Noted C t
          (ms ++ ((Q.mark t (Q.calling op true c.queue) s.mem (s.th t).l).map (t, ·)).toList) := by
  cases hs with
  | batch hloc | leave hloc =>
      refine .inl ⟨rfl, rfl, h.same fun hbusy => ?_⟩
      exact absurd (by simp [hloc, Loc.kind]) (h.kind_ne_none hbusy)
  | turn hloc hidle | again hloc hidle =>
      exact .inl ⟨rfl, rfl, h.same fun hbusy => absurd (hidle.symm.trans hbusy) (by decide)⟩
  | @call op m' l' hcalls hstep hmark =>
      obtain ⟨g', -, hmove⟩ := C.exists_step (t := t) hI hstep
      refine .inr ⟨op, hstep, h.call hcalls ?_ hmove (fun hidle => C.mark_calling hidle) hmark⟩
      intro hbusy op' hop
      have hwait : ¬ Q.idle l' = true := by simp [hbusy]
      cases hop with
      | enq hloc => exact .enq hloc fun hidle => absurd hidle hwait
      | deq out hloc => exact .deq out hloc fun hidle => absurd hidle hwait
  | @enqReturn i op m' l' code hloc hcalls hstep hmark =>
      obtain ⟨hidle, hbusy, -⟩ := C.of_ret (t := t) hI h.codeOk hstep hmark
      have hoff := h.offered hbusy hloc
      refine .inr ⟨op, hstep, ?_⟩
      rw [hmark]
      refine h.ret hidle ?_ (by simp [Client.enqReturn, Worker.enq, delivered])
      by_cases hcode : code = 1
      · simp [Client.enqReturn, Worker.enq, enqReply, Entries.mark, hcode, h.put, hoff]
      · simp [Client.enqReturn, Worker.enq, enqReply, Entries.mark, hcode, h.put]
  | @deqReturn i op m' l' code out hloc hcalls hstep hmark =>
      obtain ⟨hidle, -⟩ := C.of_ret (t := t) hI h.codeOk hstep hmark
      refine .inr ⟨op, hstep, ?_⟩
      rw [hmark]
      refine h.ret hidle h.put ?_
      by_cases hcode : code = 1 <;>
        simp [Client.deqReturn, Worker.deq, deqReply, delivered, hcode]

end Noted

/-- The queue of a region is in a run of its own, in which the workers note the same. -/
theorem exists_noted (C : Q.Correct) {s : Config (Fin n) Q.Mem (Client Q.Local)}
    {es : List (Fin n × ClientChoice Q.Choice)}
    (h : run (runBenchmark Q enqSpecs deqSpecs) (benchmarkInit Q) es = some s) :
    ∃ fs, run Q.step Q.init fs = some (queueState Q Client.l s) ∧
      ∀ t, (s.th t).Noted C t (marks Q.step Q.mark Q.init fs) := by
  refine exists_queueRun_of_step (f := Client.l) (K := fun t x ms => x.Noted C t ms) rfl ?_ ?_ ?_ h
  · exact fun t => .of_idle (C.quiet_init t) rfl rfl
  · exact fun mk hu hnoted => hnoted.other hu
  · intro v t c m' x' fs hrun hnoted hnext
    obtain ⟨g, hI, -⟩ := C.exists_accounts hrun
    obtain hsame | ⟨op, hq, hnew⟩ := hnoted.step hI (runBenchmark_cases hnext)
    · exact .inl hsame
    · exact .inr ⟨_, hq, hnew⟩

/-! ## The values of the workers -/

/-- The first `k` values of worker `tid`. -/
def values (n tid k : Nat) : List Value := (List.range k).map fun i => Int32.ofNat (i * n + tid)

/-- The values in a list that worker `tid` has enqueued. -/
def fromWorker (n tid : Nat) (vs : List Value) : List Value :=
  vs.filter fun v => v.toInt % n = tid

theorem values_succ (n tid k : Nat) :
    values n tid (k + 1) = values n tid k ++ [Int32.ofNat (k * n + tid)] := by
  simp [values, List.range_succ]

theorem values_take (n tid : Nat) {k k' : Nat} (h : k ≤ k') :
    values n tid k <+: values n tid k' := by
  obtain ⟨j, rfl⟩ := Nat.exists_eq_add_of_le h
  exact ⟨_, by rw [values, values, ← List.map_append, ← List.range_add]⟩

theorem take_values (n tid : Nat) {m k : Nat} (h : m ≤ k) :
    (values n tid k).take m = values n tid m := by
  rw [values, ← List.map_take, List.take_range, Nat.min_eq_left h]
  rfl

section Values

variable {t : Fin n} {k : Nat}

/-- A value says who has enqueued it. -/
theorem toInt_of_mem_values (hfit : k * n + t < 2 ^ 31 + n) {v : Value} (hv : v ∈ values n t k) :
    ∃ i < k, v.toInt = i * n + t ∧ v.toInt % n = t := by
  obtain ⟨i, hi, rfl⟩ := List.mem_map.mp hv
  have hik := List.mem_range.mp hi
  have hle : (i + 1) * n ≤ k * n := Nat.mul_le_mul_right n hik
  rw [Nat.add_mul, Nat.one_mul] at hle
  have hint : (Int32.ofNat (i * n + t)).toInt = i * n + t := by
    rw [Int32.toInt_ofNat_of_lt (by omega)]
    push_cast
    rfl
  refine ⟨i, hik, hint, ?_⟩
  rw [hint, Int.add_comm, Int.add_mul_emod_self_right]
  exact Int.emod_eq_of_lt (by omega) (by have := t.isLt; omega)

theorem values_nodup (hfit : k * n + t < 2 ^ 31 + n) : (values n t k).Nodup := by
  refine List.Nodup.map_on ?_ List.nodup_range
  intro i hi j hj he
  have hn : 0 < n := Fin.pos t
  have hint : ∀ i ∈ List.range k, (Int32.ofNat (i * n + t)).toInt = ((i * n + t : Nat) : Int) := by
    intro i hi
    have hle : (i + 1) * n ≤ k * n := Nat.mul_le_mul_right n (List.mem_range.mp hi)
    rw [Nat.add_mul, Nat.one_mul] at hle
    exact Int32.toInt_ofNat_of_lt (by omega)
  have heq := congrArg Int32.toInt he
  rw [hint i hi, hint j hj] at heq
  exact Nat.eq_of_mul_eq_mul_right hn (by omega)

end Values

/-- The values that have come from worker `t` among all that have been moved. -/
theorem fromWorker_ins {ins : List (Fin n × Value)} {count : Fin n → Nat}
    (hins : ∀ t, ofThread t ins = values n t (count t))
    (hfit : ∀ t : Fin n, count t * n + t < 2 ^ 31 + n) (t : Fin n) :
    fromWorker n t (ins.map Prod.snd) = values n t (count t) := by
  rw [← hins t, fromWorker, ofThread, List.filter_map]
  refine congrArg (List.map Prod.snd) (List.filter_congr fun e he => ?_)
  have hmem : e.2 ∈ values n e.1 (count e.1) := by
    rw [← hins e.1, ofThread]
    exact List.mem_map_of_mem (List.mem_filter.mpr ⟨he, by simp⟩)
  obtain ⟨-, -, -, hmod⟩ := toInt_of_mem_values (hfit e.1) hmem
  simp only [Function.comp_apply, hmod, Int.natCast_inj, Fin.val_inj]

/-- No value is put in twice. -/
theorem nodup_ins {ins : List (Fin n × Value)} {count : Fin n → Nat}
    (hins : ∀ t, ofThread t ins = values n t (count t))
    (hfit : ∀ t : Fin n, count t * n + t < 2 ^ 31 + n) : (ins.map Prod.snd).Nodup := by
  refine List.nodup_iff_count_le_one.mpr fun v => ?_
  by_cases hv : v ∈ ins.map Prod.snd
  · obtain ⟨e, he, rfl⟩ := List.mem_map.mp hv
    have hmem : e.2 ∈ values n e.1 (count e.1) := by
      rw [← hins e.1, ofThread]
      exact List.mem_map_of_mem (List.mem_filter.mpr ⟨he, by simp⟩)
    obtain ⟨-, -, -, hmod⟩ := toInt_of_mem_values (hfit e.1) hmem
    have hcount := List.nodup_iff_count_le_one.mp (values_nodup (hfit e.1)) e.2
    rwa [← fromWorker_ins hins hfit e.1, fromWorker, List.count_filter (by simpa using hmod)]
      at hcount
  · rw [List.count_eq_zero_of_not_mem hv]
    exact Nat.zero_le 1

/-! ## The region -/

section Region

variable {C : Q.Correct} {s : Config (Fin n) Q.Mem (Client Q.Local)}
  {es : List (Fin n × ClientChoice Q.Choice)}

/-- A worker has enqueued its first values. -/
theorem enqueued_eq_values
    (h : run (runBenchmark Q enqSpecs deqSpecs) (benchmarkInit Q) es = some s) (t : Fin n) :
    Counted n t (s.th t).w.enqueued.length (s.th t).w := by
  suffices hsuff : ∃ k, Counted n t k (s.th t).w by
    obtain ⟨k, hk⟩ := hsuff
    have hlen : (s.th t).w.enqueued.length = k := by rw [hk.enqueued]; simp
    exact hlen ▸ hk
  refine run_induction (motive := fun _ v => ∃ k, Counted n t k (v.th t).w) ⟨0, counted_start⟩ ?_
    es s h
  rintro es ⟨u, c⟩ v w - ⟨k, hk⟩ hf
  obtain ⟨m', x', hstep, rfl⟩ := fire_eq_some.mp hf
  by_cases hu : t = u
  · subst hu
    simp only [Function.update_self]
    cases runBenchmark_cases hstep with
    | batch | leave | turn | again | call => exact ⟨k, hk⟩
    | enqReturn => exact ⟨_, hk.enq _⟩
    | deqReturn => exact ⟨k, hk.deq _⟩
  · simpa only [Function.update_of_ne hu] using ⟨k, hk⟩

/-- What has passed through the queue of a region: of each worker its first values, perhaps one more
than it has counted, and out of the queue what the workers note, perhaps one value more each. -/
structure Traffic (Q : Queue n) (s : Config (Fin n) Q.Mem (Client Q.Local)) (items : List Value)
    (count : Fin n → Nat) (ins outs : List (Fin n × Value)) : Prop where
  fifo : ins.map Prod.snd = outs.map Prod.snd ++ items
  entered : ∀ t, ofThread t ins = values n t (count t)
  left : ∀ t, (s.th t).w.dequeued <+: ofThread t outs
  count_le : ∀ t, (s.th t).w.enqueued.length ≤ count t
  le_count : ∀ t, count t ≤ (s.th t).w.enqueued.length + 1
  quiet : Q.Quiet (queueState Q Client.l s) → ∀ t,
    count t = (s.th t).w.enqueued.length ∧ ofThread t outs = (s.th t).w.dequeued

theorem exists_traffic (C : Q.Correct) (henq : ∀ t, (enqSpecs t).Valid)
    (hdeq : ∀ t, (deqSpecs t).Valid)
    (h : run (runBenchmark Q enqSpecs deqSpecs) (benchmarkInit Q) es = some s) :
    ∃ g count ins outs, C.I (queueState Q Client.l s) g ∧
      Traffic Q s (C.moves.nodes s.mem g).items count ins outs := by
  obtain ⟨fs, hrun, hnoted⟩ := exists_noted C h
  obtain ⟨g, ins, outs, hI, hflow⟩ := C.exists_flow hrun
  obtain ⟨g', hregion⟩ := exists_region C henq hdeq h
  have hins : ∀ t, ∃ k, ofThread t ins = values n t k ∧ (s.th t).w.enqueued.length ≤ k ∧
      k ≤ (s.th t).w.enqueued.length + 1 ∧
      (Q.Quiet (queueState Q Client.l s) → k = (s.th t).w.enqueued.length) := by
    intro t
    have hcounted := enqueued_eq_values h t
    have hflow := hflow.ins t
    rw [← (hnoted t).put] at hflow
    by_cases hdone : C.moves.stage (s.th t).l = .done (.enq 1)
    · -- the value of the open call is in the queue already
      have hbusy : Q.idle (s.th t).l = false := C.busy_of_stage (by simp [hdone])
      have hkind := (hregion.ledger t).kind hbusy
      rw [hdone] at hkind
      obtain ⟨i, hloc⟩ : ∃ i, (s.th t).loc = .enq i := by
        cases hloc : (s.th t).loc with
        | enq i => exact ⟨i, rfl⟩
        | top | deq | done =>
            rw [hloc] at hkind
            cases hkind
      have hvalue : (entries t (marks Q.step Q.mark Q.init fs)).offered =
          Int32.ofNat ((s.th t).w.enqueued.length * n + t) := by
        rw [(hnoted t).offered hbusy hloc, Worker.value, hcounted.enqCount, Int32.ofNat_add,
          Int32.ofNat_mul]
      refine ⟨(s.th t).w.enqueued.length + 1, ?_, Nat.le_succ _, le_rfl, fun hquiet => ?_⟩
      · rw [hflow, hvalue,
          show C.moves.stage ((queueState Q Client.l s).th t) = .done (.enq 1) from hdone, values_succ]
        exact congrArg (· ++ _) hcounted.enqueued
      · exact absurd ((hquiet t).symm.trans hbusy) (by decide)
    · refine ⟨(s.th t).w.enqueued.length, ?_, le_rfl, Nat.le_succ _, fun _ => rfl⟩
      have hnone : ∀ (st : Stage) (v : Value), st ≠ .done (.enq 1) → st.putIn v = [] := by
        intro st v hne
        unfold Stage.putIn
        split
        next code => exact if_neg fun hcode => hne (by rw [hcode])
        next => rfl
      rw [hflow, show (queueState Q Client.l s).th t = (s.th t).l from rfl, hnone _ _ hdone,
        List.append_nil]
      exact hcounted.enqueued
  choose count hcount using hins
  refine ⟨g, count, ins, outs, hI, hflow.fifo, fun t => (hcount t).1, fun t => ?_,
    fun t => (hcount t).2.1, fun t => (hcount t).2.2.1, fun hquiet t =>
      ⟨(hcount t).2.2.2 hquiet, ?_⟩⟩
  · rw [hflow.outs, (hnoted t).got]
    exact List.prefix_append _ _
  · rw [hflow.outs, (hnoted t).got, (C.idle_iff _).mp (hquiet t)]
    simp [Stage.takenOut]

section Traffic

variable {items : List Value} {count : Fin n → Nat} {ins outs : List (Fin n × Value)}

/-- The values of worker `t` leave the queue in their order. -/
theorem Traffic.fromWorker_outs (h : Traffic Q s items count ins outs)
    (hfit : ∀ t : Fin n, count t * n + t < 2 ^ 31 + n) (t : Fin n) :
    ∃ m ≤ count t, fromWorker n t (outs.map Prod.snd) = values n t m := by
  have hins := fromWorker_ins h.entered hfit t
  rw [h.fifo, fromWorker, List.filter_append] at hins
  have hprefix : fromWorker n t (outs.map Prod.snd) <+: values n t (count t) := ⟨_, hins⟩
  have hlen := hprefix.length_le
  rw [show (values n t (count t)).length = count t by simp [values]] at hlen
  refine ⟨_, hlen, ?_⟩
  rw [← take_values n t hlen]
  exact List.prefix_iff_eq_take.mp hprefix

/-- A worker sees the values of another one in their order. -/
theorem Traffic.fromWorker_dequeued (h : Traffic Q s items count ins outs)
    (hfit : ∀ t : Fin n, count t * n + t < 2 ^ 31 + n) (u t : Fin n) :
    (fromWorker n t (s.th u).w.dequeued).Sublist
      (values n t ((s.th t).w.enqueued.length + 1)) := by
  obtain ⟨m, hm, hvalues⟩ := h.fromWorker_outs hfit t
  have hsub : (s.th u).w.dequeued.Sublist (outs.map Prod.snd) :=
    (h.left u).sublist.trans (List.filter_sublist.map _)
  refine (hsub.filter _).trans ?_
  rw [← fromWorker, hvalues]
  exact (values_take n t (hm.trans (h.le_count t))).sublist

theorem sublist_flatMap {α β : Type*} {f g : α → List β} (h : ∀ x, (f x).Sublist (g x))
    (xs : List α) : (xs.flatMap f).Sublist (xs.flatMap g) := by
  induction xs with
  | nil => exact List.Sublist.refl _
  | cons x xs ih =>
      rw [List.flatMap_cons, List.flatMap_cons]
      exact (h x).append ih

/-- No value is dequeued twice, by whichever workers. -/
theorem Traffic.nodup_dequeued (h : Traffic Q s items count ins outs)
    (hfit : ∀ t : Fin n, count t * n + t < 2 ^ 31 + n) :
    ((List.finRange n).flatMap fun u => (s.th u).w.dequeued).Nodup := by
  have hins := nodup_ins h.entered hfit
  rw [h.fifo, List.nodup_append] at hins
  have hall := (flatMap_ofThread_perm outs).nodup_iff.mpr hins.1
  exact (sublist_flatMap (fun u => (h.left u).sublist) _).nodup hall

end Traffic

end Region

/-- **What the workers get.**  In every version and under every interleaving, as long as the next
value of every worker fits into an `int`: no value is dequeued twice, each worker dequeues values of
another one in the order in which that one enqueues them, and when the region has ended, the
dequeued values of each worker are its first ones.  The benchmark runs version 1 with one thread
only. -/
theorem values_delivered (n v : Nat) (enqSpecs deqSpecs : Fin n → BatchSpec)
    (henq : ∀ t, (enqSpecs t).Valid) (hdeq : ∀ t, (deqSpecs t).Valid)
    {es : List (Fin n × ClientChoice (version n v).Choice)}
    {s : Config (Fin n) (version n v).Mem (Client (version n v).Local)}
    (h : run (runBenchmark (version n v) enqSpecs deqSpecs) (benchmarkInit (version n v)) es =
      some s)
    (hfit : ∀ t : Fin n, (s.th t).w.enqueued.length * n + t < 2 ^ 31) :
    ((List.finRange n).flatMap fun u => (s.th u).w.dequeued).Nodup ∧
      (∀ u t : Fin n, (fromWorker n t (s.th u).w.dequeued).Sublist
        (values n t ((s.th t).w.enqueued.length + 1))) ∧
      ((∀ t, (s.th t).loc = .done) → ∀ t : Fin n, ∃ m ≤ (s.th t).w.enqueued.length,
        (fromWorker n t ((List.finRange n).flatMap fun u => (s.th u).w.dequeued)).Perm
          (values n t m)) := by
  obtain ⟨C⟩ := version_correct n v
  obtain ⟨g, count, ins, outs, -, htraffic⟩ := exists_traffic C henq hdeq h
  have hcount : ∀ t : Fin n, count t * n + t < 2 ^ 31 + n := by
    intro t
    have hle := Nat.mul_le_mul_right n (htraffic.le_count t)
    rw [Nat.add_mul, Nat.one_mul] at hle
    have hlt := hfit t
    omega
  refine ⟨htraffic.nodup_dequeued hcount, htraffic.fromWorker_dequeued hcount,
    fun hdone t => ?_⟩
  obtain ⟨g', hregion⟩ := exists_region C henq hdeq h
  have hquiet : (version n v).Quiet (queueState _ Client.l s) :=
    fun t => (hregion.ledger t).idle (by simp [hdone t, Loc.kind])
  obtain ⟨m, hm, hvalues⟩ := htraffic.fromWorker_outs hcount t
  refine ⟨m, (htraffic.quiet hquiet t).1 ▸ hm, ?_⟩
  rw [← hvalues]
  have hperm := flatMap_ofThread_perm outs
  simp only [(htraffic.quiet hquiet _).2] at hperm
  exact hperm.filter _

set_option maxRecDepth 2000 in
/-- Two threads of Ex4 with one round each dequeue the value of the other one. -/
theorem values_delivered_crossed :
    ∃ s, run (runBenchmark (version 2 4) (fun _ => ⟨.fixed, 1, 1⟩) fun _ => ⟨.fixed, 1, 1⟩)
        (benchmarkInit (version 2 4))
        (List.replicate 12 (1, ⟨true, 0, 0, 0, ⟨.deq 0, true, some ⟨0, none⟩⟩⟩) ++
          (alone 0 ⟨.deq 0, true, some ⟨0, none⟩⟩ 29 ++
            alone 1 ⟨.deq 0, true, some ⟨0, none⟩⟩ 23)) = some s ∧
      (s.th 0).w.dequeued = [1] ∧ (s.th 1).w.dequeued = [0] ∧
      ((List.finRange 2).flatMap fun u => (s.th u).w.dequeued).Nodup := by
  obtain ⟨s, hs⟩ : ∃ s, run (runBenchmark (version 2 4) (fun _ => ⟨.fixed, 1, 1⟩)
      fun _ => ⟨.fixed, 1, 1⟩) (benchmarkInit (version 2 4))
      (List.replicate 12 (1, ⟨true, 0, 0, 0, ⟨.deq 0, true, some ⟨0, none⟩⟩⟩) ++
        (alone 0 ⟨.deq 0, true, some ⟨0, none⟩⟩ 29 ++
          alone 1 ⟨.deq 0, true, some ⟨0, none⟩⟩ 23)) = some s := ⟨_, rfl⟩
  have hvalid : ∀ _ : Fin 2, (⟨.fixed, 1, 1⟩ : BatchSpec).Valid :=
    fun _ => ⟨by decide, by decide⟩
  have hdequeued : ((s.th 0).w.dequeued, (s.th 1).w.dequeued) = ([1], [0]) :=
    run_observe hs (fun s => ((s.th 0).w.dequeued, (s.th 1).w.dequeued)) rfl
  have hlengths : ((s.th 0).w.enqueued.length, (s.th 1).w.enqueued.length) = (1, 1) :=
    run_observe hs (fun s => ((s.th 0).w.enqueued.length, (s.th 1).w.enqueued.length)) rfl
  obtain ⟨hdeq₀, hdeq₁⟩ := Prod.mk.inj hdequeued
  obtain ⟨hlen₀, hlen₁⟩ := Prod.mk.inj hlengths
  have hfit : ∀ t : Fin 2, (s.th t).w.enqueued.length * 2 + t < 2 ^ 31 :=
    Fin.forall_fin_two.mpr ⟨by rw [hlen₀]; decide, by rw [hlen₁]; decide⟩
  exact ⟨s, hs, hdeq₀, hdeq₁, (values_delivered 2 4 _ _ hvalid hvalid hs hfit).1⟩

end Bench

end ConcurrentQueues
