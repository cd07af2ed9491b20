import ConcurrentQueues.Versions
import ConcurrentQueues.Bench.Client
import Mathlib.Algebra.BigOperators.Fin

/-!
# Counters — what the counters of `run_benchmark` add up to

The ledger of a worker relates its counters to the results of its calls and to the sampled sizes, at
every place of the worker loop.  Over all threads, the results and the open calls account for the
elements in the queue.
-/

namespace ConcurrentQueues.Bench

open Reasoning

variable {n : Nat} {Q : Queue n} {enqSpecs deqSpecs : Fin n → BatchSpec}

/-- The calls of `enq` that returned 0. -/
def failedEnqueues (rs : List (Res Value)) : Nat := rs.countP (· == .enq 0)

/-- The calls of `deq` that returned 0. -/
def failedDequeues (rs : List (Res Value)) : Nat :=
  rs.countP fun
    | .deq code _ => code == 0
    | .enq _ => false

/-- The sizes of all enqueue batches together. -/
def Client.enqSum {L : Type} (x : Client L) : Int := (x.batches.map fun b => b.1.toInt).sum

/-- The sizes of all dequeue batches together. -/
def Client.deqSum {L : Type} (x : Client L) : Int := (x.batches.map fun b => b.2.toInt).sum

/-- The counters are the numbers of the results, as far as an `int` can hold them. -/
structure Books (w : Worker) (rs : List (Res Value)) : Prop where
  enqCount : w.enqCount = .ofNat (enqueues rs)
  failedEnqCount : w.failedEnqCount = .ofNat (failedEnqueues rs)
  deqCount : w.deqCount = .ofNat (dequeues rs)
  failedDeqCount : w.failedDeqCount = .ofNat (failedDequeues rs)
  freeListInsertions : w.freeListInsertions = .ofNat (dequeues rs)

/-- The results so far against the sampled sizes and the progress of the inner loop. -/
def Client.Progress {L : Type} (x : Client L) : Prop :=
  match x.loc with
  | .top | .done =>
      enqueues x.results = x.enqSum ∧ dequeues x.results + failedDequeues x.results = x.deqSum
  | .enq i =>
      0 ≤ i.toInt ∧ i.toInt ≤ x.enqSize.toInt ∧ 0 ≤ x.deqSize.toInt ∧
        enqueues x.results + x.enqSize.toInt = x.enqSum + i.toInt ∧
        dequeues x.results + failedDequeues x.results + x.deqSize.toInt = x.deqSum
  | .deq i =>
      0 ≤ i.toInt ∧ i.toInt ≤ x.deqSize.toInt ∧ enqueues x.results = x.enqSum ∧
        dequeues x.results + failedDequeues x.results + x.deqSize.toInt = x.deqSum + i.toInt

/-- The function that the inner loop calls. -/
def Loc.kind : Loc → Option Kind
  | .enq _ => some .enq
  | .deq _ => some .deq
  | _ => none

/-- The condition of the inner loop. -/
def Client.Within {L : Type} (x : Client L) : Prop :=
  match x.loc with
  | .enq i => i < x.enqSize
  | .deq i => i < x.deqSize
  | _ => True

/-- What is known of a worker at every step. -/
structure Ledger (C : Q.Correct) (m : Q.Mem) (t : Fin n) (x : Client Q.Local) : Prop where
  books : Books x.w x.results
  progress : x.Progress
  insertions : Q.insertions m t x.l = dequeues x.results + C.tallied x.l
  counts : Q.idle x.l = false → C.counts x.l = true
  codeOk : (C.moves.stage x.l).CodeOk
  kind : Q.idle x.l = false → (C.moves.stage x.l).kind = x.loc.kind
  within : Q.idle x.l = false → x.Within

/-! ## Results and counters -/

section Results

variable (rs : List (Res Value)) (code : Int) (out : Value)

@[simp] theorem failedEnqueues_snoc_enq :
    failedEnqueues (rs ++ [.enq code]) = failedEnqueues rs + if code = 0 then 1 else 0 := by
  simp [failedEnqueues, List.countP_append, List.countP_singleton]

@[simp] theorem failedEnqueues_snoc_deq :
    failedEnqueues (rs ++ [.deq code out]) = failedEnqueues rs := by
  simp [failedEnqueues]

@[simp] theorem failedDequeues_snoc_enq :
    failedDequeues (rs ++ [.enq code]) = failedDequeues rs := by
  simp [failedDequeues]

@[simp] theorem failedDequeues_snoc_deq :
    failedDequeues (rs ++ [.deq code out]) = failedDequeues rs + if code = 0 then 1 else 0 := by
  simp [failedDequeues, List.countP_append, List.countP_singleton]

theorem add_sub_cancel_int32 (a b : Int32) : a + (b - a) = b := by
  rw [Int32.add_comm, Int32.sub_add_cancel]

variable {rs code out} {w : Worker}

theorem Books.enq (h : Books w rs) (hcode : CodeOk (.enq code)) {nt tid : Int32} {r : EnqReply}
    (hsuccess : r.success = (code == 1))
    (hins : r.insertions = .ofNat (dequeues rs) - w.freeListInsertions) :
    Books (w.enq nt tid r) (rs ++ [.enq code]) := by
  obtain ⟨henq, hfailedEnq, hdeq, hfailedDeq, -⟩ := h
  obtain rfl | rfl := hcode <;> refine ⟨?_, ?_, ?_, ?_, ?_⟩ <;>
    simp [Worker.enq, flag, add_sub_cancel_int32, *]

theorem Books.deq (h : Books w rs) (hcode : CodeOk (.deq code out)) {r : DeqReply}
    (hvalue : r.value = if code = 1 then some out else none)
    (hins : r.insertions = .ofNat (dequeues (rs ++ [.deq code out])) - w.freeListInsertions) :
    Books (w.deq r) (rs ++ [.deq code out]) := by
  obtain ⟨henq, hfailedEnq, hdeq, hfailedDeq, -⟩ := h
  obtain rfl | rfl := hcode <;> refine ⟨?_, ?_, ?_, ?_, ?_⟩ <;>
    simp_all [Worker.deq, flag, add_sub_cancel_int32]

end Results

/-! ## The progress of the loops -/

section Progress

variable {L : Type} {x : Client L} {i : Int32} {code : Int} {out : Value}

theorem toInt_succ {i size : Int32} (h : i < size) : (i + 1).toInt = i.toInt + 1 := by
  have hlt := Int32.lt_iff_toInt_lt.mp h
  have hmax := size.toInt_lt
  have hmin := i.le_toInt
  rw [Int32.toInt_add, Int32.toInt_one]
  exact Int.bmod_eq_of_le (by omega) (by omega)

theorem Client.Progress.batch (h : x.Progress) (hloc : x.loc = .top) {enqSize deqSize : Int32}
    (henq : 0 ≤ enqSize.toInt) (hdeq : 0 ≤ deqSize.toInt) :
    Client.Progress
      { x with
        loc := .enq 0
        enqSize := enqSize
        deqSize := deqSize
        batches := x.batches ++ [(enqSize, deqSize)] } := by
  simp only [Client.Progress, hloc] at h
  simp only [Client.Progress, Client.enqSum, Client.deqSum, List.map_append, List.sum_append,
    List.map_singleton, List.sum_singleton, Int32.toInt_zero] at h ⊢
  omega

theorem Client.Progress.leave (h : x.Progress) (hloc : x.loc = .top) :
    Client.Progress { x with loc := .done } := by
  simpa only [Client.Progress, Client.enqSum, Client.deqSum, hloc] using h

theorem Client.Progress.turn (h : x.Progress) (hloc : x.loc = .enq i) (hge : ¬ i < x.enqSize) :
    Client.Progress { x with loc := .deq 0 } := by
  rw [Int32.lt_iff_toInt_lt] at hge
  simp only [Client.Progress, hloc] at h
  simp only [Client.Progress, Client.enqSum, Client.deqSum, Int32.toInt_zero] at h ⊢
  omega

theorem Client.Progress.again (h : x.Progress) (hloc : x.loc = .deq i) (hge : ¬ i < x.deqSize) :
    Client.Progress { x with loc := .top } := by
  rw [Int32.lt_iff_toInt_lt] at hge
  simp only [Client.Progress, hloc] at h
  simp only [Client.Progress, Client.enqSum, Client.deqSum] at h ⊢
  omega

/-- A call of `enq` that returns 0 is made again. -/
theorem Client.Progress.enqReturn {x' : Client L} (h : x.Progress) (hloc : x.loc = .enq i)
    (hlt : i < x.enqSize) (hcode : CodeOk (.enq code))
    (hloc' : x'.loc = .enq (i + flag (code == 1)))
    (hsame : x'.enqSize = x.enqSize ∧ x'.deqSize = x.deqSize ∧ x'.batches = x.batches)
    (hresults : x'.results = x.results ++ [.enq code]) : x'.Progress := by
  have hsucc := toInt_succ hlt
  have hlt' := Int32.lt_iff_toInt_lt.mp hlt
  simp only [Client.Progress, hloc] at h
  simp only [Client.Progress, Client.enqSum, Client.deqSum, hloc', hsame, hresults,
    enqueues_snoc_enq, dequeues_snoc_enq, failedDequeues_snoc_enq] at h ⊢
  obtain rfl | rfl := hcode
  · simp only [flag, show ((0 : Int) == 1) = false from rfl]
    simpa using h
  · simp only [flag, show ((1 : Int) == 1) = true from rfl, if_true, hsucc]
    push_cast
    omega

theorem Client.Progress.deqReturn {x' : Client L} (h : x.Progress) (hloc : x.loc = .deq i)
    (hlt : i < x.deqSize) (hcode : CodeOk (.deq code out)) (hloc' : x'.loc = .deq (i + 1))
    (hsame : x'.enqSize = x.enqSize ∧ x'.deqSize = x.deqSize ∧ x'.batches = x.batches)
    (hresults : x'.results = x.results ++ [.deq code out]) : x'.Progress := by
  have hsucc := toInt_succ hlt
  have hlt' := Int32.lt_iff_toInt_lt.mp hlt
  simp only [Client.Progress, hloc] at h
  simp only [Client.Progress, Client.enqSum, Client.deqSum, hloc', hsame, hresults,
    enqueues_snoc_deq, dequeues_snoc_deq, failedDequeues_snoc_deq, hsucc] at h ⊢
  obtain rfl | rfl := hcode <;> push_cast <;> simp <;> omega

end Progress

/-! ## The ledger of a worker -/

section Ledger

variable {C : Q.Correct} {s : Config (Fin n) Q.Mem (Client Q.Local)} {g : C.G} {t u : Fin n}
  {c : ClientChoice Q.Choice} {m m' : Q.Mem} {x x' : Client Q.Local} {l' : Q.Local}
  {op : Op Value} {q : Q.Choice}

/-- Outside the inner loops there is no open call. -/
theorem Ledger.idle (h : Ledger C m t x) (hloc : x.loc.kind = none) : Q.idle x.l = true := by
  cases hidle : Q.idle x.l with
  | true => rfl
  | false =>
      have hstage := Stage.kind_eq_none_iff.mp ((h.kind hidle).trans hloc)
      rw [← C.idle_iff, hidle] at hstage
      cases hstage

/-- A step at the head of a loop. -/
theorem Ledger.internal (h : Ledger C m t x) (hidle : Q.idle x.l = true)
    (hsame : x'.l = x.l ∧ x'.w = x.w ∧ x'.results = x.results) (hprogress : x'.Progress) :
    Ledger C m t x' := by
  obtain ⟨hl, hw, hres⟩ := hsame
  have hbusy : ¬ Q.idle x'.l = false := by simp [hl, hidle]
  exact
  { books := by rw [hw, hres]; exact h.books
    progress := hprogress
    insertions := by rw [hl, hres]; exact h.insertions
    counts := fun hb => absurd hb hbusy
    codeOk := by rw [hl]; exact h.codeOk
    kind := fun hb => absurd hb hbusy
    within := fun hb => absurd hb hbusy }

/-- A step of a call that does not return. -/
theorem Ledger.call (h : Ledger C s.mem t (s.th t)) (hI : C.I (queueState Q Client.l s) g)
    (hcalls : Calls t (s.th t) op)
    (hstep : Q.step t (Q.calling op true q) s.mem (s.th t).l = .next m' l')
    (hmark : ∀ res, Q.mark t (Q.calling op true q) s.mem (s.th t).l ≠ some (.ret res)) :
    Ledger C m' t { s.th t with l := l' } := by
  obtain ⟨g', -, hmove⟩ := C.exists_step (t := t) hI hstep
  have hins := C.insertions_step (t := t) hI hstep
  have hnone : Mark.inserted (C.counts (s.th t).l)
      (Q.mark t (Q.calling op true q) s.mem (s.th t).l) = 0 := by
    unfold Mark.inserted
    split
    next res hres => exact absurd hres (hmark res)
    next => rfl
  refine
  { books := h.books
    progress := h.progress
    insertions := ?_
    counts := fun _ => ?_
    codeOk := hmove.codeOk h.codeOk
    kind := fun hbusy => ?_
    within := fun _ => ?_ }
  · have hold := h.insertions
    simp only [queueState, hnone] at hins
    simp only
    omega
  · cases hidle : Q.idle (s.th t).l with
    | true => exact C.counts_call hidle hstep
    | false => exact (C.counts_step (t := t) hI hidle hstep).trans (h.counts hidle)
  · -- a call begins with the function of its loop and keeps to it
    cases hidle : Q.idle (s.th t).l with
    | true =>
        rw [hmove.of_call (C.mark_calling hidle)]
        cases hcalls with
        | enq hloc => simp [Stage.kind, Kind.ofOp, Loc.kind, hloc]
        | deq out hloc => simp [Stage.kind, Kind.ofOp, Loc.kind, hloc]
    | false =>
        exact (hmove.kind (C.stage_of_busy hidle) (C.stage_of_busy hbusy)).trans (h.kind hidle)
  · cases hidle : Q.idle (s.th t).l with
    | true =>
        cases hcalls with
        | enq hloc hlt => simpa [Client.Within, hloc] using hlt hidle
        | deq out hloc hlt => simpa [Client.Within, hloc] using hlt hidle
    | false => exact h.within hidle

/-- What is known of a call that returns: it was open, its code is 0 or 1, and it has raised the
insertion counter if it has dequeued something. -/
theorem Ledger.ret (h : Ledger C s.mem t (s.th t)) (hI : C.I (queueState Q Client.l s) g)
    (hstep : Q.step t (Q.calling op true q) s.mem (s.th t).l = .next m' l') {res : Res Value}
    (hmark : Q.mark t (Q.calling op true q) s.mem (s.th t).l = some (.ret res)) :
    Q.idle l' = true ∧ Q.idle (s.th t).l = false ∧ CodeOk res ∧
      Q.insertions m' t l' = dequeues ((s.th t).results ++ [res]) := by
  obtain ⟨hidle', hbusy, -, hcode⟩ := C.of_ret (t := t) hI h.codeOk hstep hmark
  refine ⟨hidle', hbusy, hcode, ?_⟩
  have hins := C.insertions_step (t := t) hI hstep
  have hold := h.insertions
  have htally := C.tallied_idle l' hidle'
  simp only [queueState, hmark, h.counts hbusy, Mark.inserted] at hins
  cases res with
  | enq code =>
      rw [dequeues_snoc_enq]
      simp only [inserted] at hins
      omega
  | deq code out =>
      rw [dequeues_snoc_deq]
      simp only [inserted, and_true] at hins
      omega

theorem Ledger.enqReturn {i : Int32} {code : Int} (h : Ledger C s.mem t (s.th t))
    (hI : C.I (queueState Q Client.l s) g) (hloc : (s.th t).loc = .enq i)
    (hstep : Q.step t (Q.calling op true q) s.mem (s.th t).l = .next m' l')
    (hmark : Q.mark t (Q.calling op true q) s.mem (s.th t).l = some (.ret (.enq code))) :
    Ledger C m' t ((s.th t).enqReturn Q t i m' l' code) := by
  obtain ⟨hidle', hbusy, hcode, hins⟩ := h.ret hI hstep hmark
  have hwithin := h.within hbusy
  simp only [Client.Within, hloc] at hwithin
  have hopen : ¬ Q.idle l' = false := by simp [hidle']
  have hstage := (C.idle_iff l').mp hidle'
  exact
  { books := h.books.enq hcode rfl (by simp [enqReply, hins])
    progress := h.progress.enqReturn hloc hwithin hcode rfl ⟨rfl, rfl, rfl⟩ rfl
    insertions := by
      simp only [Client.enqReturn, C.tallied_idle l' hidle', Nat.add_zero]
      exact hins
    counts := fun hb => absurd hb hopen
    codeOk := by simp [Client.enqReturn, hstage, Stage.CodeOk]
    kind := fun hb => absurd hb hopen
    within := fun hb => absurd hb hopen }

theorem Ledger.deqReturn {i : Int32} {code : Int} {out : Value} (h : Ledger C s.mem t (s.th t))
    (hI : C.I (queueState Q Client.l s) g) (hloc : (s.th t).loc = .deq i)
    (hstep : Q.step t (Q.calling op true q) s.mem (s.th t).l = .next m' l')
    (hmark : Q.mark t (Q.calling op true q) s.mem (s.th t).l = some (.ret (.deq code out))) :
    Ledger C m' t ((s.th t).deqReturn Q t i m' l' code out) := by
  obtain ⟨hidle', hbusy, hcode, hins⟩ := h.ret hI hstep hmark
  have hwithin := h.within hbusy
  simp only [Client.Within, hloc] at hwithin
  have hopen : ¬ Q.idle l' = false := by simp [hidle']
  have hstage := (C.idle_iff l').mp hidle'
  exact
  { books := h.books.deq hcode rfl (by simp [deqReply, hins])
    progress := h.progress.deqReturn hloc hwithin hcode rfl ⟨rfl, rfl, rfl⟩ rfl
    insertions := by
      simp only [Client.deqReturn, C.tallied_idle l' hidle', Nat.add_zero]
      exact hins
    counts := fun hb => absurd hb hopen
    codeOk := by simp [Client.deqReturn, hstage, Stage.CodeOk]
    kind := fun hb => absurd hb hopen
    within := fun hb => absurd hb hopen }

/-- One case for each step of the loop. -/
theorem Ledger.step (henq : ∀ t, (enqSpecs t).Valid) (hdeq : ∀ t, (deqSpecs t).Valid)
    (h : Ledger C s.mem t (s.th t)) (hI : C.I (queueState Q Client.l s) g)
    (hs : ClientStep enqSpecs deqSpecs t c s.mem (s.th t) m' x') : Ledger C m' t x' := by
  cases hs with
  | batch hloc =>
      exact h.internal (h.idle (by simp [hloc, Loc.kind])) ⟨rfl, rfl, rfl⟩
        (h.progress.batch hloc (BatchSpec.sample_nonneg (henq t) _)
          (BatchSpec.sample_nonneg (hdeq t) _))
  | leave hloc =>
      exact h.internal (h.idle (by simp [hloc, Loc.kind])) ⟨rfl, rfl, rfl⟩ (h.progress.leave hloc)
  | turn hloc hidle hge =>
      exact h.internal hidle ⟨rfl, rfl, rfl⟩ (h.progress.turn hloc hge)
  | again hloc hidle hge =>
      exact h.internal hidle ⟨rfl, rfl, rfl⟩ (h.progress.again hloc hge)
  | call hcalls hstep hmark => exact h.call hI hcalls hstep hmark
  | enqReturn hloc hcalls hstep hmark => exact h.enqReturn hI hloc hstep hmark
  | deqReturn hloc hcalls hstep hmark => exact h.deqReturn hI hloc hstep hmark

/-- The steps of `t` leave the insertion counters of the other threads alone. -/
theorem Ledger.other (h : Ledger C s.mem u (s.th u)) (hI : C.I (queueState Q Client.l s) g)
    (hu : u ≠ t) (hs : ClientStep enqSpecs deqSpecs t c s.mem (s.th t) m' x') :
    Ledger C m' u (s.th u) := by
  obtain ⟨rfl, -, -⟩ | ⟨op, -, hstep, -⟩ := hs.queue
  · exact h
  · have hins := C.insertions_other (t := t) hI hstep hu (s.th u).l
    exact { h with insertions := hins.trans h.insertions }

end Ledger

/-! ## The whole region -/

/-- What is known of the parallel region: the ledgers of the workers, and the length of the queue as
the surplus of all results and open calls. -/
structure Region (C : Q.Correct) (s : Config (Fin n) Q.Mem (Client Q.Local)) (g : C.G) : Prop where
  inv : C.I (queueState Q Client.l s) g
  ledger : ∀ t, Ledger C s.mem t (s.th t)
  length : ((C.moves.nodes s.mem g).items.length : Int) =
    ∑ t, (net (s.th t).results + (C.moves.stage (s.th t).l).surplus)

section Region

variable {C : Q.Correct} {s : Config (Fin n) Q.Mem (Client Q.Local)}
  {es : List (Fin n × ClientChoice Q.Choice)} {t : Fin n} {c : ClientChoice Q.Choice} {m' : Q.Mem}
  {x' : Client Q.Local}

/-- A step of the region moves nodes as a step of a call does, perhaps none. -/
theorem ClientStep.nodes (hs : ClientStep enqSpecs deqSpecs t c s.mem (s.th t) m' x') {g : C.G}
    (hI : C.I (queueState Q Client.l s) g) :
    ∃ g' mem mk, C.I (queueState Q Client.l ⟨m', Function.update s.th t x'⟩) g' ∧
      Nodes.Step t mem mk (C.moves.nodes s.mem g) (C.moves.stage (s.th t).l)
        (C.moves.nodes m' g') (C.moves.stage x'.l) ∧
      x'.results = (s.th t).results ++ (Mark.result mk).toList := by
  rw [queueState_update s]
  obtain ⟨rfl, hl, hres⟩ | ⟨op, -, hq, hres⟩ := hs.queue
  · refine ⟨g, false, none, ?_, ?_, by simp [hres, Mark.result]⟩
    · rw [show x'.l = (queueState Q Client.l s).th t from hl, Function.update_eq_self]
      exact hI
    · rw [hl]
      exact .silent _ _
  · obtain ⟨g', hI', hmove⟩ := C.exists_step (t := t) hI hq
    exact ⟨g', _, _, hI', hmove, hres⟩

/-- Only the summand of `t` changes. -/
theorem Region.length_update {g g' : C.G} (h : Region C s g) {mem : Bool} {mk : Option Mark}
    (hmove : Nodes.Step t mem mk (C.moves.nodes s.mem g) (C.moves.stage (s.th t).l)
      (C.moves.nodes m' g') (C.moves.stage x'.l))
    (hres : x'.results = (s.th t).results ++ (Mark.result mk).toList) :
    ((C.moves.nodes m' g').items.length : Int) =
      ∑ u, (net (Function.update s.th t x' u).results +
        (C.moves.stage (Function.update s.th t x' u).l).surplus) := by
  have hsum := sum_update_add s.th t x' fun x => net x.results + (C.moves.stage x.l).surplus
  have hmoved := hmove.length_items
  have hlen := h.length
  rw [hres, net_append] at hsum
  omega

theorem Region.step (henq : ∀ t, (enqSpecs t).Valid) (hdeq : ∀ t, (deqSpecs t).Valid) {g : C.G}
    (h : Region C s g) (hs : ClientStep enqSpecs deqSpecs t c s.mem (s.th t) m' x') :
    ∃ g' mem mk, Region C ⟨m', Function.update s.th t x'⟩ g' ∧
      Nodes.Step t mem mk (C.moves.nodes s.mem g) (C.moves.stage (s.th t).l)
        (C.moves.nodes m' g') (C.moves.stage x'.l) ∧
      x'.results = (s.th t).results ++ (Mark.result mk).toList := by
  have hledger : ∀ u, Ledger C m' u (Function.update s.th t x' u) := by
    intro u
    by_cases hu : u = t
    · subst hu
      simpa using (h.ledger u).step henq hdeq h.inv hs
    · simpa [Function.update_of_ne hu] using (h.ledger u).other h.inv hu hs
  obtain ⟨g', mem, mk, hI', hmove, hres⟩ := hs.nodes h.inv
  exact ⟨g', mem, mk, ⟨hI', hledger, h.length_update hmove hres⟩, hmove, hres⟩

theorem region_init (C : Q.Correct) : Region C (benchmarkInit Q) C.start := by
  have hidle := C.quiet_init
  have hbusy : ∀ t, ¬ Q.idle (Q.init.th t) = false := fun t => by simp [hidle t]
  have hstage : ∀ t, C.moves.stage (Q.init.th t) = .idle := fun t => (C.idle_iff _).mp (hidle t)
  refine ⟨C.init, fun t => ?_, ?_⟩
  · exact
    { books := ⟨rfl, rfl, rfl, rfl, rfl⟩
      progress := ⟨rfl, rfl⟩
      insertions := by
        simp only [benchmarkInit, C.insertions_init, C.tallied_idle _ (hidle t)]
        rfl
      counts := fun hb => absurd hb (hbusy t)
      codeOk := by simp [benchmarkInit, hstage, Stage.CodeOk]
      kind := fun hb => absurd hb (hbusy t)
      within := fun hb => absurd hb (hbusy t) }
  · simp [benchmarkInit, C.nodes_init, hstage, Stage.surplus]

theorem exists_region (C : Q.Correct) (henq : ∀ t, (enqSpecs t).Valid)
    (hdeq : ∀ t, (deqSpecs t).Valid)
    (h : run (runBenchmark Q enqSpecs deqSpecs) (benchmarkInit Q) es = some s) :
    ∃ g, Region C s g := by
  refine run_induction (motive := fun _ v => ∃ g, Region C v g) ⟨C.start, region_init C⟩ ?_ es s h
  rintro es ⟨t, c⟩ v w - ⟨g, hg⟩ hf
  obtain ⟨m', x', hstep, rfl⟩ := fire_eq_some.mp hf
  obtain ⟨g', -, -, hg', -⟩ := hg.step henq hdeq (runBenchmark_cases hstep)
  exact ⟨g', hg'⟩

end Region

/-! ## When the region has ended -/

/-- No counter of the worker reaches `2 ^ 31`. -/
structure Fits (rs : List (Res Value)) : Prop where
  enq : enqueues rs < 2 ^ 31
  failedEnq : failedEnqueues rs < 2 ^ 31
  deq : dequeues rs < 2 ^ 31
  failedDeq : failedDequeues rs < 2 ^ 31

/-- What the counters of a worker say at the end. -/
structure Accounted {L : Type} (x : Client L) : Prop where
  enqCount : x.w.enqCount.toInt = x.enqSum
  failedEnqCount : x.w.failedEnqCount.toInt = failedEnqueues x.results
  deqCount : x.w.deqCount.toInt + x.w.failedDeqCount.toInt = x.deqSum
  freeListInsertions : x.w.freeListInsertions.toInt = x.w.deqCount.toInt

theorem accounted {L : Type} {x : Client L} (hbooks : Books x.w x.results) (hprogress : x.Progress)
    (hdone : x.loc = .done) (hfits : Fits x.results) : Accounted x := by
  simp only [Client.Progress, hdone] at hprogress
  have hint : ∀ k < 2 ^ 31, (Int32.ofNat k).toInt = k := fun k hk => Int32.toInt_ofNat_of_lt hk
  exact
  { enqCount := by rw [hbooks.enqCount, hint _ hfits.enq]; exact hprogress.1
    failedEnqCount := by rw [hbooks.failedEnqCount, hint _ hfits.failedEnq]
    deqCount := by
      rw [hbooks.deqCount, hbooks.failedDeqCount, hint _ hfits.deq, hint _ hfits.failedDeq]
      exact hprogress.2
    freeListInsertions := by rw [hbooks.freeListInsertions, hbooks.deqCount] }

theorem account_of_run (C : Q.Correct) (henq : ∀ t, (enqSpecs t).Valid)
    (hdeq : ∀ t, (deqSpecs t).Valid) {es : List (Fin n × ClientChoice Q.Choice)}
    {s : Config (Fin n) Q.Mem (Client Q.Local)}
    (h : run (runBenchmark Q enqSpecs deqSpecs) (benchmarkInit Q) es = some s)
    (hdone : ∀ t, (s.th t).loc = .done) (hfits : ∀ t, Fits (s.th t).results) :
    (∀ t, Accounted (s.th t)) ∧
      ∃ main, Chain (Q.store s.mem).next (Q.store s.mem).head main ∧
        ∑ t, (s.th t).w.enqCount.toInt - ∑ t, (s.th t).w.deqCount.toInt = main.length - 1 := by
  obtain ⟨g, hregion⟩ := exists_region C henq hdeq h
  have hledger := hregion.ledger
  have hidle : Q.Quiet (queueState Q Client.l s) :=
    fun t => (hledger t).idle (by simp [hdone t, Loc.kind])
  have hcarries := C.carries hregion.inv hidle
  refine ⟨fun t => accounted (hledger t).books (hledger t).progress (hdone t) (hfits t),
    _, hcarries.main, ?_⟩
  -- every thread is idle, so its surplus is that of its results
  have hterm : ∀ t, net (s.th t).results + (C.moves.stage (s.th t).l).surplus =
      (s.th t).w.enqCount.toInt - (s.th t).w.deqCount.toInt := by
    intro t
    have hstage : C.moves.stage (s.th t).l = .idle := (C.idle_iff _).mp (hidle t)
    rw [(hledger t).books.enqCount, (hledger t).books.deqCount,
      Int32.toInt_ofNat_of_lt (hfits t).enq, Int32.toInt_ofNat_of_lt (hfits t).deq, hstage, net,
      surplus_idle, Int.add_zero]
  have hlen := hregion.length
  simp only [hterm, Finset.sum_sub_distrib] at hlen
  rw [hcarries.length, ← hlen]
  push_cast
  exact (Int.add_sub_cancel _ _).symm

/-- **Accounting law.**  When the parallel region has ended and no counter has reached `2 ^ 31`, the
counters of every thread add up to the sampled sizes, the insertions are the successful dequeues,
and the surplus of all threads together is the number of elements left in the queue.  The benchmark
runs version 1 with one thread only. -/
theorem counters_account (n v : Nat) (enqSpecs deqSpecs : Fin n → BatchSpec)
    (henq : ∀ t, (enqSpecs t).Valid) (hdeq : ∀ t, (deqSpecs t).Valid)
    {es : List (Fin n × ClientChoice (version n v).Choice)}
    {s : Config (Fin n) (version n v).Mem (Client (version n v).Local)}
    (h : run (runBenchmark (version n v) enqSpecs deqSpecs) (benchmarkInit (version n v)) es =
      some s)
    (hdone : ∀ t, (s.th t).loc = .done) (hfits : ∀ t, Fits (s.th t).results) :
    (∀ t, Accounted (s.th t)) ∧
      ∃ main, Chain ((version n v).store s.mem).next ((version n v).store s.mem).head main ∧
        ∑ t, (s.th t).w.enqCount.toInt - ∑ t, (s.th t).w.deqCount.toInt = main.length - 1 := by
  obtain ⟨C⟩ := version_correct n v
  exact account_of_run C henq hdeq h hdone hfits

/-- One round of one element, by one of two threads of Ex5 and by the thread of Ex1. -/
theorem counters_account_rounds :
    (∃ s, run (runBenchmark (version 2 5) (fun _ => ⟨.fixed, 1, 1⟩) fun _ => ⟨.fixed, 1, 1⟩)
        (benchmarkInit (version 2 5))
        (alone 0 (.plain (.deq 0)) 49 ++ [(1, ⟨false, 0, 0, 0, .plain (.deq 0)⟩)]) = some s ∧
      Accounted (s.th 0) ∧ (s.th 0).enqSum = 1) ∧
    ∃ s, run (runBenchmark (version 1 1) (fun _ => ⟨.fixed, 1, 1⟩) fun _ => ⟨.fixed, 1, 1⟩)
        (benchmarkInit (version 1 1)) (alone 0 ⟨.deq 0, false, some ⟨0, none⟩⟩ 9) = some s ∧
      Accounted (s.th 0) ∧ (s.th 0).enqSum = 1 := by
  have hvalid : ∀ n : Nat, ∀ _ : Fin n, (⟨.fixed, 1, 1⟩ : BatchSpec).Valid :=
    fun _ _ => ⟨by decide, by decide⟩
  have hfew : ∀ rs : List (Res Value), rs = [] ∨ rs = [.enq 1, .deq 1 0] → Fits rs := by
    rintro rs (rfl | rfl) <;> exact ⟨by decide, by decide, by decide, by decide⟩
  refine ⟨?_, ?_⟩
  · obtain ⟨s, hs⟩ : ∃ s, run (runBenchmark (version 2 5) (fun _ => ⟨.fixed, 1, 1⟩)
        fun _ => ⟨.fixed, 1, 1⟩) (benchmarkInit (version 2 5))
        (alone 0 (.plain (.deq 0)) 49 ++ [(1, ⟨false, 0, 0, 0, .plain (.deq 0)⟩)]) = some s :=
      ⟨_, rfl⟩
    have hloc : ((s.th 0).loc, (s.th 1).loc) = (.done, .done) :=
      run_observe hs (fun s => ((s.th 0).loc, (s.th 1).loc)) rfl
    have hresults : ((s.th 0).results, (s.th 1).results) = ([.enq 1, .deq 1 0], []) :=
      run_observe hs (fun s => ((s.th 0).results, (s.th 1).results)) rfl
    have hsum : (s.th 0).enqSum = 1 := run_observe hs (fun s => (s.th 0).enqSum) rfl
    obtain ⟨hloc₀, hloc₁⟩ := Prod.mk.inj hloc
    obtain ⟨hres₀, hres₁⟩ := Prod.mk.inj hresults
    have hall := counters_account 2 5 _ _ (hvalid 2) (hvalid 2) hs
      (Fin.forall_fin_two.mpr ⟨hloc₀, hloc₁⟩)
      (Fin.forall_fin_two.mpr ⟨hfew _ (.inr hres₀), hfew _ (.inl hres₁)⟩)
    exact ⟨s, hs, hall.1 0, hsum⟩
  · obtain ⟨s, hs⟩ : ∃ s, run (runBenchmark (version 1 1) (fun _ => ⟨.fixed, 1, 1⟩)
        fun _ => ⟨.fixed, 1, 1⟩) (benchmarkInit (version 1 1))
        (alone 0 ⟨.deq 0, false, some ⟨0, none⟩⟩ 9) = some s := ⟨_, rfl⟩
    have hloc : (s.th 0).loc = .done := run_observe hs (fun s => (s.th 0).loc) rfl
    have hresults : (s.th 0).results = [.enq 1, .deq 1 0] :=
      run_observe hs (fun s => (s.th 0).results) rfl
    have hsum : (s.th 0).enqSum = 1 := run_observe hs (fun s => (s.th 0).enqSum) rfl
    have hall := counters_account 1 1 _ _ (hvalid 1) (hvalid 1) hs
      (Fin.forall_fin_one.mpr hloc) (Fin.forall_fin_one.mpr (hfew _ (.inr hresults)))
    exact ⟨s, hs, hall.1 0, hsum⟩

end ConcurrentQueues.Bench
