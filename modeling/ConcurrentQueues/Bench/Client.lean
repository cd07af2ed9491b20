import ConcurrentQueues.Callers
import ConcurrentQueues.Bench.Model
import ConcurrentQueues.Bench.Spec

/-!
# Client — the parallel region of `run_benchmark`

The worker loop as a program: a thread samples its batch sizes, calls the queue and enters what the
call returns into its counters.  The steps of a call are the steps of the queue, so the calls of the
threads interleave as they do there.
-/

namespace ConcurrentQueues.Bench

open Reasoning

/-- The place in the worker loop: its head, one of the two inner loops with the value of `i`, or
behind the loop. -/
inductive Loc where
  | top
  | enq (i : Int32)
  | deq (i : Int32)
  | done
  deriving DecidableEq

/-- The locals of a thread.  The last two fields are not in the code: the sizes of all batches and
the results of all calls. -/
structure Client (L : Type) where
  loc : Loc
  enqSize : Int32
  deqSize : Int32
  w : Worker
  l : L
  batches : List (Int32 × Int32)
  results : List (Res Value)

/-- Whether the time interval is over, the results of `rand_r`, the value of the uninitialised
`value`, and the choices of the queue. -/
structure ClientChoice (C : Type) where
  more : Bool
  enqRand : UInt32
  deqRand : UInt32
  out : Value
  queue : C

section Program

variable {n : Nat} (Q : Queue n) (enqSpecs deqSpecs : Fin n → BatchSpec)

/-- What a call of `enq` has done when it returns; it has raised the counters of the worker itself,
which it was given by pointers. -/
def enqReply (t : Fin n) (m : Q.Mem) (l : Q.Local) (w : Worker) (code : Int) : EnqReply where
  success := code == 1
  failedCas := .ofNat (Q.failedEnqCAS l) - w.failedEnqCasCount
  insertions := .ofNat (Q.insertions m t l) - w.freeListInsertions
  freeListSize := ((Q.store m).freeLists t).size

/-- What a call of `deq` has done when it returns. -/
def deqReply (t : Fin n) (m : Q.Mem) (l : Q.Local) (w : Worker) (code : Int) (out : Value) :
    DeqReply where
  value := if code = 1 then some out else none
  failedCas := .ofNat (Q.failedDeqCAS l) - w.failedDeqCasCount
  insertions := .ofNat (Q.insertions m t l) - w.freeListInsertions
  freeListSize := ((Q.store m).freeLists t).size

/-- The enqueue loop behind a call. -/
def Client.enqReturn (t : Fin n) (i : Int32) (m : Q.Mem) (l : Q.Local) (code : Int)
    (x : Client Q.Local) : Client Q.Local :=
  { x with
    loc := .enq (i + flag (code == 1))
    w := x.w.enq (.ofNat n) (.ofNat t) (enqReply Q t m l x.w code)
    l := l
    results := x.results ++ [.enq code] }

/-- The dequeue loop behind a call. -/
def Client.deqReturn (t : Fin n) (i : Int32) (m : Q.Mem) (l : Q.Local) (code : Int) (out : Value)
    (x : Client Q.Local) : Client Q.Local :=
  { x with
    loc := .deq (i + 1)
    w := x.w.deq (deqReply Q t m l x.w code out)
    l := l
    results := x.results ++ [.deq code out] }

/-- The parallel region. -/
def runBenchmark : Program (Fin n) (ClientChoice Q.Choice) Q.Mem (Client Q.Local) := fun t c m x =>
  match x.loc with
  | .top =>
      if c.more then
        let enqSize := (enqSpecs t).sample c.enqRand
        let deqSize := (deqSpecs t).sample c.deqRand
        .next m
          { x with
            loc := .enq 0
            enqSize := enqSize
            deqSize := deqSize
            batches := x.batches ++ [(enqSize, deqSize)] }
      else .next m { x with loc := .done }
  | .enq i =>
      if Q.idle x.l = true ∧ ¬ i < x.enqSize then .next m { x with loc := .deq 0 }
      else
        inCall Q t (.enq (x.w.value (.ofNat n) (.ofNat t))) true c.queue m x.l
          (fun l' => { x with l := l' })
          fun m' l' res =>
            match res with
            | .enq code => some (x.enqReturn Q t i m' l' code)
            | .deq _ _ => none
  | .deq i =>
      if Q.idle x.l = true ∧ ¬ i < x.deqSize then .next m { x with loc := .top }
      else
        inCall Q t (.deq c.out) true c.queue m x.l
          (fun l' => { x with l := l' })
          fun m' l' res =>
            match res with
            | .enq _ => none
            | .deq code out => some (x.deqReturn Q t i m' l' code out)
  -- the thread waits at the end of the region
  | .done => .blocked

/-- The beginning of the region, after `init_queue`. -/
def benchmarkInit : Config (Fin n) Q.Mem (Client Q.Local) where
  mem := Q.init.mem
  th t :=
    { loc := .top
      enqSize := 0
      deqSize := 0
      w := Worker.start
      l := Q.init.th t
      batches := []
      results := [] }

/-- `k` steps of thread `t`, which then finds the time interval over. -/
def alone {C : Type} (t : Fin n) (q : C) (k : Nat) : List (Fin n × ClientChoice C) :=
  List.replicate k (t, ⟨true, 0, 0, 0, q⟩) ++ [(t, ⟨false, 0, 0, 0, q⟩)]

end Program

/-! ## What a step can do -/

section Cases

variable {n : Nat} {Q : Queue n} {enqSpecs deqSpecs : Fin n → BatchSpec}

/-- The call a thread is in, or begins. -/
inductive Calls (t : Fin n) (x : Client Q.Local) : Op Value → Prop
  | enq {i} (hloc : x.loc = .enq i) (hlt : Q.idle x.l = true → i < x.enqSize) :
      Calls t x (.enq (x.w.value (.ofNat n) (.ofNat t)))
  | deq {i} (out) (hloc : x.loc = .deq i) (hlt : Q.idle x.l = true → i < x.deqSize) :
      Calls t x (.deq out)

/-- The steps of the parallel region: four at the heads of the loops, and those of the queue. -/
inductive ClientStep (enqSpecs deqSpecs : Fin n → BatchSpec) (t : Fin n)
    (c : ClientChoice Q.Choice) (m : Q.Mem) (x : Client Q.Local) : Q.Mem → Client Q.Local → Prop
  | batch (hloc : x.loc = .top) :
      ClientStep enqSpecs deqSpecs t c m x m
        { x with
          loc := .enq 0
          enqSize := (enqSpecs t).sample c.enqRand
          deqSize := (deqSpecs t).sample c.deqRand
          batches :=
            x.batches ++ [((enqSpecs t).sample c.enqRand, (deqSpecs t).sample c.deqRand)] }
  | leave (hloc : x.loc = .top) :
      ClientStep enqSpecs deqSpecs t c m x m { x with loc := .done }
  | turn {i} (hloc : x.loc = .enq i) (hidle : Q.idle x.l = true) (hge : ¬ i < x.enqSize) :
      ClientStep enqSpecs deqSpecs t c m x m { x with loc := .deq 0 }
  | again {i} (hloc : x.loc = .deq i) (hidle : Q.idle x.l = true) (hge : ¬ i < x.deqSize) :
      ClientStep enqSpecs deqSpecs t c m x m { x with loc := .top }
  | call {op m' l'} (hcalls : Calls t x op)
      (hstep : Q.step t (Q.calling op true c.queue) m x.l = .next m' l')
      (hmark : ∀ res, Q.mark t (Q.calling op true c.queue) m x.l ≠ some (.ret res)) :
      ClientStep enqSpecs deqSpecs t c m x m' { x with l := l' }
  | enqReturn {i op m' l' code} (hloc : x.loc = .enq i) (hcalls : Calls t x op)
      (hstep : Q.step t (Q.calling op true c.queue) m x.l = .next m' l')
      (hmark : Q.mark t (Q.calling op true c.queue) m x.l = some (.ret (.enq code))) :
      ClientStep enqSpecs deqSpecs t c m x m' (x.enqReturn Q t i m' l' code)
  | deqReturn {i op m' l' code out} (hloc : x.loc = .deq i) (hcalls : Calls t x op)
      (hstep : Q.step t (Q.calling op true c.queue) m x.l = .next m' l')
      (hmark : Q.mark t (Q.calling op true c.queue) m x.l = some (.ret (.deq code out))) :
      ClientStep enqSpecs deqSpecs t c m x m' (x.deqReturn Q t i m' l' code out)

theorem runBenchmark_cases {t : Fin n} {c : ClientChoice Q.Choice} {m m' : Q.Mem}
    {x x' : Client Q.Local} (h : runBenchmark Q enqSpecs deqSpecs t c m x = .next m' x') :
    ClientStep enqSpecs deqSpecs t c m x m' x' := by
  unfold runBenchmark at h
  split at h
  next hloc =>
    split at h <;> cases h
    · exact .batch hloc
    · exact .leave hloc
  next i hloc =>
    split at h
    next hend =>
      cases h
      exact .turn hloc hend.1 hend.2
    next hgo =>
      have hcalls : Calls t x (.enq (x.w.value (.ofNat n) (.ofNat t))) :=
        .enq hloc fun hidle => by simpa [hidle] using hgo
      obtain ⟨l', hstep, ⟨hmark, rfl⟩ | ⟨res, hmark, hback⟩⟩ := inCall_cases h
      · exact .call hcalls hstep hmark
      · cases res with
        | enq code =>
            cases hback
            exact .enqReturn hloc hcalls hstep hmark
        | deq code out => cases hback
  next i hloc =>
    split at h
    next hend =>
      cases h
      exact .again hloc hend.1 hend.2
    next hgo =>
      have hcalls : Calls t x (.deq c.out) :=
        .deq c.out hloc fun hidle => by simpa [hidle] using hgo
      obtain ⟨l', hstep, ⟨hmark, rfl⟩ | ⟨res, hmark, hback⟩⟩ := inCall_cases h
      · exact .call hcalls hstep hmark
      · cases res with
        | enq code => cases hback
        | deq code out =>
            cases hback
            exact .deqReturn hloc hcalls hstep hmark
  next => cases h

/-- A step is a step of the queue, or leaves the queue alone. -/
theorem ClientStep.queue {t : Fin n} {c : ClientChoice Q.Choice} {m m' : Q.Mem}
    {x x' : Client Q.Local} (h : ClientStep enqSpecs deqSpecs t c m x m' x') :
    (m' = m ∧ x'.l = x.l ∧ x'.results = x.results) ∨
      ∃ op, Calls t x op ∧ Q.step t (Q.calling op true c.queue) m x.l = .next m' x'.l ∧
        x'.results = x.results ++
          (Mark.result (Q.mark t (Q.calling op true c.queue) m x.l)).toList := by
  cases h with
  | batch | leave | turn | again => exact .inl ⟨rfl, rfl, rfl⟩
  | call hcalls hstep hmark =>
      refine .inr ⟨_, hcalls, hstep, ?_⟩
      unfold Mark.result
      split
      next res hres => exact absurd hres (hmark res)
      next => simp
  | enqReturn hloc hcalls hstep hmark =>
      exact .inr ⟨_, hcalls, hstep, by rw [hmark]; rfl⟩
  | deqReturn hloc hcalls hstep hmark =>
      exact .inr ⟨_, hcalls, hstep, by rw [hmark]; rfl⟩

/-! ## The run of the queue in a run of the region -/

/-- The queue in a run of the region is in a run of its own, in which the threads get the same
results. -/
theorem exists_queueRun {s : Config (Fin n) Q.Mem (Client Q.Local)}
    {es : List (Fin n × ClientChoice Q.Choice)}
    (h : run (runBenchmark Q enqSpecs deqSpecs) (benchmarkInit Q) es = some s) :
    ∃ fs, run Q.step Q.init fs = some (queueState Q Client.l s) ∧
      ∀ t, returns t (marks Q.step Q.mark Q.init fs) = (s.th t).results := by
  refine exists_queueRun_of_step (f := Client.l) (K := fun t x ms => returns t ms = x.results) rfl
    (fun _ => rfl) ?_ ?_ h
  · intro t u x ms mk hu hknown
    rw [returns_snoc_other _ _ hu, hknown]
  · intro v t c m' x' fs hrun hknown hnext
    obtain ⟨hm, hl, hres⟩ | ⟨op, -, hq, hres⟩ := (runBenchmark_cases hnext).queue
    · exact .inl ⟨hm, hl, hknown.trans hres.symm⟩
    · refine .inr ⟨_, hq, ?_⟩
      rw [returns_snoc_self, hknown, hres]

end Cases

end ConcurrentQueues.Bench
