import ConcurrentQueues.Histories
import ConcurrentQueues.Bench.Delivery

/-!
# Drain — `run_benchmark` from `init_queue` to `destroy_queue`

Behind the parallel region the master thread dequeues what is left, compares the sums and destroys
the queue.  The final loop ends with the queue empty, whatever has happened in the region, and what
it takes out completes what the workers have dequeued.
-/

namespace ConcurrentQueues.Bench

open Reasoning

variable {n : Nat} {Q : Queue n}

/-- `for(;;) { int ok = deq(&dv, &queue, 0, NULL); if (!ok) break; … }` executed by `t` alone, with
the values it takes out; `out` is the content of `dv`. -/
inductive Drains (Q : Queue n) (t : Fin n) : Value → Q.State → List Value → Q.State → Prop
  | stop {out s s₁ s' c v} (hcall : fire Q.step s (t, Q.calling (.deq out) false c) = some s₁)
      (hrun : Q.Finishes t s₁ (.deq 0 v) s') : Drains Q t out s [] s'
  | next {out s s₁ s' s'' c code v vs} (hok : code ≠ 0)
      (hcall : fire Q.step s (t, Q.calling (.deq out) false c) = some s₁)
      (hrun : Q.Finishes t s₁ (.deq code v) s') (hrest : Drains Q t v s' vs s'') :
      Drains Q t out s (v :: vs) s''

section Drains

variable {C : Q.Correct} {s s' : Q.State} {g : C.G} {t : Fin n} {out : Value} {vs : List Value}

/-- A quiet state is between the calls that have led to it. -/
theorem between_self (hI : C.I s g) (hquiet : Q.Quiet s) :
    C.Between ⟨C.moves.nodes s.mem g, fun t => Q.insertions s.mem t (s.th t), []⟩ s g :=
  ⟨hI, hquiet, rfl, fun _ => rfl⟩

/-- A call of `deq` alone takes the first value out, or finds the queue empty. -/
theorem deq_alone (hI : C.I s g) (hquiet : Q.Quiet s) {c : Q.Choice} {s₁ : Q.State}
    {res : Res Value} (hcall : fire Q.step s (t, Q.calling (.deq out) false c) = some s₁)
    (hrun : Q.Finishes t s₁ res s') :
    ∃ g', C.I s' g' ∧ Q.Quiet s' ∧
      match (C.moves.nodes s.mem g).items with
      | [] => res = .deq 0 out ∧ (C.moves.nodes s'.mem g').items = []
      | v :: items => res = .deq 1 v ∧ (C.moves.nodes s'.mem g').items = items := by
  obtain ⟨g₁, hexec⟩ := (between_self hI hquiet).call (r := ⟨t, .deq out, false⟩) hcall
  obtain ⟨hres, g', hbetween⟩ := hexec.finishes hrun
  refine ⟨g', hbetween.inv, hbetween.quiet, ?_⟩
  have hlen := (C.carries hI hquiet).length
  rw [hbetween.nodes, hres]
  simp only [Replay.perform]
  cases hitems : (C.moves.nodes s.mem g).items with
  | nil =>
      cases hmain : (C.moves.nodes s.mem g).main <;> simp [Nodes.call, hmain, hitems]
  | cons v items =>
      cases hmain : (C.moves.nodes s.mem g).main with
      | nil => simp [hmain] at hlen
      | cons p main => simp [Nodes.call, hmain, hitems]

/-- The loop takes out what is in the queue, and leaves it empty. -/
theorem Drains.spec (h : Drains Q t out s vs s') (hI : C.I s g) (hquiet : Q.Quiet s) :
    vs = (C.moves.nodes s.mem g).items ∧
      ∃ g', C.I s' g' ∧ Q.Quiet s' ∧ (C.moves.nodes s'.mem g').items = [] := by
  induction h generalizing g with
  | stop hcall hrun =>
      obtain ⟨g', hI', hquiet', hres⟩ := deq_alone hI hquiet hcall hrun
      cases hitems : (C.moves.nodes _ g).items with
      | nil =>
          rw [hitems] at hres
          exact ⟨rfl, g', hI', hquiet', hres.2⟩
      | cons v items =>
          rw [hitems] at hres
          exact absurd hres.1 (by simp)
  | next hok hcall hrun _ ih =>
      obtain ⟨g', hI', hquiet', hres⟩ := deq_alone hI hquiet hcall hrun
      cases hitems : (C.moves.nodes _ g).items with
      | nil =>
          rw [hitems] at hres
          obtain ⟨hres, -⟩ := hres
          cases hres
          exact absurd rfl hok
      | cons v items =>
          rw [hitems] at hres
          obtain ⟨hres, hrest⟩ := hres
          cases hres
          obtain ⟨rfl, hend⟩ := ih hI' hquiet'
          exact ⟨by rw [hrest], hend⟩

theorem exists_deq_alone (hI : C.I s g) (hquiet : Q.Quiet s) (t : Fin n) (out : Value) :
    ∃ c s₁ res s', fire Q.step s (t, Q.calling (.deq out) false c) = some s₁ ∧
      Q.Finishes t s₁ res s' := by
  obtain ⟨c, -⟩ := C.strong
  obtain ⟨s₁, hcall, hret⟩ := C.call_returns hI hquiet t (.deq out) false c
  obtain ⟨g₁, hexec⟩ := (between_self hI hquiet).call (r := ⟨t, .deq out, false⟩) hcall
  obtain ⟨res, s', hrun⟩ := hexec.exists_finishes hret
  exact ⟨c, s₁, res, s', hcall, hrun⟩

/-- The loop comes to its end: it makes one call more than there are values. -/
theorem exists_drains (hI : C.I s g) (hquiet : Q.Quiet s) (t : Fin n) (out : Value) :
    ∃ vs s', Drains Q t out s vs s' := by
  generalize hitems : (C.moves.nodes s.mem g).items = items
  induction items generalizing s g out with
  | nil =>
      obtain ⟨c, s₁, res, s', hcall, hrun⟩ := exists_deq_alone hI hquiet t out
      obtain ⟨g', -, -, hres⟩ := deq_alone hI hquiet hcall hrun
      rw [hitems] at hres
      exact ⟨[], s', .stop hcall (hres.1 ▸ hrun)⟩
  | cons v items ih =>
      obtain ⟨c, s₁, res, s', hcall, hrun⟩ := exists_deq_alone hI hquiet t out
      obtain ⟨g', hI', hquiet', hres⟩ := deq_alone hI hquiet hcall hrun
      rw [hitems] at hres
      obtain ⟨hres, hrest⟩ := hres
      obtain ⟨vs, s'', hdrains⟩ := ih hI' hquiet' v hrest
      exact ⟨v :: vs, s'', .next (by decide) hcall (hres ▸ hrun) hdrains⟩

end Drains

/-! ## The worker loop -/

section Rounds

variable {enqSpecs deqSpecs : Fin n → BatchSpec} {C : Q.Correct}
  {s : Config (Fin n) Q.Mem (Client Q.Local)} {t : Fin n} {c : ClientChoice Q.Choice}
  {m' : Q.Mem} {x x' : Client Q.Local}

/-- The worker has come here through whole rounds, and through a part of the round it is in; the
rest of that part does not depend on what was before. -/
def Client.Came (t : Fin n) (x : Client Q.Local) : Prop :=
  ∃ bs w₀, worker (.ofNat n) (.ofNat t) bs = some w₀ ∧
    match x.loc with
    | .top | .done => x.w = w₀
    | .enq i => ∃ rs, ∀ rest,
        enqBatch (.ofNat n) (.ofNat t) x.enqSize 0 w₀ (rs ++ rest) =
          enqBatch (.ofNat n) (.ofNat t) x.enqSize i x.w rest
    | .deq i => ∃ rs w₁ ds, enqBatch (.ofNat n) (.ofNat t) x.enqSize 0 w₀ rs = some w₁ ∧
        ∀ rest, deqBatch x.deqSize 0 w₁ (ds ++ rest) = deqBatch x.deqSize i x.w rest

theorem Client.Came.step (h : x.Came t) {m : Q.Mem}
    (hwithin : Q.idle x.l = false → x.Within)
    (hbusy : ∀ op res, Q.mark t (Q.calling op true c.queue) m x.l = some (.ret res) →
      Q.idle x.l = false)
    (hs : ClientStep enqSpecs deqSpecs t c m x m' x') : x'.Came t := by
  obtain ⟨bs, w₀, hran, hpart⟩ := h
  cases hs with
  | batch hloc =>
      rw [hloc] at hpart
      exact ⟨bs, w₀, hran, [], fun rest => by rw [List.nil_append, ← hpart]⟩
  | leave hloc =>
      rw [hloc] at hpart
      exact ⟨bs, w₀, hran, hpart⟩
  | turn hloc hidle hge =>
      rw [hloc] at hpart
      obtain ⟨rs, hrs⟩ := hpart
      have hend := hrs []
      rw [List.append_nil, enqBatch, if_neg hge] at hend
      exact ⟨bs, w₀, hran, rs, x.w, [], hend, fun rest => rfl⟩
  | again hloc hidle hge =>
      rw [hloc] at hpart
      obtain ⟨rs, w₁, ds, hrs, hds⟩ := hpart
      have hend := hds []
      rw [List.append_nil, deqBatch, if_neg hge] at hend
      -- one more round is complete
      refine ⟨bs ++ [⟨x.enqSize, x.deqSize, rs, ds⟩], x.w, ?_, rfl⟩
      rw [worker, List.foldlM_append, show bs.foldlM _ Worker.start = some w₀ from hran]
      simp [round, hrs, hend]
  | call => exact ⟨bs, w₀, hran, hpart⟩
  | @enqReturn i op m' l' code hloc hcalls hstep hmark =>
      have hlt := hwithin (hbusy _ _ hmark)
      simp only [Client.Within, hloc] at hlt hpart
      obtain ⟨rs, hrs⟩ := hpart
      refine ⟨bs, w₀, hran, rs ++ [enqReply Q t m' l' x.w code], fun rest => ?_⟩
      rw [List.append_assoc, List.singleton_append]
      refine (hrs _).trans ?_
      rw [enqBatch, if_pos hlt]
      rfl
  | @deqReturn i op m' l' code out hloc hcalls hstep hmark =>
      have hlt := hwithin (hbusy _ _ hmark)
      simp only [Client.Within, hloc] at hlt hpart
      obtain ⟨rs, w₁, ds, hrs, hds⟩ := hpart
      refine ⟨bs, w₀, hran, rs, w₁, ds ++ [deqReply Q t m' l' x.w code out], hrs, fun rest => ?_⟩
      rw [List.append_assoc, List.singleton_append]
      refine (hds _).trans ?_
      rw [deqBatch, if_pos hlt]
      rfl

/-- A worker that has left the loop has run whole rounds. -/
theorem exists_rounds (C : Q.Correct) (henq : ∀ t, (enqSpecs t).Valid)
    (hdeq : ∀ t, (deqSpecs t).Valid) {es : List (Fin n × ClientChoice Q.Choice)}
    (h : run (runBenchmark Q enqSpecs deqSpecs) (benchmarkInit Q) es = some s)
    (hdone : (s.th t).loc = .done) :
    ∃ bs, worker (.ofNat n) (.ofNat t) bs = some (s.th t).w := by
  suffices hcame : (s.th t).Came t by
    obtain ⟨bs, w₀, hran, hpart⟩ := hcame
    rw [hdone] at hpart
    exact ⟨bs, hpart ▸ hran⟩
  refine run_induction (motive := fun _ v => (v.th t).Came t) ⟨[], Worker.start, rfl, rfl⟩ ?_ es s h
  rintro es ⟨u, c⟩ v w hrun hcame hf
  obtain ⟨m', x', hstep, rfl⟩ := fire_eq_some.mp hf
  by_cases hu : t = u
  · subst hu
    obtain ⟨g, hregion⟩ := exists_region C henq hdeq hrun
    simpa only [Function.update_self] using
      hcame.step (hregion.ledger t).within (fun _ _ hmark => C.busy_of_ret hmark)
        (runBenchmark_cases hstep)
  · simpa only [Function.update_of_ne hu] using hcame

end Rounds

/-! ## The whole function -/

/-- What the workers have dequeued and what is left is what they have enqueued. -/
theorem Traffic.perm {s : Config (Fin n) Q.Mem (Client Q.Local)} {items : List Value}
    {count : Fin n → Nat} {ins outs : List (Fin n × Value)} (h : Traffic Q s items count ins outs)
    (hquiet : Q.Quiet (queueState Q Client.l s))
    (henqueued : ∀ t : Fin n, (s.th t).w.enqueued = values n t (s.th t).w.enqueued.length) :
    ((List.finRange n).flatMap (fun t => (s.th t).w.dequeued) ++ items).Perm
      ((List.finRange n).flatMap fun t => (s.th t).w.enqueued) := by
  have houts := flatMap_ofThread_perm outs
  have hins := flatMap_ofThread_perm ins
  simp only [(h.quiet hquiet _).2] at houts
  simp only [h.entered, (h.quiet hquiet _).1, ← henqueued] at hins
  rw [h.fifo] at hins
  exact (houts.append_right items).trans hins.symm

end ConcurrentQueues.Bench
