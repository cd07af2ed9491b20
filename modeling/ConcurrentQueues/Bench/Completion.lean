import ConcurrentQueues.Bench.Counters
import ConcurrentQueues.Liveness

/-!
# Completion — the parallel region of `run_benchmark` ends

When the time interval is over, a worker still makes the calls that are left of its batch.  A call
of `enq` that returns 0 is made again, but none does while `malloc` succeeds.
-/

namespace ConcurrentQueues

open Reasoning

namespace Bench

variable {n : Nat} {Q : Queue n} {C : Q.Correct} {L : Q.Live}
  {enqSpecs deqSpecs : Fin n → BatchSpec} {s s' : Config (Fin n) Q.Mem (Client Q.Local)} {g : C.G}
  {es : List (Fin n × ClientChoice Q.Choice)} {t : Fin n} {c : ClientChoice Q.Choice} {m' : Q.Mem}
  {x x' : Client Q.Local} {k b : Nat}

/-! ## What is left of a batch -/

/-- The calls that are left of the batch, with the open one. -/
def Client.left {L : Type} (x : Client L) : Nat :=
  match x.loc with
  | .enq i => (x.enqSize.toInt - i.toInt).toNat + x.deqSize.toInt.toNat
  | .deq i => (x.deqSize.toInt - i.toInt).toNat
  | .top | .done => 0

/-- The calls that the worker has still to begin before it looks at the time again. -/
def Client.calls (x : Client Q.Local) : Nat := if Q.idle x.l then x.left else x.left - 1

/-- The steps at the heads of the loops. -/
def Client.turns {L : Type} (x : Client L) : Nat :=
  match x.loc with
  | .enq _ => 3
  | .deq _ => 2
  | .top => 1
  | .done => 0

theorem Client.left_pos {L : Type} {x : Client L} (h : x.Within) (hkind : x.loc.kind ≠ none) :
    0 < x.left := by
  unfold Client.left
  unfold Client.Within at h
  cases hloc : x.loc with
  | enq i =>
      have hlt := Int32.lt_iff_toInt_lt.mp (by simpa only [hloc] using h)
      dsimp only
      omega
  | deq i =>
      have hlt := Int32.lt_iff_toInt_lt.mp (by simpa only [hloc] using h)
      dsimp only
      omega
  | top | done => simp [hloc, Loc.kind] at hkind

theorem Client.left_enqReturn {i : Int32} {l' : Q.Local} (hloc : x.loc = .enq i)
    (hlt : i < x.enqSize) : (x.enqReturn Q t i m' l' 1).left + 1 = x.left := by
  have hsucc := toInt_succ hlt
  have hlt' := Int32.lt_iff_toInt_lt.mp hlt
  simp only [Client.left, Client.enqReturn, hloc, flag, show ((1 : Int) == 1) = true from rfl,
    if_true, hsucc]
  omega

theorem Client.left_deqReturn {i : Int32} {l' : Q.Local} {code : Int} {out : Value}
    (hloc : x.loc = .deq i) (hlt : i < x.deqSize) :
    (x.deqReturn Q t i m' l' code out).left + 1 = x.left := by
  have hsucc := toInt_succ hlt
  have hlt' := Int32.lt_iff_toInt_lt.mp hlt
  simp only [Client.left, Client.deqReturn, hloc, hsucc]
  omega

/-! ## While `malloc` succeeds -/

/-- What is known of the region then, and what its open calls still cost. -/
structure Supplied (C : Q.Correct) (L : Q.Live) (s : Config (Fin n) Q.Mem (Client Q.Local))
    (g : C.G) (k : Nat) : Prop where
  region : Region C s g
  served : ∀ t, C.moves.stage (s.th t).l ≠ .done (.enq 0)
  costs : L.costs (queueState Q Client.l s) k

theorem Region.served (h : Region C s g) (hserved : ∀ u, C.moves.stage (s.th u).l ≠ .done (.enq 0))
    (hmem : Q.allocates c.queue = true)
    (hs : ClientStep enqSpecs deqSpecs t c s.mem (s.th t) m' x') :
    ∀ u, C.moves.stage (Function.update s.th t x' u).l ≠ .done (.enq 0) := by
  intro u
  by_cases hut : u = t
  · subst hut
    rw [Function.update_self]
    obtain ⟨-, hl, -⟩ | ⟨op, -, hq, -⟩ := hs.queue
    · rw [hl]
      exact hserved u
    · obtain ⟨g', -, hmove⟩ := C.exists_step (t := u) h.inv hq
      rw [C.mem_calling, C.mem_of_allocates hmem] at hmove
      exact hmove.not_failed (hserved u)
  · rw [Function.update_of_ne hut]
    exact hserved u

theorem Supplied.step (henq : ∀ t, (enqSpecs t).Valid) (hdeq : ∀ t, (deqSpecs t).Valid)
    (h : Supplied C L s g k) (hmem : Q.allocates c.queue = true)
    (hs : ClientStep enqSpecs deqSpecs t c s.mem (s.th t) m' x') {k' : Nat}
    (hk' : L.costs (queueState Q Client.l ⟨m', Function.update s.th t x'⟩) k') :
    ∃ g', Supplied C L ⟨m', Function.update s.th t x'⟩ g' k' := by
  obtain ⟨g', -, -, hregion, -⟩ := h.region.step henq hdeq hs
  exact ⟨g', hregion, h.region.served h.served hmem hs, hk'⟩

theorem exists_supplied (C : Q.Correct) (L : Q.Live) (henq : ∀ t, (enqSpecs t).Valid)
    (hdeq : ∀ t, (deqSpecs t).Valid)
    (h : run (runBenchmark Q enqSpecs deqSpecs) (benchmarkInit Q) es = some s)
    (hmem : ∀ e ∈ es, Q.allocates e.2.queue = true) : ∃ g k, Supplied C L s g k := by
  induction es using List.reverseRecOn generalizing s with
  | nil =>
      cases h
      obtain ⟨k, hk⟩ := L.init
      refine ⟨C.start, k, region_init C, fun t => ?_, hk⟩
      have hstage := (C.idle_iff _).mp (C.quiet_init t)
      simp [benchmarkInit, hstage]
  | append_singleton es e ih =>
      obtain ⟨v, hv, hf⟩ := run_snoc.mp h
      obtain ⟨g, k, hsupplied⟩ := ih hv fun d hd => hmem d (List.mem_append_left _ hd)
      obtain ⟨m', x', hstep, rfl⟩ := fire_eq_some.mp hf
      have hs := runBenchmark_cases hstep
      have hmem' := hmem e (by simp)
      have hqueue : (m' = v.mem ∧ x'.l = (v.th e.1).l) ∨ ∃ op,
          Q.step e.1 (Q.calling op true e.2.queue) v.mem (v.th e.1).l = .next m' x'.l := by
        obtain ⟨hm, hl, -⟩ | ⟨op, -, hq, -⟩ := hs.queue
        · exact .inl ⟨hm, hl⟩
        · exact .inr ⟨op, hq⟩
      obtain ⟨k', hk'⟩ := L.exists_costs_caller hsupplied.costs hmem' hqueue
      obtain ⟨g', hsupplied'⟩ := hsupplied.step henq hdeq hmem' hs hk'
      exact ⟨g', k', hsupplied'⟩

/-! ## Every step pays -/

/-- What the calls cost at most that are open or belong to the batches. -/
def work (L : Q.Live) (s : Config (Fin n) Q.Mem (Client Q.Local)) (k : Nat) : Nat :=
  Queue.bill L.price k (∑ t, (s.th t).calls) (∑ t, (s.th t).turns)

/-- A step that costs less than it takes off. -/
structure Pays (L : Q.Live) (k : Nat) (x : Client Q.Local) (k' : Nat) (x' : Client Q.Local) :
    Prop where
  calls : x'.calls ≤ x.calls
  turns : x'.turns ≤ x.turns
  less : k' < k ∨ (k' ≤ k + L.price ∧ x'.calls < x.calls) ∨ (k' ≤ k ∧ x'.turns < x.turns)

theorem Pays.work_lt {k' : Nat} (h : Pays L k (s.th t) k' x') :
    work L ⟨m', Function.update s.th t x'⟩ k' < work L s k := by
  have hcalls := sum_update (fun _ y => y.calls) s.th t x'
  have hturns := sum_update (fun _ => Client.turns) s.th t x'
  obtain ⟨hle, hturn, hless⟩ := h
  apply Queue.bill_lt <;> dsimp only <;> omega

/-- A step at the head of a loop. -/
theorem pays_head (hidle : Q.idle (s.th t).l = true) (hl : x'.l = (s.th t).l)
    (hleft : x'.left ≤ (s.th t).left) (hturns : x'.turns < (s.th t).turns)
    (hk : L.costs (queueState Q Client.l s) k) :
    ∃ k', L.costs (queueState Q Client.l ⟨s.mem, Function.update s.th t x'⟩) k' ∧
      Pays L k (s.th t) k' x' := by
  refine ⟨k, ?_, ?_, hturns.le, .inr (.inr ⟨le_rfl, hturns⟩)⟩
  · rw [queueState_same hl]
    exact hk
  · simpa only [Client.calls, hl, hidle, if_true] using hleft

theorem Supplied.pays (h : Supplied C L s g k) (hgood : Q.Good c.queue)
    (hgo : ¬ L.waits (queueState Q Client.l s) t)
    (hs : ClientStep enqSpecs deqSpecs t c s.mem (s.th t) m' x')
    (hover : (s.th t).loc = .top → x'.loc = .done) :
    ∃ k', L.costs (queueState Q Client.l ⟨m', Function.update s.th t x'⟩) k' ∧
      Pays L k (s.th t) k' x' := by
  have hledger := h.region.ledger t
  cases hs with
  | batch hloc => cases hover hloc
  | leave hloc =>
      refine pays_head (hledger.idle (by simp [hloc, Loc.kind])) ?_ ?_ ?_ h.costs
      · rfl
      · simp [Client.left]
      · simp [Client.turns, hloc]
  | turn hloc hidle hge =>
      refine pays_head hidle ?_ ?_ ?_ h.costs
      · rfl
      · simp [Client.left, hloc]
      · simp [Client.turns, hloc]
  | again hloc hidle hge =>
      refine pays_head hidle ?_ ?_ ?_ h.costs
      · rfl
      · simp [Client.left]
      · simp [Client.turns, hloc]
  | @call op m' l' hcalls hstep hmark =>
      have hledger' := hledger.call h.region.inv hcalls hstep hmark
      have hkind : (s.th t).loc.kind ≠ none := by
        cases hcalls with
        | enq hloc => simp [hloc, Loc.kind]
        | deq out hloc => simp [hloc, Loc.kind]
      obtain ⟨g₁, -, hmove⟩ := C.exists_step (t := t) h.region.inv hstep
      rw [queueState_update]
      cases hidle : Q.idle (s.th t).l with
      | true =>
          -- the call begins
          have hbusy : Q.idle l' = false :=
            C.busy_of_stage (by simp [hmove.of_call (C.mark_calling hidle)])
          have hpos := Client.left_pos (hledger'.within hbusy) hkind
          obtain ⟨k', hle, hk'⟩ := L.begin_call (t := t) h.costs hidle hstep
          have hleft : Client.left { s.th t with l := l' } = (s.th t).left := rfl
          have hless : Client.calls { s.th t with l := l' } < (s.th t).calls := by
            simp only [Client.calls, hidle, hbusy, hleft, if_true, if_false, Bool.false_eq_true]
            omega
          exact ⟨k', hk', hless.le, le_rfl, .inr (.inl ⟨hle, hless⟩)⟩
      | false =>
          have hbusy : Q.idle l' = false :=
            C.busy_of_stage (hmove.busy (C.stage_of_busy hidle) hmark)
          obtain ⟨k', hlt, hk'⟩ := L.lower_call (t := t) h.costs hidle hgood hgo hstep
          refine ⟨k', hk', ?_, le_rfl, .inl hlt⟩
          simp [Client.calls, hidle, hbusy, Client.left]
  | @enqReturn i op m' l' code hloc hcalls hstep hmark =>
      obtain ⟨hidle, hbusy, hcode, -⟩ := hledger.ret h.region.inv hstep hmark
      have hwithin := hledger.within hbusy
      simp only [Client.Within, hloc] at hwithin
      obtain ⟨g₁, -, hmove⟩ := C.exists_step (t := t) h.region.inv hstep
      obtain ⟨k', hlt, hk'⟩ := L.lower_call (t := t) h.costs hbusy hgood hgo hstep
      refine ⟨k', by rwa [queueState_update], ?_, ?_, .inl hlt⟩
      · obtain rfl | rfl := hcode
        -- a failed `enq` would be made again, but none has failed
        · exact absurd (hmove.stage_of_ret hmark) (h.served t)
        · have hleft : ((s.th t).enqReturn Q t i m' l' 1).left + 1 = (s.th t).left :=
            Client.left_enqReturn hloc hwithin
          simp only [Client.calls, hbusy, if_false, Bool.false_eq_true]
          simp only [Client.enqReturn] at hleft ⊢
          simp only [hidle, if_true]
          omega
      · simp [Client.turns, Client.enqReturn, hloc]
  | @deqReturn i op m' l' code out hloc hcalls hstep hmark =>
      obtain ⟨hidle, hbusy, -, -⟩ := hledger.ret h.region.inv hstep hmark
      have hwithin := hledger.within hbusy
      simp only [Client.Within, hloc] at hwithin
      obtain ⟨k', hlt, hk'⟩ := L.lower_call (t := t) h.costs hbusy hgood hgo hstep
      refine ⟨k', by rwa [queueState_update], ?_, ?_, .inl hlt⟩
      · have hleft : ((s.th t).deqReturn Q t i m' l' code out).left + 1 = (s.th t).left :=
          Client.left_deqReturn hloc hwithin
        simp only [Client.calls, hbusy, if_false, Bool.false_eq_true]
        simp only [Client.deqReturn] at hleft ⊢
        simp only [hidle, if_true]
        omega
      · simp [Client.turns, Client.deqReturn, hloc]

def Works (C : Q.Correct) (L : Q.Live) (s : Config (Fin n) Q.Mem (Client Q.Local)) (b : Nat) :
    Prop :=
  ∃ g k, Supplied C L s g k ∧ b = work L s k

/-- The time interval is over, and the queue gets what it needs. -/
def Over (Q : Queue n) (c : ClientChoice Q.Choice) : Prop := Q.Good c.queue ∧ c.more = false

theorem done_of_over (hmore : c.more = false) (hloc : x.loc = .top) {m : Q.Mem}
    (h : runBenchmark Q enqSpecs deqSpecs t c m x = .next m' x') : x'.loc = .done := by
  simp only [runBenchmark, hloc, hmore] at h
  cases h
  rfl

theorem Works.lower (henq : ∀ t, (enqSpecs t).Valid) (hdeq : ∀ t, (deqSpecs t).Valid)
    (h : Works C L s b) (hover : Over Q c) (hgo : ¬ L.waits (queueState Q Client.l s) t)
    (hf : fire (runBenchmark Q enqSpecs deqSpecs) s (t, c) = some s') :
    ∃ b' < b, Works C L s' b' := by
  obtain ⟨g, k, hsupplied, rfl⟩ := h
  obtain ⟨m', x', hstep, rfl⟩ := fire_eq_some.mp hf
  have hs := runBenchmark_cases hstep
  obtain ⟨k', hk', hpays⟩ := hsupplied.pays hover.1 hgo hs fun hloc =>
    done_of_over hover.2 hloc hstep
  obtain ⟨g', hsupplied'⟩ := hsupplied.step henq hdeq hover.1.1 hs hk'
  exact ⟨_, hpays.work_lt, g', k', hsupplied', rfl⟩

/-! ## The end of the region -/

/-- A thread in a call is in a loop. -/
theorem Supplied.loc_of_busy (h : Supplied C L s g k) (hbusy : Q.idle (s.th t).l = false) :
    (s.th t).loc.kind ≠ none := by
  intro hkind
  have hidle := (h.region.ledger t).idle hkind
  rw [hbusy] at hidle
  cases hidle

/-- A turn of the busy-wait changes nothing. -/
theorem Works.wait (h : Works C L s b) (hwaits : L.waits (queueState Q Client.l s) t)
    (hf : fire (runBenchmark Q enqSpecs deqSpecs) s (t, c) = some s') : s' = s := by
  obtain ⟨g, k, hsupplied, rfl⟩ := h
  obtain ⟨m', x', hnext, rfl⟩ := fire_eq_some.mp hf
  have hs := runBenchmark_cases hnext
  dsimp only at hs ⊢
  clear hf hnext
  have hbusy : Q.idle (s.th t).l = false := L.busy hwaits
  have hkind := hsupplied.loc_of_busy hbusy
  cases hs with
  | batch hloc => simp [hloc, Loc.kind] at hkind
  | leave hloc => simp [hloc, Loc.kind] at hkind
  | turn hloc hidle => exact absurd (hbusy.symm.trans hidle) (by decide)
  | again hloc hidle => exact absurd (hbusy.symm.trans hidle) (by decide)
  | call hcalls hstep hmark =>
      obtain ⟨rfl, rfl⟩ := L.wait_call (t := t) hsupplied.costs hwaits hstep
      simp [queueState]
  | enqReturn hloc hcalls hstep hmark =>
      exact absurd hmark (L.not_ret (t := t) hsupplied.costs hsupplied.region.inv hwaits hstep _)
  | deqReturn hloc hcalls hstep hmark =>
      exact absurd hmark (L.not_ret (t := t) hsupplied.costs hsupplied.region.inv hwaits hstep _)

theorem Works.enabled (h : Works C L s b) (hloc : (s.th t).loc ≠ .done) (hgood : Q.Good c.queue)
    (hgo : ¬ L.waits (queueState Q Client.l s) t) :
    ∃ s', fire (runBenchmark Q enqSpecs deqSpecs) s (t, c) = some s' := by
  obtain ⟨g, k, hsupplied, rfl⟩ := h
  have hkind : ∀ res, C.moves.stage (s.th t).l = .done res →
      (s.th t).loc.kind = some (.ofRes res) := by
    intro res hdone
    rw [← (hsupplied.region.ledger t).kind (C.busy_of_stage (by simp [hdone])), hdone]
    rfl
  have hcall : ∀ op (stay : Q.Local → Client Q.Local) back,
      (∀ m' l' res, C.moves.stage (s.th t).l = .done res → ∃ x', back m' l' res = some x') →
      ∃ m' x', inCall Q t op true c.queue s.mem (s.th t).l stay back = .next m' x' := by
    intro op stay back hback
    obtain ⟨m', l', hstep⟩ := L.enabled_call (t := t) hsupplied.costs hgood hgo
    exact ⟨m', C.exists_inCall (t := t) hsupplied.region.inv hstep (hback m' l')⟩
  suffices hnext : ∃ m' x', runBenchmark Q enqSpecs deqSpecs t c s.mem (s.th t) = .next m' x' by
    obtain ⟨m', x', hx'⟩ := hnext
    exact ⟨_, fire_eq_some.mpr ⟨m', x', hx', rfl⟩⟩
  unfold runBenchmark
  cases hl : (s.th t).loc with
  | top =>
      dsimp only
      split
      · exact ⟨_, _, rfl⟩
      · exact ⟨_, _, rfl⟩
  | enq i =>
      dsimp only
      split
      · exact ⟨_, _, rfl⟩
      · apply hcall
        intro m' l' res hdone
        have hres := hkind res hdone
        cases res with
        | enq code => exact ⟨_, rfl⟩
        | deq code out =>
            rw [hl] at hres
            cases hres
  | deq i =>
      dsimp only
      split
      · exact ⟨_, _, rfl⟩
      · apply hcall
        intro m' l' res hdone
        have hres := hkind res hdone
        cases res with
        | deq code out => exact ⟨_, rfl⟩
        | enq code =>
            rw [hl] at hres
            cases hres
  | done => exact absurd hl hloc

theorem settles (C : Q.Correct) (L : Q.Live) (henq : ∀ t, (enqSpecs t).Valid)
    (hdeq : ∀ t, (deqSpecs t).Valid) :
    Settles (runBenchmark Q enqSpecs deqSpecs) (Over Q) (fun x => x.loc ≠ .done)
      (fun s t => L.waits (queueState Q Client.l s) t) (Works C L) where
  wait := fun h => h.wait
  lower := fun h _ hover hgo hf => h.lower henq hdeq hover hgo hf
  enabled := fun h hloc hgo _ hover => h.enabled hloc hover.1 hgo
  goes := by
    intro s b t h hloc
    obtain ⟨g, k, hsupplied, rfl⟩ := h
    cases hidle : Q.idle (s.th t).l with
    | true =>
        refine ⟨t, hloc, ?_⟩
        intro hwaits
        have hbusy : Q.idle (s.th t).l = false := L.busy hwaits
        rw [hidle] at hbusy
        cases hbusy
    | false =>
        obtain ⟨u, hu, hgo⟩ := L.settles.goes (t := t) hsupplied.costs hidle
        refine ⟨u, ?_, hgo⟩
        intro hdone
        apply hsupplied.loc_of_busy hu
        simp [hdone, Loc.kind]

theorem Client.calls_le (h : x.Progress) :
    x.calls ≤ x.enqSize.toInt.toNat + x.deqSize.toInt.toNat := by
  have hleft : x.left ≤ x.enqSize.toInt.toNat + x.deqSize.toInt.toNat := by
    unfold Client.left
    unfold Client.Progress at h
    cases hloc : x.loc with
    | enq i =>
        simp only [hloc] at h ⊢
        omega
    | deq i =>
        simp only [hloc] at h ⊢
        omega
    | top | done => exact Nat.zero_le _
  unfold Client.calls
  split <;> omega

theorem Client.turns_le {L : Type} (x : Client L) : x.turns ≤ 3 := by
  unfold Client.turns
  split <;> decide

theorem work_le (h : Supplied C L s g k) :
    work L s k ≤ n * L.price + (L.price + 1) *
      ∑ t, ((s.th t).enqSize.toInt.toNat + (s.th t).deqSize.toInt.toNat) + n * 3 := by
  have hcalls : ∑ t, (s.th t).calls ≤
      ∑ t, ((s.th t).enqSize.toInt.toNat + (s.th t).deqSize.toInt.toNat) :=
    Finset.sum_le_sum fun t _ => Client.calls_le (h.region.ledger t).progress
  have hturns : ∑ t, (s.th t).turns ≤ n * 3 := by
    have hsum := sum_le_card_mul fun t => (s.th t).turns_le
    rwa [Fintype.card_fin] at hsum
  have hle := L.le h.costs
  have hmul := Nat.mul_le_mul_left (L.price + 1) hcalls
  unfold work Queue.bill
  omega

/-- The workers that are done cannot move. -/
theorem onlyActive {ok : ClientChoice Q.Choice → Prop} (hok : ∀ e ∈ es, ok e.2) :
    OnlyActive (runBenchmark Q enqSpecs deqSpecs) ok (fun x => x.loc ≠ .done) s es := by
  intro fs e gs u v hsplit _ hf
  refine ⟨?_, hok e (by simp [hsplit])⟩
  intro hloc
  obtain ⟨m', x', hstep, -⟩ := fire_eq_some.mp hf
  simp only [runBenchmark, hloc] at hstep
  cases hstep

/-- **The parallel region ends.**  Whatever the version and the batch sizes are, after any beginning
in which no `malloc` has failed (weak CASes may have): once the time interval is over, every fair
schedule with more rounds than the calls of the open batches can cost, without failures of `malloc`
and spurious failures of the weak CASes, brings all threads to the end of the region, and there is
such a schedule. -/
theorem runBenchmark_ends (n v : Nat) (_ : Supports v n) (enqSpecs deqSpecs : Fin n → BatchSpec)
    (henq : ∀ t, (enqSpecs t).Valid) (hdeq : ∀ t, (deqSpecs t).Valid)
    {es : List (Fin n × ClientChoice (version n v).Choice)}
    {s : Config (Fin n) (version n v).Mem (Client (version n v).Local)}
    (h : run (runBenchmark (version n v) enqSpecs deqSpecs) (benchmarkInit (version n v)) es =
      some s)
    (hmem : ∀ e ∈ es, (version n v).allocates e.2.queue = true) :
    (∀ rounds s', Rounds (runBenchmark (version n v) enqSpecs deqSpecs) (fun x => x.loc ≠ .done)
        s rounds →
      run (runBenchmark (version n v) enqSpecs deqSpecs) s rounds.flatten = some s' →
      (∀ e ∈ rounds.flatten, Over (version n v) e.2) →
      n * price n v + (price n v + 1) *
        ∑ t, ((s.th t).enqSize.toInt.toNat + (s.th t).deqSize.toInt.toNat) + n * 3 <
          rounds.length →
      ∀ t, (s'.th t).loc = .done) ∧
    ∃ es' s', run (runBenchmark (version n v) enqSpecs deqSpecs) s es' = some s' ∧
      (∀ e ∈ es', Over (version n v) e.2) ∧ ∀ t, (s'.th t).loc = .done := by
  obtain ⟨C⟩ := version_correct n v
  obtain ⟨L, hprice⟩ := exists_live n v
  obtain ⟨c, hc⟩ := C.strong
  obtain ⟨g, k, hsupplied⟩ := exists_supplied C L henq hdeq h hmem
  have hle := work_le hsupplied
  rw [hprice] at hle
  have hworks : Works C L s (work L s k) := ⟨g, k, hsupplied, rfl⟩
  have hover : Over (version n v) ⟨false, 0, 0, 0, c⟩ := ⟨hc, rfl⟩
  constructor
  · intro rounds s' hfair hrun hall hlong t
    exact not_not.mp ((settles C L henq hdeq).rests hover hworks hfair hrun (onlyActive hall)
      (by omega) t)
  · obtain ⟨es', s', -, hrun, hall, hdone⟩ :=
      (settles C L henq hdeq).exists_rest hover hworks
    exact ⟨es', s', hrun, hall.ok hrun, fun t => not_not.mp (hdone t)⟩

/-- Two threads of Ex5 with batches of one element, of which thread 0 is inside its `enq` and has
failed to link its node twice. -/
theorem runBenchmark_ends_begun :
    ∃ s, run (runBenchmark (version 2 5) (fun _ => ⟨.fixed, 1, 1⟩) fun _ => ⟨.fixed, 1, 1⟩)
        (benchmarkInit (version 2 5))
        (List.replicate 20
          (0, ⟨true, 0, 0, 0, { Ex5.Choice.plain (.deq 0) with spurious := true }⟩)) = some s ∧
      (s.th 0).loc = .enq 0 ∧ (version 2 5).failedEnqCAS (s.th 0).l = 2 ∧
      ∃ es s', run (runBenchmark (version 2 5) (fun _ => ⟨.fixed, 1, 1⟩) fun _ => ⟨.fixed, 1, 1⟩)
        s es = some s' ∧ ∀ t, (s'.th t).loc = .done := by
  have hvalid : ∀ _ : Fin 2, (⟨.fixed, 1, 1⟩ : BatchSpec).Valid :=
    fun _ => ⟨by decide, by decide⟩
  obtain ⟨s, hs⟩ : ∃ s, run (runBenchmark (version 2 5) (fun _ => ⟨.fixed, 1, 1⟩)
      fun _ => ⟨.fixed, 1, 1⟩) (benchmarkInit (version 2 5))
      (List.replicate 20
        (0, ⟨true, 0, 0, 0, { Ex5.Choice.plain (.deq 0) with spurious := true }⟩)) = some s :=
    ⟨_, rfl⟩
  have hloc : (s.th 0).loc = .enq 0 := run_observe hs (fun s => (s.th 0).loc) rfl
  have hfailed : (version 2 5).failedEnqCAS (s.th 0).l = 2 :=
    run_observe hs (fun s => (version 2 5).failedEnqCAS (s.th 0).l) rfl
  have hmem : ∀ e ∈ List.replicate 20 ((0, ⟨true, 0, 0, 0,
      { Ex5.Choice.plain (.deq 0) with spurious := true }⟩) :
        Fin 2 × ClientChoice (version 2 5).Choice),
      (version 2 5).allocates e.2.queue = true := by
    intro e he
    obtain rfl := (List.mem_replicate.mp he).2
    rfl
  obtain ⟨-, es, s', hrun, -, hdone⟩ :=
    runBenchmark_ends 2 5 (by decide) _ _ hvalid hvalid hs hmem
  exact ⟨s, hs, hloc, hfailed, es, s', hrun, hdone⟩

end Bench

end ConcurrentQueues
