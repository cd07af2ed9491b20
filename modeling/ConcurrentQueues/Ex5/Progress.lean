import ConcurrentQueues.Ex5.Aba
import Mathlib.Algebra.BigOperators.Fin
import Mathlib.Algebra.Order.BigOperators.Group.Finset
import Mathlib.Data.Fintype.BigOperators

/-!
# Ex5 — lock-freedom of the CAS loops

Every successful CAS moves `len`, `hd` or `tl` by one, so their sum counts the successes.  Each
iteration remembers that sum from its beginning; when it is retried, or when one of its CASes
fails, the sum has grown.
-/

namespace ConcurrentQueues.Ex5

open Reasoning Layout

variable {n : Nat} {t u : Fin n} {m m' : Mem n} {g g' : History n} {l l' : Local} {c : Choice}
  {s s' : State n} {es : List (Fin n × Choice)} {b : Nat}

/-! ## What is counted -/

/-- The location of a CAS that succeeds in this step. -/
def casSucceeds (c : Choice) (m : Mem n) (l : Local) : Option Loc :=
  match l.pc.cas with
  | some loc => if loc.read m.store l = loc.expected l ∧ c.spurious = false then some loc else none
  | none => none

/-- The successful CASes of a run, in order. -/
def successes (s : State n) (es : List (Fin n × Choice)) : List Loc :=
  trace step (fun _ c m l => casSucceeds c m l) s es

/-- Inside the loop of `enq` or `deq`. -/
def Pc.inLoop : Pc → Bool
  | .enq .data | .enq .next | .deq .writeOut => false
  | .enq _ | .deq _ => true
  | _ => false

/-- An iteration ends in this step without returning. -/
def retried (t : Fin n) (c : Choice) (m : Mem n) (l : Local) : Bool :=
  match step t c m l with
  | .next _ l' => l.pc.inLoop && l'.pc.starts
  | _ => false

/-- The retried iterations of a run, each by the thread it belongs to. -/
def retries (s : State n) (es : List (Fin n × Choice)) : List (Fin n) :=
  trace step (fun t c m l => if retried t c m l then some t else none) s es

theorem successes_snoc (h : run step s es = some s') :
    successes s (es ++ [(t, c)]) = successes s es ++ (casSucceeds c s'.mem (s'.th t)).toList :=
  trace_snoc (t, c) h

theorem retries_snoc (h : run step s es = some s') :
    retries s (es ++ [(t, c)]) =
      retries s es ++ (if retried t c s'.mem (s'.th t) then some t else none).toList :=
  trace_snoc (t, c) h

/-- The increments of `*failed_CAS_count` a thread has made. -/
def Local.failures (l : Local) : Nat := l.failedEnqCAS + l.failedDeqCAS

/-! ## A success is a move of the history -/

/-- How often the locations of a list of CASes move the layout. -/
structure Moves (g g' : Layout n) (cs : List Loc) : Prop where
  len : g'.len = g.len + cs.count .next
  hd : g'.hd = g.hd + cs.count .head
  tl : g'.tl = g.tl + cs.count .tail

theorem Moves.refl (g : Layout n) : Moves g g [] := ⟨rfl, rfl, rfl⟩

theorem Moves.append {g g' g'' : Layout n} {cs ds : List Loc} (h : Moves g g' cs)
    (h' : Moves g' g'' ds) : Moves g g'' (cs ++ ds) where
  len := by rw [h'.len, h.len, List.count_append, Nat.add_assoc]
  hd := by rw [h'.hd, h.hd, List.count_append, Nat.add_assoc]
  tl := by rw [h'.tl, h.tl, List.count_append, Nat.add_assoc]

/-- A step whose CAS, if any, is not recorded as a success does not move the layout. -/
theorem moves_of_pc (hlink : l.pc ≠ .enq .link) (hswing : l.pc ≠ .enq .swing)
    (hhelp : l.pc ≠ .enq .help) (hdeqHelp : l.pc ≠ .deq .help) (hcas : l.pc ≠ .deq .cas) :
    Moves g.lay (record t c m l g).lay (casSucceeds c m l).toList := by
  have hnone : casSucceeds c m l = none := by
    unfold casSucceeds Pc.cas
    split
    next h => split at h <;> simp_all
    next => rfl
  rw [hnone]
  unfold record
  split
  all_goals try split
  all_goals first
    | exact ⟨rfl, rfl, rfl⟩
    | simp_all

theorem record_moves (hO : Own t m g l) :
    Moves g.lay (record t c m l g).lay (casSucceeds c m l).toList := by
  by_cases hlink : l.pc = .enq .link
  · obtain ⟨⟨p, hn, -⟩, hlast⟩ : Ready m l ∧ Last t g l := by
      simpa [outline, hlink] using hO.here
    by_cases hok : (m.store.heap (g.lay.node (g.iLast t))).next = none ∧ c.spurious = false
    · have hrec : record t c m l g = g.setLay (g.lay.link t p (m.store.heap p).data) := by
        simp [record, hlink, hlast.eq, hn, hok]
      have hcas : casSucceeds c m l = some .next := by
        simp [casSucceeds, Pc.cas, hlink, Loc.read, Loc.expected, hlast.eq, hok]
      rw [hrec, hcas]
      exact ⟨rfl, rfl, rfl⟩
    · have hrec : record t c m l g = g := by simp [record, hlink, hlast.eq, hn, hok]
      have hcas : casSucceeds c m l = none := by
        simp [casSucceeds, Pc.cas, hlink, Loc.read, Loc.expected, hlast.eq, hok]
      rw [hrec, hcas]
      exact Moves.refl g.lay
  by_cases htail : l.pc = .enq .swing ∨ l.pc = .enq .help ∨ l.pc = .deq .help
  · by_cases hok : m.store.tail = l.last ∧ c.spurious = false
    · have hrec : record t c m l g = g.setLay (g.lay.moveTail (g.lay.tl + 1)) := by
        rcases htail with h | h | h <;> simp [record, h, hok]
      have hcas : casSucceeds c m l = some .tail := by
        rcases htail with h | h | h <;> simp [casSucceeds, Pc.cas, h, Loc.read, Loc.expected, hok]
      rw [hrec, hcas]
      exact ⟨rfl, rfl, rfl⟩
    · have hrec : record t c m l g = g := by
        rcases htail with h | h | h <;> simp [record, h, hok]
      have hcas : casSucceeds c m l = none := by
        rcases htail with h | h | h <;> simp [casSucceeds, Pc.cas, h, Loc.read, Loc.expected, hok]
      rw [hrec, hcas]
      exact Moves.refl g.lay
  by_cases hcas : l.pc = .deq .cas
  · by_cases hok : m.store.head = l.first ∧ c.spurious = false
    · have hrec : record t c m l g = g.setLay (g.lay.moveHead t) := by simp [record, hcas, hok]
      have hsucc : casSucceeds c m l = some .head := by
        simp [casSucceeds, Pc.cas, hcas, Loc.read, Loc.expected, hok]
      rw [hrec, hsucc]
      exact ⟨rfl, rfl, rfl⟩
    · have hrec : record t c m l g = g := by simp [record, hcas, hok]
      have hsucc : casSucceeds c m l = none := by
        simp [casSucceeds, Pc.cas, hcas, Loc.read, Loc.expected, hok]
      rw [hrec, hsucc]
      exact Moves.refl g.lay
  · simp only [not_or] at htail
    exact moves_of_pc hlink htail.1 htail.2.1 htail.2.2 hcas

/-- One more step of a run: its CAS, if it succeeds, is the move the history records. -/
theorem Moves.snoc {k : Layout n} (h : Moves k g.lay (successes s es)) (hI : Inv s' g)
    (hrun : run step s es = some s') (t : Fin n) (c : Choice) :
    Moves k (record t c s'.mem (s'.th t) g).lay (successes s (es ++ [(t, c)])) := by
  rw [successes_snoc hrun]
  exact h.append (record_moves (hI.own t))

/-! ## What an iteration knows about the successes since it began -/

/-- The number of successes so far, counting the initial node as one. -/
def progress (g : History n) : Nat := g.lay.len + g.lay.hd + g.lay.tl

theorem progress_mono (h : Grows g.lay g'.lay) : progress g ≤ progress g' :=
  Nat.add_le_add (Nat.add_le_add h.len_le h.hd_le) h.tl_le

/-- What the iteration of `t` has learnt about the progress `b` at which it began: the `last` it
has loaded was the tail, or the end, no earlier than `b`, and `first` was the head. -/
def Charged (t : Fin n) (g : History n) (l : Local) (b : Nat) : Prop :=
  match l.pc with
  | .enq .loadNext | .enq .swing | .enq .help | .deq .help => b ≤ g.lay.len + g.lay.hd + g.iLast t
  | .enq .reload =>
      b ≤ g.lay.len + g.lay.hd + g.iLast t ∧
        (l.next = none → b ≤ g.lay.hd + g.lay.tl + g.iLast t + 1)
  | .enq .link => b ≤ g.lay.hd + g.lay.tl + g.iLast t + 1
  | .deq .loadTail | .deq .loadData | .deq .cas => b ≤ g.lay.len + g.lay.tl + g.iFirst t
  | .deq .loadNext | .deq .reload =>
      b ≤ g.lay.len + g.lay.tl + g.iFirst t ∧ b ≤ g.lay.len + g.lay.hd + g.iLast t
  | _ => True

theorem Charged.grows (h : Charged t g l b) (hgrows : Grows g.lay g'.lay)
    (hfirst : g'.iFirst t = g.iFirst t) (hlast : g'.iLast t = g.iLast t) :
    Charged t g' l b := by
  have hlen := hgrows.len_le
  have hhd := hgrows.hd_le
  have htl := hgrows.tl_le
  unfold Charged at h ⊢
  split at h
  all_goals simp only [*]
  all_goals first
    | trivial
    | omega
    | exact ⟨by omega, fun hnull => by have := h.2 hnull; omega⟩

/-- Outside the loops, and at their first access, nothing is charged. -/
theorem Charged.of_flow {pc : Pc} (hflow : l'.pc ∈ pc.flow) (hpc : pc.inLoop = false) :
    Charged t g l' b := by
  have hout : l'.pc.inLoop = false ∨ l'.pc.starts = true := by
    rcases pc with _ | _ | pc | pc | pc | pc | pc | pc | pc | pc | pc | _ <;> try cases pc
    all_goals simp [Pc.flow, Pc.inLoop] at hflow hpc
    all_goals first
      | (rcases hflow with h | h | h <;> simp [h, Pc.inLoop, Pc.starts])
      | (rcases hflow with h | h <;> simp [h, Pc.inLoop, Pc.starts])
      | simp [hflow, Pc.inLoop, Pc.starts]
  unfold Charged
  split <;> simp_all [Pc.inLoop, Pc.starts]

theorem Charged.of_starts (h : l.pc.starts = true) : Charged t g l b := by
  unfold Charged
  split <;> simp_all [Pc.starts]

theorem enq_charged {pc : EnqPc} (hS : Shared m g) (hO : Own t m g l) (hpc : l.pc = .enq pc)
    (hC : Charged t g l b) (hb : b ≤ progress g) (h : enq c m l pc = .next m' l') :
    Charged t (record t c m l g) l' b := by
  have hbody : g.body t = true := by simpa [hpc, Pc.inBody] using hO.status.body
  have hlt := hS.valid.tl_lt
  unfold progress at hb
  cases pc with
  | data | next =>
      have hstep : step t c m l = .next m' l' := by simpa only [step, hpc] using h
      exact Charged.of_flow (step_flow hstep) (by simp [hpc, Pc.inLoop])
  | loadTail =>
      simp only [enq] at h
      split at h <;> cases h
      · simpa [Charged, record, hpc] using by omega
      · trivial
  | loadNext =>
      obtain ⟨-, hlast⟩ : Ready m l ∧ Last t g l := by simpa [outline, hpc] using hO.here
      simp only [enq, hlast.eq] at h
      cases h
      simp only [Charged, hpc] at hC
      refine ⟨by simpa [record, hpc] using hC, fun hnull => ?_⟩
      -- `NULL` says that `last` is the last node, so the charge carries over to the end
      have hlive := hS.live hbody hlast.start_le hlast.lt_len
      have hlen := (hS.valid.next_eq_none_iff hlive).mp hnull
      simp only [record, hpc]
      omega
  | reload =>
      simp only [Charged, hpc] at hC
      simp only [enq] at h
      repeat' split at h
      all_goals cases h
      · simpa [Charged, record, hpc] using hC.2 ‹_›
      · simpa [Charged, record, hpc] using hC.1
      · trivial
  | link =>
      obtain ⟨⟨p, hn, -⟩, hlast⟩ : Ready m l ∧ Last t g l := by
        simpa [outline, hpc] using hO.here
      simp only [Charged, hpc] at hC
      simp only [enq, hlast.eq] at h
      split at h
      next hok =>
        cases h
        simp only [Charged, record, hpc, hlast.eq, hn, hok, Local.goto_pc]
        simp
        omega
      next =>
        cases h
        trivial
  | swing | help =>
      simp only [enq] at h
      split at h <;> cases h <;> trivial

theorem deq_charged {pc : DeqPc} (hpc : l.pc = .deq pc) (hC : Charged t g l b)
    (hb : b ≤ progress g) (h : deq c m l pc = .next m' l') :
    Charged t (record t c m l g) l' b := by
  unfold progress at hb
  simp only [Charged, hpc] at hC
  cases pc with
  | loadHead =>
      cases h
      simpa [Charged, record, hpc] using by omega
  | loadTail =>
      cases h
      simpa [Charged, record, hpc] using ⟨hC, by omega⟩
  | loadNext =>
      simp only [deq] at h
      split at h <;> cases h
      simpa [Charged, record, hpc] using hC
  | reload =>
      simp only [deq] at h
      repeat' split at h
      all_goals cases h
      · trivial
      · simpa [Charged, record, hpc] using hC.2
      · simpa [Charged, record, hpc] using hC.1
      · trivial
  | help | cas =>
      simp only [deq] at h
      split at h <;> cases h <;> trivial
  | loadData =>
      simp only [deq] at h
      split at h <;> cases h
      simpa [Charged, record, hpc] using hC
  | writeOut =>
      cases h
      trivial

/-- A thread's own step keeps what its iteration knows. -/
theorem Charged.step (hS : Shared m g) (hO : Own t m g l) (hC : Charged t g l b)
    (hb : b ≤ progress g) (h : step t c m l = .next m' l') :
    Charged t (record t c m l g) l' b := by
  cases hpc : l.pc with
  | enq pc => exact enq_charged hS hO hpc hC hb (by simpa only [Ex5.step, hpc] using h)
  | deq pc => exact deq_charged hpc hC hb (by simpa only [Ex5.step, hpc] using h)
  | _ => exact Charged.of_flow (step_flow h) (by simp [hpc, Pc.inLoop])

/-! ## What a retry or a failed CAS costs -/

/-- The step ends an iteration without returning, or counts a failed CAS. -/
def Lost (l l' : Local) : Prop :=
  (l.pc.inLoop = true ∧ l'.pc.starts = true) ∨ l'.failures ≠ l.failures

theorem Last.lt_of_ne (hl : Last t g l) (hS : Shared m g) (hne : m.store.tail ≠ l.last) :
    g.iLast t < g.lay.tl := by
  refine Nat.lt_of_le_of_ne hl.le_tl fun he => hne ?_
  rw [hS.valid.tail, hl.eq, he]

theorem First.lt_of_ne (hf : First t g l) (hS : Shared m g) (hne : m.store.head ≠ l.first) :
    g.iFirst t < g.lay.hd := by
  refine Nat.lt_of_le_of_ne hf.le_hd fun he => hne ?_
  rw [hS.valid.head, hf.eq, he]

theorem enq_lost {pc : EnqPc} (hS : Shared m g) (hO : Own t m g l) (hpc : l.pc = .enq pc)
    (hC : Charged t g l b) (hb : b ≤ progress g) (hstrong : c.spurious = false)
    (h : enq c m l pc = .next m' l') (hlost : Lost l l') :
    b < progress (record t c m l g) := by
  have hbody : g.body t = true := by simpa [hpc, Pc.inBody] using hO.status.body
  unfold progress at hb ⊢
  unfold Lost Local.failures at hlost
  cases pc with
  | data | next | loadTail | loadNext =>
      simp only [enq] at h
      split at h <;> cases h <;> simp [hpc, Pc.inLoop, Pc.starts] at hlost
  | reload =>
      obtain ⟨-, hlast, -⟩ : Ready m l ∧ Last t g l ∧ NextOf g l (g.iLast t) := by
        simpa [outline, hpc] using hO.here
      simp only [Charged, hpc] at hC
      simp only [record, hpc]
      simp only [enq] at h
      split at h
      · split at h <;> cases h <;> simp [Pc.starts] at hlost
      next hne =>
        -- `tail` has left `last` since it was loaded
        have := hlast.lt_of_ne hS (Ne.symm hne)
        omega
  | link =>
      obtain ⟨⟨p, hn, -⟩, hlast⟩ : Ready m l ∧ Last t g l := by
        simpa [outline, hpc] using hO.here
      simp only [Charged, hpc] at hC
      simp only [enq, hlast.eq] at h
      split at h
      next =>
        cases h
        simp [Pc.starts] at hlost
      next hfail =>
        -- some other node has been linked behind `last`
        have hlive := hS.live hbody hlast.start_le hlast.lt_len
        have hlen : g.iLast t + 1 ≠ g.lay.len := fun he =>
          hfail ⟨(hS.valid.next_eq_none_iff hlive).mpr he, hstrong⟩
        have hlt := hlast.lt_len
        rw [show record t c m l g = g by simp [record, hpc, hlast.eq, hn, hfail]]
        omega
  | swing =>
      obtain ⟨hlast, -⟩ : Last t g l ∧ g.iLast t + 1 < g.lay.len ∧
          l.n = some (g.lay.node (g.iLast t + 1)) := by
        simpa [outline, hpc] using hO.here
      simp only [Charged, hpc] at hC
      simp only [enq] at h
      split at h
      next =>
        cases h
        simp [Pc.starts] at hlost
      -- somebody else has moved `tail` to the new node
      next hfail =>
        have := hlast.lt_of_ne hS fun he => hfail ⟨he, hstrong⟩
        rw [show record t c m l g = g by simp [record, hpc, hfail]]
        omega
  | help =>
      obtain ⟨-, hlast, -⟩ : Ready m l ∧ Last t g l ∧ NextOf g l (g.iLast t) ∧ l.next ≠ none := by
        simpa [outline, hpc] using hO.here
      simp only [Charged, hpc] at hC
      -- either this CAS succeeds or another one has; the iteration ends in both cases
      by_cases hok : m.store.tail = l.last ∧ c.spurious = false
      · simp only [record, hpc, hok, and_self, if_true, History.setLay_lay, moveTail_len,
          moveTail_hd, moveTail_tl]
        omega
      · have := hlast.lt_of_ne hS fun he => hok ⟨he, hstrong⟩
        rw [show record t c m l g = g by simp [record, hpc, hok]]
        omega

theorem deq_lost {pc : DeqPc} (hS : Shared m g) (hO : Own t m g l) (hpc : l.pc = .deq pc)
    (hC : Charged t g l b) (hb : b ≤ progress g) (hstrong : c.spurious = false)
    (h : deq c m l pc = .next m' l') (hlost : Lost l l') :
    b < progress (record t c m l g) := by
  unfold progress at hb ⊢
  unfold Lost Local.failures at hlost
  simp only [Charged, hpc] at hC
  cases pc with
  | loadHead | loadTail | writeOut =>
      cases h
      simp [hpc, Pc.inLoop, Pc.starts] at hlost
  | loadNext | loadData =>
      simp only [deq] at h
      split at h <;> cases h
      simp [Pc.starts] at hlost
  | reload =>
      obtain ⟨hfirst, -⟩ : First t g l ∧ Last t g l ∧ g.iFirst t ≤ g.iLast t ∧
          NextOf g l (g.iFirst t) ∧ (l.next = none → g.iFirst t = g.iLast t) := by
        simpa [outline, hpc] using hO.here
      simp only [record, hpc]
      simp only [deq] at h
      split at h
      · split at h
        · split at h <;> cases h <;> simp [Pc.starts] at hlost
        · cases h
          simp [Pc.starts] at hlost
      next hne =>
        -- `head` has left `first` since it was loaded
        have := hfirst.lt_of_ne hS (Ne.symm hne)
        omega
  | help =>
      obtain ⟨-, hlast, -⟩ : First t g l ∧ Last t g l ∧ g.iFirst t = g.iLast t ∧
          NextOf g l (g.iFirst t) ∧ l.next ≠ none := by
        simpa [outline, hpc] using hO.here
      by_cases hok : m.store.tail = l.last ∧ c.spurious = false
      · simp only [record, hpc, hok, and_self, if_true, History.setLay_lay, moveTail_len,
          moveTail_hd, moveTail_tl]
        omega
      · have := hlast.lt_of_ne hS fun he => hok ⟨he, hstrong⟩
        rw [show record t c m l g = g by simp [record, hpc, hok]]
        omega
  | cas =>
      obtain ⟨hsucc, -⟩ : Successor t g l ∧ l.val = g.lay.val (g.iFirst t + 1) := by
        simpa [outline, hpc] using hO.here
      simp only [deq] at h
      split at h
      next =>
        cases h
        simp [Pc.starts] at hlost
      next hfail =>
        -- another dequeue has taken the node behind `first`
        have := hsucc.first.lt_of_ne hS fun he => hfail ⟨he, hstrong⟩
        rw [show record t c m l g = g by simp [record, hpc, hfail]]
        omega

theorem Local.failCAS_failures (l : Local) : l.failCAS.failures ≤ l.failures + 1 := by
  simp only [failures, failCAS_failedEnqCAS, failCAS_failedDeqCAS]
  cases l.isEnq <;> cases l.countCAS <;> simp <;> omega

/-- A thread that counts a failed CAS goes on with the next iteration or leaves its loop. -/
theorem step_failures (h : step t c m l = .next m' l') :
    l'.failures = l.failures ∨ (l.pc.inLoop = true ∧ l'.failures ≤ l.failures + 1 ∧
      (l'.pc.starts = true ∨ l'.pc = .opEnd .inc)) := by
  cases hpc : l.pc with
  | idle =>
      simp only [step, hpc] at h
      cases h
      cases hop : c.op <;> simp [Local.call, Local.failures, hop]
  | opBegin | ret =>
      simp only [step, hpc] at h
      cases h
      exact .inl rfl
  | upcylce pc | make pc | retire pc | opEnd pc | wait pc | reclaim pc | recycle pc =>
      simp only [step, hpc] at h
      cases pc <;>
        simp only [upcylceNode, makeNode, mmRetire, mmOpEnd, mmWaitUntilUnreserved,
          mmReclaimAll, recycleNode] at h <;>
        repeat' split at h
      all_goals cases h
      all_goals exact .inl rfl
  | enq pc | deq pc =>
      simp only [step, hpc] at h
      cases pc <;> simp only [enq, deq] at h <;> repeat' split at h
      all_goals cases h
      all_goals first
        | exact .inl rfl
        | exact .inr ⟨rfl, l.failCAS_failures, .inl rfl⟩
        | exact .inr ⟨rfl, l.failCAS_failures, .inr rfl⟩

/-- A retry or a failed CAS of a strong CAS loop is paid for by a success since the iteration
began. -/
theorem step_lost (hS : Shared m g) (hO : Own t m g l) (hC : Charged t g l b)
    (hb : b ≤ progress g) (hstrong : c.spurious = false) (h : step t c m l = .next m' l')
    (hlost : Lost l l') : b < progress (record t c m l g) := by
  cases hpc : l.pc with
  | enq pc => exact enq_lost hS hO hpc hC hb hstrong (by simpa only [step, hpc] using h) hlost
  | deq pc => exact deq_lost hS hO hpc hC hb hstrong (by simpa only [step, hpc] using h) hlost
  | _ =>
      have hloop : l.pc.inLoop = false := by simp [hpc, Pc.inLoop]
      rcases hlost with ⟨hin, -⟩ | hne
      · rw [hloop] at hin; cases hin
      · rcases step_failures h with he | ⟨hin, -⟩
        · exact absurd he hne
        · rw [hloop] at hin; cases hin

/-! ## The account of a run -/

/-- `r` retries and the failed CASes of `t` are covered by the progress `b` at which its current
iteration is charged. -/
structure Account (t : Fin n) (g : History n) (l : Local) (b r : Nat) : Prop where
  retries : r + 1 ≤ b
  failures : l.failures + 1 ≤ b
  le : b ≤ progress g
  charged : Charged t g l b

theorem Account.other {r : Nat} (h : Account t g l b r) (hut : u ≠ t) (k : Local) :
    Account t (record u c m k g) l b r := by
  have hgrows := record_grows u c m k g
  refine ⟨h.retries, h.failures, h.le.trans (progress_mono hgrows), h.charged.grows hgrows ?_ ?_⟩
  · exact record_iFirst fun hu => hut hu.1
  · exact record_iLast fun hu => hut hu.1

theorem Account.own {r : Nat} (hS : Shared m g) (hO : Own t m g l) (h : Account t g l b r)
    (hstrong : c.spurious = false) (hstep : step t c m l = .next m' l') :
    ∃ b', Account t (record t c m l g) l' b' (r + if retried t c m l then 1 else 0) := by
  have hgrows := record_grows t c m l g
  have hr := h.retries
  have hf := h.failures
  have hle := h.le
  have hret : retried t c m l = (l.pc.inLoop && l'.pc.starts) := by simp only [retried, hstep]
  by_cases hlost : Lost l l'
  · have hlt := step_lost hS hO h.charged hle hstrong hstep hlost
    refine ⟨progress (record t c m l g), ?_, ?_, le_rfl, ?_⟩
    · split <;> omega
    · rcases step_failures hstep with he | ⟨-, hfail, -⟩ <;> omega
    · -- the thread is at the start of an iteration, or leaves its loop for `mm_op_end`
      rcases hlost with ⟨-, hstarts⟩ | hne
      · exact Charged.of_starts hstarts
      · rcases step_failures hstep with he | ⟨-, -, hstarts | hend⟩
        · exact absurd he hne
        · exact Charged.of_starts hstarts
        · simp only [Charged, hend]
  · have hfail : l'.failures = l.failures := not_not.mp fun hne => hlost (.inr hne)
    have hno : retried t c m l = false := by
      rw [hret]
      exact Bool.eq_false_iff.mpr fun he => hlost (.inl (Bool.and_eq_true_iff.mp he))
    exact ⟨b, by simpa [hno] using hr, by rw [hfail]; exact hf, hle.trans (progress_mono hgrows),
      h.charged.step hS hO hle hstep⟩

theorem account_of_run (h : run step (init n) es = some s)
    (hstrong : ∀ e ∈ es, e.2.spurious = false) :
    ∃ g, Inv s g ∧ Moves (Layout.init n) g.lay (successes (init n) es) ∧
      ∀ t, ∃ b, Account t g (s.th t) b ((retries (init n) es).count t) := by
  refine run_induction
    (motive := fun es v => (∀ e ∈ es, e.2.spurious = false) →
      ∃ g, Inv v g ∧ Moves (Layout.init n) g.lay (successes (init n) es) ∧
        ∀ t, ∃ b, Account t g (v.th t) b ((retries (init n) es).count t)) ?_ ?_ es s h hstrong
  · exact fun _ => ⟨History.init n, inv_init n, Moves.refl _, fun t =>
      ⟨1, le_rfl, le_rfl, le_rfl, trivial⟩⟩
  rintro es ⟨u, c⟩ v v' hes ih hf hstrong
  obtain ⟨g, hI, hmoves, hacc⟩ := ih fun e he => hstrong e (List.mem_append_left _ he)
  have hc : c.spurious = false := hstrong (u, c) (by simp)
  refine ⟨_, hI.fire hf, hmoves.snoc hI hes u c, fun t => ?_⟩
  · obtain ⟨m', l', hstep, rfl⟩ := fire_eq_some.mp hf
    obtain ⟨b, hb⟩ := hacc t
    rw [retries_snoc hes, List.count_append]
    by_cases hut : t = u
    · subst hut
      obtain ⟨b', hb'⟩ := hb.own hI.shared (hI.own t) hc hstep
      refine ⟨b', ?_⟩
      simp only [Function.update_self]
      cases hret : retried t c v.mem (v.th t) <;> simpa [hret] using hb'
    · refine ⟨b, ?_⟩
      have hcount : (if retried u c v.mem (v.th u) then some u else none).toList.count t = 0 := by
        split <;> simp [Ne.symm hut]
      simp only [Function.update_of_ne hut, hcount, Nat.add_zero]
      exact hb.other (Ne.symm hut) _

/-- Between the beginning of an iteration of `t` and any later retry by `t` a CAS succeeds. -/
theorem success_between (h : Inv s g) (hstarts : (s.th t).pc.starts = true)
    (hrun : run step s es = some s') (hstrong : c.spurious = false)
    (hret : retried t c s'.mem (s'.th t) = true) : successes s (es ++ [(t, c)]) ≠ [] := by
  -- what the iteration knows is kept by every step: of `t` itself, and of the others
  have hall : ∀ es v, run step s es = some v → ∃ g', Inv v g' ∧
      Moves g.lay g'.lay (successes s es) ∧ Charged t g' (v.th t) (progress g) ∧
      progress g ≤ progress g' := by
    refine run_induction ⟨g, h, Moves.refl _, Charged.of_starts hstarts, le_rfl⟩ ?_
    rintro es ⟨u, d⟩ v v' hes ⟨g', hI, hmoves, hC, hle⟩ hf
    have hgrows := record_grows u d v.mem (v.th u) g'
    have hfire := hI.fire hf
    obtain ⟨m', l', hstep, rfl⟩ := fire_eq_some.mp hf
    refine ⟨_, hfire, hmoves.snoc hI hes u d, ?_, hle.trans (progress_mono hgrows)⟩
    · by_cases hut : u = t
      · subst hut
        simpa using hC.step hI.shared (hI.own u) hle hstep
      · simpa [Function.update_of_ne (Ne.symm hut)] using
          hC.grows hgrows (record_iFirst fun hu => hut hu.1) (record_iLast fun hu => hut hu.1)
  obtain ⟨g', hI, hmoves, hC, hle⟩ := hall es s' hrun
  unfold retried at hret
  split at hret
  next m' l' hstep =>
    have hlost : Lost (s'.th t) l' := .inl (Bool.and_eq_true_iff.mp hret)
    have hlt := step_lost hI.shared (hI.own t) hC hle hstrong hstep hlost
    have hmoves' := hmoves.snoc hI hrun t c
    intro hnone
    rw [hnone] at hmoves'
    unfold progress at hlt
    rw [hmoves'.len, hmoves'.hd, hmoves'.tl] at hlt
    simp at hlt
  next => cases hret

theorem length_le_of_count_le {k : Nat} (ts : List (Fin n)) (h : ∀ t, ts.count t ≤ k) :
    ts.length ≤ n * k := by
  have hsum : ∑ t : Fin n, ts.count t = ts.length := by
    have := Multiset.sum_count_eq_card (s := Finset.univ) (m := (ts : Multiset (Fin n)))
      fun t _ => Finset.mem_univ t
    simpa using this
  calc
    ts.length = ∑ t : Fin n, ts.count t := hsum.symm
    _ ≤ ∑ _t : Fin n, k := Finset.sum_le_sum fun t _ => h t
    _ = n * k := by simp

/-- **Lock-freedom.**  Let the weak CAS fail only when the location differs.  In a run with `L`
successful link CASes and `D` successful head CASes, at most `n * (2 * L + D)` iterations are
retried and as many failed CASes counted, `tail` is advanced at most `L` times, and from the
beginning of an iteration to its retry some CAS succeeds. -/
theorem cas_loops_bounded (h : run step (init n) es = some s)
    (hstrong : ∀ e ∈ es, e.2.spurious = false) :
    (retries (init n) es).length ≤
        n * (2 * (successes (init n) es).count .next + (successes (init n) es).count .head) ∧
      ∑ t, (s.th t).failures ≤
        n * (2 * (successes (init n) es).count .next + (successes (init n) es).count .head) ∧
      (successes (init n) es).count .tail ≤ (successes (init n) es).count .next ∧
      ∀ before within after t c s₀ s₁, es = before ++ within ++ (t, c) :: after →
        run step (init n) before = some s₀ → (s₀.th t).pc.starts = true →
        run step s₀ within = some s₁ → retried t c s₁.mem (s₁.th t) = true →
        successes s₀ (within ++ [(t, c)]) ≠ [] := by
  obtain ⟨g, hI, hmoves, hacc⟩ := account_of_run h hstrong
  have hlen := hmoves.len
  have hhd := hmoves.hd
  have htl := hmoves.tl
  have hlt := hI.shared.valid.tl_lt
  simp only [Layout.init_len, Layout.init_hd, Layout.init_tl] at hlen hhd htl
  have hbound : progress g ≤
      2 * (successes (init n) es).count .next + (successes (init n) es).count .head + 1 := by
    unfold progress
    omega
  -- `tail` never passes the end, so it is moved at most once for each link CAS
  refine ⟨length_le_of_count_le _ fun t => ?_, ?_, by omega, ?_⟩
  · obtain ⟨b, hb⟩ := hacc t
    have := hb.retries
    have := hb.le
    omega
  · calc
      ∑ t, (s.th t).failures ≤ ∑ _t : Fin n,
          (2 * (successes (init n) es).count .next + (successes (init n) es).count .head) := by
        refine Finset.sum_le_sum fun t _ => ?_
        obtain ⟨b, hb⟩ := hacc t
        have := hb.failures
        have := hb.le
        omega
      _ = _ := by simp
  · rintro before within after t c s₀ s₁ rfl hbefore hstarts hwithin hret
    obtain ⟨g₀, h₀⟩ := exists_history hbefore
    exact success_between h₀ hstarts hwithin (hstrong (t, c) (by simp)) hret

theorem cas_loops_bounded_handover :
    ∃ s, run step (init 2) (handover 0 1) = some s ∧ ∑ t, (s.th t).failures ≤
      2 * (2 * (successes (init 2) (handover 0 1)).count .next +
        (successes (init 2) (handover 0 1)).count .head) := by
  obtain ⟨s, hs⟩ : ∃ s, run step (init 2) (handover 0 1) = some s := ⟨_, rfl⟩
  obtain ⟨-, hfail, -⟩ := cas_loops_bounded hs (by decide)
  exact ⟨s, hs, hfail⟩

end ConcurrentQueues.Ex5
