import ConcurrentQueues.Ex5.Steps

/-!
# Ex5 — the invariant of every run

The proof outline of one thread and the effects of its steps give an invariant of all interleavings.
What a thread saw earlier in a run is related to the present by `Grows` and by the parts of the
history that only the thread itself changes.
-/

namespace ConcurrentQueues.Ex5

open Reasoning Layout

variable {n : Nat} {t u : Fin n} {m m' : Mem n} {g g' : History n} {l l' : Local} {c : Choice}

abbrev State (n : Nat) := Config (Fin n) (Mem n) Local

/-- The rely–guarantee proof of Ex5. -/
def guarantee (n : Nat) : RelyGuarantee (withHistory (step (n := n)) record) where
  Shared mg := Shared mg.1 mg.2
  Own t mg l := Own t mg.1 mg.2 l
  Rely t mg mg' := Rely t mg.1 mg.2 mg'.1 mg'.2
  step := by
    intro t c mg l mg' l' hS hO h
    obtain ⟨hstep, hg⟩ := withHistory_next.mp h
    have hok := step_ok hS hO hstep
    rw [hg]
    exact ⟨hok.shared, hok.own, hok.rely⟩
  stable := fun _ h hr => h.stable hr

/-- The invariant of Ex5, with the history that explains the state. -/
structure Inv (s : State n) (g : History n) : Prop where
  shared : Shared s.mem g
  own : ∀ t, Own t s.mem g (s.th t)

theorem inv_iff {s : State n} : Inv s g ↔ (guarantee n).Inv (s.withHistory g) :=
  ⟨fun h => ⟨h.shared, h.own⟩, fun h => ⟨h.shared, h.own⟩⟩

theorem inv_init (n : Nat) : Inv (init n) (History.init n) where
  shared :=
    { valid := Layout.valid_init
      hd_le_tl := le_rfl
      lag := by simp
      parity := fun _ => (by decide : isOdd 0 = false)
      start_le := by simp
      protect := by simp
      rec_lt := by simp
      rec_inj := by simp }
  own := fun _ =>
    { status :=
        { body := rfl
          hold := rfl
          pend := rfl
          size := rfl
          retired := rfl
          count := rfl
          args := trivial }
      here := trivial }

theorem Inv.fire {s s' : State n} {e : Fin n × Choice} (h : Inv s g)
    (hf : fire step s e = some s') :
    Inv s' (record e.1 e.2 s.mem (s.th e.1) g) :=
  inv_iff.mpr ((inv_iff.mp h).fire (fire_withHistory record g hf))

/-! ## How the history moves -/

/-- What a step can do to the history: it moves the layout forward, begins or ends an operation,
remembers the number it has loaded, or gives its thread a record. -/
theorem record_cases (t : Fin n) (c : Choice) (m : Mem n) (l : Local) (g : History n) :
    (∃ lay, Grows g.lay lay ∧ record t c m l g = g.setLay lay) ∨
    (l.pc = .opBegin ∧ record t c m l g = g.enter t) ∨
    record t c m l g = g.leave t ∨
    (l.pc = .deq .loadHead ∧ record t c m l g = g.setFirst t g.lay.hd) ∨
    ((l.pc = .enq .loadTail ∨ l.pc = .deq .loadTail) ∧
      record t c m l g = g.setLast t g.lay.tl) ∨
    ∃ r, record t c m l g = g.setRec t r := by
  have hsame : ∃ lay, Grows g.lay lay ∧ g = g.setLay lay := ⟨g.lay, Grows.refl g.lay, rfl⟩
  have htail : Grows g.lay (g.lay.moveTail (g.lay.tl + 1)) :=
    { Grows.refl g.lay with tl_le := Nat.le_succ _ }
  have hhead : Grows g.lay (g.lay.moveHead t) :=
    { Grows.refl g.lay with hd_le := Nat.le_succ _ }
  unfold record
  split
  all_goals try split
  all_goals try split
  all_goals first
    | exact .inl hsame
    | exact .inl ⟨_, Grows.link _ _ _ _, rfl⟩
    | exact .inl ⟨_, htail, rfl⟩
    | exact .inl ⟨_, hhead, rfl⟩
    | (refine .inl ⟨_, ?_, rfl⟩; exact { Grows.refl g.lay with })
    | exact .inr (.inl ⟨‹_›, rfl⟩)
    | exact .inr (.inr (.inl rfl))
    | exact .inr (.inr (.inr (.inl ⟨‹_›, rfl⟩)))
    | exact .inr (.inr (.inr (.inr (.inl ⟨.inl ‹_›, rfl⟩))))
    | exact .inr (.inr (.inr (.inr (.inl ⟨.inr ‹_›, rfl⟩))))
    | exact .inr (.inr (.inr (.inr (.inr ⟨_, rfl⟩))))

theorem record_grows (t : Fin n) (c : Choice) (m : Mem n) (l : Local) (g : History n) :
    Grows g.lay (record t c m l g).lay := by
  obtain ⟨lay, hgrows, h⟩ | ⟨-, h⟩ | h | ⟨-, h⟩ | ⟨-, h⟩ | ⟨r, h⟩ := record_cases t c m l g <;>
    rw [h]
  · exact hgrows
  all_goals exact Grows.refl g.lay

/-- The number of `first` changes only at the load of `head`. -/
theorem record_iFirst (h : ¬ (u = t ∧ l.pc = .deq .loadHead)) :
    (record u c m l g).iFirst t = g.iFirst t := by
  obtain ⟨lay, -, he⟩ | ⟨-, he⟩ | he | ⟨hpc, he⟩ | ⟨-, he⟩ | ⟨r, he⟩ := record_cases u c m l g <;>
    rw [he]
  case inr.inr.inr.inl => exact Function.update_of_ne (fun hu => h ⟨hu.symm, hpc⟩) _ _
  all_goals rfl

/-- The number of `last` changes only at a load of `tail`. -/
theorem record_iLast (h : ¬ (u = t ∧ (l.pc = .enq .loadTail ∨ l.pc = .deq .loadTail))) :
    (record u c m l g).iLast t = g.iLast t := by
  obtain ⟨lay, -, he⟩ | ⟨-, he⟩ | he | ⟨-, he⟩ | ⟨hpc, he⟩ | ⟨r, he⟩ := record_cases u c m l g <;>
    rw [he]
  case inr.inr.inr.inr.inl => exact Function.update_of_ne (fun hu => h ⟨hu.symm, hpc⟩) _ _
  all_goals rfl

theorem record_start (h : ¬ (u = t ∧ l.pc = .opBegin)) :
    (record u c m l g).start t = g.start t := by
  obtain ⟨lay, -, he⟩ | ⟨hpc, he⟩ | he | ⟨-, he⟩ | ⟨-, he⟩ | ⟨r, he⟩ := record_cases u c m l g <;>
    rw [he]
  case inr.inl => exact Function.update_of_ne (fun hu => h ⟨hu.symm, hpc⟩) _ _
  all_goals rfl

/-- **The invariant of every run.**  The history only grows along the run. -/
theorem Inv.run {s s' : State n} {es : List (Fin n × Choice)} (h : Inv s g)
    (hrun : run step s es = some s') : ∃ g', Inv s' g' ∧ Grows g.lay g'.lay :=
  run_history_rel record (Q := fun _ => True) (R := fun g g' => Grows g.lay g'.lay)
    (fun g => Grows.refl g.lay) (fun _ _ _ => Grows.trans)
    (fun s e _ g hI _ hf => ⟨hI.fire hf, record_grows e.1 e.2 s.mem (s.th e.1) g⟩) h hrun
    (fun _ _ _ _ _ => trivial)

/-- Every reachable state has a history that explains it. -/
theorem exists_history {s : State n} {es : List (Fin n × Choice)}
    (h : Reasoning.run step (init n) es = some s) : ∃ g, Inv s g :=
  let ⟨g, hg, _⟩ := (inv_init n).run h
  ⟨g, hg⟩

/-! ## Control flow -/

/-- The program points a step can lead to. -/
def Pc.flow : Pc → List Pc
  | .idle => [.opBegin]
  | .opBegin => [.upcylce .loadHead, .deq .loadHead]
  | .upcylce .loadHead => [.upcylce .loadNext, .make .malloc]
  | .upcylce .loadNext => [.upcylce .storeHead]
  | .upcylce .storeHead => [.upcylce .size]
  | .upcylce .size => [.enq .data]
  | .make .malloc => [.make .data]
  | .make .data => [.make .next]
  | .make .next => [.enq .data]
  | .enq .data => [.enq .next]
  | .enq .next => [.enq .loadTail]
  | .enq .loadTail => [.enq .loadNext, .opEnd .inc]
  | .enq .loadNext => [.enq .reload]
  | .enq .reload => [.enq .link, .enq .help, .enq .loadTail]
  | .enq .link => [.enq .swing, .enq .loadTail]
  | .enq .swing => [.opEnd .inc]
  | .enq .help => [.enq .loadTail]
  | .deq .loadHead => [.deq .loadTail]
  | .deq .loadTail => [.deq .loadNext]
  | .deq .loadNext => [.deq .reload]
  | .deq .reload => [.opEnd .inc, .deq .help, .deq .loadData, .deq .loadHead]
  | .deq .help => [.deq .loadHead]
  | .deq .loadData => [.deq .cas]
  | .deq .cas => [.deq .writeOut, .deq .loadHead]
  | .deq .writeOut => [.retire .malloc]
  | .retire .malloc => [.retire .node]
  | .retire .node => [.retire .next]
  | .retire .next => [.retire .push]
  | .retire .push => [.retire .count]
  | .retire .count => [.opEnd .inc]
  | .opEnd .inc => [.opEnd .check]
  | .opEnd .check => [.ret, .wait .load]
  | .wait .load => [.wait .load, .wait .spin, .reclaim .load]
  | .wait .spin => [.wait .spin, .wait .load]
  | .reclaim .load => [.reclaim .clear]
  | .reclaim .clear => [.reclaim .count]
  | .reclaim .count => [.reclaim .loop]
  | .reclaim .loop => [.recycle .next, .ret]
  | .reclaim .free => [.reclaim .loop]
  | .recycle .next => [.recycle .head]
  | .recycle .head => [.recycle .size]
  | .recycle .size => [.recycle .count]
  | .recycle .count => [.reclaim .free]
  | .ret => [.idle]

theorem step_flow (h : step t c m l = .next m' l') : l'.pc ∈ l.pc.flow := by
  cases hpc : l.pc with
  | idle =>
      simp only [step, hpc] at h
      cases h
      cases hop : c.op <;> simp [Pc.flow, Local.call, hop]
  | opBegin =>
      simp only [step, hpc] at h
      cases h
      cases l.isEnq <;> simp [Pc.flow]
  | ret =>
      simp only [step, hpc] at h
      cases h
      simp [Pc.flow]
  | upcylce pc | make pc | enq pc | deq pc | retire pc | opEnd pc | wait pc | reclaim pc
  | recycle pc =>
      simp only [step, hpc] at h
      cases pc <;>
        simp only [upcylceNode, makeNode, enq, deq, mmRetire, mmOpEnd, mmWaitUntilUnreserved,
          mmReclaimAll, recycleNode] at h <;>
        repeat' split at h
      all_goals cases h
      all_goals simp [Pc.flow, hpc]

theorem Pc.flow_make_data {pc : Pc} (h : .make .data ∈ pc.flow) : pc = .make .malloc := by
  rcases pc with _ | _ | pc | pc | pc | pc | pc | pc | pc | pc | pc | _ <;> try cases pc
  all_goals simp_all [Pc.flow]

theorem Pc.flow_retire_node {pc : Pc} (h : .retire .node ∈ pc.flow) : pc = .retire .malloc := by
  rcases pc with _ | _ | pc | pc | pc | pc | pc | pc | pc | pc | pc | _ <;> try cases pc
  all_goals simp_all [Pc.flow]

theorem Pc.flow_deq_loadTail {pc : Pc} (h : .deq .loadTail ∈ pc.flow) : pc = .deq .loadHead := by
  rcases pc with _ | _ | pc | pc | pc | pc | pc | pc | pc | pc | pc | _ <;> try cases pc
  all_goals simp_all [Pc.flow]

/-- The link CAS is reached only through the load of `last->next` in the same iteration. -/
theorem Pc.flow_enq_link {pc pc' : Pc} (h : pc' ∈ pc.flow)
    (hpc : pc ≠ .enq .loadNext ∧ pc ≠ .enq .reload) (hstart : pc ≠ .enq .loadTail) :
    pc' ≠ .enq .loadNext ∧ pc' ≠ .enq .reload ∧ pc' ≠ .enq .link := by
  rcases pc with _ | _ | pc | pc | pc | pc | pc | pc | pc | pc | pc | _ <;> try cases pc
  all_goals simp [Pc.flow] at h hpc hstart <;> grind

end ConcurrentQueues.Ex5
