import ConcurrentQueues.Ex2.Nodes
import ConcurrentQueues.Queue

/-! Ex2 as a queue: the insertion counter, and the lists of nodes between calls. -/

namespace ConcurrentQueues.Ex2

open Reasoning

variable {n : Nat} {t : Fin n} {m m' : Mem n} {g : Ghost n} {l l' : Local} {c : Choice}
  {s : State n} {b k : Nodes n}

/-! ## The insertion counter -/

/-- What the open call has counted so far. -/
def Local.tallied (l : Local) : Nat :=
  match l.pc with
  | .ret => inserted l.countIns l.res
  | _ => 0

/-- The equation of a step of `t`: what its counter and its open call lose and gain. -/
abbrev Counts (t : Fin n) (c : Choice) (m : Mem n) (l l' : Local) : Prop :=
  l'.insertions + l.tallied =
      l.insertions + l'.tallied + Mark.inserted l.countIns (mark t c m l) ∧
    (l.pc ≠ .idle → l'.countIns = l.countIns)

attribute [local simp] Counts Local.tallied mark Mark.inserted inserted Local.res

theorem upcycleNode_counts {pc : UpcyclePc} (hpc : l.pc = .upcycle pc)
    (h : upcycleNode t c m l pc = .next m' l') : Counts t c m l l' := by
  cases pc <;> simp only [upcycleNode] at h <;> (try split at h) <;> cases h <;> simp [*]

theorem enq_counts {pc : EnqPc} (hargs : l.argsOk) (hpc : l.pc = .enq pc)
    (h : enq t m l pc = .next m' l') : Counts t c m l l' := by
  have hop : l.op = .enq l.v := by simpa [Local.argsOk, hpc] using hargs
  cases pc <;> simp only [enq] at h <;> (try split at h) <;> cases h <;> simp [hpc, hop]

theorem deq_counts {pc : DeqPc} (hargs : l.argsOk) (hpc : l.pc = .deq pc)
    (h : deq t m l pc = .next m' l') : Counts t c m l l' := by
  simp only [Local.argsOk, hpc] at hargs
  cases pc <;> simp only [deq] at h hargs
  case unlockEmpty =>
    cases h
    simp [hpc, hargs]
  case testNext | testTail =>
    split at h
    · split at h <;> cases h <;> simp [hpc]
    · cases h
  case lock | loadFirst | loadData | loadNext =>
    split at h <;> cases h
    simp [hpc]
  all_goals
    cases h
    simp [hpc]

theorem recycleNode_counts {pc : RecyclePc} (hargs : l.argsOk) (hpc : l.pc = .recycle pc)
    (h : recycleNode t m l pc = .next m' l') : Counts t c m l l' := by
  obtain ⟨out, hop⟩ : ∃ out, l.op = .deq out := by simpa [Local.argsOk, hpc] using hargs
  cases pc <;> simp only [recycleNode] at h <;> (try split at h) <;> cases h <;> simp [hpc, hop]

theorem step_counts (hargs : l.argsOk) (h : step t c m l = .next m' l') :
    Counts t c m l l' := by
  cases hpc : l.pc with
  | idle =>
      simp only [step, hpc] at h
      cases h
      cases hop : c.op <;> simp [hpc, Local.call, hop]
  | upcycle pc => exact upcycleNode_counts hpc (by simpa only [step, hpc] using h)
  | enq pc => exact enq_counts hargs hpc (by simpa only [step, hpc] using h)
  | deq pc => exact deq_counts hargs hpc (by simpa only [step, hpc] using h)
  | recycle pc => exact recycleNode_counts hargs hpc (by simpa only [step, hpc] using h)
  | ret =>
      simp only [step, hpc] at h
      cases h
      simp [hpc]

/-! ## Between calls -/

theorem lock_free (hI : Inv s g) (hidle : ∀ t, (s.th t).pc = .idle) : s.mem.lock = none :=
  (locks n).holder_eq_none ⟨g, hI⟩ (fun t => not_not.mpr (hidle t)) ()

/-- Without open calls the state is the sequential one. -/
theorem Beside.rep (h : Beside s g b k) (hidle : ∀ t, (s.th t).pc = .idle) :
    ∃ lay, Ex1.Rep s.mem.store lay ∧ k = lay.nodes s.mem.store.brk := by
  obtain ⟨lay, hrep, hb⟩ := h.base
  have hlock := lock_free h.inv hidle
  have hstore : g.base.store = s.mem.store := congrArg Ex1.State.store (h.inv.base_eq hidle).2
  rw [hstore] at hrep hb
  exact ⟨lay, hrep, (h.free hlock).trans hb⟩

theorem carries (h : Beside s g b k) (hidle : ∀ t, (s.th t).pc = .idle) :
    s.mem.store.Carries k := by
  obtain ⟨lay, hrep, rfl⟩ := h.rep hidle
  exact hrep.carries

theorem tailWithin (h : Beside s g b k) (hidle : ∀ t, (s.th t).pc = .idle) :
    s.mem.store.TailWithin k 0 := by
  obtain ⟨lay, hrep, rfl⟩ := h.rep hidle
  exact hrep.tailWithin _

theorem beside_init (n : Nat) : Beside (init n) (Ghost.init n) (Nodes.init n) (Nodes.init n) where
  inv := inv_init n
  base := ⟨Layout.init n, Ex1.rep_init n, rfl⟩
  free := fun _ => rfl
  held := fun _ hlock => by cases hlock
  lists := fun _ _ => rfl

/-! ## A call from beginning to end -/

/-- How many steps the call may still take once it has the lock. -/
def Pc.rank : Pc → Nat
  | .idle => 0
  | .ret => 1
  | .enq .unlock | .enq .unlockFail => 2
  | .enq .storeTail => 3
  | .enq .link => 4
  | .enq .loadTail => 5
  | .enq .next => 6
  | .enq .data => 7
  | .upcycle .malloc | .upcycle .storeSize => 8
  | .upcycle .loadSize => 9
  | .upcycle .storeHead => 10
  | .upcycle .loadNext => 11
  | .upcycle .loadHead => 12
  | .enq .lock => 13
  | .recycle .count | .deq .unlockEmpty => 2
  | .recycle .storeSize => 3
  | .recycle .loadSize => 4
  | .recycle .storeHead => 5
  | .recycle .storeNext => 6
  | .recycle .loadHead => 7
  | .deq .unlock => 8
  | .deq .storeTail => 9
  | .deq .loadHeadTail => 10
  | .deq .testTail => 11
  | .deq .loadTail => 12
  | .deq .storeHead => 13
  | .deq .loadNext => 14
  | .deq .writeOut => 15
  | .deq .loadData => 16
  | .deq .loadFirst => 17
  | .deq .loadSentinel => 18
  | .deq .testNext => 19
  | .deq .loadHead => 20
  | .deq .lock => 21

/-- There is no loop in Ex2. -/
theorem step_rank (hpc : l.pc ≠ .idle) (h : step t c m l = .next m' l') :
    l'.pc.rank < l.pc.rank := by
  cases hl : l.pc with
  | idle => exact absurd hl hpc
  | ret =>
      simp only [step, hl] at h
      cases h
      simp [Pc.rank]
  | upcycle pc =>
      simp only [step, hl] at h
      cases pc <;> simp only [upcycleNode] at h <;> (try split at h) <;> cases h <;> simp [Pc.rank]
  | enq pc =>
      simp only [step, hl] at h
      cases pc <;> simp only [enq] at h <;> (try split at h) <;> cases h <;> simp [Pc.rank]
  | deq pc =>
      simp only [step, hl] at h
      cases pc <;> simp only [deq] at h <;> (try split at h) <;> (try split at h) <;> cases h <;>
        simp [Pc.rank]
  | recycle pc =>
      simp only [step, hl] at h
      cases pc <;> simp only [recycleNode] at h <;> (try split at h) <;> cases h <;> simp [Pc.rank]

/-! ## `destroy_queue` -/

def destroyQueue (m : Mem n) (fuel : Nat) (freed : List Block) : Except Stop (List Block) := do
  let freed ← destroyNodes m.store fuel freed
  destroyLock m.lock freed

theorem destroys (h : Beside s g b k) (hidle : ∀ t, (s.th t).pc = .idle) {fuel : Nat}
    (hfuel : s.mem.store.brk ≤ fuel) :
    ReleasesAll (destroyQueue s.mem fuel) [] (nodeBlocks s.mem.store) := by
  have hnodes := frees_destroyNodes (carries h hidle) hfuel
  have hall := hnodes.bind (frees_destroyLock (lock_free h.inv hidle)) fun _ _ => id
  exact releasesAll_of_frees hall List.nodup_nil (fun _ hb => nomatch hb) (by simp)

/-! ## Ex2 as a queue -/

theorem call_fires (hpc : (s.th t).pc = .idle) (c : Choice) :
    fire step s (t, c) = some ⟨s.mem, Function.update s.th t ((s.th t).call c)⟩ :=
  fire_eq_some.mpr ⟨_, _, by simp only [step, hpc], rfl⟩

abbrev queue (n : Nat) : Queue n where
  Choice := Choice
  Mem := Mem n
  Local := Local
  step := step
  init := init n
  calling op countIns c := { c with op := op, countIns := countIns }
  idle l := l.pc == .idle
  mark := mark
  store := Mem.store
  insertions _ _ l := l.insertions
  -- there is no compare-and-swap
  failedEnqCAS _ := 0
  failedDeqCAS _ := 0
  allocates c := c.malloc.isSome
  spurious _ := false
  destroyQueue := destroyQueue
  freed _ := []
  allocated m := nodeBlocks m.store

def correct (n : Nat) : (queue n).Correct where
  G := Ghost n × Nodes n
  I s x := ∃ b, Beside s x.1 b x.2
  moves := movesNodes n
  start := (Ghost.init n, Nodes.init n)
  init := ⟨_, beside_init n⟩
  nodes_init := rfl
  quiet_init := fun _ => rfl
  idle_iff := by
    intro l
    simp only [beq_iff_eq, movesNodes, Local.stage]
    split <;> simp_all
  mark_idle := fun {t c m l} hidle => ⟨c.op, by simp [mark, eq_of_beq hidle]⟩
  mark_calling := fun hidle => by simp [mark, eq_of_beq hidle]
  mem_calling := fun _ _ _ => rfl
  size := by
    rintro s ⟨g, k⟩ t ⟨b, h⟩ hidle
    exact h.size_eq (eq_of_beq hidle)
  carries := by
    rintro s ⟨g, k⟩ ⟨b, h⟩ hquiet
    exact carries h fun t => eq_of_beq (hquiet t)
  mem_of_allocates := fun h => h
  lag := 0
  tail := by
    rintro s ⟨g, k⟩ ⟨b, h⟩ hquiet
    exact tailWithin h fun t => eq_of_beq (hquiet t)
  strong := ⟨⟨.deq 0, false, some ⟨0, none⟩⟩, rfl, rfl⟩
  call_returns := by
    rintro s ⟨g, k⟩ ⟨b', h⟩ hquiet t op b c
    have hf := call_fires (eq_of_beq (hquiet t)) { c with op := op, countIns := b }
    have hI' := h.inv.fire hf
    refine ⟨_, hf, (locks n).returns (by simp [locks]) (fun l => l.pc.rank)
      (fun c m l m' l' hpc hs => step_rank hpc hs) ⟨_, hI'⟩ ?_ ?_⟩
    · exact Others.update (fun u _ => not_not.mpr (eq_of_beq (hquiet u))) _ _
    · cases op <;> simp [locks, Local.call]
  node_not_freed := fun _ _ h => nomatch h
  destroys := by
    rintro s ⟨g, k⟩ fuel ⟨b, h⟩ hquiet hfuel
    exact destroys h (fun t => eq_of_beq (hquiet t)) hfuel
  counts := Local.countIns
  tallied := Local.tallied
  tallied_idle := fun l hidle => by simp [Local.tallied, eq_of_beq hidle]
  counts_call := by
    intro t op b c m l m' l' hidle hs
    simp only [step, eq_of_beq hidle] at hs
    cases hs
    cases op <;> rfl
  counts_step := fun ⟨_, h⟩ hbusy hs =>
    (step_counts (h.inv.own _).status.args hs).2 (ne_of_beq_false hbusy)
  insertions_init := fun _ => rfl
  insertions_step := fun ⟨_, h⟩ hs => (step_counts (h.inv.own _).status.args hs).1
  insertions_other := fun _ _ _ _ => rfl

end ConcurrentQueues.Ex2
