import ConcurrentQueues.Ex4.Locks
import ConcurrentQueues.Ex4.Nodes
import ConcurrentQueues.Ex4.Ownership
import ConcurrentQueues.Queue

/-! Ex4 as a queue: the insertion counter, and the lists of nodes between calls. -/

namespace ConcurrentQueues.Ex4

open Reasoning Layout

variable {n : Nat} {t : Fin n} {m m' : Mem n} {g : Layout n} {l l' : Local} {c : Choice}
  {s : State n}

/-! ## The insertion counter -/

/-- What the open call has counted so far. -/
def Local.tallied (l : Local) : Nat :=
  match l.pc with
  | .deq .unlock => if l.countIns then 1 else 0
  | .ret => inserted l.countIns l.res
  | _ => 0

/-- The equation of a step of `t`: what its counter and its open call lose and gain. -/
abbrev Counts (t : Fin n) (c : Choice) (m : Mem n) (l l' : Local) : Prop :=
  l'.insertions + l.tallied =
      l.insertions + l'.tallied + Mark.inserted l.countIns (mark t c m l) ∧
    (l.pc ≠ .idle → l'.countIns = l.countIns)

attribute [local simp] Counts Local.tallied mark Mark.inserted inserted Local.res

theorem upcylceNode_counts {pc : UpcylcePc} (hpc : l.pc = .upcylce pc)
    (h : upcylceNode t c m l pc = .next m' l') : Counts t c m l l' := by
  cases pc <;> simp only [upcylceNode] at h <;> (try split at h) <;> cases h <;> simp [*]

theorem enq_counts {pc : EnqPc} (hargs : l.argsOk) (hpc : l.pc = .enq pc)
    (h : enq t m l pc = .next m' l') : Counts t c m l l' := by
  have hop : l.op = .enq l.v := by simpa [Local.argsOk, hpc] using hargs
  cases pc <;> simp only [enq] at h <;> (try split at h) <;> cases h <;> simp [hpc, hop]

theorem deq_counts {pc : DeqPc} (hargs : l.argsOk) (hpc : l.pc = .deq pc)
    (h : deq t m l pc = .next m' l') : Counts t c m l l' := by
  simp only [Local.argsOk, hpc] at hargs
  cases pc <;> simp only [deq] at h hargs
  case unlock =>
    cases h
    obtain ⟨out, hop⟩ := exists_deq hargs
    simp [hpc, hop]
  case unlockEmpty =>
    cases h
    simp [hpc, hargs]
  case loadNext =>
    split at h
    · split at h <;> cases h <;> simp [hpc]
    · cases h
  case reloadNext | repairNext =>
    split at h
    · split at h <;> cases h <;> simp [hpc]
    · cases h
  case lock | loadData | repairLock =>
    split at h <;> cases h
    simp [hpc]
  all_goals
    cases h
    simp [hpc]

theorem recycleNode_counts {pc : RecyclePc} (hpc : l.pc = .recycle pc)
    (h : recycleNode t m l pc = .next m' l') : Counts t c m l l' := by
  cases pc <;> simp only [recycleNode] at h <;> (try split at h) <;> cases h <;> simp [hpc]

theorem step_counts (hargs : l.argsOk) (h : step t c m l = .next m' l') :
    Counts t c m l l' := by
  cases hpc : l.pc with
  | idle =>
      simp only [step, hpc] at h
      cases h
      cases hop : c.op <;> simp [hpc, Local.call, hop]
  | upcylce pc => exact upcylceNode_counts hpc (by simpa only [step, hpc] using h)
  | enq pc => exact enq_counts hargs hpc (by simpa only [step, hpc] using h)
  | deq pc => exact deq_counts hargs hpc (by simpa only [step, hpc] using h)
  | recycle pc => exact recycleNode_counts hpc (by simpa only [step, hpc] using h)
  | ret =>
      simp only [step, hpc] at h
      cases h
      simp [hpc]

/-! ## Between calls -/

theorem valid_idle (hI : Inv s g) (hidle : ∀ t, (s.th t).pc = .idle) :
    (∀ t, g.hold t = none) ∧ ∀ t, g.pend t = none := by
  refine ⟨fun t => ?_, fun t => ?_⟩
  · have hhold := (hI.own t).status.hold
    simpa [Local.holding, hidle t] using hhold
  · have hpend := (hI.own t).status.pend
    simpa [Pc.unlinking, hidle t] using hpend

theorem carries (hI : Inv s g) (hidle : ∀ t, (s.th t).pc = .idle) :
    s.mem.store.Carries (g.nodes s.mem.store.brk) := by
  obtain ⟨hhold, hpend⟩ := valid_idle hI hidle
  exact Layout.carries hI.shared.valid hhold hpend fun t => size_eq hI (.inl (hidle t))

theorem lock_free (hI : Inv s g) (hidle : ∀ t, (s.th t).pc = .idle) (k : Lock) :
    k.holder s.mem = none :=
  (locks n).holder_eq_none ⟨g, hI⟩ (fun t => not_not.mpr (hidle t)) k

theorem tailWithin (hI : Inv s g) (hidle : ∀ t, (s.th t).pc = .idle) (brk : Addr) :
    s.mem.store.TailWithin (g.nodes brk) 0 := by
  have hlast := hI.shared.enq_free (lock_free hI hidle .enq)
  have hlt := hI.shared.valid.hd_lt
  exact Layout.tailWithin hI.shared.valid (by omega) (by omega) brk

/-! ## A call from beginning to end -/

/-- How many steps the call may still take. -/
def Pc.rank : Pc → Nat
  | .idle => 0
  | .ret => 1
  | .enq .unlock | .enq .unlockFail | .deq .unlock | .deq .unlockEmpty => 2
  | .enq .storeTail => 3
  | .enq .link => 4
  | .enq .loadTail => 5
  | .enq .next => 6
  | .enq .data => 7
  | .upcylce .malloc | .upcylce .size => 8
  | .upcylce .storeHead => 9
  | .upcylce .loadNext => 10
  | .upcylce .loadHead => 11
  | .enq .lock => 12
  | .recycle .count => 3
  | .recycle .size => 4
  | .recycle .head => 5
  | .recycle .next => 6
  | .deq .repairUnlock => 7
  | .deq .repairStore => 8
  | .deq .repairLoad => 9
  | .deq .repairNext => 10
  | .deq .repairHead => 11
  | .deq .repairLock => 12
  | .deq .reloadNext => 13
  | .deq .reloadHead => 14
  | .deq .storeHead => 15
  | .deq .writeOut => 16
  | .deq .loadData => 17
  | .deq .loadNext => 18
  | .deq .loadHead => 19
  | .deq .lock => 20

/-- There is no loop in Ex4. -/
theorem step_rank (hpc : l.pc ≠ .idle) (h : step t c m l = .next m' l') :
    l'.pc.rank < l.pc.rank := by
  cases hl : l.pc with
  | idle => exact absurd hl hpc
  | ret =>
      simp only [step, hl] at h
      cases h
      simp [Pc.rank]
  | upcylce pc =>
      simp only [step, hl] at h
      cases pc <;> simp only [upcylceNode] at h <;> (try split at h) <;> cases h <;> simp [Pc.rank]
  | enq pc =>
      simp only [step, hl] at h
      cases pc <;> simp only [enq] at h <;> (try split at h) <;> cases h <;> simp [Pc.rank]
  | deq pc =>
      simp only [step, hl] at h
      cases pc <;> simp only [deq] at h <;> (try split at h) <;> (try split at h) <;> cases h <;>
        simp [Pc.rank]
  | recycle pc =>
      simp only [step, hl] at h
      cases pc <;> simp only [recycleNode] at h <;> (try split at h) <;> cases h <;> simp [Pc.rank]

/-! ## `destroy_queue` -/

def destroyQueue (m : Mem n) (fuel : Nat) (freed : List Block) : Except Stop (List Block) := do
  let freed ← destroyNodes m.store fuel freed
  let freed ← destroyLock m.enqLock freed
  destroyLock m.deqLock freed

theorem destroys (hI : Inv s g) (hidle : ∀ t, (s.th t).pc = .idle) {fuel : Nat}
    (hfuel : s.mem.store.brk ≤ fuel) :
    ReleasesAll (destroyQueue s.mem fuel) [] (nodeBlocks s.mem.store) := by
  have hnodes := frees_destroyNodes (carries hI hidle) hfuel
  have hlocks := (frees_destroyLock (lock_free hI hidle .enq)).bind
    (frees_destroyLock (lock_free hI hidle .deq)) fun _ _ => id
  exact releasesAll_of_frees (hnodes.bind hlocks (by simp)) List.nodup_nil
    (fun _ hb => nomatch hb) (by simp)

/-! ## Ex4 as a queue -/

theorem call_fires (hpc : (s.th t).pc = .idle) (c : Choice) :
    fire step s (t, c) = some ⟨s.mem, Function.update s.th t ((s.th t).call c)⟩ :=
  fire_eq_some.mpr ⟨_, _, by simp only [step, hpc], rfl⟩

abbrev queue (n : Nat) : Queue n where
  Choice := Choice
  Mem := Mem n
  Local := Local
  step := step
  init := init n
  calling op countIns c := { c with op := op, countIns := countIns }
  idle l := l.pc == .idle
  mark := mark
  store := Mem.store
  insertions _ _ l := l.insertions
  -- there is no compare-and-swap
  failedEnqCAS _ := 0
  failedDeqCAS _ := 0
  allocates c := c.malloc.isSome
  spurious _ := false
  destroyQueue := destroyQueue
  freed _ := []
  allocated m := nodeBlocks m.store

def correct (n : Nat) : (queue n).Correct where
  G := Layout n
  I := Inv
  moves := movesNodes n
  start := Layout.init n
  init := inv_init n
  nodes_init := rfl
  quiet_init := fun _ => rfl
  idle_iff := by
    intro l
    simp only [beq_iff_eq, movesNodes, Local.stage]
    split <;> simp_all
  mark_idle := fun {t c m l} hidle => ⟨c.op, by simp [mark, eq_of_beq hidle]⟩
  mark_calling := fun hidle => by simp [mark, eq_of_beq hidle]
  mem_calling := fun _ _ _ => rfl
  size := fun hI hidle => size_eq hI (.inl (eq_of_beq hidle))
  carries := fun hI hquiet => carries hI fun t => eq_of_beq (hquiet t)
  mem_of_allocates := fun h => h
  lag := 0
  tail := fun hI hquiet => tailWithin hI (fun t => eq_of_beq (hquiet t)) _
  strong := ⟨⟨.deq 0, false, some ⟨0, none⟩⟩, rfl, rfl⟩
  call_returns := by
    intro s g hI hquiet t op b c
    have hf := call_fires (eq_of_beq (hquiet t)) { c with op := op, countIns := b }
    have hI' := hI.fire hf
    refine ⟨_, hf, (locks n).returns (by simp [locks]) (fun l => l.pc.rank)
      (fun c m l m' l' hpc hs => step_rank hpc hs) ⟨_, hI'⟩ ?_ ?_⟩
    · exact Others.update (fun u _ => not_not.mpr (eq_of_beq (hquiet u))) _ _
    · cases op <;> simp [locks, Local.call]
  node_not_freed := fun _ _ h => nomatch h
  destroys := fun hI hquiet hfuel => destroys hI (fun t => eq_of_beq (hquiet t)) hfuel
  counts := Local.countIns
  tallied := Local.tallied
  tallied_idle := fun l hidle => by simp [Local.tallied, eq_of_beq hidle]
  counts_call := by
    intro t op b c m l m' l' hidle hs
    simp only [step, eq_of_beq hidle] at hs
    cases hs
    cases op <;> rfl
  counts_step := fun hI hbusy hs =>
    (step_counts (hI.own _).status.args hs).2 (ne_of_beq_false hbusy)
  insertions_init := fun _ => rfl
  insertions_step := fun hI hs => (step_counts (hI.own _).status.args hs).1
  insertions_other := fun _ _ _ _ => rfl

end ConcurrentQueues.Ex4
