import ConcurrentQueues.Ex5.Alone
import ConcurrentQueues.Ex5.Nodes
import ConcurrentQueues.Queue

/-! Ex5 as a queue: the insertion counter, and the lists of nodes between calls. -/

namespace ConcurrentQueues.Ex5

open Reasoning Layout

variable {n : Nat} {t : Fin n} {m m' : Mem n} {g : History n} {l l' : Local} {c : Choice}
  {s : State n}

/-! ## The insertion counter -/

/-- What the open call has counted so far; the second visit to the loop has no record left. -/
def Local.tallied (l : Local) : Nat :=
  match l.pc with
  | .reclaim .free => if l.countIns then 1 else 0
  | .reclaim .loop => if l.r = none ∧ l.countIns = true then 1 else 0
  | .ret => inserted l.countIns l.res
  | _ => 0

/-- The equation of a step of `t`: what its counter and its open call lose and gain. -/
abbrev Counts (t : Fin n) (c : Choice) (m : Mem n) (l l' : Local) : Prop :=
  l'.insertions + l.tallied =
      l.insertions + l'.tallied + Mark.inserted l.countIns (mark t c m l) ∧
    (l.pc ≠ .idle → l'.countIns = l.countIns)

attribute [local simp] Counts Local.tallied mark Mark.inserted inserted Local.res

theorem upcylceNode_counts {pc : UpcylcePc} (hpc : l.pc = .upcylce pc)
    (h : upcylceNode t m l pc = .next m' l') : Counts t c m l l' := by
  cases pc <;> simp only [upcylceNode] at h <;> (try split at h) <;> cases h <;> simp [hpc]

theorem makeNode_counts {pc : MakePc} (hpc : l.pc = .make pc)
    (h : makeNode c m l pc = .next m' l') : Counts t c m l l' := by
  cases pc <;> simp only [makeNode] at h <;> (try split at h) <;> cases h <;> simp [*]

theorem enq_counts {pc : EnqPc} (hpc : l.pc = .enq pc) (h : enq c m l pc = .next m' l') :
    Counts t c m l l' := by
  cases pc <;> simp only [enq] at h
  case reload =>
    split at h
    · split at h <;> cases h <;> simp [hpc]
    · cases h
      simp [hpc]
  case link =>
    split at h
    · split at h <;> cases h <;> simp [hpc]
    · cases h
  all_goals
    (try split at h) <;> cases h <;> simp [hpc]

theorem deq_counts {pc : DeqPc} (hpc : l.pc = .deq pc) (h : deq c m l pc = .next m' l') :
    Counts t c m l l' := by
  cases pc <;> simp only [deq] at h
  case reload =>
    split at h
    · split at h
      · split at h <;> cases h <;> simp [hpc]
      · cases h
        simp [hpc]
    · cases h
      simp [hpc]
  all_goals
    (try split at h) <;> cases h <;> simp [hpc]

theorem mmRetire_counts {pc : RetirePc} (hpc : l.pc = .retire pc)
    (h : mmRetire t c m l pc = .next m' l') : Counts t c m l l' := by
  cases pc <;> simp only [mmRetire] at h <;> (try split at h) <;> cases h <;> simp [hpc]

theorem mmOpEnd_counts {pc : OpEndPc} (hO : Own t m g l) (hpc : l.pc = .opEnd pc)
    (h : mmOpEnd t m l pc = .next m' l') : Counts t c m l l' := by
  cases pc <;> simp only [mmOpEnd] at h
  case inc =>
    cases h
    simp [hpc]
  case check =>
    split at h
    next hzero =>
      cases h
      -- nothing is retired, so the call has dequeued nothing
      have hargs := hO.status.args
      simp only [Local.argsOk, hpc] at hargs
      have htook : l.took = false :=
        Bool.eq_false_iff.mpr fun h => (took_of_count hO hpc).mp h hzero
      obtain ⟨hop, -⟩ | ⟨hop, hcode⟩ | ⟨henq, hcode⟩ := hargs
      · simp [hpc, hop]
      · simp [hpc, hop, hcode]
      · simp [Local.took, henq, hcode] at htook
    next =>
      cases h
      simp [hpc]

theorem mmWait_counts {pc : WaitPc} (hpc : l.pc = .wait pc)
    (h : mmWaitUntilUnreserved t m l pc = .next m' l') : Counts t c m l l' := by
  cases pc <;> simp only [mmWaitUntilUnreserved] at h
  case load =>
    split at h
    · split at h
      · cases h
        simp [hpc]
      · split at h <;> cases h <;> simp [hpc]
    · cases h
      simp [hpc]
  case spin =>
    split at h
    · split at h <;> cases h <;> simp [hpc]
    · cases h

theorem mmReclaimAll_counts {pc : ReclaimPc} (hO : Own t m g l) (hpc : l.pc = .reclaim pc)
    (h : mmReclaimAll t m l pc = .next m' l') : Counts t c m l l' := by
  have hargs := hO.status.args
  have hout := hO.here
  simp only [Local.argsOk, hpc] at hargs
  simp only [outline, hpc] at hout
  cases pc <;> simp only [mmReclaimAll] at h hout
  case load | clear =>
    cases h
    simp [hpc]
  case count =>
    cases h
    obtain ⟨hsafe, hr⟩ := hout
    obtain ⟨r, hrec, -⟩ := hsafe.unlinked.record
    simp [hpc, hr, hrec]
  case loop =>
    split at h
    next r hr =>
      cases h
      simp [hpc, hr]
    next hr =>
      cases h
      cases hop : l.op with
      | enq v => simp [Local.isEnq, hop] at hargs
      | deq out => simp [hpc, hr, hop, hargs.2]
  case free =>
    split at h <;> cases h
    simp [hpc, hout.2]

theorem recycleNode_counts {pc : RecyclePc} (hpc : l.pc = .recycle pc)
    (h : recycleNode t m l pc = .next m' l') : Counts t c m l l' := by
  cases pc <;> simp only [recycleNode] at h <;> (try split at h) <;> cases h <;> simp [hpc]

theorem step_counts (hO : Own t m g l) (h : step t c m l = .next m' l') : Counts t c m l l' := by
  cases hpc : l.pc with
  | idle =>
      simp only [step, hpc] at h
      cases h
      cases hop : c.op <;> simp [hpc, Local.call, hop]
  | opBegin =>
      simp only [step, hpc, mmOpBegin] at h
      cases h
      cases henq : l.isEnq <;> simp [hpc]
  | upcylce pc => exact upcylceNode_counts hpc (by simpa only [step, hpc] using h)
  | make pc => exact makeNode_counts hpc (by simpa only [step, hpc] using h)
  | enq pc => exact enq_counts hpc (by simpa only [step, hpc] using h)
  | deq pc => exact deq_counts hpc (by simpa only [step, hpc] using h)
  | retire pc => exact mmRetire_counts hpc (by simpa only [step, hpc] using h)
  | opEnd pc => exact mmOpEnd_counts hO hpc (by simpa only [step, hpc] using h)
  | wait pc => exact mmWait_counts hpc (by simpa only [step, hpc] using h)
  | reclaim pc => exact mmReclaimAll_counts hO hpc (by simpa only [step, hpc] using h)
  | recycle pc => exact recycleNode_counts hpc (by simpa only [step, hpc] using h)
  | ret =>
      simp only [step, hpc] at h
      cases h
      simp [hpc]

/-! ## Between calls -/

theorem carries (hI : Inv s g) (hidle : ∀ t, (s.th t).pc = .idle) :
    s.mem.store.Carries (g.lay.nodes s.mem.store.brk) := by
  refine Layout.carries hI.shared.valid (fun t => ?_) (fun t => ?_) fun t =>
    size_eq hI (.inl (hidle t))
  · have hhold := (hI.own t).status.hold
    simpa [Local.holding, hidle t] using hhold
  · have hpend := (hI.own t).status.pend
    simpa [Local.unlinking, hidle t] using hpend

theorem tailWithin (hI : Inv s g) (brk : Addr) :
    s.mem.store.TailWithin (g.lay.nodes brk) 1 :=
  Layout.tailWithin hI.shared.valid hI.shared.hd_le_tl hI.shared.lag brk

/-- The blocks that the calls have freed are the records. -/
theorem destroys (hI : Inv s g) (hrel : Released s g) (hidle : ∀ t, (s.th t).pc = .idle)
    {fuel : Nat} (hfuel : s.mem.store.brk ≤ fuel) :
    ReleasesAll (destroyQueue s.mem fuel) (s.mem.freed.map .record) (allocated s.mem) := by
  have hall := frees_destroyQueue (carries hI hidle) (fun t => retired_idle hI (hidle t)) hfuel
  refine releasesAll_of_frees hall (hrel.nodup.map fun _ _ => Block.record.inj) ?_ fun b => ?_
  · intro b hb
    obtain ⟨r, -, rfl⟩ := List.mem_map.mp hb
    simp [nodeBlocks]
  · simp only [allocated, List.mem_append, List.mem_map, List.mem_range, List.mem_cons,
      List.not_mem_nil, or_false, hrel.mem_freed hidle, or_assoc]
    exact or_left_comm

theorem call_fires (hpc : (s.th t).pc = .idle) (c : Choice) :
    fire step s (t, c) = some ⟨s.mem, Function.update s.th t ((s.th t).call c)⟩ :=
  fire_eq_some.mpr ⟨_, _, by simp only [step, hpc], rfl⟩

abbrev queue (n : Nat) : Queue n where
  Choice := Choice
  Mem := Mem n
  Local := Local
  step := step
  init := init n
  calling op passes c := { c with op := op, countCAS := passes, countIns := passes }
  idle l := l.pc == .idle
  mark := mark
  store := Mem.store
  insertions _ _ l := l.insertions
  failedEnqCAS := Local.failedEnqCAS
  failedDeqCAS := Local.failedDeqCAS
  allocates c := c.malloc.isSome && c.mallocRec.isSome
  spurious := Choice.spurious
  destroyQueue := destroyQueue
  freed m := m.freed.map .record
  allocated := allocated

def correct (n : Nat) : (queue n).Correct where
  G := History n
  I s g := Inv s g ∧ Drained s ∧ Released s g
  moves := movesNodes n
  start := History.init n
  init := ⟨inv_init n, drained_init n, released_init n⟩
  nodes_init := rfl
  quiet_init := fun _ => rfl
  idle_iff := by
    intro l
    simp only [beq_iff_eq, movesNodes, Local.stage]
    split <;> (try split) <;> simp_all
  mark_idle := fun {t c m l} hidle => ⟨c.op, by simp [mark, eq_of_beq hidle]⟩
  mark_calling := fun hidle => by simp [mark, eq_of_beq hidle]
  mem_calling := fun _ _ _ => rfl
  size := fun hI hidle => size_eq hI.1 (.inl (eq_of_beq hidle))
  carries := fun hI hquiet => carries hI.1 fun t => eq_of_beq (hquiet t)
  mem_of_allocates := fun h => (Bool.and_eq_true_iff.mp h).1
  lag := 1
  tail := fun hI _ => tailWithin hI.1 _
  strong := ⟨.plain (.deq 0), rfl, rfl⟩
  call_returns := by
    intro s g hI hquiet t op b c
    have hf := call_fires (eq_of_beq (hquiet t)) { c with op := op, countCAS := b, countIns := b }
    have hI' := hI.1.fire hf
    refine ⟨_, hf, ?_⟩
    have hrest : Others (fun l => l.pc = .idle) t s := fun u _ => eq_of_beq (hquiet u)
    have hret := returns hI' (hrest.update _ _) (by cases op <;> simp [Local.call])
    simpa only [Bool.and_eq_true_iff, Option.isSome_iff_ne_none] using hret
  node_not_freed := fun _ _ => by simp
  destroys := fun hI hquiet hfuel => destroys hI.1 hI.2.2 (fun t => eq_of_beq (hquiet t)) hfuel
  counts := Local.countIns
  tallied := Local.tallied
  tallied_idle := fun l hidle => by simp [Local.tallied, eq_of_beq hidle]
  counts_call := by
    intro t op b c m l m' l' hidle hs
    simp only [step, eq_of_beq hidle] at hs
    cases hs
    cases op <;> rfl
  counts_step := fun hI hbusy hs => (step_counts (hI.1.own _) hs).2 (ne_of_beq_false hbusy)
  insertions_init := fun _ => rfl
  insertions_step := fun hI hs => (step_counts (hI.1.own _) hs).1
  insertions_other := fun _ _ _ _ => rfl

end ConcurrentQueues.Ex5
