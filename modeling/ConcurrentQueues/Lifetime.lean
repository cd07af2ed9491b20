import ConcurrentQueues.Versions

/-! Lifetime — from `init_queue` over any run to `destroy_queue`, every block is freed once. -/

namespace ConcurrentQueues

open Reasoning

/-- **Every block is freed once.**  The calls of a run free no node, so they read none that is
freed.  Between calls, `destroy_queue` comes to its end without reading or freeing a freed block,
and no loop makes more rounds than there are nodes.  Then the calls and `destroy_queue` have freed
all that was ever allocated, each block once. -/
theorem blocks_freed_once (n v : Nat) (sched : List (Fin n × (version n v).Choice))
    (s : (version n v).State) (h : run (version n v).step (version n v).init sched = some s) :
    (∀ p, .node p ∉ (version n v).freed s.mem) ∧
    ((version n v).Quiet s → ∀ fuel, ((version n v).store s.mem).brk ≤ fuel →
      ReleasesAll ((version n v).destroyQueue s.mem fuel) ((version n v).freed s.mem)
        ((version n v).allocated s.mem)) := by
  obtain ⟨C⟩ := version_correct n v
  obtain ⟨g, hI, -⟩ := C.exists_accounts h
  exact ⟨C.node_not_freed s.mem, fun hquiet fuel hfuel => C.destroys hI hquiet hfuel⟩

/-- Thread 1 dequeues the value of thread 0 and frees the record; the two nodes are left to
`destroy_queue`. -/
theorem blocks_freed_once_handover :
    ∃ s, run Ex5.step (Ex5.init 2) (Ex5.handover 0 1) = some s ∧
      s.mem.freed = [0] ∧ s.mem.store.brk = 2 ∧ ∃ freed,
        Ex5.destroyQueue s.mem 2 [.record 0] = .ok freed ∧ freed.Nodup ∧
          ∀ b, b ∈ freed ↔
            b ∈ [.freeLists, .node 0, .node 1, .record 0, .retired, .ctr, .retiredCount] := by
  obtain ⟨s, hs⟩ : ∃ s, run Ex5.step (Ex5.init 2) (Ex5.handover 0 1) = some s := ⟨_, rfl⟩
  have hmem := run_observe hs (fun s => (s.mem.freed, s.mem.store.brk, s.mem.recBrk)) rfl
  simp only [Prod.mk.injEq] at hmem
  obtain ⟨hfreed, hbrk, hrecBrk⟩ := hmem
  have hidle := run_observe hs (fun s => ((s.th 0).pc, (s.th 1).pc)) rfl
  obtain ⟨h₀, h₁⟩ := Prod.mk.inj hidle
  have hquiet : (version 2 5).Quiet s :=
    Fin.forall_fin_two.mpr ⟨beq_iff_eq.mpr h₀, beq_iff_eq.mpr h₁⟩
  have hall := (blocks_freed_once 2 5 _ s hs).2 hquiet 2 hbrk.le
  have hallocated : (version 2 5).allocated s.mem =
      [.freeLists, .node 0, .node 1, .record 0, .retired, .ctr, .retiredCount] := by
    change Ex5.allocated s.mem = _
    simp only [Ex5.allocated, nodeBlocks, hbrk, hrecBrk]
    rfl
  have hbefore : (version 2 5).freed s.mem = [.record 0] := congrArg (List.map Block.record) hfreed
  rw [hallocated, hbefore] at hall
  exact ⟨s, hs, hfreed, hbrk, hall⟩

end ConcurrentQueues
