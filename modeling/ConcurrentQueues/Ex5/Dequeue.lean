import ConcurrentQueues.Ex5.Runs

/-!
# Ex5 — what a dequeue reads from `next`

The history lists the nodes in the order of their link CASes, each with the value of its `enq`.  A
dequeue whose head CAS succeeds has read the `data` of the number behind `hd`; no later link CAS can
have reused that node, because it has not left the main list since.
-/

namespace ConcurrentQueues.Ex5

open Reasoning Layout

variable {n : Nat} {t : Fin n} {m : Mem n} {g : History n} {l : Local} {c : Choice} {s : State n}
  {sched : List (Fin n × Choice)}

/-- The node that this step links, and the argument of the `enq` that does so. -/
def linked (c : Choice) (m : Mem n) (l : Local) : Option (Addr × Value) :=
  match l.pc with
  | .enq .link =>
      match l.last, l.n with
      | some p, some a =>
          if (m.store.heap p).next = none ∧ c.spurious = false then some (a, l.v) else none
      | _, _ => none
  | _ => none

/-- The nodes linked in a run, in order. -/
def links (s : State n) (es : List (Fin n × Choice)) : List (Addr × Value) :=
  trace step (fun _ c m l => linked c m l) s es

/-- The nodes of the history without the initial sentinel. -/
def History.links (g : History n) : List (Addr × Value) :=
  (List.range' 1 (g.lay.len - 1)).map fun i => (g.lay.node i, g.lay.val i)

theorem links_link (hlen : 0 < g.lay.len) (t : Fin n) (p : Addr) (v : Value) :
    (g.setLay (g.lay.link t p v)).links = g.links ++ [(p, v)] := by
  obtain ⟨k, hk⟩ : ∃ k, g.lay.len = 1 + k := ⟨g.lay.len - 1, by omega⟩
  have hold : ∀ i ∈ List.range' 1 k,
      ((g.lay.link t p v).node i, (g.lay.link t p v).val i) = (g.lay.node i, g.lay.val i) := by
    intro i hi
    have hlt := (List.mem_range'_1.mp hi).2
    have hne : i ≠ g.lay.len := by omega
    simp [Function.update_of_ne hne]
  simp only [History.links, History.setLay_lay, link_len, hk, Nat.add_sub_cancel_left,
    show 1 + k + 1 - 1 = k + 1 by omega]
  rw [List.range'_concat, List.map_append, List.map_congr_left hold]
  simp [hk]

/-- Only the link CAS adds a node to the history. -/
theorem record_links (hlink : l.pc ≠ .enq .link) : (record t c m l g).links = g.links := by
  unfold record
  split
  all_goals try split
  all_goals try split
  all_goals first
    | rfl
    | exact absurd ‹l.pc = .enq .link› hlink

theorem record_linked (hS : Shared m g) (hO : Own t m g l) :
    (record t c m l g).links = g.links ++ (linked c m l).toList := by
  by_cases hpc : l.pc = .enq .link
  · obtain ⟨⟨p, hn, hheap⟩, hlast⟩ : Ready m l ∧ Last t g l := by
      simpa [outline, hpc] using hO.here
    have hlen := hS.valid.hd_lt
    by_cases hcas : (m.store.heap (g.lay.node (g.iLast t))).next = none ∧ c.spurious = false
    · have hrec : record t c m l g = g.setLay (g.lay.link t p l.v) := by
        simp [record, hpc, hlast.eq, hn, hcas, hheap]
      rw [hrec, links_link (by omega)]
      simp [linked, hpc, hlast.eq, hn, hcas]
    · have hrec : record t c m l g = g := by simp [record, hpc, hlast.eq, hn, hcas]
      rw [hrec]
      simp [linked, hpc, hlast.eq, hn, hcas]
  · rw [record_links hpc]
    unfold linked
    split <;> simp_all

/-- The history lists the links of the run. -/
theorem exists_links (h : run step (init n) sched = some s) :
    ∃ g, Inv s g ∧ links (init n) sched = g.links := by
  refine run_induction (motive := fun es v => ∃ g, Inv v g ∧ links (init n) es = g.links) ?_ ?_
    sched s h
  · exact ⟨History.init n, inv_init n, rfl⟩
  rintro es e u v hrun ⟨g, hI, hlinks⟩ hf
  refine ⟨_, hI.fire hf, ?_⟩
  rw [record_linked hI.shared (hI.own e.1), ← hlinks]
  exact trace_snoc e hrun

/-- A number of the main list is the last one its node was linked under. -/
theorem last_link (hS : Shared m g) {i : Nat} (hpos : 0 < i) (hhd : g.lay.hd ≤ i)
    (hlt : i < g.lay.len) :
    (g.links.filter (·.1 = g.lay.node i)).getLast? = some (g.lay.node i, g.lay.val i) := by
  obtain ⟨k, hk⟩ : ∃ k, g.lay.len - 1 = (i - 1) + (k + 1) := ⟨g.lay.len - 1 - i, by omega⟩
  have hsplit : g.links = (List.range' 1 (i - 1)).map (fun j => (g.lay.node j, g.lay.val j)) ++
      (g.lay.node i, g.lay.val i) ::
        (List.range' (i + 1) k).map (fun j => (g.lay.node j, g.lay.val j)) := by
    rw [History.links, hk, ← List.range'_append_1, List.map_append,
      show 1 + (i - 1) = i by omega, List.range'_succ, List.map_cons]
  -- whatever was linked later is in the main list too and has another node
  have hlater : ((List.range' (i + 1) k).map fun j => (g.lay.node j, g.lay.val j)).filter
      (·.1 = g.lay.node i) = [] := by
    rw [List.filter_eq_nil_iff]
    intro x hx
    obtain ⟨j, hj, rfl⟩ := List.mem_map.mp hx
    have hj' := List.mem_range'_1.mp hj
    have hne : g.lay.node j ≠ g.lay.node i := by
      intro he
      have hji := hS.valid.node_inj ⟨by omega, .inl (by omega)⟩ ⟨hlt, .inl hhd⟩ he
      omega
    simpa using hne
  rw [hsplit, List.filter_append, List.filter_cons_of_pos (by simp), hlater,
    List.getLast?_append, List.getLast?_singleton]
  rfl

/-- **A dequeue reads the value of the `enq` that linked its node.**  In every reachable state a
thread at `next->data` has `next != NULL`, and when its head CAS succeeds it holds the argument of
the `enq` that was the last to link the node of `next`. -/
theorem dequeue_reads_linked (h : run step (init n) sched = some s) :
    (∀ t, (s.th t).pc = .deq .loadData → (s.th t).next ≠ none) ∧
    ∀ t c s', (s.th t).pc = .deq .cas → s.mem.store.head = (s.th t).first → c.spurious = false →
      fire step s (t, c) = some s' →
      s'.mem.store.head = (s.th t).next ∧ ∃ p, (s.th t).next = some p ∧
        ((links (init n) sched).filter (·.1 = p)).getLast? = some (p, (s.th t).val) := by
  obtain ⟨g, hI, hlinks⟩ := exists_links h
  have hS := hI.shared
  refine ⟨fun t hpc => ?_, fun t c s' hpc hhead hspur hf => ?_⟩
  · have hout := (hI.own t).here
    simp only [outline, hpc] at hout
    rw [hout.next]
    simp
  · obtain ⟨hsucc, hval⟩ : Successor t g (s.th t) ∧ (s.th t).val = g.lay.val (g.iFirst t + 1) := by
      simpa [outline, hpc] using (hI.own t).here
    have hbody : g.body t = true := by simpa [hpc, Pc.inBody] using (hI.own t).status.body
    -- `head` has not moved since `first` was loaded, so `next` is the node behind it
    have hhd := hsucc.first.head_eq hS hbody hhead
    have hlt := hsucc.succ_lt
    obtain ⟨m', l', hstep, rfl⟩ := fire_eq_some.mp hf
    simp only [step, hpc, deq, hhead, hspur, and_self, if_true] at hstep
    cases hstep
    refine ⟨rfl, _, hsucc.next, ?_⟩
    rw [hlinks, hval]
    exact last_link hS (Nat.succ_pos _) (by omega) hlt

/-- Thread 1 of `handover` reads the 7 of thread 0 and takes it out. -/
theorem dequeue_reads_linked_handover :
    (∃ s, run step (init 2) ((handover 0 1).take 22) = some s ∧ (s.th 1).pc = .deq .loadData ∧
      (s.th 1).next ≠ none) ∧
    ∃ s s', run step (init 2) ((handover 0 1).take 23) = some s ∧
      fire step s (1, .plain (.deq 0)) = some s' ∧ (s.th 1).next = some 1 ∧
      ((links (init 2) ((handover 0 1).take 23)).filter (·.1 = 1)).getLast? = some (1, 7) := by
  refine ⟨?_, ?_⟩
  · obtain ⟨s, hs⟩ : ∃ s, run step (init 2) ((handover 0 1).take 22) = some s := ⟨_, rfl⟩
    have hpc : (s.th 1).pc = .deq .loadData := run_observe hs (fun s => (s.th 1).pc) rfl
    exact ⟨s, hs, hpc, (dequeue_reads_linked hs).1 1 hpc⟩
  · obtain ⟨s, hs⟩ : ∃ s, run step (init 2) ((handover 0 1).take 23) = some s := ⟨_, rfl⟩
    have hpc : (s.th 1).pc = .deq .cas := run_observe hs (fun s => (s.th 1).pc) rfl
    have hhead : s.mem.store.head = some 0 := run_observe hs (fun s => s.mem.store.head) rfl
    have hfirst : (s.th 1).first = some 0 := run_observe hs (fun s => (s.th 1).first) rfl
    have hnext : (s.th 1).next = some 1 := run_observe hs (fun s => (s.th 1).next) rfl
    have hval : (s.th 1).val = 7 := run_observe hs (fun s => (s.th 1).val) rfl
    obtain ⟨s', hf⟩ : ∃ s', fire step s (1, .plain (.deq 0)) = some s' := by
      simp only [fire, step, hpc, deq, hhead, hfirst]
      exact ⟨_, rfl⟩
    obtain ⟨-, p, hp, hlast⟩ :=
      (dequeue_reads_linked hs).2 1 (.plain (.deq 0)) s' hpc (hhead.trans hfirst.symm) rfl hf
    obtain rfl : 1 = p := Option.some.inj (hnext.symm.trans hp)
    rw [hval] at hlast
    exact ⟨s, s', hs, hf, hnext, hlast⟩

end ConcurrentQueues.Ex5
