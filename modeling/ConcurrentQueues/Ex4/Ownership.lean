import ConcurrentQueues.Ex4.Steps

/-!
# Ex4 — who owns a node, and where `tail` is

Besides the main list and the free lists there are only the node of an `enq` before it is linked and
the sentinel a `deq` has detached.  `tail` may point to that sentinel, but not once it is recycled.
-/

namespace ConcurrentQueues.Ex4

open Reasoning Layout

variable {n : Nat} {t : Fin n} {m : Mem n} {g : Layout n} {l : Local} {s : State n} {p : Addr}

inductive Region (n : Nat) where
  | main
  | free (t : Fin n)
  | fresh (t : Fin n)
  | detached (t : Fin n)
  deriving DecidableEq, Repr

/-- The node of an `enq` that is not yet linked. -/
def Local.fresh (l : Local) : Ptr :=
  match l.pc with
  | .upcylce .size | .enq .data | .enq .next | .enq .loadTail | .enq .link => l.newNode
  | _ => none

/-- The sentinel a `deq` has detached and not yet put on its free list. -/
def Local.detached (l : Local) : Ptr :=
  match l.pc with
  | .deq .reloadHead | .deq .reloadNext | .deq .repairLock | .deq .repairHead | .deq .repairNext
  | .deq .repairLoad | .deq .repairStore | .deq .repairUnlock | .recycle .next | .recycle .head =>
      l.sentinel
  | _ => none

/-- `InRegion s r p`: node `p` is in region `r`. -/
def InRegion (s : State n) : Region n → Addr → Prop
  | .main, p => ∃ ps, Chain s.mem.store.next s.mem.store.head ps ∧ p ∈ ps
  | .free t, p => ∃ ps, Chain s.mem.store.next (s.mem.store.freeLists t).head ps ∧ p ∈ ps
  | .fresh t, p => (s.th t).fresh = some p
  | .detached t, p => (s.th t).detached = some p

/-! ## The regions in terms of the history -/

theorem Own.detached_eq (h : Own t m g l) (hu : l.pc.unlinking = true) :
    l.detached = some (g.node (g.hd - 1)) := by
  have hout := h.here
  unfold outline at hout
  unfold Pc.unlinking at hu
  unfold Local.detached
  split at hu
  case h_10 => cases hu
  all_goals
    rename_i hpc
    simp only [hpc] at hout ⊢
    first
      | exact hout.sentinel
      | exact hout.1.sentinel

/-- What a thread holds is fresh or detached, by its program point. -/
theorem Local.holding_cases (l : Local) :
    (l.holding = l.fresh ∧ l.detached = none) ∨
      (l.holding = l.detached ∧ l.fresh = none ∧ l.pc.unlinking = false) ∨
      (l.holding = none ∧ l.fresh = none ∧ l.pc.unlinking = true) := by
  unfold holding fresh detached Pc.unlinking
  cases l.pc with
  | idle | ret => simp
  | upcylce pc | enq pc | deq pc | recycle pc => cases pc <;> simp

/-- The region of a node by its owner. -/
def OwnedIn (s : State n) (g : Layout n) : Region n → Addr → Prop
  | .main, p => ∃ i, g.owner p = .linked i ∧ g.hd ≤ i
  | .free t, p => g.owner p = .free t
  | .fresh t, p => g.owner p = .held t ∧ (s.th t).detached = none
  | .detached t, p =>
      (g.owner p = .held t ∧ (s.th t).fresh = none) ∨
        ∃ i, g.owner p = .linked i ∧ g.pend t = some i

theorem inFresh_iff (h : Inv s g) : InRegion s (.fresh t) p ↔ OwnedIn s g (.fresh t) p := by
  have hheld := h.shared.valid.owner_held p t
  rw [(h.own t).status.hold] at hheld
  have hdet := (h.own t).detached_eq
  simp only [InRegion, OwnedIn, hheld]
  rcases (s.th t).holding_cases with ⟨hhold, hnone⟩ | ⟨hhold, hnone, -⟩ | ⟨hhold, hnone, hunl⟩
  · simp [hhold, hnone]
  · rw [hhold, hnone]
    constructor
    · intro hp; cases hp
    · rintro ⟨hp, hp'⟩
      rw [hp'] at hp
      cases hp
  · simp [hhold, hnone]

theorem inDetached_iff (h : Inv s g) :
    InRegion s (.detached t) p ↔ OwnedIn s g (.detached t) p := by
  have hv := h.shared.valid
  have hst := (h.own t).status
  have hheld := hv.owner_held p t
  have hpend := hst.pend
  rw [hst.hold] at hheld
  simp only [InRegion, OwnedIn, hheld]
  rcases (s.th t).holding_cases with ⟨hhold, hnone⟩ | ⟨hhold, hnone, hunl⟩ | ⟨hhold, hnone, hunl⟩
  · -- the thread holds a fresh node, or nothing at all
    have hunl : (s.th t).pc.unlinking = false := by
      cases hu : (s.th t).pc.unlinking with
      | false => rfl
      | true =>
          rw [(h.own t).detached_eq hu] at hnone
          cases hnone
    rw [hunl] at hpend
    rw [hhold, hnone]
    -- a fresh node is not detached, and there is no other
    simp only [hpend]
    constructor
    · intro hp; cases hp
    · rintro (⟨hp, hp'⟩ | ⟨i, -, hi⟩)
      · rw [hp'] at hp; cases hp
      · cases hi
  · rw [hunl] at hpend
    simp [hhold, hnone, hpend]
  · rw [hunl, if_pos rfl] at hpend
    have hnode := hv.pend_owner (p := p) hpend
    simp [hhold, hnone, hnode, (h.own t).detached_eq hunl]

theorem inRegion_iff (h : Inv s g) {r : Region n} : InRegion s r p ↔ OwnedIn s g r p := by
  cases r with
  | main => exact h.shared.valid.mem_main_iff
  | free t => exact h.shared.valid.mem_free_iff
  | fresh t => exact inFresh_iff h
  | detached t => exact inDetached_iff h

/-! ## Every node has one owner -/

theorem exists_owned (h : Inv s g) (hp : p < s.mem.store.brk) : ∃ r, InRegion s r p := by
  have hv := h.shared.valid
  cases howner : g.owner p with
  | raw => exact absurd ((hv.owner_raw p).mp howner) (Nat.not_le.mpr hp)
  | free t => exact ⟨.free t, (inRegion_iff h).mpr howner⟩
  | held t =>
      have hhold := (hv.owner_held p t).mp howner
      rw [(h.own t).status.hold] at hhold
      rcases (s.th t).holding_cases with ⟨he, -⟩ | ⟨he, -⟩ | ⟨he, -⟩
      · exact ⟨.fresh t, he.symm.trans hhold⟩
      · exact ⟨.detached t, he.symm.trans hhold⟩
      · rw [he] at hhold; cases hhold
  | linked i =>
      obtain ⟨⟨-, hle | ⟨t, ht⟩⟩, -⟩ := hv.owner_linked p i howner
      · exact ⟨.main, (inRegion_iff h).mpr ⟨i, howner, hle⟩⟩
      · exact ⟨.detached t, (inRegion_iff h).mpr (.inr ⟨i, howner, ht⟩)⟩

theorem owned_lt_brk (h : Inv s g) {r : Region n} (hr : OwnedIn s g r p) :
    p < s.mem.store.brk := by
  by_contra hge
  have hraw := (h.shared.valid.owner_raw p).mpr (Nat.not_lt.mp hge)
  cases r <;> simp [OwnedIn, hraw] at hr

theorem owned_unique (h : Inv s g) {r r' : Region n} (hr : OwnedIn s g r p)
    (hr' : OwnedIn s g r' p) : r = r' := by
  have hlt := h.shared.valid.pend_lt
  have hinj := h.shared.valid.pend_inj
  have hheld : ∀ t, g.owner p = .held t → (s.th t).fresh = none → (s.th t).detached ≠ none := by
    intro t howner hfresh hdet
    have hhold := (h.shared.valid.owner_held p t).mp howner
    rw [(h.own t).status.hold] at hhold
    rcases (s.th t).holding_cases with ⟨he, -⟩ | ⟨he, -⟩ | ⟨he, -⟩ <;> simp_all
  cases r <;> cases r' <;> simp only [OwnedIn] at hr hr' <;> grind

/-- `tail` is live: no free list has its node. -/
theorem tail_not_free (h : Inv s g) (hp : InRegion s (.free t) p) : s.mem.store.tail ≠ some p := by
  have howner : g.owner p = .free t := (inRegion_iff h).mp hp
  intro htail
  rw [h.shared.valid.tail] at htail
  have hlinked := h.shared.valid.owner_node _ h.shared.tail_live
  rw [Option.some.inj htail, howner] at hlinked
  cases hlinked

theorem head_not_free (h : Inv s g) (hp : InRegion s (.free t) p) : s.mem.store.head ≠ some p := by
  have howner : g.owner p = .free t := (inRegion_iff h).mp hp
  intro hhead
  rw [h.shared.valid.head] at hhead
  have hlinked := h.shared.valid.owner_node _ h.shared.valid.live_hd
  rw [Option.some.inj hhead, howner] at hlinked
  cases hlinked

/-- Unless an `enq` holds `enq_lock`, `tail` is at the last node. -/
theorem tail_last (h : Inv s g)
    (hlock : s.mem.enqLock = none ∨ ∃ t pc, s.mem.enqLock = some t ∧ (s.th t).pc = .deq pc) :
    ∃ ps, Chain s.mem.store.next s.mem.store.head ps ∧ ∃ p ∈ ps,
      s.mem.store.tail = some p ∧ ps.getLast? = some p := by
  have hlag : g.len = g.tl + 1 := by
    rcases hlock with hfree | ⟨t, pc, hlock, hpc⟩
    · exact h.shared.enq_free hfree
    · have hst := (h.own t).status
      simpa [hpc, Pc.lagging] using hst.lag (hst.enqLock.mp hlock)
  have hlt := h.shared.valid.hd_lt
  obtain ⟨ps, hps, p, hp, htail, hlast, -⟩ := h.shared.valid.exists_main (by omega)
  exact ⟨ps, hps, p, hp, htail, hlast hlag.symm⟩

/-- **Representation.**  In every reachable state of the two-lock queue every node is in exactly one
region, the main list is acyclic and ends in `NULL`, `tail` is at its last node unless an `enq` is
at work, no free list contains the node of `head` or `tail`, the `size` field of a free list that
its owner is not changing is its length as long as an `int` can hold it, and the repair of `tail` in
`deq` writes back what `tail` holds. -/
theorem twoLockQueue_owned {sched : List (Fin n × Choice)} (h : run step (init n) sched = some s) :
    (∀ p, p < s.mem.store.brk → ∃! r, InRegion s r p) ∧
    (∀ r p, InRegion s r p → p < s.mem.store.brk) ∧
    (∃ ps, Chain s.mem.store.next s.mem.store.head ps ∧ ps.Nodup) ∧
    (s.mem.enqLock = none ∨ (∃ t pc, s.mem.enqLock = some t ∧ (s.th t).pc = .deq pc) →
      ∃ ps, Chain s.mem.store.next s.mem.store.head ps ∧ ∃ p ∈ ps,
        s.mem.store.tail = some p ∧ ps.getLast? = some p) ∧
    (∀ t p, InRegion s (.free t) p → s.mem.store.head ≠ some p ∧ s.mem.store.tail ≠ some p) ∧
    (∀ t, (∀ pc, (s.th t).pc ≠ .upcylce pc) → (∀ pc, (s.th t).pc ≠ .recycle pc) →
      ∃ ps, Chain s.mem.store.next (s.mem.store.freeLists t).head ps ∧
        ((s.mem.store.freeLists t).size.toInt = ps.length ↔ ps.length < 2 ^ 31)) ∧
    ∀ t c s', (s.th t).pc = .deq .repairStore → fire step s (t, c) = some s' →
      s'.mem.store.tail = s.mem.store.tail := by
  obtain ⟨g, hI⟩ := exists_history h
  have hv := hI.shared.valid
  refine ⟨fun p hp => ?_, fun r p hr => owned_lt_brk hI ((inRegion_iff hI).mp hr),
    ⟨_, hv.main_chain, hv.main_chain.nodup⟩, tail_last hI,
    fun t p hp => ⟨head_not_free hI hp, tail_not_free hI hp⟩, fun t hup hrec => ?_, ?_⟩
  · obtain ⟨r, hr⟩ := exists_owned hI hp
    exact ⟨r, hr, fun r' hr' =>
      owned_unique hI ((inRegion_iff hI).mp hr') ((inRegion_iff hI).mp hr)⟩
  · have hslack : (s.th t).pc.slack = 0 := by
      unfold Pc.slack
      split
      · exact absurd ‹_› (hup _)
      · exact absurd ‹_› (hrec _)
      · rfl
    refine ⟨_, hv.chain t, ?_⟩
    rw [(hI.own t).status.size, hslack, Int32.add_zero]
    exact toInt_ofNat_iff
  · intro t c s' hpc hf
    have hout := (hI.own t).here
    simp only [outline, hpc] at hout
    obtain ⟨m', l', hstep, rfl⟩ := fire_eq_some.mp hf
    simp only [step, hpc, deq] at hstep
    cases hstep
    rw [Mem.setStore_store, Store.setTail_tail, hout.2.2, hout.2.1, hv.tail]

/-- The recycled sentinel of `handover` is in one region, and `tail` is at the last node. -/
theorem twoLockQueue_owned_handover :
    ∃ s, run step (init 2) (handover 0 1 ++ outOfMemory 0) = some s ∧ (∃! r, InRegion s r 0) ∧
      ∃ ps, Chain s.mem.store.next s.mem.store.head ps ∧ ∃ p ∈ ps,
        s.mem.store.tail = some p ∧ ps.getLast? = some p := by
  obtain ⟨s, hs⟩ : ∃ s, run step (init 2) (handover 0 1 ++ outOfMemory 0) = some s := ⟨_, rfl⟩
  have hbrk := run_observe hs (fun s => s.mem.store.brk) rfl
  have hlock := run_observe hs (fun s => s.mem.enqLock) rfl
  obtain ⟨hregion, -, -, hlast, -⟩ := twoLockQueue_owned hs
  exact ⟨s, hs, hregion 0 (by rw [hbrk]; decide), hlast (.inl hlock)⟩

end ConcurrentQueues.Ex4
