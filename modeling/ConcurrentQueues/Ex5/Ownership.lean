import ConcurrentQueues.Ex5.Runs

/-!
# Ex5 — who owns a node

The regions of the heap as the memory and the locals show them: the main list, the retired lists,
the free lists, and the nodes only one operation can reach.  The owner map of the history decides
which region a node is in.
-/

namespace ConcurrentQueues.Ex5

open Reasoning Layout

variable {n : Nat} {t u : Fin n} {m : Mem n} {g : History n} {l : Local} {s : State n} {p : Addr}

inductive Region (n : Nat) where
  | main
  | retired (t : Fin n)
  | free (t : Fin n)
  | held (t : Fin n)
  deriving DecidableEq, Repr

/-- The node only the operation in progress can reach: taken by `upcylce_node` and not yet linked,
unlinked and not yet in the retired list, or on its way from the retired list to the free list. -/
def Local.keeps (l : Local) : Ptr :=
  match l.pc with
  | .upcylce .size | .make .data | .make .next => l.n
  | .enq .swing => none
  | .enq _ => l.n
  | .deq .writeOut => l.first
  | .retire .count => none
  | .retire _ => l.first
  | .reclaim .count => l.first
  | .reclaim .loop => if l.r = none then none else l.first
  | .recycle .next | .recycle .head => l.node
  | _ => none

/-- `InRegion s r p`: node `p` is in region `r`. -/
def InRegion (s : State n) : Region n → Addr → Prop
  | .main, p => ∃ ps, Chain s.mem.store.next s.mem.store.head ps ∧ p ∈ ps
  | .retired t, p =>
      ∃ rs, Chain (fun r => (s.mem.records r).next) (s.mem.retired t) rs ∧
        ∃ r ∈ rs, (s.mem.records r).node = some p
  | .free t, p => ∃ ps, Chain s.mem.store.next (s.mem.store.freeLists t).head ps ∧ p ∈ ps
  | .held t, p => (s.th t).keeps = some p

/-! ## The regions in terms of the history -/

theorem Own.unlinked (h : Own t m g l) (hl : l.listed = true) : Unlinked t m g l := by
  have hout := h.here
  unfold outline at hout
  unfold Local.listed at hl
  cases hpc : l.pc with
  | retire pc => cases pc <;> simp only [hpc] at hout hl <;> first | exact hout | cases hl
  | opEnd pc =>
      simp only [hpc] at hout hl
      exact hout hl
  | wait pc =>
      cases pc <;> simp only [hpc] at hout
      · exact hout.unlinked
      · exact hout.1.unlinked
  | reclaim pc =>
      cases pc <;> simp only [hpc] at hout hl
      · exact hout.unlinked
      · exact hout.1.unlinked
      all_goals cases hl
  | _ => simp [hpc] at hl

/-- A listed node is unlinked. -/
theorem Local.unlinking_of_listed (h : l.listed = true) : l.unlinking = true := by
  unfold listed at h
  unfold unlinking
  split at h <;> simp_all

/-- An unlinked node is not yet held for the free list. -/
theorem Local.holding_of_unlinking (h : l.unlinking = true) : l.holding = none := by
  unfold unlinking at h
  unfold holding
  split at h <;> simp_all

theorem Own.keeps (h : Own t m g l) :
    l.keeps = if l.unlinking && !l.listed then some (g.lay.node (g.iFirst t)) else l.holding := by
  have hout := h.here
  unfold outline at hout
  unfold Local.keeps Local.unlinking Local.listed Local.holding
  cases hpc : l.pc with
  | deq pc =>
      cases pc <;> simp only [hpc] at hout ⊢ <;> simp
      exact hout.1.eq
  | retire pc =>
      cases pc <;> simp only [hpc] at hout ⊢ <;> simp
      · exact hout.1.eq
      · exact hout.1.eq
      · exact hout.1.eq
      · exact hout.1.first.eq
  | reclaim pc =>
      cases pc <;> simp only [hpc] at hout ⊢ <;> simp
      · exact hout.1.unlinked.first.eq
      · cases hr : l.r with
        | none => simp
        | some r => simpa using (hout.resolve_left (by simp [hr])).1.unlinked.first.eq
  | recycle pc =>
      cases pc <;> simp only [hpc] at hout ⊢ <;> simp
      exact hout.2.2.2.trans hout.1.unlinked.first.eq
  | opEnd pc => cases l.took <;> simp
  | upcylce pc | make pc | enq pc | wait pc => cases pc <;> simp
  | idle | opBegin | ret => simp

/-- The region of a node by its owner. -/
def OwnedIn (s : State n) (g : History n) : Region n → Addr → Prop
  | .main, p => ∃ i, g.lay.owner p = .linked i ∧ g.lay.hd ≤ i
  | .retired t, p =>
      ∃ i, g.lay.owner p = .linked i ∧ g.lay.pend t = some i ∧ (s.th t).listed = true
  | .free t, p => g.lay.owner p = .free t
  | .held t, p =>
      g.lay.owner p = .held t ∨
        ∃ i, g.lay.owner p = .linked i ∧ g.lay.pend t = some i ∧ (s.th t).listed = false

theorem inRetired_iff (h : Inv s g) : InRegion s (.retired t) p ↔ OwnedIn s g (.retired t) p := by
  have hst := (h.own t).status
  have hret := hst.retired
  cases hl : (s.th t).listed with
  | false =>
      rw [hl] at hret
      constructor
      · rintro ⟨rs, hrs, r, hr, -⟩
        rw [hret] at hrs
        rw [hrs.eq_none_iff.mp rfl] at hr
        cases hr
      · rintro ⟨i, -, -, hlisted⟩
        rw [hl] at hlisted
        cases hlisted
  | true =>
      have hunl := (h.own t).unlinked hl
      obtain ⟨r, hrec, heq⟩ := hunl.record
      have hpend := hst.pend
      rw [Local.unlinking_of_listed hl] at hpend
      -- a retired list is empty or has the record of the node its thread has unlinked
      have hchain : Chain (fun r => (s.mem.records r).next) (s.mem.retired t) [r] := by
        rw [hret, hl]
        exact ⟨hrec, by simp [heq]⟩
      have hnode := h.shared.valid.pend_owner (p := p) hpend
      constructor
      · rintro ⟨rs, hrs, r', hr', hp⟩
        rw [hrs.unique hchain, List.mem_singleton] at hr'
        rw [hr', heq, hunl.first.eq] at hp
        obtain ⟨i, howner, hi⟩ := hnode.mpr (Option.some.inj hp)
        exact ⟨i, howner, hi, hl⟩
      · rintro ⟨i, howner, hi, -⟩
        refine ⟨[r], hchain, r, List.mem_singleton_self r, ?_⟩
        rw [heq, hunl.first.eq, hnode.mp ⟨i, howner, hi⟩]

theorem inHeld_iff (h : Inv s g) : InRegion s (.held t) p ↔ OwnedIn s g (.held t) p := by
  have hst := (h.own t).status
  have hkeeps := (h.own t).keeps
  have hpend := hst.pend
  have hhold := h.shared.valid.owner_held p t
  rw [hst.hold] at hhold
  simp only [InRegion, OwnedIn, hhold]
  cases hl : (s.th t).listed with
  | true =>
      rw [hl] at hkeeps
      simp [hkeeps]
  | false =>
      cases hu : (s.th t).unlinking with
      | false =>
          rw [hu] at hkeeps hpend
          simp [hkeeps, hpend]
      | true =>
          rw [hu] at hkeeps hpend
          rw [hl] at hkeeps
          have hnode := h.shared.valid.pend_owner (p := p) hpend
          have hnone : (s.th t).holding = none := Local.holding_of_unlinking hu
          simp only [if_true] at hpend
          simp [hkeeps, hnone, ← hnode]

theorem inRegion_iff (h : Inv s g) {r : Region n} : InRegion s r p ↔ OwnedIn s g r p := by
  cases r with
  | main => exact h.shared.valid.mem_main_iff
  | retired t => exact inRetired_iff h
  | free t => exact h.shared.valid.mem_free_iff
  | held t => exact inHeld_iff h

/-! ## Every node has one owner -/

theorem exists_owned (h : Inv s g) (hp : p < s.mem.store.brk) : ∃ r, OwnedIn s g r p := by
  have hv := h.shared.valid
  cases howner : g.lay.owner p with
  | raw => exact absurd ((hv.owner_raw p).mp howner) (Nat.not_le.mpr hp)
  | free t => exact ⟨.free t, howner⟩
  | held t => exact ⟨.held t, .inl howner⟩
  | linked i =>
      -- linked nodes are live: in the main list, or unlinked by some `t`
      obtain ⟨⟨-, hle | ⟨t, ht⟩⟩, -⟩ := hv.owner_linked p i howner
      · exact ⟨.main, i, howner, hle⟩
      · cases hl : (s.th t).listed with
        | true => exact ⟨.retired t, i, howner, ht, hl⟩
        | false => exact ⟨.held t, .inr ⟨i, howner, ht, hl⟩⟩

theorem owned_lt_brk (h : Inv s g) {r : Region n} (hr : OwnedIn s g r p) :
    p < s.mem.store.brk := by
  have hv := h.shared.valid
  by_contra hge
  have hraw := (hv.owner_raw p).mpr (Nat.not_lt.mp hge)
  cases r <;> simp [OwnedIn, hraw] at hr

theorem owned_unique (h : Inv s g) {r r' : Region n} (hr : OwnedIn s g r p)
    (hr' : OwnedIn s g r' p) : r = r' := by
  have hlt := h.shared.valid.pend_lt
  have hinj := h.shared.valid.pend_inj
  cases r <;> cases r' <;> simp only [OwnedIn] at hr hr' <;> grind

/-- **Representation.**  In every reachable state the main list is a `NULL`-terminated chain from
`head` with `tail` at its last or last but one node, every allocated node is in exactly one region,
and the `size` of a free list that its owner is not changing is its length as long as an `int` can
hold it. -/
theorem lockFreeQueue_owned {sched : List (Fin n × Choice)}
    (h : run step (init n) sched = some s) :
    (∃ ps, Chain s.mem.store.next s.mem.store.head ps ∧
      ∃ p ∈ ps, s.mem.store.tail = some p ∧
        (ps.getLast? = some p ∨ ps.dropLast.getLast? = some p)) ∧
    (∀ p, p < s.mem.store.brk → ∃! r, InRegion s r p) ∧
    (∀ r p, InRegion s r p → p < s.mem.store.brk) ∧
    ∀ t, (∀ pc, (s.th t).pc ≠ .upcylce pc) → (∀ pc, (s.th t).pc ≠ .recycle pc) →
      ∃ ps, Chain s.mem.store.next (s.mem.store.freeLists t).head ps ∧
        ((s.mem.store.freeLists t).size.toInt = ps.length ↔ ps.length < 2 ^ 31) := by
  obtain ⟨g, hI⟩ := exists_history h
  refine ⟨?_, fun p hp => ?_, fun r p hr => owned_lt_brk hI ((inRegion_iff hI).mp hr),
    fun t hup hrec => ⟨_, hI.shared.valid.chain t, ?_⟩⟩
  · obtain ⟨ps, hps, p, hp, htail, hlast, hlast'⟩ :=
      hI.shared.valid.exists_main hI.shared.hd_le_tl
    have hlag := hI.shared.lag
    have hlt := hI.shared.valid.tl_lt
    refine ⟨ps, hps, p, hp, htail, ?_⟩
    -- `tail` lags behind the last node by at most one
    rcases Nat.eq_or_lt_of_le (Nat.succ_le_of_lt hlt) with he | hlt'
    · exact .inl (hlast he)
    · exact .inr (hlast' (by omega))
  · obtain ⟨r, hr⟩ := exists_owned hI hp
    exact ⟨r, (inRegion_iff hI).mpr hr, fun r' hr' =>
      owned_unique hI ((inRegion_iff hI).mp hr') hr⟩
  · have hslack : (s.th t).pc.slack = 0 := by
      unfold Pc.slack
      split
      · exact absurd ‹_› (hup _)
      · exact absurd ‹_› (hrec _)
      · rfl
    rw [(hI.own t).status.size, hslack, Int32.add_zero]
    exact toInt_ofNat_iff

/-- The recycled sentinel of `handover` is in one region. -/
theorem lockFreeQueue_owned_handover :
    ∃ s, run step (init 2) (handover 0 1) = some s ∧ ∃! r, InRegion s r 0 := by
  obtain ⟨s, hs⟩ : ∃ s, run step (init 2) (handover 0 1) = some s := ⟨_, rfl⟩
  have hbrk := run_observe hs (fun s => s.mem.store.brk) rfl
  obtain ⟨-, hregion, -⟩ := lockFreeQueue_owned hs
  exact ⟨s, hs, hregion 0 (by rw [hbrk]; decide)⟩

end ConcurrentQueues.Ex5
