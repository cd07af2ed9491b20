import ConcurrentQueues.Ex5.Runs
import ConcurrentQueues.Destroy

/-!
# Ex5 — the life of a retired record

`mm_retire` obtains a record and `mm_reclaim_all` of the same call frees it.  In between the history
knows the record of the thread, so no record is lost and none is freed twice.
-/

namespace ConcurrentQueues.Ex5

open Reasoning

variable {n : Nat} {t u : Fin n} {m m' : Mem n} {g : History n} {l l' : Local} {c : Choice}
  {s : State n}

/-! ## `destroy_queue` -/

/-- The loop over a retired list. -/
def freeRetired (m : Mem n) :
    Nat → Option RecAddr → List Block → Except Stop (List Block)
  | _, none, freed => .ok freed
  | 0, some _, _ => .error .outOfFuel
  | fuel + 1, some r, freed => do
      let next ← load (.record r) (m.records r).next freed
      let node ← load (.record r) (m.records r).node freed
      let freed ←
        match node with
        | some p => free (.node p) freed
        -- `free(NULL)` does nothing
        | none => .ok freed
      let freed ← free (.record r) freed
      freeRetired m fuel next freed

/-- `destroy_queue`, after the blocks `freed`. -/
def destroyQueue (m : Mem n) (fuel : Nat) (freed : List Block) : Except Stop (List Block) := do
  let freed ← destroyNodes m.store fuel freed
  let freed ← (List.finRange n).foldlM
    (fun freed t => freeRetired m fuel (m.retired t) freed) freed
  let freed ← free .retired freed
  let freed ← free .ctr freed
  free .retiredCount freed

/-- The blocks that `init_queue`, `make_node` and `mm_retire` obtain. -/
def allocated (m : Mem n) : List Block :=
  nodeBlocks m.store ++ (List.range m.recBrk).map .record ++ [.retired, .ctr, .retiredCount]

/-! ## Where the records are -/

namespace Local

/-- The record of the call is obtained and not yet freed. -/
def owes (l : Local) : Bool :=
  match l.pc with
  | .retire .malloc => false
  | .retire .node => l.r.isSome
  | .retire _ | .wait _ => true
  | .opEnd _ => l.took
  | .reclaim .loop => l.r.isSome
  | .reclaim _ | .recycle _ => true
  | _ => false

end Local

/-- `r` is the record that `mm_reclaim_all` is going to free. -/
def Pc.recycles : Pc → Bool
  | .recycle _ | .reclaim .free => true
  | _ => false

/-- Every record is freed or owed by one thread, and not both. -/
structure Released (s : State n) (g : History n) : Prop where
  nodup : s.mem.freed.Nodup
  lt : ∀ r ∈ s.mem.freed, r < s.mem.recBrk
  cover : ∀ r < s.mem.recBrk, r ∈ s.mem.freed ∨ ∃ t, (s.th t).owes = true ∧ g.recOf t = some r
  owed : ∀ t r, (s.th t).owes = true → g.recOf t = some r → r ∉ s.mem.freed
  kept : ∀ t, (s.th t).pc.recycles = true → (s.th t).r = g.recOf t

/-- What a step does to the records. -/
inductive RecordStep (t : Fin n) (m : Mem n) (g : History n) (l : Local) (m' : Mem n)
    (g' : History n) (l' : Local) : Prop
  | obtain (hfree : l.owes = false) (howes : l'.owes = true) (hpc : l'.pc.recycles = false)
      (hbrk : m'.recBrk = m.recBrk + 1) (hfreed : m'.freed = m.freed)
      (hrec : g'.recOf = Function.update g.recOf t (some m.recBrk))
  | free (r) (howes : l.owes = true) (hfree : l'.owes = false) (hr : l.r = some r)
      (hpc : l.pc.recycles = true) (hbrk : m'.recBrk = m.recBrk) (hfreed : m'.freed = r :: m.freed)
      (hrec : g'.recOf = g.recOf)
  | keep (howes : l'.owes = l.owes) (hbrk : m'.recBrk = m.recBrk) (hfreed : m'.freed = m.freed)
      (hrec : g'.recOf = g.recOf)

/-- Only the `malloc` of `mm_retire` changes the record of a thread. -/
theorem record_recOf (h : l.pc ≠ .retire .malloc) : (record t c m l g).recOf = g.recOf := by
  unfold record
  split <;> (try split) <;> (try split) <;> first
    | rfl
    | exact absurd ‹_› h

/-- A call that has taken nothing has retired nothing. -/
theorem took_of_count (hO : Own t m g l) (hpc : l.pc = .opEnd .check) :
    l.took = true ↔ m.retiredCount t ≠ 0 := by
  have hcount := hO.status.count
  simp only [Local.counted, hpc] at hcount
  rw [hcount]
  cases l.took <;> decide

theorem mmRetire_records {pc : RetirePc} (hO : Own t m g l) (hpc : l.pc = .retire pc)
    (h : mmRetire t c m l pc = .next m' l') :
    RecordStep t m g l m' (record t c m l g) l' := by
  have hargs : l.isEnq = false := by simpa [Local.argsOk, hpc] using hO.status.args
  cases pc with
  | malloc =>
      simp only [mmRetire] at h
      split at h <;> cases h
      next raw hmem =>
        exact .obtain (by simp [Local.owes, hpc]) (by simp [Local.owes]) rfl rfl rfl
          (by simp only [record, hpc, hmem]; rfl)
      next hmem =>
        exact .keep (by simp [Local.owes, hpc]) rfl rfl (by simp [record, hpc, hmem])
  | node =>
      simp only [mmRetire] at h
      split at h <;> cases h
      next r hr =>
        exact .keep (by simp [Local.owes, hpc, hr]) rfl rfl (record_recOf (by simp [hpc]))
  | next =>
      simp only [mmRetire] at h
      split at h <;> cases h
      exact .keep (by simp [Local.owes, hpc]) rfl rfl (record_recOf (by simp [hpc]))
  | push =>
      cases h
      exact .keep (by simp [Local.owes, hpc]) rfl rfl (record_recOf (by simp [hpc]))
  | count =>
      cases h
      have htook : Local.took { l with code := 1, pc := .opEnd .inc } = true := by
        simpa [Local.took, Local.isEnq] using hargs
      exact .keep (by simp [Local.owes, hpc, htook]) rfl rfl (record_recOf (by simp [hpc]))

theorem mmOpEnd_records {pc : OpEndPc} (hO : Own t m g l) (hpc : l.pc = .opEnd pc)
    (h : mmOpEnd t m l pc = .next m' l') : RecordStep t m g l m' (record t c m l g) l' := by
  cases pc with
  | inc =>
      cases h
      exact .keep (by simp [Local.owes, Local.took, Local.isEnq, hpc]) rfl rfl
        (record_recOf (by simp [hpc]))
  | check =>
      have htook := took_of_count hO hpc
      simp only [mmOpEnd] at h
      split at h <;> cases h
      next hzero =>
        have hno : l.took = false := by simpa [hzero] using htook
        exact .keep (by simp [Local.owes, hpc, hno]) rfl rfl (record_recOf (by simp [hpc]))
      next hne =>
        exact .keep (by simp [Local.owes, hpc, htook.mpr hne]) rfl rfl
          (record_recOf (by simp [hpc]))

theorem mmReclaimAll_records {pc : ReclaimPc} (hO : Own t m g l) (hpc : l.pc = .reclaim pc)
    (h : mmReclaimAll t m l pc = .next m' l') : RecordStep t m g l m' (record t c m l g) l' := by
  have hout := hO.here
  simp only [outline, hpc] at hout
  have hrec : (record t c m l g).recOf = g.recOf := record_recOf (by simp [hpc])
  cases pc with
  | load | clear =>
      cases h
      exact .keep (by simp [Local.owes, hpc]) rfl rfl hrec
  | count =>
      cases h
      obtain ⟨hsafe, hr⟩ := hout
      obtain ⟨r, hrecOf, -⟩ := hsafe.unlinked.record
      exact .keep (by simp [Local.owes, hpc, hr, hrecOf]) rfl rfl hrec
  | loop =>
      simp only [mmReclaimAll] at h
      split at h <;> cases h
      next r hr => exact .keep (by simp [Local.owes, hpc, hr]) rfl rfl hrec
      next hr => exact .keep (by simp [Local.owes, hpc, hr]) rfl rfl hrec
  | free =>
      simp only [mmReclaimAll] at h
      split at h <;> cases h
      next r hr =>
        -- the list has one record, so the loop ends behind it
        exact .free r (by simp [Local.owes, hpc]) (by simp [Local.owes, hout.2]) hr
          (by simp [Pc.recycles, hpc]) rfl rfl hrec

/-- The other functions leave the records alone. -/
theorem keep_of_pc {l' : Local} (hpc : l.pc ≠ .retire .malloc) (howes : l.owes = false)
    (howes' : l'.owes = false) (hbrk : m'.recBrk = m.recBrk) (hfreed : m'.freed = m.freed) :
    RecordStep t m g l m' (record t c m l g) l' :=
  .keep (howes'.trans howes.symm) hbrk hfreed (record_recOf hpc)

theorem enq_records {pc : EnqPc} (hO : Own t m g l) (hpc : l.pc = .enq pc)
    (h : enq c m l pc = .next m' l') : RecordStep t m g l m' (record t c m l g) l' := by
  have hop : l.op = .enq l.v := by simpa [Local.argsOk, hpc] using hO.status.args
  have howes : l.owes = false := by simp [Local.owes, hpc]
  have hne : l.pc ≠ .retire .malloc := by simp [hpc]
  cases pc <;> simp only [enq] at h <;> (try split at h) <;> (try split at h) <;> cases h <;>
    exact keep_of_pc hne howes (by simp [Local.owes, Local.took, Local.isEnq, hop]) rfl rfl

theorem deq_records {pc : DeqPc} (hpc : l.pc = .deq pc) (h : deq c m l pc = .next m' l') :
    RecordStep t m g l m' (record t c m l g) l' := by
  have howes : l.owes = false := by simp [Local.owes, hpc]
  have hne : l.pc ≠ .retire .malloc := by simp [hpc]
  cases pc <;> simp only [deq] at h <;> (try split at h) <;> (try split at h) <;>
    (try split at h) <;> cases h <;>
    exact keep_of_pc hne howes (by simp [Local.owes, Local.took]) rfl rfl

theorem step_records (hO : Own t m g l) (h : step t c m l = .next m' l') :
    RecordStep t m g l m' (record t c m l g) l' := by
  cases hpc : l.pc with
  | retire pc => exact mmRetire_records hO hpc (by simpa only [step, hpc] using h)
  | opEnd pc => exact mmOpEnd_records hO hpc (by simpa only [step, hpc] using h)
  | reclaim pc => exact mmReclaimAll_records hO hpc (by simpa only [step, hpc] using h)
  | enq pc => exact enq_records hO hpc (by simpa only [step, hpc] using h)
  | deq pc => exact deq_records hpc (by simpa only [step, hpc] using h)
  | idle =>
      simp only [step, hpc] at h
      cases h
      refine keep_of_pc (by simp [hpc]) (by simp [Local.owes, hpc]) ?_ rfl rfl
      cases hop : c.op <;> simp [Local.owes, Local.call, hop]
  | opBegin =>
      simp only [step, hpc, mmOpBegin] at h
      cases h
      refine keep_of_pc (by simp [hpc]) (by simp [Local.owes, hpc]) ?_ rfl rfl
      cases l.isEnq <;> simp [Local.owes]
  | ret =>
      simp only [step, hpc] at h
      cases h
      exact keep_of_pc (by simp [hpc]) (by simp [Local.owes, hpc]) (by simp [Local.owes]) rfl rfl
  | upcylce pc | make pc =>
      simp only [step, hpc] at h
      have howes : l.owes = false := by simp [Local.owes, hpc]
      have hne : l.pc ≠ .retire .malloc := by simp [hpc]
      cases pc <;> simp only [upcylceNode, makeNode] at h <;> (try split at h) <;> cases h <;>
        exact keep_of_pc hne howes (by simp [Local.owes]) rfl rfl
  | wait pc =>
      simp only [step, hpc] at h
      have hrec : (record t c m l g).recOf = g.recOf := record_recOf (by simp [hpc])
      cases pc <;> simp only [mmWaitUntilUnreserved] at h <;> (try split at h) <;>
        (try split at h) <;> (try split at h) <;> cases h <;>
        exact .keep (by simp [Local.owes, hpc]) rfl rfl hrec
  | recycle pc =>
      simp only [step, hpc] at h
      have hrec : (record t c m l g).recOf = g.recOf := record_recOf (by simp [hpc])
      cases pc <;> simp only [recycleNode] at h <;> (try split at h) <;> cases h <;>
        exact .keep (by simp [Local.owes, hpc]) rfl rfl hrec

/-! ## Along a run -/

theorem Pc.flow_recycles {pc pc' : Pc} (h : pc' ∈ pc.flow) (hpc : pc'.recycles = true) :
    pc = .reclaim .loop ∨ ∃ rpc, pc = .recycle rpc := by
  rcases pc with _ | _ | pc | pc | pc | pc | pc | pc | pc | pc | pc | _ <;> try cases pc
  all_goals simp [Pc.flow] at h
  all_goals grind [Pc.recycles]

/-- `mm_reclaim_all` recycles the record it has loaded. -/
theorem step_kept (hO : Own t m g l) (hkept : l.pc.recycles = true → l.r = g.recOf t)
    (h : step t c m l = .next m' l') (hpc' : l'.pc.recycles = true) : l'.r = g.recOf t := by
  obtain hpc | ⟨rpc, hpc⟩ := Pc.flow_recycles (step_flow h) hpc'
  · have hout := hO.here
    simp only [outline, hpc] at hout
    simp only [step, hpc, mmReclaimAll] at h
    split at h <;> cases h
    next r hr => exact (hout.resolve_left (by simp [hr])).2
    next => cases hpc'
  · rw [← hkept (by simp [hpc, Pc.recycles])]
    simp only [step, hpc] at h
    cases rpc <;> simp only [recycleNode] at h <;> (try split at h) <;> cases h <;> rfl

theorem released_init (n : Nat) : Released (init n) (History.init n) where
  nodup := List.nodup_nil
  lt := fun _ h => nomatch h
  cover := fun _ h => nomatch h
  owed := fun _ _ h => nomatch h
  kept := fun _ h => nomatch h

namespace Released

theorem kept_update {g' : History n} (h : Released s g)
    (hkept : l'.pc.recycles = true → l'.r = g'.recOf t)
    (hrec : ∀ u, u ≠ t → g'.recOf u = g.recOf u) (u : Fin n)
    (hu : (Function.update s.th t l' u).pc.recycles = true) :
    (Function.update s.th t l' u).r = g'.recOf u := by
  by_cases hut : u = t
  · subst hut
    simpa using hkept (by simpa using hu)
  · simpa [hut, hrec u hut] using h.kept u (by simpa [hut] using hu)

theorem malloc {g' : History n} (h : Released s g)
    (hfree : (s.th t).owes = false) (howes : l'.owes = true)
    (hbrk : m'.recBrk = s.mem.recBrk + 1) (hfreed : m'.freed = s.mem.freed)
    (hrec : g'.recOf = Function.update g.recOf t (some s.mem.recBrk))
    (hkept : l'.pc.recycles = true → l'.r = g'.recOf t) :
    Released ⟨m', Function.update s.th t l'⟩ g' where
  nodup := hfreed ▸ h.nodup
  lt := by
    intro r hr
    rw [hfreed] at hr
    rw [hbrk]
    exact (h.lt r hr).trans (Nat.lt_succ_self _)
  cover := by
    intro r hr
    rw [hbrk] at hr
    rw [hfreed, hrec]
    rcases Nat.lt_succ_iff_lt_or_eq.mp hr with hlt | rfl
    · refine (h.cover r hlt).imp_right ?_
      rintro ⟨u, hu, hr⟩
      have hut : u ≠ t := by
        rintro rfl
        simp [hfree] at hu
      exact ⟨u, by simpa [hut] using hu, by simpa [hut] using hr⟩
    · exact .inr ⟨t, by simpa using howes, by simp⟩
  owed := by
    intro u r hu hr
    rw [hrec] at hr
    rw [hfreed]
    by_cases hut : u = t
    · subst hut
      obtain rfl : s.mem.recBrk = r := by simpa using hr
      exact fun hmem => Nat.lt_irrefl _ (h.lt _ hmem)
    · exact h.owed u r (by simpa [hut] using hu) (by simpa [hut] using hr)
  kept := h.kept_update hkept fun u hut => by simp [hrec, hut]

theorem free {g' : History n} {r : RecAddr} (h : Released s g) (hS : Shared s.mem g)
    (howes : (s.th t).owes = true) (hfree : l'.owes = false) (hr : g.recOf t = some r)
    (hbrk : m'.recBrk = s.mem.recBrk) (hfreed : m'.freed = r :: s.mem.freed)
    (hrec : g'.recOf = g.recOf) (hkept : l'.pc.recycles = true → l'.r = g'.recOf t) :
    Released ⟨m', Function.update s.th t l'⟩ g' where
  nodup := by
    rw [hfreed]
    exact List.nodup_cons.mpr ⟨h.owed t r howes hr, h.nodup⟩
  lt := by
    intro r' hr'
    rw [hfreed] at hr'
    rw [hbrk]
    rcases List.mem_cons.mp hr' with rfl | hold
    · exact hS.rec_lt t r' hr
    · exact h.lt r' hold
  cover := by
    intro r' hlt
    rw [hbrk] at hlt
    rw [hfreed, hrec]
    rcases h.cover r' hlt with hold | ⟨u, hu, hr'⟩
    · exact .inl (List.mem_cons_of_mem r hold)
    · by_cases hut : u = t
      · subst hut
        obtain rfl : r = r' := Option.some.inj (hr.symm.trans hr')
        exact .inl List.mem_cons_self
      · exact .inr ⟨u, by simpa [hut] using hu, hr'⟩
  owed := by
    intro u r' hu hr'
    rw [hrec] at hr'
    by_cases hut : u = t
    · subst hut
      simp [hfree] at hu
    · rw [hfreed, List.mem_cons, not_or]
      refine ⟨?_, h.owed u r' (by simpa [hut] using hu) hr'⟩
      rintro rfl
      exact hut (hS.rec_inj u t r' hr' hr)
  kept := h.kept_update hkept fun u _ => by rw [hrec]

theorem keep {g' : History n} (h : Released s g) (howes : l'.owes = (s.th t).owes)
    (hbrk : m'.recBrk = s.mem.recBrk) (hfreed : m'.freed = s.mem.freed)
    (hrec : g'.recOf = g.recOf) (hkept : l'.pc.recycles = true → l'.r = g'.recOf t) :
    Released ⟨m', Function.update s.th t l'⟩ g' := by
  have hsame : ∀ u, (Function.update s.th t l' u).owes = (s.th u).owes := by
    intro u
    by_cases hut : u = t
    · subst hut
      simpa using howes
    · simp [hut]
  constructor
  case nodup => exact hfreed ▸ h.nodup
  case kept => exact h.kept_update hkept fun u _ => by rw [hrec]
  all_goals simp only [hsame, hbrk, hfreed, hrec]
  case lt => exact h.lt
  case cover => exact h.cover
  case owed => exact h.owed

theorem fire {s' : State n} {e : Fin n × Choice} (h : Released s g) (hI : Inv s g)
    (hf : fire step s e = some s') : Released s' (record e.1 e.2 s.mem (s.th e.1) g) := by
  obtain ⟨m', l', hs, rfl⟩ := fire_eq_some.mp hf
  have hkept' (hrec : (record e.1 e.2 s.mem (s.th e.1) g).recOf = g.recOf) :
      l'.pc.recycles = true → l'.r = (record e.1 e.2 s.mem (s.th e.1) g).recOf e.1 := by
    intro hpc'
    rw [hrec]
    exact step_kept (hI.own e.1) (h.kept e.1) hs hpc'
  rcases step_records (hI.own e.1) hs with
    ⟨hfree, howes, hpc, hbrk, hfreed, hrec⟩ | ⟨r, howes, hfree, hr, hpc, hbrk, hfreed, hrec⟩ |
      ⟨howes, hbrk, hfreed, hrec⟩
  · exact h.malloc hfree howes hbrk hfreed hrec fun hpc' => by simp [hpc] at hpc'
  · exact h.free hI.shared howes hfree ((h.kept e.1 hpc).symm.trans hr) hbrk hfreed hrec
      (hkept' hrec)
  · exact h.keep howes hbrk hfreed hrec (hkept' hrec)

/-- Between calls every record has been freed. -/
theorem mem_freed (h : Released s g) (hidle : ∀ t, (s.th t).pc = .idle) {r : RecAddr} :
    r ∈ s.mem.freed ↔ r < s.mem.recBrk := by
  refine ⟨h.lt r, fun hr => (h.cover r hr).resolve_right ?_⟩
  rintro ⟨t, howes, -⟩
  simp [Local.owes, hidle t] at howes

end Released

/-! ## Between calls -/

theorem retired_idle (hI : Inv s g) (hpc : (s.th t).pc = .idle) : s.mem.retired t = none := by
  rw [(hI.own t).status.retired]
  simp [Local.listed, hpc]

/-- With no record left in the retired lists, the third loop frees nothing. -/
theorem frees_destroyQueue {k : Nodes n} {fuel : Nat} (h : m.store.Carries k)
    (hretired : ∀ t, m.retired t = none) (hfuel : m.store.brk ≤ fuel) :
    Frees (destroyQueue m fuel) fun b =>
      b ∈ nodeBlocks m.store ∨ b = .retired ∨ b = .ctr ∨ b = .retiredCount := by
  have hloop (t : Fin n) : Frees (freeRetired m fuel (m.retired t)) fun _ => False :=
    frees_nothing (fun _ => by rw [hretired, freeRetired]) fun _ => id
  have hlists := frees_foldlM (List.finRange n) (List.nodup_finRange n) (fun t _ => hloop t)
    fun _ _ _ hb => hb.elim
  have harrays := (frees_free Block.retired).bind
    ((frees_free .ctr).bind (frees_free .retiredCount) (by rintro b rfl he; cases he))
    (by rintro b rfl (he | he) <;> cases he)
  have hrest := hlists.bind harrays (by simp)
  refine ((frees_destroyNodes h hfuel).bind hrest ?_).congr fun b => by simp
  simp only [nodeBlocks]
  grind

end ConcurrentQueues.Ex5
