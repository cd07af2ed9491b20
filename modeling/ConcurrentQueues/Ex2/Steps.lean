import ConcurrentQueues.Ex2.Invariant

/-! Every step of every function of Ex2 keeps the invariant, and so does every run. -/

namespace ConcurrentQueues.Ex2

open Reasoning

variable {n : Nat} {t u : Fin n} {m m' : Mem n} {g g' : Ghost n} {l l' : Local} {c : Choice}
  {b q q' d d' : Store n} {p : Addr}

/-- What a step of `t` owes. -/
structure StepOk (t : Fin n) (m : Mem n) (g : Ghost n) (m' : Mem n) (g' : Ghost n)
    (l' : Local) : Prop where
  shared : Shared m' g'
  own : Own t m' g' l'
  rely : ∀ u, u ≠ t → Rely u m g m' g'

theorem Rely.refl (u : Fin n) (m : Mem n) (g : Ghost n) : Rely u m g m g where
  lock := Iff.rfl
  held := fun _ => ⟨g.returned, rfl⟩
  free := fun _ => Iff.rfl
  list := rfl
  curList := rfl
  heap := fun _ _ => rfl
  curHeap := fun _ _ => rfl
  insertions := rfl
  results := rfl
  returned := rfl

/-! ## The holder of the lock -/

/-- The holder of the lock owes nothing. -/
theorem Pc.settled {pc : Pc} (h : pc.inside = true) :
    pc.owesNext = false ∧ pc.owesHead = false ∧ pc.owesSize = false ∧ pc.owesCount = false := by
  cases pc with
  | idle | ret => cases h
  | recycle pc => cases h
  | upcycle pc | enq pc | deq pc => exact ⟨rfl, rfl, rfl, rfl⟩

theorem pending_inside (h : l.pc.inside = true) : l.pending t = [] := by
  unfold Local.pending
  split <;> first | rfl | simp_all [Pc.inside]

theorem outer_of_inside (h : l.pc.inside = true) : outer t m l := by
  unfold outer
  split <;> first | trivial | simp_all [Pc.inside]

/-- What thread `t` can reach in `q` is as in `d`: all but the free lists of the other threads. -/
structure Synced (t : Fin n) (b q d : Store n) : Prop where
  brk : q.brk = d.brk
  head : q.head = d.head
  tail : q.tail = d.tail
  list : q.freeLists t = d.freeLists t
  heap : ∀ a, (∀ u, u ≠ t → ¬ Ex1.Free b u a) → q.heap a = d.heap a

/-- The memory as the holder of the lock sees it is the sequential state. -/
theorem Own.synced (hS : Shared m g) (hO : Own t m g l) (hin : l.pc.inside = true) :
    Synced t g.base.store m.store g.cur where
  brk := hS.brk
  head := hS.head
  tail := hS.tail
  list := by
    obtain ⟨-, hhead, hsize, -⟩ := Pc.settled hin
    have h₁ := hO.status.freeHead
    have h₂ := hO.status.freeSize
    simp only [hhead, hsize, Bool.false_eq_true, if_false] at h₁ h₂
    cases hm : m.store.freeLists t
    cases hg : g.cur.freeLists t
    simp_all
  heap := by
    intro a ha
    obtain ⟨hnext, -⟩ := Pc.settled hin
    -- the free list of `t` itself is up to date, because `t` owes nothing
    by_cases hfree : Ex1.Free g.base.store t a
    · have h₁ := hO.status.data a hfree
      have h₂ := hO.status.next a hfree (by simp [hnext])
      cases hm : m.store.heap a
      cases hg : g.cur.heap a
      simp_all
    · refine hS.heap a fun u => ?_
      by_cases hu : u = t
      · exact hu ▸ hfree
      · exact ha u hu

/-- A store of the holder of the lock, made in memory and in the sequential state. -/
structure Tandem (t : Fin n) (b q d q' d' : Store n) : Prop where
  synced : Synced t b q' d'
  list : ∀ u, u ≠ t → q'.freeLists u = q.freeLists u ∧ d'.freeLists u = d.freeLists u
  heap : ∀ u, u ≠ t → ∀ a, Ex1.Free b u a → q'.heap a = q.heap a ∧ d'.heap a = d.heap a

namespace Tandem

theorem refl (h : Synced t b q d) : Tandem t b q d q d :=
  ⟨h, fun _ _ => ⟨rfl, rfl⟩, fun _ _ _ _ => ⟨rfl, rfl⟩⟩

/-- Writing a field of a node that is on no free list of another thread. -/
theorem write (h : Synced t b q d) (hp : ∀ u, u ≠ t → ¬ Ex1.Free b u p) (f : Node → Node) :
    Tandem t b q d { q with heap := Function.update q.heap p (f (q.heap p)) }
      { d with heap := Function.update d.heap p (f (d.heap p)) } where
  synced :=
    { h with
      heap := by
        intro a ha
        by_cases hap : a = p
        · subst hap
          simp [h.heap a ha]
        · simpa [Function.update_of_ne hap] using h.heap a ha }
  list := fun _ _ => ⟨rfl, rfl⟩
  heap := by
    intro u hu a ha
    have hap : a ≠ p := fun he => hp u hu (he ▸ ha)
    exact ⟨Function.update_of_ne hap _ _, Function.update_of_ne hap _ _⟩

theorem setData (h : Synced t b q d) (hp : ∀ u, u ≠ t → ¬ Ex1.Free b u p) (v : Value) :
    Tandem t b q d (q.setData p v) (d.setData p v) :=
  write h hp fun x => { x with data := v }

theorem setNext (h : Synced t b q d) (hp : ∀ u, u ≠ t → ¬ Ex1.Free b u p) (x : Ptr) :
    Tandem t b q d (q.setNext p x) (d.setNext p x) :=
  write h hp fun y => { y with next := x }

theorem setHead (h : Synced t b q d) (x : Ptr) : Tandem t b q d (q.setHead x) (d.setHead x) :=
  ⟨{ h with head := rfl }, fun _ _ => ⟨rfl, rfl⟩, fun _ _ _ _ => ⟨rfl, rfl⟩⟩

theorem setTail (h : Synced t b q d) (x : Ptr) : Tandem t b q d (q.setTail x) (d.setTail x) :=
  ⟨{ h with tail := rfl }, fun _ _ => ⟨rfl, rfl⟩, fun _ _ _ _ => ⟨rfl, rfl⟩⟩

theorem setFreeHead (h : Synced t b q d) (x : Ptr) :
    Tandem t b q d (q.setFreeHead t x) (d.setFreeHead t x) where
  synced := { h with list := by simp [h.list] }
  list := fun _ hu => ⟨Function.update_of_ne hu _ _, Function.update_of_ne hu _ _⟩
  heap := fun _ _ _ _ => ⟨rfl, rfl⟩

theorem setFreeSize (h : Synced t b q d) (k : Int32) :
    Tandem t b q d (q.setFreeSize t k) (d.setFreeSize t k) where
  synced := { h with list := by simp [h.list] }
  list := fun _ hu => ⟨Function.update_of_ne hu _ _, Function.update_of_ne hu _ _⟩
  heap := fun _ _ _ _ => ⟨rfl, rfl⟩

theorem malloc (h : Synced t b q d) (hp : ∀ u, u ≠ t → ¬ Ex1.Free b u q.brk) (raw : Node) :
    Tandem t b q d (q.malloc raw) (d.malloc raw) := by
  have hw := write h hp fun _ => raw
  have hbrk := h.brk
  refine ⟨{ hw.synced with brk := by simp [hbrk], heap := fun a ha => ?_ }, hw.list,
    fun u hu a ha => ?_⟩
  · have := hw.synced.heap a ha
    simpa [← hbrk] using this
  · have := hw.heap u hu a ha
    simpa [← hbrk] using this

end Tandem

/-- A step of the holder of the lock. -/
theorem StepOk.tandem {calls : List (Ex1.Call n)} (hS : Shared m g) (hO : Own t m g l)
    (hin : l.pc.inside = true) (ht : Tandem t g.base.store m.store g.cur q' d')
    (hin' : l'.pc.inside = true)
    (hcall : ∃ raw, calls = g.done ++ [⟨t, l'.op, l'.countIns, raw⟩])
    (hins : l'.insertions = l.insertions) (ha : l'.argsOk)
    (hinner : inner t { g with calls := calls, cur := d' } l') :
    StepOk t m g (m.setStore q') { g with calls := calls, cur := d' } l' := by
  have hlock := hO.status.lock.mpr hin
  -- before and after the step `t` owes nothing
  obtain ⟨-, -, -, hcount⟩ := Pc.settled hin
  obtain ⟨hnext', hhead', hsize', hcount'⟩ := Pc.settled hin'
  refine ⟨?_, ⟨?_, hinner, outer_of_inside hin'⟩, fun u hu => ?_⟩
  · exact
    { exec := hS.exec
      quiet := hS.quiet
      unlocked := by simp [hlock]
      brk := ht.synced.brk
      head := ht.synced.head
      tail := ht.synced.tail
      heap := fun p hp => ht.synced.heap p fun u _ => hp u }
  · have hown : ∀ p, Ex1.Free g.base.store t p → q'.heap p = d'.heap p := by
      intro p hp
      obtain ⟨lay, hquiet⟩ := hS.quiet
      exact ht.synced.heap p fun u hu hfree => hu (hquiet.free_unique hfree hp)
    exact
    { lock := by simp [hlock, hin']
      call := fun _ => hcall
      freeHead := by simp [hhead', ht.synced.list]
      freeSize := by simp [hsize', ht.synced.list]
      data := fun p hp => congrArg Node.data (hown p hp)
      next := fun p hp _ => congrArg Node.next (hown p hp)
      debt := by simp [hnext']
      insertions := by
        rw [hins]
        simpa [hcount, hcount'] using hO.status.insertions
      results := by
        rw [pending_inside hin']
        simpa [pending_inside hin] using hO.status.results
      args := ha }
  · exact
    { lock := Iff.rfl
      -- `u` does not hold the lock, so it says nothing about the critical section
      held := fun h => absurd (Option.some.inj (h.symm.trans hlock)) hu
      free := fun _ => Iff.rfl
      list := (ht.list u hu).1
      curList := (ht.list u hu).2
      heap := fun p hp => (ht.heap u hu p hp).1
      curHeap := fun p hp => (ht.heap u hu p hp).2
      insertions := rfl
      results := rfl
      returned := rfl }

/-- A store of the holder of the lock. -/
theorem StepOk.store (hS : Shared m g) (hO : Own t m g l) (hin : l.pc.inside = true)
    (ht : Tandem t g.base.store m.store g.cur q' d') (hin' : l'.pc.inside = true)
    (hop : l'.op = l.op) (hk : l'.countIns = l.countIns) (hins : l'.insertions = l.insertions)
    (ha : l'.argsOk) (hinner : inner t (g.setCur d') l') :
    StepOk t m g (m.setStore q') (g.setCur d') l' :=
  StepOk.tandem hS hO hin ht hin' (by rw [hop, hk]; exact hO.status.call hin) hins ha hinner

/-- A step of the holder of the lock that changes its locals only. -/
theorem StepOk.silent (hS : Shared m g) (hO : Own t m g l) (hin : l.pc.inside = true)
    (hin' : l'.pc.inside = true) (hop : l'.op = l.op) (hk : l'.countIns = l.countIns)
    (hins : l'.insertions = l.insertions) (ha : l'.argsOk) (hinner : inner t g l') :
    StepOk t m g m g l' :=
  StepOk.store hS hO hin (Tandem.refl (hO.synced hS hin)) hin' hop hk hins ha hinner

/-! ## Acquiring and releasing the lock -/

theorem outside_settled (hpc : l.pc = .enq .lock ∨ l.pc = .deq .lock) :
    l.pc.owesNext = false ∧ l.pc.owesHead = false ∧ l.pc.owesSize = false ∧
      l.pc.owesCount = false ∧ l.pending t = [] := by
  rcases hpc with h | h <;> simp [Pc.owesNext, Pc.owesHead, Pc.owesSize, Pc.owesCount,
    Local.pending, h]

theorem StepOk.acquire (hS : Shared m g) (hO : Own t m g l)
    (hpc : l.pc = .enq .lock ∨ l.pc = .deq .lock) (hfree : m.lock = none) (pc : Pc)
    (hin : pc.inside = true) (ha : (l.goto pc).argsOk)
    (hinner : g.cur = g.base.store →
      inner t (g.note (t, .acquire l.op l.countIns)) (l.goto pc)) :
    StepOk t m g (m.setLock (some t)) (g.note (t, .acquire l.op l.countIns)) (l.goto pc) := by
  obtain ⟨hcalls, hcur⟩ := hS.unlocked hfree
  obtain ⟨hnext, hhead, hsize, hcount, hpend⟩ := outside_settled (t := t) hpc
  obtain ⟨hnext', hhead', hsize', hcount'⟩ := Pc.settled hin
  have hst := hO.status
  refine ⟨{ hS with unlocked := fun h => by cases h }, ⟨?_, hinner hcur, outer_of_inside hin⟩,
    fun u hu => { Rely.refl u m g with
      lock := by simp [hfree, Ne.symm hu]
      held := by simp [hfree] }⟩
  exact
  { lock := by simp [hin]
    call := fun _ => ⟨none, by simp [serialStep, hcalls]⟩
    freeHead := by simpa [hhead, hhead'] using hst.freeHead
    freeSize := by simpa [hsize, hsize'] using hst.freeSize
    data := hst.data
    next := fun p hp _ => hst.next p hp (by simp [hnext])
    debt := by simp [hnext']
    insertions := by simpa [hcount, hcount'] using hst.insertions
    results := by
      rw [pending_inside (by simpa using hin)]
      simpa [hpend] using hst.results
    args := ha }

/-- The sequential queue executes the call whose critical section ends. -/
theorem finish_eq (hS : Shared m g) {call : Ex1.Call n} {q : Ex1.State n} {res : Res Value}
    (hcalls : g.calls = g.done ++ [call]) (hcall : Ex1.call g.base call = some (q, res)) :
    g.finish =
      { g with
        done := g.calls
        base := q
        results := g.results ++ [⟨call.thread, call.op, res⟩]
        cur := q.store } ∧
      Ex1.run (Ex1.State.init n) g.calls =
        some (q, g.results ++ [⟨call.thread, call.op, res⟩]) := by
  have hrun := Ex1.run_snoc hS.exec hcall
  rw [← hcalls] at hrun
  exact ⟨by simp [Ghost.finish, hrun], hrun⟩

/-- Releasing the lock.  The sequential queue has executed the call of `t`; it agrees with the
memory outside the free lists, and has touched no free list but that of `t`. -/
theorem StepOk.release {raw : Option Node} {r : Ex1.State n} {res : Res Value}
    (hS : Shared m g) (hO : Own t m g l) (hin : l.pc.inside = true)
    (hcalls : g.calls = g.done ++ [⟨t, l.op, l.countIns, raw⟩])
    (hcall : Ex1.call g.base ⟨t, l.op, l.countIns, raw⟩ = some (r, res))
    (hquiet : ∃ lay, Ex1.Quiet r.store lay) (hother : Ex1.OthersFree t g.base.store r.store)
    (hheads : r.store.brk = g.cur.brk ∧ r.store.head = g.cur.head ∧ r.store.tail = g.cur.tail)
    (hlist : ∀ u, u ≠ t → r.store.freeLists u = g.cur.freeLists u)
    (hheap : ∀ p, ¬ Ex1.Free r.store t p → r.store.heap p = g.cur.heap p)
    (hins : ∀ u, u ≠ t → r.insertions u = g.base.insertions u)
    (hres : l'.pending t = [⟨t, l.op, res⟩]) (hin' : l'.pc.inside = false)
    (hout : outer t (m.setLock none) l') (ha : l'.argsOk)
    (hfreeHead : (r.store.freeLists t).head =
      if l'.pc.owesHead then l'.sentinel else (m.store.freeLists t).head)
    (hfreeSize : (r.store.freeLists t).size =
      (m.store.freeLists t).size + if l'.pc.owesSize then 1 else 0)
    (hdata : ∀ p, Ex1.Free r.store t p → (m.store.heap p).data = (r.store.heap p).data)
    (hnext : ∀ p, Ex1.Free r.store t p → (l'.pc.owesNext = true → l'.sentinel ≠ some p) →
      (m.store.heap p).next = (r.store.heap p).next)
    (hdebt : l'.pc.owesNext = true → ∃ p, l'.sentinel = some p ∧ Ex1.Free r.store t p ∧
      (r.store.heap p).next = (m.store.freeLists t).head)
    (hcount : r.insertions t =
      l'.insertions + if l'.pc.owesCount = true ∧ l'.countIns = true then 1 else 0) :
    StepOk t m g (m.setLock none) g.finish l' := by
  have hlock := hO.status.lock.mpr hin
  have hsync := hO.synced hS hin
  obtain ⟨lay, hbase⟩ := hS.quiet
  obtain ⟨lay', hr⟩ := hquiet
  obtain ⟨hfinish, hrun⟩ := finish_eq hS hcalls hcall
  rw [hfinish]
  refine ⟨?_, ⟨?_, inner_of_outside hin', hout⟩, fun u hu => ?_⟩
  · exact
    { exec := hrun
      quiet := ⟨lay', hr⟩
      unlocked := fun _ => ⟨rfl, rfl⟩
      brk := hS.brk.trans hheads.1.symm
      head := hS.head.trans hheads.2.1.symm
      tail := hS.tail.trans hheads.2.2.symm
      heap := by
        intro p hp
        rw [hheap p (hp t)]
        exact hsync.heap p fun u hu hfree => hp u ((hother u hu p).mpr hfree) }
  · exact
    { lock := by simp [hin']
      call := by simp [hin']
      freeHead := hfreeHead
      freeSize := hfreeSize
      data := hdata
      next := hnext
      debt := hdebt
      insertions := hcount
      results := by
        have hold := hO.status.results
        rw [pending_inside hin, List.append_nil] at hold
        simp [hres, hold]
      args := ha }
  -- the nodes on the free list of `u` are on no list of `t`
  · have hcur : ∀ p, Ex1.Free g.base.store u p → r.store.heap p = g.cur.heap p := fun p hp =>
      hheap p fun hfree => hu (hr.free_unique ((hother u hu p).mpr hp) hfree)
    exact
    { lock := by simp [hlock, Ne.symm hu]
      held := fun h => absurd (Option.some.inj (h.symm.trans hlock)) hu
      free := hother u hu
      list := rfl
      curList := hlist u hu
      heap := fun _ _ => rfl
      curHeap := hcur
      insertions := hins u hu
      results := by simp [List.filter_append, Ne.symm hu]
      returned := rfl }

/-- Releasing the lock when nothing is left to do. -/
theorem StepOk.releaseDone {raw : Option Node} {r : Ex1.State n} {res : Res Value}
    (hS : Shared m g) (hO : Own t m g l) (hin : l.pc.inside = true)
    (hcalls : g.calls = g.done ++ [⟨t, l.op, l.countIns, raw⟩])
    (hcall : Ex1.call g.base ⟨t, l.op, l.countIns, raw⟩ = some (r, res))
    (hstore : r.store = g.cur) (hinsertions : r.insertions = g.base.insertions)
    (hquiet : ∃ lay, Ex1.Quiet r.store lay) (hother : Ex1.OthersFree t g.base.store r.store)
    (hpc : l'.pc = .ret) (hop : l'.op = l.op) (hres : l'.res = res)
    (hins : l'.insertions = l.insertions) :
    StepOk t m g (m.setLock none) g.finish l' := by
  have hsync := hO.synced hS hin
  obtain ⟨-, -, -, hcount⟩ := Pc.settled hin
  have hinsOld : g.base.insertions t = l.insertions := by
    simpa [hcount] using hO.status.insertions
  -- a node on the free list of `t` is on no other, so `t` sees it in memory
  have hown : ∀ p, Ex1.Free r.store t p → m.store.heap p = r.store.heap p := by
    intro p hp
    obtain ⟨lay, hr⟩ := hquiet
    rw [hstore]
    exact hsync.heap p fun u hu hfree => hu (hr.free_unique ((hother u hu p).mpr hfree) hp)
  apply StepOk.release hS hO hin hcalls hcall hquiet hother
  · simp [hstore]
  · simp [hstore]
  · simp [hstore]
  · simp [hinsertions]
  · simp [Local.pending, hpc, hop, hres]
  · simp [Pc.inside, hpc]
  · simp [outer, hpc]
  · simp [Local.argsOk, hpc]
  · simp [Pc.owesHead, hpc, hstore, hsync.list]
  · simp [Pc.owesSize, hpc, hstore, hsync.list]
  · exact fun p hp => congrArg Node.data (hown p hp)
  · exact fun p hp _ => congrArg Node.next (hown p hp)
  · simp [Pc.owesNext, hpc]
  · simp [Pc.owesCount, hpc, hinsertions, hins, hinsOld]

/-! ## Outside the lock -/

/-- A store of `recycle_node`: the node and the free list belong to `t`. -/
theorem StepOk.repay (hS : Shared m g) (hin : l'.pc.inside = false)
    (hheads : q'.brk = m.store.brk ∧ q'.head = m.store.head ∧ q'.tail = m.store.tail)
    (hlist : ∀ u, u ≠ t → q'.freeLists u = m.store.freeLists u)
    (hheap : ∀ p, ¬ Ex1.Free g.base.store t p → q'.heap p = m.store.heap p)
    (hst : Status t (m.setStore q') g l') (hout : outer t (m.setStore q') l') :
    StepOk t m g (m.setStore q') g l' := by
  obtain ⟨lay, hquiet⟩ := hS.quiet
  refine ⟨?_, ⟨hst, inner_of_outside hin, hout⟩, fun u hu => ?_⟩
  · exact
    { hS with
      brk := hheads.1.trans hS.brk
      head := hheads.2.1.trans hS.head
      tail := hheads.2.2.trans hS.tail
      heap := fun p hp => (hheap p (hp t)).trans (hS.heap p hp) }
  · exact
    { Rely.refl u m g with
      list := hlist u hu
      heap := fun p hp => hheap p fun hfree => hu (hquiet.free_unique hp hfree) }

attribute [local simp] Pc.inside Pc.owesNext Pc.owesHead Pc.owesSize Pc.owesCount Local.pending
  Local.argsOk

/-! ## `upcycle_node` -/

theorem upcycleNode_ok {pc : UpcyclePc} (hS : Shared m g) (hO : Own t m g l)
    (hpc : l.pc = .upcycle pc) (h : upcycleNode t c m l pc = .next m' l') :
    StepOk t m g m' (record t c m l g) l' := by
  have hin : l.pc.inside = true := by simp [hpc]
  have hinner := hO.inner
  have hsync := hO.synced hS hin
  have hargs : l.op = .enq l.v := by simpa [hpc] using hO.status.args
  obtain ⟨lay, hquiet⟩ := hS.quiet
  cases pc with
  | loadHead =>
      have hcur : g.cur = g.base.store := by simpa [inner, hpc] using hinner
      rw [show record t c m l g = g by simp [record, hpc]]
      simp only [upcycleNode, hsync.list, hcur] at h
      split at h
      next p hhead =>
        cases h
        exact StepOk.silent hS hO hin rfl rfl rfl rfl hargs ⟨hcur, p, rfl, hhead⟩
      next hhead =>
        cases h
        exact StepOk.silent hS hO hin rfl rfl rfl rfl hargs ⟨hcur, hhead⟩
  | loadNext =>
      obtain ⟨hcur, p, hn, hhead⟩ : g.cur = g.base.store ∧
          ∃ p, l.newNode = some p ∧ (g.base.store.freeLists t).head = some p := by
        simpa [inner, hpc] using hinner
      -- the first node of the free list of `t` is on no other free list
      have hheap := hsync.heap p fun u hu hfree =>
        hu (hquiet.free_unique hfree (hquiet.free_of_head hhead))
      rw [show record t c m l g = g by simp [record, hpc]]
      simp only [upcycleNode, hn, hheap, hcur] at h
      cases h
      exact StepOk.silent hS hO hin rfl rfl rfl rfl hargs ⟨hcur, p, rfl, hhead, rfl⟩
  | storeHead =>
      obtain ⟨hcur, p, hn, hhead, hnext⟩ : g.cur = g.base.store ∧
          ∃ p, l.newNode = some p ∧ (g.base.store.freeLists t).head = some p ∧
            l.next = (g.base.store.heap p).next := by
        simpa [inner, hpc] using hinner
      rw [show record t c m l g = g.setCur (g.cur.setFreeHead t l.next) by simp [record, hpc]]
      cases h
      exact StepOk.store hS hO hin (Tandem.setFreeHead hsync l.next) rfl rfl rfl rfl hargs
        ⟨p, hn, hhead, by simp [hcur, hnext]⟩
  | loadSize =>
      obtain ⟨p, hn, hhead, hcur⟩ : ∃ p, l.newNode = some p ∧
          (g.base.store.freeLists t).head = some p ∧
          g.cur = g.base.store.setFreeHead t (g.base.store.heap p).next := by
        simpa [inner, hpc] using hinner
      have hsize : (m.store.freeLists t).size = (g.base.store.freeLists t).size := by
        simp [hsync.list, hcur]
      rw [show record t c m l g = g by simp [record, hpc]]
      simp only [upcycleNode, hsize] at h
      cases h
      exact StepOk.silent hS hO hin rfl rfl rfl rfl hargs ⟨p, hn, hhead, hcur, rfl⟩
  | storeSize =>
      obtain ⟨p, hn, hhead, hcur, hsize⟩ : ∃ p, l.newNode = some p ∧
          (g.base.store.freeLists t).head = some p ∧
          g.cur = g.base.store.setFreeHead t (g.base.store.heap p).next ∧
          l.size = (g.base.store.freeLists t).size := by
        simpa [inner, hpc] using hinner
      obtain ⟨raw, hcalls⟩ := hO.status.call hin
      rw [show record t c m l g = g.setCur (g.cur.setFreeSize t (l.size - 1)) by
        simp [record, hpc]]
      cases h
      refine StepOk.store hS hO hin (Tandem.setFreeSize hsync _) rfl rfl rfl rfl hargs ?_
      exact ⟨p, hn, raw, hcalls, by simp [Ex1.upcylceNode, hhead, hcur, hsize]⟩
  | malloc =>
      obtain ⟨hcur, hhead⟩ : g.cur = g.base.store ∧ (g.base.store.freeLists t).head = none := by
        simpa [inner, hpc] using hinner
      obtain ⟨raw₀, hcalls₀⟩ := hO.status.call hin
      -- the answer of `malloc` completes the call in `serial`
      have hcalls : (g.note (t, .malloc c.malloc)).calls =
          g.done ++ [⟨t, l.op, l.countIns, c.malloc⟩] := by
        simp [serialStep, hcalls₀]
      simp only [upcycleNode] at h
      split at h
      next raw hraw =>
        rw [show record t c m l g = (g.note (t, .malloc c.malloc)).setCur (g.cur.malloc raw) by
          simp [record, hpc, hraw]]
        cases h
        have hbrk : m.store.brk = g.base.store.brk := by rw [hsync.brk, hcur]
        refine StepOk.tandem hS hO hin (Tandem.malloc hsync (fun u _ => ?_) raw) rfl
          ⟨c.malloc, hcalls⟩ rfl hargs ?_
        · exact hbrk ▸ hquiet.not_free_brk
        · exact ⟨m.store.brk, rfl, c.malloc, hcalls, by
            simp [Ex1.upcylceNode, hhead, hraw, hcur, hbrk]⟩
      next hraw =>
        rw [show record t c m l g = g.note (t, .malloc c.malloc) by simp [record, hpc, hraw]]
        cases h
        refine StepOk.tandem hS hO hin (Tandem.refl hsync) rfl ⟨c.malloc, hcalls⟩ rfl hargs ?_
        exact ⟨hcur, c.malloc, hcalls, by simp [Ex1.upcylceNode, hhead, hraw]⟩

/-! ## `enq` -/

theorem Taken.not_free (h : Taken t g l p q) {lay : Layout n}
    (hquiet : Ex1.Quiet g.base.store lay) : ∀ u, u ≠ t → ¬ Ex1.Free g.base.store u p := by
  obtain ⟨-, raw, -, hup⟩ := h
  exact fun u hu => Ex1.upcylceNode_not_free hquiet hup hu

theorem Taken.tail (h : Taken t g l p q) : q.tail = g.base.store.tail := by
  obtain ⟨-, raw, -, hup⟩ := h
  exact Ex1.upcylceNode_tail hup

theorem enq_ok {pc : EnqPc} (hS : Shared m g) (hO : Own t m g l) (hpc : l.pc = .enq pc)
    (h : enq t m l pc = .next m' l') : StepOk t m g m' (record t c m l g) l' := by
  have hinner := hO.inner
  have hargs : l.op = .enq l.v := by simpa [hpc] using hO.status.args
  have hin : pc ≠ .lock → l.pc.inside = true := by
    intro hne
    cases pc <;> simp_all
  have hsync := fun hne => hO.synced hS (hin hne)
  obtain ⟨lay, hquiet⟩ := hS.quiet
  cases pc with
  | lock =>
      rw [show record t c m l g = g.note (t, .acquire l.op l.countIns) by simp [record, hpc]]
      simp only [enq] at h
      split at h
      next hfree =>
        cases h
        exact StepOk.acquire hS hO (.inl hpc) hfree (.upcycle .loadHead) rfl hargs id
      next => cases h
  | data =>
      obtain ⟨p, htaken⟩ : ∃ p, Taken t g l p g.cur := by simpa [inner, hpc] using hinner
      have hn := htaken.1
      rw [show record t c m l g = g.setCur (g.cur.setData p l.v) by simp [record, hpc, hn]]
      simp only [enq, hn] at h
      cases h
      exact StepOk.store hS hO (hin (by simp))
        (Tandem.setData (hsync (by simp)) (htaken.not_free hquiet) l.v) rfl rfl rfl rfl hargs
        ⟨p, g.cur, htaken, rfl⟩
  | next =>
      obtain ⟨p, q, htaken, hcur⟩ : ∃ p q, Taken t g l p q ∧ g.cur = q.setData p l.v := by
        simpa [inner, hpc] using hinner
      have hn := htaken.1
      rw [show record t c m l g = g.setCur (g.cur.setNext p none) by simp [record, hpc, hn]]
      simp only [enq, hn] at h
      cases h
      exact StepOk.store hS hO (hin (by simp))
        (Tandem.setNext (hsync (by simp)) (htaken.not_free hquiet) none) rfl rfl rfl rfl hargs
        ⟨p, q, htaken, congrArg (Store.setNext · p none) hcur⟩
  | loadTail =>
      obtain ⟨p, q, htaken, hcur⟩ : ∃ p q, Taken t g l p q ∧
          g.cur = (q.setData p l.v).setNext p none := by
        simpa [inner, hpc] using hinner
      have htail : m.store.tail = q.tail := by rw [(hsync (by simp)).tail, hcur]; rfl
      rw [show record t c m l g = g by simp [record, hpc]]
      cases h
      exact StepOk.silent hS hO (hin (by simp)) rfl rfl rfl rfl hargs ⟨p, q, htaken, hcur, htail⟩
  | link =>
      obtain ⟨p, q, htaken, hcur, htail⟩ : ∃ p q, Taken t g l p q ∧
          g.cur = (q.setData p l.v).setNext p none ∧ l.tail = q.tail := by
        simpa [inner, hpc] using hinner
      simp only [enq] at h
      split at h
      next last hlast =>
        have hlast' : g.base.store.tail = some last := by
          rw [← htaken.tail, ← htail, hlast]
        rw [show record t c m l g = g.setCur (g.cur.setNext last l.newNode) by
          simp [record, hpc, hlast]]
        cases h
        refine StepOk.store hS hO (hin (by simp))
          (Tandem.setNext (hsync (by simp)) (fun _ _ => hquiet.not_free_tail hlast') _)
          rfl rfl rfl rfl hargs ⟨p, q, last, htaken, htail ▸ hlast, ?_⟩
        simp [hcur, htaken.1]
      next => cases h
  | storeTail =>
      obtain ⟨p, q, last, htaken, hlast, hcur⟩ : ∃ p q last, Taken t g l p q ∧
          q.tail = some last ∧
          g.cur = ((q.setData p l.v).setNext p none).setNext last (some p) := by
        simpa [inner, hpc] using hinner
      rw [show record t c m l g = g.setCur (g.cur.setTail l.newNode) by simp [record, hpc]]
      cases h
      refine StepOk.store hS hO (hin (by simp)) (Tandem.setTail (hsync (by simp)) _)
        rfl rfl rfl rfl hargs ⟨p, q, htaken, ?_⟩
      simp [Ex1.append, hlast, hcur, htaken.1]
  | unlock =>
      obtain ⟨p, q, ⟨-, raw, hcalls, hup⟩, happend⟩ : ∃ p q, Taken t g l p q ∧
          Ex1.append q l.v p = some g.cur := by
        simpa [inner, hpc] using hinner
      have henq : Ex1.enq l.v g.base t raw = some (1, g.base.setStore g.cur) := by
        simp [Ex1.enq, hup, happend]
      have hcall : Ex1.call g.base ⟨t, l.op, l.countIns, raw⟩ =
          some (g.base.setStore g.cur, .enq 1) := by
        simp [Ex1.call, hargs, henq]
      -- the sequential `enq` does the stores of the critical section, and so ends where `cur` is
      obtain ⟨code, r, lay', henq', hquiet', hother, -⟩ := Ex1.enq_ok hquiet l.v t raw
      obtain ⟨rfl, rfl⟩ : 1 = code ∧ g.base.setStore g.cur = r := by
        simpa using henq.symm.trans henq'
      rw [show record t c m l g = g.finish by simp [record, hpc]]
      cases h
      exact StepOk.releaseDone hS hO (hin (by simp)) hcalls hcall rfl rfl ⟨lay', hquiet'⟩ hother
        rfl rfl (by simp [Local.res, hargs]) rfl
  | unlockFail =>
      obtain ⟨hcur, raw, hcalls, hup⟩ : g.cur = g.base.store ∧ ∃ raw,
          g.calls = g.done ++ [⟨t, l.op, l.countIns, raw⟩] ∧
          Ex1.upcylceNode g.base.store t raw = (none, g.base.store) := by
        simpa [inner, hpc] using hinner
      have hcall : Ex1.call g.base ⟨t, l.op, l.countIns, raw⟩ = some (g.base, .enq 0) := by
        simp [Ex1.call, hargs, Ex1.enq, hup, Ex1.State.setStore]
      rw [show record t c m l g = g.finish by simp [record, hpc]]
      cases h
      exact StepOk.releaseDone hS hO (hin (by simp)) hcalls hcall hcur.symm rfl ⟨lay, hquiet⟩
        (fun _ _ _ => Iff.rfl) rfl rfl (by simp [Local.res, hargs]) rfl

/-! ## `deq` -/

/-- Releasing the lock with the sentinel detached: the sequential queue has recycled it already. -/
theorem StepOk.releaseDebt {a : Addr} (hS : Shared m g) (hO : Own t m g l)
    (hpc : l.pc = .deq .unlock) (hfront : Front g l p a)
    (hout : l.out = (g.base.store.heap a).data)
    (hcur : g.cur = g.base.store.setHead (some a)) :
    StepOk t m g (m.setLock none) g.finish (l.goto (.recycle .loadHead)) := by
  have hin : l.pc.inside = true := by simp [hpc]
  have hsync := hO.synced hS hin
  obtain ⟨out, hargs⟩ : ∃ out, l.op = .deq out := by simpa [hpc] using hO.status.args
  obtain ⟨raw, hcalls⟩ := hO.status.call hin
  obtain ⟨hhead, hnext, hsent⟩ := hfront
  obtain ⟨lay, hquiet⟩ := hS.quiet
  obtain ⟨r, lay', hdeq, hquiet', hstore, hins, hother, hfree⟩ :=
    Ex1.deq_some hquiet hhead hnext out t l.countIns
  rw [← hcur] at hstore
  have hcall : Ex1.call g.base ⟨t, l.op, l.countIns, raw⟩ = some (r, .deq 1 l.out) := by
    simp [Ex1.call, hargs, hdeq, hout]
  have hpfree : Ex1.Free r.store t p := (hfree p).mpr (.inl rfl)
  -- recycling changes the sentinel only
  have heap_ne : ∀ x, x ≠ p → r.store.heap x = g.cur.heap x := by
    intro x hx
    simp [hstore, Ex1.recycle, Function.update_of_ne hx]
  -- the memory has not seen the recycling yet
  have heap_old : ∀ x, Ex1.Free r.store t x → m.store.heap x = g.cur.heap x := fun x hx =>
    hsync.heap x fun u hu hux => hu (hquiet'.free_unique ((hother u hu x).mpr hux) hx)
  apply StepOk.release hS hO hin hcalls hcall ⟨lay', hquiet'⟩ hother
  · simp [hstore, Ex1.recycle]
  · intro u hu
    simp [hstore, Ex1.recycle, Function.update_of_ne hu]
  · exact fun x hx => heap_ne x fun he => hx (he ▸ hpfree)
  · intro u hu
    simp [hins, Function.update_of_ne hu]
  · simp
  · simp
  · simp [outer]
  · simpa using ⟨out, hargs⟩
  · simp [hstore, Ex1.recycle, hsent]
  · simp [hstore, Ex1.recycle, hsync.list]
  · intro x hx
    rw [heap_old x hx]
    by_cases hxp : x = p
    · simp [hstore, Ex1.recycle, hxp]
    · rw [heap_ne x hxp]
  · intro x hx hne
    have hxp : x ≠ p := fun he => hne rfl (he ▸ hsent)
    rw [heap_old x hx, heap_ne x hxp]
  · exact fun _ => ⟨p, hsent, hpfree, by simp [hstore, Ex1.recycle, hsync.list]⟩
  · have hold : g.base.insertions t = l.insertions := by simpa [hpc] using hO.status.insertions
    simp [hins, hold]

theorem deq_ok {pc : DeqPc} (hS : Shared m g) (hO : Own t m g l) (hpc : l.pc = .deq pc)
    (h : deq t m l pc = .next m' l') : StepOk t m g m' (record t c m l g) l' := by
  have hinner := hO.inner
  have hargs := hO.status.args
  simp only [Local.argsOk, hpc] at hargs
  have hin : pc ≠ .lock → l.pc.inside = true := by
    intro hne
    cases pc <;> simp_all
  have hsync := fun hne => hO.synced hS (hin hne)
  obtain ⟨lay, hquiet⟩ := hS.quiet
  -- the sentinel and its successor are on no free list
  have heap_head : ∀ {p}, pc ≠ .lock → g.base.store.head = some p →
      m.store.heap p = g.cur.heap p := fun hne hhead =>
    (hsync hne).heap _ fun _ _ => hquiet.not_free_head hhead
  have heap_next : ∀ {p a}, pc ≠ .lock → g.base.store.head = some p →
      (g.base.store.heap p).next = some a → m.store.heap a = g.cur.heap a :=
    fun hne hhead hnext => (hsync hne).heap _ fun _ _ => hquiet.not_free_next hhead hnext
  cases pc with
  | lock =>
      rw [show record t c m l g = g.note (t, .acquire l.op l.countIns) by simp [record, hpc]]
      simp only [deq] at h
      split at h
      next hfree =>
        cases h
        exact StepOk.acquire hS hO (.inr hpc) hfree (.deq .loadHead) rfl hargs id
      next => cases h
  | loadHead =>
      have hcur : g.cur = g.base.store := by simpa [inner, hpc] using hinner
      rw [show record t c m l g = g by simp [record, hpc]]
      cases h
      exact StepOk.silent hS hO (hin (by simp)) rfl rfl rfl rfl hargs
        ⟨hcur, by rw [(hsync (by simp)).head, hcur]⟩
  | testNext =>
      obtain ⟨hcur, hhead⟩ : g.cur = g.base.store ∧ l.head = g.base.store.head := by
        simpa [inner, hpc] using hinner
      rw [show record t c m l g = g by simp [record, hpc]]
      simp only [deq] at h
      split at h
      next p hp =>
        rw [hp] at hhead
        rw [heap_head (by simp) hhead.symm, hcur] at h
        split at h
        next hnext =>
          cases h
          exact StepOk.silent hS hO (hin (by simp)) rfl rfl rfl rfl hargs
            ⟨hcur, p, hhead.symm, hnext⟩
        next hnext =>
          cases h
          -- the sentinel keeps its successor as long as the lock is held
          obtain ⟨a, ha⟩ := Option.ne_none_iff_exists'.mp hnext
          exact StepOk.silent hS hO (hin (by simp)) rfl rfl rfl rfl ⟨_, hargs⟩
            ⟨hcur, p, a, hhead.symm, ha⟩
      next => cases h
  | loadSentinel =>
      obtain ⟨hcur, p, a, hhead, hnext⟩ : g.cur = g.base.store ∧
          ∃ p a, g.base.store.head = some p ∧ (g.base.store.heap p).next = some a := by
        simpa [inner, hpc] using hinner
      rw [show record t c m l g = g by simp [record, hpc]]
      cases h
      exact StepOk.silent hS hO (hin (by simp)) rfl rfl rfl rfl hargs
        ⟨hcur, p, a, hhead, hnext, by rw [(hsync (by simp)).head, hcur, hhead]⟩
  | loadFirst =>
      obtain ⟨hcur, p, a, hfront⟩ : g.cur = g.base.store ∧ ∃ p a, Front g l p a := by
        simpa [inner, hpc] using hinner
      rw [show record t c m l g = g by simp [record, hpc]]
      simp only [deq, hfront.2.2, heap_head (by simp) hfront.1, hcur, hfront.2.1] at h
      cases h
      exact StepOk.silent hS hO (hin (by simp)) rfl rfl rfl rfl hargs
        ⟨hcur, p, a, ⟨hfront.1, hfront.2.1, rfl⟩, rfl⟩
  | loadData =>
      obtain ⟨hcur, p, a, hfront, hn⟩ : g.cur = g.base.store ∧
          ∃ p a, Front g l p a ∧ l.next = some a := by
        simpa [inner, hpc] using hinner
      rw [show record t c m l g = g by simp [record, hpc]]
      simp only [deq, hn, heap_next (by simp) hfront.1 hfront.2.1, hcur] at h
      cases h
      exact StepOk.silent hS hO (hin (by simp)) rfl rfl rfl rfl hargs ⟨hcur, p, a, hfront, rfl⟩
  | writeOut =>
      obtain ⟨hcur, p, a, hfront, hval⟩ : g.cur = g.base.store ∧
          ∃ p a, Front g l p a ∧ l.val = (g.base.store.heap a).data := by
        simpa [inner, hpc] using hinner
      rw [show record t c m l g = g by simp [record, hpc]]
      cases h
      exact StepOk.silent hS hO (hin (by simp)) rfl rfl rfl rfl hargs ⟨hcur, p, a, hfront, hval⟩
  | loadNext =>
      obtain ⟨hcur, p, a, hfront, hout⟩ : g.cur = g.base.store ∧
          ∃ p a, Front g l p a ∧ l.out = (g.base.store.heap a).data := by
        simpa [inner, hpc] using hinner
      rw [show record t c m l g = g by simp [record, hpc]]
      simp only [deq, hfront.2.2, heap_head (by simp) hfront.1, hcur, hfront.2.1] at h
      cases h
      exact StepOk.silent hS hO (hin (by simp)) rfl rfl rfl rfl hargs
        ⟨hcur, p, a, ⟨hfront.1, hfront.2.1, rfl⟩, hout, rfl⟩
  | storeHead =>
      obtain ⟨hcur, p, a, hfront, hout, hn⟩ : g.cur = g.base.store ∧
          ∃ p a, Front g l p a ∧ l.out = (g.base.store.heap a).data ∧ l.next = some a := by
        simpa [inner, hpc] using hinner
      rw [show record t c m l g = g.setCur (g.cur.setHead l.next) by simp [record, hpc]]
      cases h
      exact StepOk.store hS hO (hin (by simp)) (Tandem.setHead (hsync (by simp)) l.next)
        rfl rfl rfl rfl hargs ⟨p, a, hfront, hout, by rw [hn, hcur]; rfl⟩
  | loadTail =>
      obtain ⟨p, a, hfront, hout, hcur⟩ : ∃ p a, Front g l p a ∧
          l.out = (g.base.store.heap a).data ∧ g.cur = g.base.store.setHead (some a) := by
        simpa [inner, hpc] using hinner
      rw [show record t c m l g = g by simp [record, hpc]]
      cases h
      exact StepOk.silent hS hO (hin (by simp)) rfl rfl rfl rfl hargs
        ⟨p, a, hfront, hout, hcur, by rw [(hsync (by simp)).tail, hcur]; rfl⟩
  | testTail =>
      obtain ⟨p, a, hfront, hout, hcur, htail⟩ : ∃ p a, Front g l p a ∧
          l.out = (g.base.store.heap a).data ∧ g.cur = g.base.store.setHead (some a) ∧
          l.tail = g.base.store.tail := by
        simpa [inner, hpc] using hinner
      have hnext : (m.store.heap p).next = some a := by
        rw [heap_head (by simp) hfront.1, hcur]
        exact hfront.2.1
      rw [show record t c m l g = g by simp [record, hpc]]
      simp only [deq, hfront.2.2, hnext] at h
      split at h
      next heq =>
        cases h
        exact StepOk.silent hS hO (hin (by simp)) rfl rfl rfl rfl hargs
          ⟨p, a, hfront, hout, hcur, htail ▸ heq⟩
      next =>
        cases h
        exact StepOk.silent hS hO (hin (by simp)) rfl rfl rfl rfl hargs ⟨p, a, hfront, hout, hcur⟩
  | loadHeadTail =>
      obtain ⟨p, a, hfront, hout, hcur, htail⟩ : ∃ p a, Front g l p a ∧
          l.out = (g.base.store.heap a).data ∧ g.cur = g.base.store.setHead (some a) ∧
          g.base.store.tail = some a := by
        simpa [inner, hpc] using hinner
      rw [show record t c m l g = g by simp [record, hpc]]
      cases h
      exact StepOk.silent hS hO (hin (by simp)) rfl rfl rfl rfl hargs
        ⟨p, a, hfront, hout, hcur, htail, by rw [(hsync (by simp)).head, hcur]; rfl⟩
  | storeTail =>
      obtain ⟨p, a, hfront, hout, hcur, htail, hhead⟩ : ∃ p a, Front g l p a ∧
          l.out = (g.base.store.heap a).data ∧ g.cur = g.base.store.setHead (some a) ∧
          g.base.store.tail = some a ∧ l.head = some a := by
        simpa [inner, hpc] using hinner
      rw [show record t c m l g = g.setCur (g.cur.setTail l.head) by simp [record, hpc]]
      cases h
      -- the store writes back what `tail` holds
      exact StepOk.store hS hO (hin (by simp)) (Tandem.setTail (hsync (by simp)) l.head)
        rfl rfl rfl rfl hargs ⟨p, a, hfront, hout, by
          simp [hcur, hhead, Store.setTail, Store.setHead, htail]⟩
  | unlock =>
      obtain ⟨p, a, hfront, hout, hcur⟩ : ∃ p a, Front g l p a ∧
          l.out = (g.base.store.heap a).data ∧ g.cur = g.base.store.setHead (some a) := by
        simpa [inner, hpc] using hinner
      rw [show record t c m l g = g.finish by simp [record, hpc]]
      cases h
      exact StepOk.releaseDebt hS hO hpc hfront hout hcur
  | unlockEmpty =>
      obtain ⟨hcur, p, hhead, hnext⟩ : g.cur = g.base.store ∧
          ∃ p, g.base.store.head = some p ∧ (g.base.store.heap p).next = none := by
        simpa [inner, hpc] using hinner
      obtain ⟨raw, hcalls⟩ := hO.status.call (hin (by simp))
      have hcall : Ex1.call g.base ⟨t, l.op, l.countIns, raw⟩ = some (g.base, .deq 0 l.out) := by
        simp [Ex1.call, hargs, Ex1.deq_none hhead hnext]
      rw [show record t c m l g = g.finish by simp [record, hpc]]
      cases h
      exact StepOk.releaseDone hS hO (hin (by simp)) hcalls hcall hcur.symm rfl ⟨lay, hquiet⟩
        (fun _ _ _ => Iff.rfl) rfl rfl (by simp [Local.res, hargs]) rfl

/-! ## `recycle_node` -/

/-- Inside `recycle_node` only the debt changes. -/
theorem Status.recycling {pc pc' : RecyclePc} (h : Status t m g l) (hpc : l.pc = .recycle pc)
    (hpc' : l'.pc = .recycle pc') (hargs : l'.op = l.op ∧ l'.countIns = l.countIns)
    (hvals : l'.insertions = l.insertions ∧ l'.out = l.out)
    (freeHead : (g.cur.freeLists t).head =
      if l'.pc.owesHead then l'.sentinel else (q'.freeLists t).head)
    (freeSize : (g.cur.freeLists t).size =
      (q'.freeLists t).size + if l'.pc.owesSize then 1 else 0)
    (data : ∀ p, Ex1.Free g.base.store t p → (q'.heap p).data = (g.cur.heap p).data)
    (next : ∀ p, Ex1.Free g.base.store t p → (l'.pc.owesNext = true → l'.sentinel ≠ some p) →
      (q'.heap p).next = (g.cur.heap p).next)
    (debt : l'.pc.owesNext = true → ∃ p, l'.sentinel = some p ∧ Ex1.Free g.base.store t p ∧
      (g.cur.heap p).next = (q'.freeLists t).head) : Status t (m.setStore q') g l' where
  lock := by simpa [hpc, hpc'] using h.lock
  call := by simp [hpc']
  freeHead := freeHead
  freeSize := freeSize
  data := data
  next := next
  debt := debt
  insertions := by simpa [hpc, hpc', hargs.2, hvals.1] using h.insertions
  results := by simpa [hpc, hpc', hargs.1, hvals.2] using h.results
  args := by simpa [hpc, hpc', hargs.1] using h.args

theorem recycleNode_ok {pc : RecyclePc} (hS : Shared m g) (hO : Own t m g l)
    (hpc : l.pc = .recycle pc) (h : recycleNode t m l pc = .next m' l') :
    StepOk t m g m' (record t c m l g) l' := by
  have hst := hO.status
  have hfreeHead := hst.freeHead
  have hfreeSize := hst.freeSize
  have hnext := hst.next
  rw [show record t c m l g = g by simp [record, hpc]]
  cases pc with
  | loadHead =>
      cases h
      refine StepOk.repay hS (by simp) (by simp) (by simp) (by simp) ?_ (by simp [outer])
      exact hst.recycling hpc rfl ⟨rfl, rfl⟩ ⟨rfl, rfl⟩ (by simpa [hpc] using hfreeHead)
        (by simpa [hpc] using hfreeSize) hst.data (by simpa [hpc] using hnext)
        (by simpa [hpc] using hst.debt)
  | storeNext =>
      obtain ⟨p, hsent, hfree, hdebt⟩ := hst.debt (by simp [hpc])
      have hhead : l.head = (m.store.freeLists t).head := by
        simpa [outer, hpc] using hO.outer
      simp only [recycleNode, hsent] at h
      cases h
      refine StepOk.repay hS (by simp) (by simp) (by simp) (fun x hx => ?_) ?_ (by simp [outer])
      · have hxp : x ≠ p := fun he => hx (he ▸ hfree)
        exact Function.update_of_ne hxp _ _
      refine hst.recycling hpc rfl ⟨rfl, rfl⟩ ⟨rfl, rfl⟩ (by simpa [hpc] using hfreeHead)
        (by simpa [hpc] using hfreeSize) (fun x hx => ?_) (fun x hx _ => ?_) (by simp)
      -- the store changes `next` of the sentinel and no `data`
      · by_cases hxp : x = p
        · subst hxp
          simpa using hst.data x hx
        · simpa [Function.update_of_ne hxp] using hst.data x hx
      -- the debt is paid: `next` is what the sequential queue has written
      · by_cases hxp : x = p
        · simp [hxp, hhead, hdebt]
        · have hne : l.sentinel ≠ some x := fun he => hxp (Option.some.inj (he.symm.trans hsent))
          simpa [Function.update_of_ne hxp] using hnext x hx fun _ => hne
  | storeHead =>
      cases h
      refine StepOk.repay hS (by simp) (by simp) (fun u hu => ?_) (by simp) ?_ (by simp [outer])
      · exact Function.update_of_ne hu _ _
      exact hst.recycling hpc rfl ⟨rfl, rfl⟩ ⟨rfl, rfl⟩ (by simpa [hpc] using hfreeHead)
        (by simpa [hpc] using hfreeSize) hst.data (by simpa [hpc] using hnext) (by simp)
  | loadSize =>
      cases h
      refine StepOk.repay hS (by simp) (by simp) (by simp) (by simp) ?_ (by simp [outer])
      exact hst.recycling hpc rfl ⟨rfl, rfl⟩ ⟨rfl, rfl⟩ (by simpa [hpc] using hfreeHead)
        (by simpa [hpc] using hfreeSize) hst.data (by simpa [hpc] using hnext) (by simp)
  | storeSize =>
      have hsize : l.size = (m.store.freeLists t).size := by simpa [outer, hpc] using hO.outer
      cases h
      refine StepOk.repay hS (by simp) (by simp) (fun u hu => ?_) (by simp) ?_ (by simp [outer])
      · exact Function.update_of_ne hu _ _
      exact hst.recycling hpc rfl ⟨rfl, rfl⟩ ⟨rfl, rfl⟩ (by simpa [hpc] using hfreeHead)
        (by simpa [hpc, hsize] using hfreeSize) hst.data (by simpa [hpc] using hnext) (by simp)
  | count =>
      obtain ⟨out, hop⟩ : ∃ out, l.op = .deq out := by simpa [hpc] using hst.args
      have hins := hst.insertions
      have hres := hst.results
      cases h
      refine StepOk.repay hS (by simp) (by simp) (by simp) (by simp) ?_ (by simp [outer])
      exact
      { lock := by simpa [hpc] using hst.lock
        call := by simp
        freeHead := by simpa [hpc] using hfreeHead
        freeSize := by simpa [hpc] using hfreeSize
        data := hst.data
        next := by simpa [hpc] using hnext
        debt := by simp
        insertions := by simpa [hpc] using hins
        results := by simpa [hpc, hop, Local.res] using hres
        args := by simp }

/-! ## Calls and returns -/

theorem call_ok (hS : Shared m g) (hO : Own t m g l) (hpc : l.pc = .idle) :
    StepOk t m g m g (l.call c) := by
  have hst := hO.status
  have hlock := hst.lock
  have hfreeHead := hst.freeHead
  have hfreeSize := hst.freeSize
  have hins := hst.insertions
  have hres := hst.results
  obtain ⟨op, countIns, raw⟩ := c
  refine ⟨hS, ?_, fun u _ => Rely.refl u m g⟩
  cases op <;>
    exact
    { status :=
        { lock := by simpa [Local.call, hpc] using hlock
          call := by simp [Local.call]
          freeHead := by simpa [Local.call, hpc] using hfreeHead
          freeSize := by simpa [Local.call, hpc] using hfreeSize
          data := hst.data
          next := by simpa [Local.call, hpc] using hst.next
          debt := by simp [Local.call]
          insertions := by simpa [Local.call, hpc] using hins
          results := by simpa [Local.call, hpc] using hres
          args := by simp [Local.call] }
      inner := inner_of_outside (by simp [Local.call])
      outer := by simp [outer, Local.call] }

theorem ret_ok (hS : Shared m g) (hO : Own t m g l) (hpc : l.pc = .ret) :
    StepOk t m g m (g.giveBack t ⟨t, l.op, l.res⟩) (l.goto .idle) := by
  have hst := hO.status
  have hlock := hst.lock
  have hfreeHead := hst.freeHead
  have hfreeSize := hst.freeSize
  have hins := hst.insertions
  have hres := hst.results
  refine ⟨{ hS with }, ⟨?_, inner_of_outside (by simp), by simp [outer]⟩, fun u hu =>
    { Rely.refl u m g with
      held := fun _ => ⟨_, rfl⟩
      returned := Function.update_of_ne hu _ _ }⟩
  exact
  { lock := by simpa [hpc] using hlock
    call := by simp
    freeHead := by simpa [hpc] using hfreeHead
    freeSize := by simpa [hpc] using hfreeSize
    data := hst.data
    next := by simpa [hpc] using hst.next
    debt := by simp
    insertions := by simpa [hpc] using hins
    results := by simpa [hpc] using hres
    args := by simp }

/-! ## Runs -/

theorem step_ok (hS : Shared m g) (hO : Own t m g l) (h : step t c m l = .next m' l') :
    StepOk t m g m' (record t c m l g) l' := by
  unfold step at h
  split at h
  next hpc =>
    rw [show record t c m l g = g by simp [record, hpc]]
    cases h
    exact call_ok hS hO hpc
  next pc hpc => exact upcycleNode_ok hS hO hpc h
  next pc hpc => exact enq_ok hS hO hpc h
  next pc hpc => exact deq_ok hS hO hpc h
  next pc hpc => exact recycleNode_ok hS hO hpc h
  next hpc =>
    rw [show record t c m l g = g.giveBack t ⟨t, l.op, l.res⟩ by simp [record, hpc]]
    cases h
    exact ret_ok hS hO hpc

abbrev State (n : Nat) := Config (Fin n) (Mem n) Local

/-- The rely–guarantee proof of Ex2. -/
def guarantee (n : Nat) : RelyGuarantee (withHistory (step (n := n)) record) where
  Shared mg := Shared mg.1 mg.2
  Own t mg l := Own t mg.1 mg.2 l
  Rely t mg mg' := Rely t mg.1 mg.2 mg'.1 mg'.2
  step := by
    intro t c mg l mg' l' hS hO h
    obtain ⟨hstep, hg⟩ := withHistory_next.mp h
    have hok := step_ok hS hO hstep
    rw [hg]
    exact ⟨hok.shared, hok.own, hok.rely⟩
  stable := fun _ h hr => h.stable hr

/-- The invariant of Ex2, with the sequential run beside the state. -/
structure Inv (s : State n) (g : Ghost n) : Prop where
  shared : Shared s.mem g
  own : ∀ t, Own t s.mem g (s.th t)

theorem inv_iff {s : State n} : Inv s g ↔ (guarantee n).Inv (s.withHistory g) :=
  ⟨fun h => ⟨h.shared, h.own⟩, fun h => ⟨h.shared, h.own⟩⟩

theorem inv_init (n : Nat) : Inv (init n) (Ghost.init n) where
  shared :=
    { exec := rfl
      quiet := ⟨_, Ex1.quiet_init⟩
      unlocked := fun _ => ⟨rfl, rfl⟩
      brk := rfl
      head := rfl
      tail := rfl
      heap := fun _ _ => rfl }
  own := fun _ =>
    { status :=
        { lock := by simp [init, Mem.init, Local.init]
          call := by simp [init, Local.init]
          freeHead := rfl
          freeSize := rfl
          data := fun _ _ => rfl
          next := fun _ _ _ => rfl
          debt := by simp [init, Local.init]
          insertions := rfl
          results := rfl
          args := trivial }
      inner := trivial
      outer := trivial }

theorem Inv.fire {s s' : State n} {e : Fin n × Choice} (h : Inv s g)
    (hf : fire step s e = some s') : Inv s' (record e.1 e.2 s.mem (s.th e.1) g) :=
  inv_iff.mpr ((inv_iff.mp h).fire (fire_withHistory record g hf))

end ConcurrentQueues.Ex2
