import ConcurrentQueues.Ex5.Effects

/-!
# Ex5 — the grace period of `mm_wait_until_unreserved`

The call on its own: its memory is arbitrary, and all that is known of the other threads is that
they increment their counters, in `mm_op_begin` and `mm_op_end`.
-/

namespace ConcurrentQueues.Ex5

open Reasoning

variable {n : Nat} {tid u : Fin n} {m m' : Mem n} {l l' : Local}
  {s s' v : Config (Fin n) (Mem n) Local} {es : List (Fin n × Unit)}

/-- Thread `tid` executes `mm_wait_until_unreserved` until it returns; every step of another thread
is the `atomic_fetch_add` of its `mm_op_begin` or `mm_op_end`. -/
def scanning (tid : Fin n) : Program (Fin n) Unit (Mem n) Local := fun u _ m l =>
  if u = tid then
    match l.pc with
    | .wait pc => mmWaitUntilUnreserved tid m l pc
    | _ => .blocked
  else .next (m.fetchAdd u) l

/-- `mm_wait_until_unreserved(Q, tid)` is entered. -/
structure Entered (tid : Fin n) (s : Config (Fin n) (Mem n) Local) : Prop where
  pc : (s.th tid).pc = .wait .load
  scan : (s.th tid).scan = 0

/-- The step in which `u` moves its counter on from the value it had in `s`. -/
def Closes (s : Config (Fin n) (Mem n) Local) (u : Fin n) (e : Fin n × Unit)
    (a b : Config (Fin n) (Mem n) Local) : Prop :=
  e.1 = u ∧ a.mem.ctr u = s.mem.ctr u ∧ b.mem.ctr u = s.mem.ctr u + 1

/-! ## The loop -/

/-- The invariant of the scan.  `D u` says that `u` has left the value `ctr₀ u` behind; what the
scan has seen of its present thread is that value, or a later one. -/
def Visited (tid : Fin n) (ctr₀ : Fin n → UInt64) (D : Fin n → Prop) (l : Local) : Prop :=
  match l.pc with
  | .wait .load => ∀ u, u ≠ tid → u.val < l.scan → isOdd (ctr₀ u) = true → D u
  | .wait .spin =>
      (∀ u, u ≠ tid → u.val < l.scan → isOdd (ctr₀ u) = true → D u) ∧
        ∃ h : l.scan < n, l.seen = ctr₀ ⟨l.scan, h⟩ ∨ D ⟨l.scan, h⟩
  | .reclaim .load => ∀ u, u ≠ tid → isOdd (ctr₀ u) = true → D u
  | _ => False

theorem Visited.mono {ctr₀ : Fin n → UInt64} {D D' : Fin n → Prop} (h : Visited tid ctr₀ D l)
    (hD : ∀ u, D u → D' u) : Visited tid ctr₀ D' l := by
  unfold Visited at h ⊢
  split
  next hpc =>
    simp only [hpc] at h
    exact fun u hu hlt hodd => hD u (h u hu hlt hodd)
  next hpc =>
    simp only [hpc] at h
    obtain ⟨hpast, hlt, hseen⟩ := h
    exact ⟨fun u hu hlt hodd => hD u (hpast u hu hlt hodd), hlt, hseen.imp_right (hD _)⟩
  next hpc =>
    simp only [hpc] at h
    exact fun u hu hodd => hD u (h u hu hodd)
  next h₁ h₂ h₃ =>
    split at h
    next hpc => exact h₁ hpc
    next hpc => exact h₂ hpc
    next hpc => exact h₃ hpc
    next => exact h

/-- The scan goes on to the next thread. -/
theorem past_succ {P : Fin n → Prop} {k : Nat} (hlt : k < n)
    (h : ∀ u, u ≠ tid → u.val < k → P u) (hk : (⟨k, hlt⟩ : Fin n) ≠ tid → P ⟨k, hlt⟩) :
    ∀ u, u ≠ tid → u.val < k + 1 → P u := by
  intro u hu huk
  rcases Nat.lt_succ_iff_lt_or_eq.mp huk with hlt' | heq
  · exact h u hu hlt'
  · obtain rfl : u = ⟨k, hlt⟩ := Fin.ext heq
    exact hk hu

/-- **One step of the scan.** -/
theorem visited_step {ctr₀ : Fin n → UInt64} {D : Fin n → Prop} {pc : WaitPc}
    (hctr : ∀ u, u ≠ tid → m.ctr u = ctr₀ u ∨ D u) (hv : Visited tid ctr₀ D l)
    (hpc : l.pc = .wait pc) (h : mmWaitUntilUnreserved tid m l pc = .next m' l') :
    m' = m ∧ Visited tid ctr₀ D l' := by
  unfold Visited at hv
  cases pc with
  | load =>
      simp only [hpc] at hv
      simp only [mmWaitUntilUnreserved] at h
      split at h
      next hlt =>
        have hnext := past_succ hlt (P := fun u => isOdd (ctr₀ u) = true → D u) hv
        split at h
        next htid =>
          cases h
          refine ⟨rfl, ?_⟩
          simp only [Visited, hpc]
          exact hnext fun hne => absurd htid hne
        next htid =>
          split at h
          next hodd =>
            -- the thread is inside an operation, of which the value is captured
            cases h
            refine ⟨rfl, hv, hlt, ?_⟩
            exact hctr _ htid
          next heven =>
            cases h
            refine ⟨rfl, ?_⟩
            simp only [Visited, hpc]
            refine hnext fun hne hodd => (hctr _ hne).resolve_left fun heq => ?_
            rw [heq] at heven
            exact heven hodd
      next hlt =>
        cases h
        refine ⟨rfl, fun u hu hodd => hv u hu ?_ hodd⟩
        omega
  | spin =>
      simp only [hpc] at hv
      obtain ⟨hpast, hlt, hseen⟩ := hv
      simp only [mmWaitUntilUnreserved, hlt, dif_pos] at h
      split at h
      next hsame =>
        cases h
        refine ⟨rfl, ?_⟩
        simp only [Visited, hpc]
        exact ⟨hpast, hlt, hseen⟩
      next hmoved =>
        cases h
        refine ⟨rfl, ?_⟩
        have hnext := past_succ hlt (P := fun u => isOdd (ctr₀ u) = true → D u) hpast
        refine hnext fun hne _ => ?_
        -- the counter has left the captured value, which it had at the beginning if not later
        rcases hseen with hseen | hdone
        · exact (hctr _ hne).resolve_left fun heq => hmoved (heq.trans hseen.symm)
        · exact hdone

theorem scanning_other (hu : u ≠ tid) : scanning tid u () m l = .next (m.fetchAdd u) l :=
  if_neg hu

theorem scanning_next (h : scanning tid tid () m l = .next m' l') :
    ∃ pc, l.pc = .wait pc ∧ mmWaitUntilUnreserved tid m l pc = .next m' l' := by
  rw [scanning, if_pos rfl] at h
  split at h
  next pc hpc => exact ⟨pc, hpc, h⟩
  next => cases h

/-- The counters and the scan after a run. -/
structure MovedOn (tid : Fin n) (s : Config (Fin n) (Mem n) Local) (es : List (Fin n × Unit))
    (v : Config (Fin n) (Mem n) Local) : Prop where
  ctr : ∀ u, u ≠ tid → v.mem.ctr u = s.mem.ctr u ∨ SomeStep (scanning tid) s es (Closes s u)
  visited : Visited tid s.mem.ctr (fun u => SomeStep (scanning tid) s es (Closes s u)) (v.th tid)

theorem movedOn (hs : Entered tid s) (h : run (scanning tid) s es = some s') :
    MovedOn tid s es s' := by
  refine run_induction (motive := fun es v => MovedOn tid s es v) ⟨fun _ _ => .inl rfl, ?_⟩ ?_
    es s' h
  · simp only [Visited, hs.pc, hs.scan]
    exact fun u _ hlt => absurd hlt (Nat.not_lt_zero _)
  rintro es ⟨w, ⟨⟩⟩ v v' hrun ⟨hctr, hvisited⟩ hf
  have hkeep (u) (hu : SomeStep (scanning tid) s es (Closes s u)) :
      SomeStep (scanning tid) s (es ++ [(w, ())]) (Closes s u) :=
    (someStep_snoc hrun hf).mpr (.inl hu)
  obtain ⟨m', l', hstep, rfl⟩ := fire_eq_some.mp hf
  by_cases hw : w = tid
  · subst hw
    obtain ⟨pc, hpc, hwait⟩ := scanning_next hstep
    obtain ⟨rfl, hvisited'⟩ := visited_step hctr hvisited hpc hwait
    exact ⟨fun u hu => (hctr u hu).imp_right (hkeep u), by simpa using hvisited'.mono hkeep⟩
  · rw [scanning_other hw] at hstep
    cases hstep
    refine ⟨fun u hu => ?_, ?_⟩
    · by_cases huw : u = w
      · subst huw
        right
        -- the first increment of `u` is the closing one
        rcases hctr u hu with heq | hdone
        · exact (someStep_snoc hrun hf).mpr (.inr ⟨rfl, heq, by simp [heq]⟩)
        · exact hkeep u hdone
      · simpa [huw] using (hctr u hu).imp_right (hkeep u)
    · simpa [Ne.symm hw] using hvisited.mono hkeep

/-! ## Operations that begin during the scan -/

theorem fire_increment (hu : u ≠ tid) (s : Config (Fin n) (Mem n) Local) :
    fire (scanning tid) s (u, ()) = some ⟨s.mem.fetchAdd u, s.th⟩ := by
  simp [fire, scanning_other hu]

/-- All other threads can end their operations. -/
theorem exists_quiescent (tid : Fin n) (s : Config (Fin n) (Mem n) Local) (us : List (Fin n)) :
    ∃ es v, run (scanning tid) s es = some v ∧ v.th = s.th ∧
      ∀ u ∈ us, u ≠ tid → isOdd (v.mem.ctr u) = false := by
  induction us with
  | nil => exact ⟨[], s, rfl, rfl, by simp⟩
  | cons w us ih =>
      obtain ⟨es, v, hrun, hth, hquiet⟩ := ih
      by_cases hodd : w ≠ tid ∧ isOdd (v.mem.ctr w) = true
      · refine ⟨es ++ [(w, ())], _, run_snoc.mpr ⟨v, hrun, fire_increment hodd.1 v⟩, hth, ?_⟩
        intro u hu hne
        by_cases huw : u = w
        · subst huw
          simp [isOdd_add_one, hodd.2]
        · simpa [huw] using hquiet u ((List.mem_cons.mp hu).resolve_left huw) hne
      · refine ⟨es, v, hrun, hth, fun u hu hne => ?_⟩
        rcases List.mem_cons.mp hu with rfl | hu
        · exact Bool.eq_false_iff.mpr fun h => hodd ⟨hne, h⟩
        · exact hquiet u hu hne

/-- A scan that meets only even counters passes them all. -/
theorem exists_passed (k : Nat) (s : Config (Fin n) (Mem n) Local)
    (hpc : (s.th tid).pc = .wait .load) (hk : (s.th tid).scan + k = n)
    (hquiet : ∀ u, u ≠ tid → isOdd (s.mem.ctr u) = false) :
    ∃ es v, run (scanning tid) s es = some v ∧ v.mem = s.mem ∧ (v.th tid).pc = .wait .load ∧
      (v.th tid).scan = n := by
  induction k generalizing s with
  | zero => exact ⟨[], s, rfl, rfl, hpc, by simpa using hk⟩
  | succ k ih =>
      have hlt : (s.th tid).scan < n := by omega
      obtain ⟨l', hstep, hpc', hscan'⟩ : ∃ l', scanning tid tid () s.mem (s.th tid) =
          .next s.mem l' ∧ l'.pc = .wait .load ∧ l'.scan = (s.th tid).scan + 1 := by
        rw [scanning, if_pos rfl, hpc]
        simp only [mmWaitUntilUnreserved, hlt, dif_pos]
        split
        next => exact ⟨_, rfl, hpc, rfl⟩
        next hne =>
          rw [if_neg (by rw [hquiet _ hne]; decide)]
          exact ⟨_, rfl, hpc, rfl⟩
      obtain ⟨es, v, hrun, hmem, hpcv, hscan⟩ :=
        ih ⟨s.mem, Function.update s.th tid l'⟩ (by simpa using hpc')
          (by simp only [Function.update_self]; omega) hquiet
      exact ⟨(tid, ()) :: es, v, run_cons.mpr ⟨_, fire_eq_some.mpr ⟨_, _, hstep, rfl⟩, hrun⟩,
        hmem, hpcv, hscan⟩

/-- The scan can return while `u` is inside an operation that it began during the scan. -/
theorem exists_unfinished (hs : Entered tid s) (hu : u ≠ tid) :
    ∃ fs gs a s', run (scanning tid) s fs = some a ∧ isOdd (a.mem.ctr u) = false ∧
      run (scanning tid) a ((u, ()) :: gs) = some s' ∧ (∀ e ∈ gs, e.1 ≠ u) ∧
      (s'.th tid).pc = .reclaim .load ∧ isOdd (s'.mem.ctr u) = true := by
  obtain ⟨es, v, hrun, hth, hquiet⟩ := exists_quiescent tid s (List.finRange n)
  have hquiet' : ∀ w, w ≠ tid → isOdd (v.mem.ctr w) = false :=
    fun w hw => hquiet w (List.mem_finRange w) hw
  obtain ⟨fs, a, hrun', hmem, hpc, hscan⟩ :=
    exists_passed n v (by rw [hth, hs.pc]) (by rw [hth, hs.scan, Nat.zero_add]) hquiet'
  have heven : isOdd (a.mem.ctr u) = false := hmem ▸ hquiet' u hu
  refine ⟨es ++ fs, [(tid, ())], a, ⟨a.mem.fetchAdd u, Function.update a.th tid
    ((a.th tid).goto (.reclaim .load))⟩, run_append.mpr ⟨v, hrun, hrun'⟩, heven, ?_, ?_, ?_, ?_⟩
  · refine run_cons.mpr ⟨_, fire_increment hu a, run_singleton.mpr ?_⟩
    refine fire_eq_some.mpr ⟨_, _, ?_, rfl⟩
    simp [scanning, hpc, mmWaitUntilUnreserved, hscan]
  · simpa using hu.symm
  · simp
  · simp [isOdd_add_one, heven]

/-- **The grace period.**  When `mm_wait_until_unreserved` returns, every other thread that was
inside an operation when the call was entered has made the increment that ends it; the call writes
nothing; and it may return while another thread is inside an operation begun during the scan. -/
theorem grace_period (hs : Entered tid s) :
    (∀ es s', run (scanning tid) s es = some s' → (s'.th tid).pc = .reclaim .load →
      ∀ u, u ≠ tid → isOdd (s.mem.ctr u) = true →
        SomeStep (scanning tid) s es (Closes s u)) ∧
    (∀ es s', run (scanning tid) s es = some s' →
      EveryStep (scanning tid) s es fun e a b => e.1 = tid → b.mem = a.mem) ∧
    ∀ u, u ≠ tid → ∃ fs gs a s', run (scanning tid) s fs = some a ∧
      isOdd (a.mem.ctr u) = false ∧ run (scanning tid) a ((u, ()) :: gs) = some s' ∧
      (∀ e ∈ gs, e.1 ≠ u) ∧ (s'.th tid).pc = .reclaim .load ∧ isOdd (s'.mem.ctr u) = true := by
  refine ⟨fun es s' hrun hret u hu hodd => ?_, ?_, fun u hu => exists_unfinished hs hu⟩
  · have hvisited := (movedOn hs hrun).visited
    simp only [Visited, hret] at hvisited
    exact hvisited u hu hodd
  · rintro es s' - fs ⟨w, ⟨⟩⟩ gs a b rfl hrun hf rfl
    have hmoved := movedOn hs hrun
    obtain ⟨m', l', hstep, rfl⟩ := fire_eq_some.mp hf
    obtain ⟨pc, hpc, hwait⟩ := scanning_next hstep
    exact (visited_step hmoved.ctr hmoved.visited hpc hwait).1

/-- Thread 0 enters the scan while thread 1 is in its first operation. -/
def scanEntry : Config (Fin 2) (Mem 2) Local where
  mem := (Mem.init 2).fetchAdd 1
  th := fun _ => { Local.init with pc := .wait .load }

/-- Thread 0 sees the counter of thread 1 twice before thread 1 moves it on. -/
theorem grace_period_scanEntry :
    ∃ es s', run (scanning 0) scanEntry es = some s' ∧ (s'.th 0).pc = .reclaim .load ∧
      isOdd (scanEntry.mem.ctr 1) = true ∧
      SomeStep (scanning 0) scanEntry es (Closes scanEntry 1) := by
  obtain ⟨s', hrun⟩ : ∃ s', run (scanning 0) scanEntry
      [(0, ()), (0, ()), (0, ()), (1, ()), (0, ()), (0, ())] = some s' := ⟨_, rfl⟩
  have hret := run_observe hrun (fun s => (s.th 0).pc) rfl
  exact ⟨_, s', hrun, hret, rfl, (grace_period ⟨rfl, rfl⟩).1 _ s' hrun hret 1 (by decide) rfl⟩

end ConcurrentQueues.Ex5
