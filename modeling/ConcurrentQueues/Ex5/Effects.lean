import ConcurrentQueues.Ex5.Invariant

/-! The effects a step can have on the memory, and what each does to the invariant. -/

namespace ConcurrentQueues.Ex5

open Reasoning Layout

variable {n : Nat} {t u : Fin n} {m m' : Mem n} {g g' : History n} {l l' : Local} {c : Choice}
  {lay' : Layout n} {q' : Store n}

/-- What a step of `t` owes. -/
structure StepOk (t : Fin n) (m : Mem n) (g : History n) (m' : Mem n) (g' : History n)
    (l' : Local) : Prop where
  shared : Shared m' g'
  own : Own t m' g' l'
  rely : ∀ u, u ≠ t → Rely u m g m' g'

/-! ## Steps by their effect on the memory -/

theorem Rely.refl (u : Fin n) (m : Mem n) (g : History n) : Rely u m g m g where
  frame := Frame.refl u m.store g.lay
  tl_le := le_rfl
  body := rfl
  start := rfl
  iFirst := rfl
  iLast := rfl
  recOf := rfl
  retired := rfl
  retiredCount := rfl
  records := fun _ _ => rfl
  epoch := fun _ _ => .inl ⟨rfl, rfl, rfl⟩

theorem Rely.setLay (hf : Frame u m.store g.lay q' lay') (htl : g.lay.tl ≤ lay'.tl) :
    Rely u m g (m.setStore q') (g.setLay lay') :=
  { Rely.refl u m g with frame := hf, tl_le := htl }

theorem Shared.setLay (h : Shared m g) (hv : lay'.Valid q') (hle : lay'.hd ≤ lay'.tl)
    (hlag : lay'.len ≤ lay'.tl + 2) (hhd : g.lay.hd ≤ lay'.hd)
    (hp : ∀ t i, g.body t = true → g.start t ≤ i → i < lay'.hd → ∃ u, lay'.pend u = some i) :
    Shared (m.setStore q') (g.setLay lay') :=
  { h with
    valid := hv
    hd_le_tl := hle
    lag := hlag
    start_le := fun u hu => (h.start_le u hu).trans hhd
    protect := hp }

/-- A store step that leaves the main list alone. -/
theorem Shared.setLay_same (h : Shared m g) (hv : lay'.Valid q') (hhd : lay'.hd = g.lay.hd)
    (htl : lay'.tl = g.lay.tl) (hlen : lay'.len = g.lay.len) (hpend : lay'.pend = g.lay.pend) :
    Shared (m.setStore q') (g.setLay lay') := by
  refine h.setLay hv ?_ ?_ hhd.ge ?_
  · rw [hhd, htl]; exact h.hd_le_tl
  · rw [hlen, htl]; exact h.lag
  · rw [hhd, hpend]; exact h.protect

/-- Storing into the node `t` keeps to itself. -/
theorem Shared.writeHeld (h : Shared m g) {p : Addr} (hp : g.lay.hold t = some p) (x : Node) :
    Shared (m.setStore { m.store with heap := Function.update m.store.heap p x }) g :=
  h.setLay_same (h.valid.writeHeld hp x) rfl rfl rfl rfl

theorem Rely.writeHeld (h : Shared m g) {p : Addr} (hu : u ≠ t) (hp : g.lay.hold t = some p)
    (x : Node) :
    Rely u m g (m.setStore { m.store with heap := Function.update m.store.heap p x }) g :=
  Rely.setLay (Frame.writeHeld h.valid hu hp x) le_rfl

/-- A successful CAS moves `tail` to the successor of the node it pointed to. -/
theorem Shared.moveTail (h : Shared m g) (hlt : g.lay.tl + 1 < g.lay.len) :
    Shared (m.setStore (m.store.setTail (some (g.lay.node (g.lay.tl + 1)))))
      (g.setLay (g.lay.moveTail (g.lay.tl + 1))) := by
  have hle := h.hd_le_tl
  have hlag := h.lag
  refine h.setLay (h.valid.moveTail hlt) ?_ ?_ le_rfl h.protect
  · simp only [moveTail_hd, moveTail_tl]; omega
  · simp only [moveTail_len, moveTail_tl]; omega

theorem Rely.moveTail (x : Ptr) :
    Rely u m g (m.setStore (m.store.setTail x)) (g.setLay (g.lay.moveTail (g.lay.tl + 1))) :=
  Rely.setLay (Frame.moveTail x) (Nat.le_succ _)

/-- The numbers an operation in progress may hold are live. -/
theorem Shared.live (h : Shared m g) (hb : g.body t = true) {i : Nat} (hi : g.start t ≤ i)
    (hlt : i < g.lay.len) : g.lay.Live i := by
  -- below `hd` a number in use is unlinked and still waited for, from `hd` on it is in the list
  rcases Nat.lt_or_ge i g.lay.hd with hhd | hhd
  · exact ⟨hlt, .inr (h.protect t i hb hi hhd)⟩
  · exact ⟨hlt, .inl hhd⟩

/-! ## Counters and records -/

theorem isOdd_eq (x : UInt64) : isOdd x = decide (x.toNat % 2 = 1) := by
  have hand : (x &&& 1).toNat = x.toNat % 2 := by
    rw [UInt64.toNat_and]
    exact Nat.and_one_is_mod x.toNat
  unfold isOdd
  by_cases h : x &&& 1 = 0
  · have hz : x.toNat % 2 = 0 := by rw [← hand, h]; rfl
    simp [h, hz]
  · have hz : x.toNat % 2 ≠ 0 := fun hz => h (UInt64.toNat_inj.mp (hand.trans hz))
    have hone : x.toNat % 2 = 1 := by omega
    simp [h, hone]

/-- An increment flips the parity, also when the counter wraps. -/
theorem isOdd_add_one (x : UInt64) : isOdd (x + 1) = !isOdd x := by
  have hlt : x.toNat < 2 ^ 64 := x.toNat_lt
  have hone : (1 : UInt64).toNat = 1 := rfl
  rw [isOdd_eq, isOdd_eq, UInt64.toNat_add, hone]
  by_cases hx : x.toNat % 2 = 1 <;> simp [hx] <;> omega

theorem Shared.enter (h : Shared m g) (hb : g.body t = false) :
    Shared (m.fetchAdd t) (g.enter t) :=
  { h with
    parity := by
      intro u
      by_cases hu : u = t
      · subst hu; simp [isOdd_add_one, h.parity, hb]
      · simp [Function.update_of_ne hu, h.parity]
    start_le := by
      intro u hbu
      by_cases hu : u = t
      · subst hu; simp
      · simpa [Function.update_of_ne hu] using
          h.start_le u (by simpa [Function.update_of_ne hu] using hbu)
    protect := by
      intro u i hbu hi hlt
      by_cases hu : u = t
      · subst hu
        -- the operation of `t` begins now, and the numbers it may load start at `hd`
        have hge : g.lay.hd ≤ i := by simpa using hi
        exact absurd hlt (Nat.not_lt.mpr hge)
      · exact h.protect u i (by simpa [Function.update_of_ne hu] using hbu)
          (by simpa [Function.update_of_ne hu] using hi) hlt }

theorem Rely.enter (hu : u ≠ t) : Rely u m g (m.fetchAdd t) (g.enter t) :=
  { Rely.refl u m g with
    body := Function.update_of_ne hu _ _
    start := Function.update_of_ne hu _ _
    epoch := by
      intro w _
      by_cases hw : w = t
      -- `t` begins an operation, and `hd` is where it begins
      · subst hw; exact .inr (.inr (by simp))
      · exact .inl (by simp [Function.update_of_ne hw]) }

theorem Shared.leave (h : Shared m g) (hb : g.body t = true) :
    Shared (m.fetchAdd t) (g.leave t) :=
  { h with
    parity := by
      intro u
      by_cases hu : u = t
      · subst hu; simp [isOdd_add_one, h.parity, hb]
      · simp [Function.update_of_ne hu, h.parity]
    start_le := by
      intro u hbu
      by_cases hu : u = t
      · subst hu; simp at hbu
      · exact h.start_le u (by simpa [Function.update_of_ne hu] using hbu)
    protect := by
      intro u i hbu hi hlt
      by_cases hu : u = t
      · subst hu; simp at hbu
      · exact h.protect u i (by simpa [Function.update_of_ne hu] using hbu) hi hlt }

theorem Rely.leave (hu : u ≠ t) : Rely u m g (m.fetchAdd t) (g.leave t) :=
  { Rely.refl u m g with
    body := Function.update_of_ne hu _ _
    epoch := by
      intro w _
      by_cases hw : w = t
      · subst hw; exact .inr (.inl (by simp))
      · exact .inl (by simp [Function.update_of_ne hw]) }

theorem Shared.mallocRec (h : Shared m g) (raw : Retired) :
    Shared (m.mallocRec raw) (g.setRec t m.recBrk) :=
  { h with
    rec_lt := by
      intro u r hr
      by_cases hu : u = t
      · subst hu
        obtain rfl : m.recBrk = r := by simpa using hr
        simp
      · have hlt := h.rec_lt u r (by simpa [Function.update_of_ne hu] using hr)
        exact Nat.lt_succ_of_lt hlt
    rec_inj := by
      intro u w r hu hw
      simp only [History.setRec_recOf, Function.update_apply] at hu hw
      -- the address is new, so no other thread has it
      have hlt := h.rec_lt
      have hinj := h.rec_inj u w r
      split at hu <;> split at hw <;> grind }

theorem Rely.mallocRec (h : Shared m g) (hu : u ≠ t) (raw : Retired) :
    Rely u m g (m.mallocRec raw) (g.setRec t m.recBrk) :=
  { Rely.refl u m g with
    recOf := Function.update_of_ne hu _ _
    records := fun r hr => Function.update_of_ne (Nat.ne_of_lt (h.rec_lt u r hr)) _ _ }

theorem Shared.setRecord (h : Shared m g) (r : RecAddr) (x : Retired) :
    Shared (m.setRecord r x) g := { h with }

theorem Rely.setRecord (h : Shared m g) (hu : u ≠ t) {r : RecAddr} (hr : g.recOf t = some r)
    (x : Retired) : Rely u m g (m.setRecord r x) g :=
  { Rely.refl u m g with
    records := by
      intro r' hr'
      refine Function.update_of_ne (fun he => hu ?_) _ _
      exact h.rec_inj u t r (he ▸ hr') hr }

theorem Shared.setRetired (h : Shared m g) (r : Option RecAddr) : Shared (m.setRetired t r) g :=
  { h with }

theorem Rely.setRetired (hu : u ≠ t) (r : Option RecAddr) : Rely u m g (m.setRetired t r) g :=
  { Rely.refl u m g with retired := Function.update_of_ne hu _ _ }

theorem Shared.setRetiredCount (h : Shared m g) (k : UInt64) :
    Shared (m.setRetiredCount t k) g := { h with }

theorem Rely.setRetiredCount (hu : u ≠ t) (k : UInt64) :
    Rely u m g (m.setRetiredCount t k) g :=
  { Rely.refl u m g with retiredCount := Function.update_of_ne hu _ _ }

/-! ## Local steps -/

/-- The functions of a program point that `Status` reads. -/
def Local.face (l : Local) : Bool × Ptr × Bool × Int32 × Bool × Bool :=
  (l.pc.inBody, l.holding, l.unlinking, l.pc.slack, l.listed, l.counted)

theorem Status.congr (h : Status t m g l) (l' : Local) (hf : l'.face = l.face) (ha : l'.argsOk) :
    Status t m g l' := by
  simp only [Local.face, Prod.mk.injEq] at hf
  obtain ⟨hbody, hhold, hunl, hslack, hlisted, hcounted⟩ := hf
  exact
  { body := hbody ▸ h.body
    hold := hhold ▸ h.hold
    pend := hunl ▸ h.pend
    size := hslack ▸ h.size
    retired := hlisted ▸ h.retired
    count := hcounted ▸ h.count
    args := ha }

/-- A step that touches neither the memory nor the history. -/
theorem StepOk.silent (hS : Shared m g) (hO : Own t m g l) (hf : l'.face = l.face)
    (ha : l'.argsOk) (ho : outline t m g l') : StepOk t m g m g l' :=
  ⟨hS, ⟨hO.status.congr l' hf ha, ho⟩, fun u _ => Rely.refl u m g⟩

/-- A load of `head` into `first`. -/
theorem StepOk.setFirst (hS : Shared m g) (hO : Own t m g l) (i : Nat) (hf : l'.face = l.face)
    (hu : l.unlinking = false) (ha : l'.argsOk) (ho : outline t m (g.setFirst t i) l') :
    StepOk t m g m (g.setFirst t i) l' where
  shared := { hS with }
  own :=
    { status := by
        have hst := hO.status.congr l' hf ha
        have hpend := hst.pend
        -- `pend` reads `iFirst` only while the thread is unlinking
        have hface : l'.unlinking = l.unlinking := congrArg (fun f => f.2.2.1) hf
        rw [hface, hu] at hpend
        exact { hst with pend := by rw [hface, hu]; exact hpend }
      here := ho }
  rely := fun u hu => { Rely.refl u m g with iFirst := Function.update_of_ne hu _ _ }

/-- A load of `tail` into `last`. -/
theorem StepOk.setLast (hS : Shared m g) (hO : Own t m g l) (i : Nat) (hf : l'.face = l.face)
    (ha : l'.argsOk) (ho : outline t m (g.setLast t i) l') :
    StepOk t m g m (g.setLast t i) l' where
  shared := { hS with }
  own := ⟨{ hO.status.congr l' hf ha with }, ho⟩
  rely := fun u hu => { Rely.refl u m g with iLast := Function.update_of_ne hu _ _ }

end ConcurrentQueues.Ex5
