import Mathlib.Data.List.Nodup
import Mathlib.Logic.Function.Basic

/-!
# Linearizable — histories of calls and returns

A history is what the clients of a shared object see: calls and returns, in the order in which they
happen.  It is linearizable when its operations can be put into one sequential order that obeys the
specification of the object, gives every returned call the result it has returned, and keeps the
order of two operations of which one has returned before the other is called.  A call that has not
returned may stand in that order or not.

`Move` is how a proof gets there: each call takes effect at one step of its own, or at several
tentative ones of which the last counts.
-/

namespace ConcurrentQueues.Reasoning

inductive Event (O R : Type*) where
  | call (op : O)
  | ret (res : R)
  deriving DecidableEq

/-- An operation of a history, known by the place of its call. -/
@[ext] structure Operation (ι O R : Type*) where
  place : Nat
  thread : ι
  op : O
  res : R

variable {ι O R σ : Type*}

/-- The call of `t` at place `i` returns `res` at place `j`: this is the next event of `t`. -/
structure Returned (h : List (ι × Event O R)) (i j : Nat) (t : ι) (res : R) : Prop where
  lt : i < j
  ret : h[j]? = some (t, .ret res)
  next : ∀ k e, i < k → k < j → h[k]? = some e → e.1 ≠ t

/-- The sequential executions of the object. -/
def Legal (spec : σ → O → R → σ → Prop) : σ → List (Operation ι O R) → σ → Prop
  | s, [], s' => s = s'
  | s, x :: xs, s' => ∃ u, spec s x.op x.res u ∧ Legal spec u xs s'

/-- `lin` is a linearization of `h`, after which the object is in the state `s`. -/
structure IsLinearization (spec : σ → O → R → σ → Prop) (s₀ : σ) (h : List (ι × Event O R))
    (lin : List (Operation ι O R)) (s : σ) : Prop where
  legal : Legal spec s₀ lin s
  once : (lin.map (·.place)).Nodup
  called : ∀ x ∈ lin, h[x.place]? = some (x.thread, .call x.op)
  complete : ∀ {i j t op res}, h[i]? = some (t, .call op) → Returned h i j t res →
    ⟨i, t, op, res⟩ ∈ lin
  realTime : ∀ {x y j res}, x ∈ lin → y ∈ lin → Returned h x.place j x.thread res →
    j < y.place → [x, y].Sublist lin

/-! ## How a linearization is built -/

/-- The call a thread is in, before and after it has taken effect. -/
inductive Status (O R : Type*) where
  | idle
  | pending (op : O)
  | effected (op : O) (res : R)

/-- A step of one thread, with the event it adds to the history. -/
inductive Move (spec : σ → O → R → σ → Prop) :
    Option (Event O R) → σ → Status O R → σ → Status O R → Prop
  | silent (s st) : Move spec none s st s st
  | call (s op) : Move spec (some (.call op)) s .idle s (.pending op)
  | effect (s op res s') (h : spec s op res s') : Move spec none s (.pending op) s' (.effected op res)
  /-- an effect that never changes the object is given up -/
  | giveUp (s op res) (h : ∀ s₁ s₂, spec s₁ op res s₂ → s₂ = s₁) :
      Move spec none s (.effected op res) s (.pending op)
  | ret (s op res) : Move spec (some (.ret res)) s (.effected op res) s .idle

/-- The call of `t` at place `i` is open: it is the last event of `t`. -/
structure OpenAt (h : List (ι × Event O R)) (i : Nat) (t : ι) (op : O) : Prop where
  call : h[i]? = some (t, .call op)
  last : ∀ k e, i < k → h[k]? = some e → e.1 ≠ t

/-- What the status of a thread says about its last call. -/
def Status.Agrees (h : List (ι × Event O R)) (lin : List (Operation ι O R)) (t : ι) :
    Status O R → Prop
  | .idle => True
  | .pending op => ∃ i, OpenAt h i t op ∧ ∀ x ∈ lin, x.place ≠ i
  | .effected op res => ∃ i, OpenAt h i t op ∧ ⟨i, t, op, res⟩ ∈ lin

section Events

variable {h : List (ι × Event O R)} {i j : Nat} {t u : ι} {op op' : O} {res : R}
  {e : ι × Event O R} {ev : Event O R}

theorem OpenAt.lt_length (ho : OpenAt h i t op) : i < h.length :=
  (List.getElem?_eq_some_iff.mp ho.call).1

/-- A thread has one last event. -/
theorem OpenAt.unique (ho : OpenAt h i t op) (ho' : OpenAt h j t op') : i = j := by
  rcases Nat.lt_trichotomy i j with hlt | heq | hgt
  · exact absurd rfl (ho.last j _ hlt ho'.call)
  · exact heq
  · exact absurd rfl (ho'.last i _ hgt ho.call)

/-- Calls of different threads stand at different places. -/
theorem OpenAt.ne_place (ho : OpenAt h i t op) (ho' : OpenAt h j u op') (hu : u ≠ t) : i ≠ j := by
  rintro rfl
  have hcall := ho.call.symm.trans ho'.call
  simp only [Option.some.injEq, Prod.mk.injEq] at hcall
  exact hu hcall.1.symm

/-- An open call has not returned. -/
theorem OpenAt.not_returned (ho : OpenAt h i t op) : ¬ Returned h i j t res :=
  fun hr => ho.last j _ hr.lt hr.ret rfl

theorem OpenAt.append_other (ho : OpenAt h i t op) (hu : e.1 ≠ t) : OpenAt (h ++ [e]) i t op where
  call := by rw [List.getElem?_append_left ho.lt_length]; exact ho.call
  last := by
    intro k e' hlt hk
    by_cases hlen : k < h.length
    · rw [List.getElem?_append_left hlen] at hk
      exact ho.last k e' hlt hk
    · -- the new event is of another thread
      rw [List.getElem?_append_right (Nat.le_of_not_lt hlen)] at hk
      have hmem := List.mem_of_getElem? hk
      rw [List.mem_singleton] at hmem
      exact hmem ▸ hu

/-- A call that is made now is open. -/
theorem openAt_length (h : List (ι × Event O R)) (t : ι) (op : O) :
    OpenAt (h ++ [(t, .call op)]) h.length t op where
  call := by simp
  last := by
    intro k e hlt hk
    have hlen := (List.getElem?_eq_some_iff.mp hk).1
    rw [List.length_append, List.length_singleton] at hlen
    omega

/-- What has returned stays returned, and nothing else but the new event returns. -/
theorem returned_append : Returned (h ++ [e]) i j t res ↔
    Returned h i j t res ∨
      (j = h.length ∧ i < j ∧ e = (t, .ret res) ∧ ∀ k e', i < k → h[k]? = some e' → e'.1 ≠ t) := by
  constructor
  · intro hr
    have hlen := (List.getElem?_eq_some_iff.mp hr.ret).1
    rw [List.length_append, List.length_singleton] at hlen
    have hnext : ∀ k e', i < k → k < j → h[k]? = some e' → e'.1 ≠ t := fun k e' hik hkj hk =>
      hr.next k e' hik hkj
        (by rw [List.getElem?_append_left (List.getElem?_eq_some_iff.mp hk).1]; exact hk)
    by_cases hj : j < h.length
    · exact .inl ⟨hr.lt, by rw [← List.getElem?_append_left hj]; exact hr.ret, hnext⟩
    · obtain rfl : j = h.length := by omega
      refine .inr ⟨rfl, hr.lt, by simpa using hr.ret, fun k e' hik hk => ?_⟩
      exact hnext k e' hik (List.getElem?_eq_some_iff.mp hk).1 hk
  · rintro (hr | ⟨rfl, hlt, rfl, hlast⟩)
    · have hj := (List.getElem?_eq_some_iff.mp hr.ret).1
      refine ⟨hr.lt, by rw [List.getElem?_append_left hj]; exact hr.ret, fun k e' hik hkj hk => ?_⟩
      rw [List.getElem?_append_left (Nat.lt_trans hkj hj)] at hk
      exact hr.next k e' hik hkj hk
    · refine ⟨hlt, by simp, fun k e' hik hkj hk => ?_⟩
      rw [List.getElem?_append_left hkj] at hk
      exact hlast k e' hik hk

end Events

section Legal

variable {spec : σ → O → R → σ → Prop} {s s' : σ} {xs ys : List (Operation ι O R)}
  {x : Operation ι O R}

theorem legal_append : Legal spec s (xs ++ ys) s' ↔ ∃ u, Legal spec s xs u ∧ Legal spec u ys s' := by
  induction xs generalizing s with
  | nil => simp [Legal]
  | cons x xs ih =>
      simp only [List.cons_append, Legal, ih]
      constructor
      · rintro ⟨u, hx, w, hw, hys⟩
        exact ⟨w, ⟨u, hx, hw⟩, hys⟩
      · rintro ⟨w, ⟨u, hx, hw⟩, hys⟩
        exact ⟨u, hx, w, hw, hys⟩

/-- An operation that never changes the object can be left out. -/
theorem Legal.erase (h : Legal spec s (xs ++ x :: ys) s')
    (hx : ∀ s₁ s₂, spec s₁ x.op x.res s₂ → s₂ = s₁) : Legal spec s (xs ++ ys) s' := by
  obtain ⟨u, hu, w, hw, hys⟩ := legal_append.mp h
  obtain rfl : w = u := hx u w hw
  exact legal_append.mpr ⟨w, hu, hys⟩

end Legal

/-! ## One move -/

section Moves

variable {spec : σ → O → R → σ → Prop} {s₀ s s' : σ} {h : List (ι × Event O R)}
  {lin lin' : List (Operation ι O R)} {status : ι → Status O R} {st' : Status O R} {t u : ι}
  {ev : Option (Event O R)} {op : O} {res : R} {i : Nat}

/-- A linearization of the history so far that agrees with the status of every thread. -/
structure Linearized (spec : σ → O → R → σ → Prop) (s₀ : σ) (h : List (ι × Event O R))
    (lin : List (Operation ι O R)) (s : σ) (status : ι → Status O R) : Prop where
  linearizes : IsLinearization spec s₀ h lin s
  agrees : ∀ t, (status t).Agrees h lin t

theorem Linearized.init (spec : σ → O → R → σ → Prop) (s₀ : σ) :
    Linearized (ι := ι) spec s₀ [] [] s₀ fun _ => .idle where
  linearizes :=
    { legal := rfl
      once := List.nodup_nil
      called := fun _ hx => absurd hx List.not_mem_nil
      complete := fun hc _ => by simp at hc
      realTime := fun hx _ _ _ => absurd hx List.not_mem_nil }
  agrees := fun _ => trivial

/-- An event of another thread keeps what a status says. -/
theorem Status.Agrees.append {st : Status O R} (hst : st.Agrees h lin t) {e : ι × Event O R}
    (he : e.1 ≠ t) : st.Agrees (h ++ [e]) lin t := by
  cases st with
  | idle => trivial
  | pending op =>
      obtain ⟨i, ho, hnew⟩ := hst
      exact ⟨i, ho.append_other he, hnew⟩
  | effected op res =>
      obtain ⟨i, ho, hmem⟩ := hst
      exact ⟨i, ho.append_other he, hmem⟩

theorem IsLinearization.lt_length (hl : IsLinearization spec s₀ h lin s) {x : Operation ι O R}
    (hx : x ∈ lin) : x.place < h.length := (List.getElem?_eq_some_iff.mp (hl.called x hx)).1

/-- The operations that have returned are the same before a call. -/
theorem IsLinearization.call (hl : IsLinearization spec s₀ h lin s) (t : ι) (op : O) :
    IsLinearization spec s₀ (h ++ [(t, .call op)]) lin s where
  legal := hl.legal
  once := hl.once
  called := by
    intro x hx
    rw [List.getElem?_append_left (hl.lt_length hx)]
    exact hl.called x hx
  complete := by
    intro i j u op' res hc hr
    rcases returned_append.mp hr with hr | ⟨-, -, he, -⟩
    · have hi := Nat.lt_trans hr.lt (List.getElem?_eq_some_iff.mp hr.ret).1
      rw [List.getElem?_append_left hi] at hc
      exact hl.complete hc hr
    · cases he
  realTime := by
    intro x y j res hx hy hr hlt
    rcases returned_append.mp hr with hr | ⟨-, -, he, -⟩
    · exact hl.realTime hx hy hr hlt
    · cases he

/-- A call that has taken effect may return. -/
theorem IsLinearization.ret (hl : IsLinearization spec s₀ h lin s) (ho : OpenAt h i t op)
    (hmem : ⟨i, t, op, res⟩ ∈ lin) : IsLinearization spec s₀ (h ++ [(t, .ret res)]) lin s where
  legal := hl.legal
  once := hl.once
  called := by
    intro x hx
    rw [List.getElem?_append_left (hl.lt_length hx)]
    exact hl.called x hx
  complete := by
    intro k j u op' res' hc hr
    have hk : k < h.length := by
      have hlen := (List.getElem?_eq_some_iff.mp hr.ret).1
      have hlt := hr.lt
      rw [List.length_append, List.length_singleton] at hlen
      omega
    rw [List.getElem?_append_left hk] at hc
    rcases returned_append.mp hr with hr | ⟨-, -, he, hlast⟩
    · exact hl.complete hc hr
    · -- the call that returns now is the open one
      cases he
      obtain rfl : k = i := OpenAt.unique ⟨hc, hlast⟩ ho
      rw [ho.call] at hc
      cases hc
      exact hmem
  realTime := by
    intro x y j res' hx hy hr hlt
    rcases returned_append.mp hr with hr | ⟨rfl, -⟩
    · exact hl.realTime hx hy hr hlt
    · exact absurd (hl.lt_length hy) (Nat.not_lt.mpr (Nat.le_of_lt hlt))

/-- A call takes effect: it comes behind all that have taken effect before. -/
theorem IsLinearization.effect (hl : IsLinearization spec s₀ h lin s) (ho : OpenAt h i t op)
    (hnew : ∀ x ∈ lin, x.place ≠ i) (hs : spec s op res s') :
    IsLinearization spec s₀ h (lin ++ [⟨i, t, op, res⟩]) s' where
  legal := legal_append.mpr ⟨s, hl.legal, s', hs, rfl⟩
  once := by
    rw [List.map_append, List.map_singleton, List.nodup_append]
    refine ⟨hl.once, List.nodup_singleton _, fun a ha b hb => ?_⟩
    obtain ⟨x, hx, rfl⟩ := List.mem_map.mp ha
    rw [List.mem_singleton.mp hb]
    exact hnew x hx
  called := by
    intro x hx
    rcases List.mem_append.mp hx with hx | hx
    · exact hl.called x hx
    · rw [List.mem_singleton.mp hx]
      exact ho.call
  complete := fun hc hr => List.mem_append_left _ (hl.complete hc hr)
  realTime := by
    intro x y j res' hx hy hr hlt
    rcases List.mem_append.mp hx with hx | hx
    · rcases List.mem_append.mp hy with hy | hy
      · exact (hl.realTime hx hy hr hlt).trans (List.sublist_append_left _ _)
      · rw [List.mem_singleton.mp hy]
        exact (List.singleton_sublist.mpr hx).append (List.Sublist.refl _)
    · -- the call that takes effect now has not returned
      rw [List.mem_singleton.mp hx] at hr
      exact absurd hr ho.not_returned

/-- An effect of an open call that has changed nothing is taken back. -/
theorem IsLinearization.giveUp (hl : IsLinearization spec s₀ h lin s) (ho : OpenAt h i t op)
    (hmem : ⟨i, t, op, res⟩ ∈ lin) (hs : ∀ s₁ s₂, spec s₁ op res s₂ → s₂ = s₁) :
    ∃ lin', IsLinearization spec s₀ h lin' s ∧ lin'.Sublist lin ∧ (∀ x ∈ lin', x.place ≠ i) ∧
      ∀ x ∈ lin, x.place ≠ i → x ∈ lin' := by
  obtain ⟨xs, ys, rfl⟩ := List.append_of_mem hmem
  have hsub : (xs ++ ys).Sublist (xs ++ ⟨i, t, op, res⟩ :: ys) :=
    (List.Sublist.refl xs).append (List.sublist_cons_self _ _)
  have hrest : ∀ x ∈ xs ++ ys, x.place ≠ i := by
    have honce := hl.once
    rw [List.map_append, List.map_cons, List.nodup_middle, List.nodup_cons, ← List.map_append]
      at honce
    intro x hx he
    have hplace : x.place ∈ (xs ++ ys).map (·.place) := List.mem_map_of_mem hx
    rw [he] at hplace
    exact honce.1 hplace
  have hkept : ∀ x ∈ xs ++ ⟨i, t, op, res⟩ :: ys, x.place ≠ i → x ∈ xs ++ ys := by
    intro x hx hne
    rcases List.mem_append.mp hx with hx | hx
    · exact List.mem_append_left _ hx
    · rcases List.mem_cons.mp hx with rfl | hx
      · exact absurd rfl hne
      · exact List.mem_append_right _ hx
  refine ⟨xs ++ ys, ?_, hsub, hrest, hkept⟩
  exact
  { legal := hl.legal.erase hs
    once := (hsub.map _).nodup hl.once
    called := fun x hx => hl.called x (hsub.subset hx)
    complete := by
      intro k j u op' res' hc hr
      refine hkept _ (hl.complete hc hr) fun he => ?_
      -- only the open call is missing
      dsimp only at he
      subst he
      rw [ho.call] at hc
      cases hc
      exact ho.not_returned hr
    realTime := by
      intro x y j res' hx hy hr hlt
      have hxy := hl.realTime (hsub.subset hx) (hsub.subset hy) hr hlt
      have hfilter := hxy.filter fun z => decide (z.place ≠ i)
      have hlin : (xs ++ ⟨i, t, op, res⟩ :: ys).filter (fun z => decide (z.place ≠ i)) = xs ++ ys := by
        rw [List.filter_append, List.filter_cons_of_neg (by simp), ← List.filter_append]
        exact List.filter_eq_self.mpr fun z hz => decide_eq_true (hrest z hz)
      have hpair : [x, y].filter (fun z => decide (z.place ≠ i)) = [x, y] := by
        simp [hrest x hx, hrest y hy]
      rwa [hlin, hpair] at hfilter }

/-- **Linearizations move by move.** -/
theorem Linearized.move [DecidableEq ι] (hl : Linearized spec s₀ h lin s status)
    (hm : Move spec ev s (status t) s' st') :
    ∃ lin', Linearized spec s₀ (h ++ (ev.map (t, ·)).toList) lin' s'
      (Function.update status t st') := by
  have hagrees := hl.agrees t
  generalize hst : status t = st at hm hagrees
  cases hm with
  | silent =>
      refine ⟨lin, ?_⟩
      rw [← hst, Function.update_eq_self]
      simpa using hl
  | call _ op =>
      refine ⟨lin, hl.linearizes.call t op, fun u => ?_⟩
      by_cases hu : u = t
      · subst hu
        rw [Function.update_self]
        exact ⟨_, openAt_length h u op, fun x hx => Nat.ne_of_lt (hl.linearizes.lt_length hx)⟩
      · rw [Function.update_of_ne hu]
        exact (hl.agrees u).append (Ne.symm hu)
  | effect _ op res _ hs =>
      obtain ⟨i, ho, hnew⟩ := hagrees
      refine ⟨lin ++ [⟨i, t, op, res⟩], ?_⟩
      rw [Option.map_none, Option.toList_none, List.append_nil]
      refine ⟨hl.linearizes.effect ho hnew hs, fun u => ?_⟩
      by_cases hu : u = t
      · subst hu
        rw [Function.update_self]
        exact ⟨i, ho, by simp⟩
      · rw [Function.update_of_ne hu]
        have hu' := hl.agrees u
        generalize status u = stu at hu'
        cases stu with
        | idle => trivial
        | pending op' =>
            obtain ⟨k, hk, hknew⟩ := hu'
            refine ⟨k, hk, fun x hx => ?_⟩
            rcases List.mem_append.mp hx with hx | hx
            · exact hknew x hx
            · rw [List.mem_singleton.mp hx]
              exact ho.ne_place hk hu
        | effected op' res' =>
            obtain ⟨k, hk, hmem⟩ := hu'
            exact ⟨k, hk, List.mem_append_left _ hmem⟩
  | giveUp _ op res hs =>
      obtain ⟨i, ho, hmem⟩ := hagrees
      obtain ⟨lin', hl', hsub, hnew, hkept⟩ := hl.linearizes.giveUp ho hmem hs
      refine ⟨lin', ?_⟩
      rw [Option.map_none, Option.toList_none, List.append_nil]
      refine ⟨hl', fun u => ?_⟩
      by_cases hu : u = t
      · subst hu
        rw [Function.update_self]
        exact ⟨i, ho, hnew⟩
      · rw [Function.update_of_ne hu]
        have hu' := hl.agrees u
        generalize status u = stu at hu'
        cases stu with
        | idle => trivial
        | pending op' =>
            obtain ⟨k, hk, hknew⟩ := hu'
            exact ⟨k, hk, fun x hx => hknew x (hsub.subset hx)⟩
        | effected op' res' =>
            obtain ⟨k, hk, hkmem⟩ := hu'
            exact ⟨k, hk, hkept _ hkmem (ho.ne_place hk hu).symm⟩
  | ret _ op res =>
      obtain ⟨i, ho, hmem⟩ := hagrees
      refine ⟨lin, hl.linearizes.ret ho hmem, fun u => ?_⟩
      by_cases hu : u = t
      · subst hu
        rw [Function.update_self]
        trivial
      · rw [Function.update_of_ne hu]
        exact (hl.agrees u).append (Ne.symm hu)

end Moves

end ConcurrentQueues.Reasoning
