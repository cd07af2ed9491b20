import ConcurrentQueues.Ex5.Model
import ConcurrentQueues.Layout

/-!
# Ex5 — the invariant behind all interleavings

The history variable numbers the linked nodes (`Layout`) and remembers for every thread the value
of `hd` when its operation began and the numbers of the nodes it loaded.  The invariant has three
parts: `Shared` for the memory, `Own` as the proof outline of one thread, and `Rely` for what the
others may do meanwhile.

Reclamation is safe because of two facts.  A number that an operation may still hold is at least
the `hd` of its beginning (`Shared.protect`), and a thread that has waited for `u` knows that the
operation of `u`, if any, began after the node it reclaims was unlinked (`Quiet`).
-/

namespace ConcurrentQueues.Ex5

open Reasoning

/-- The history variable. -/
structure History (n : Nat) where
  lay : Layout n
  body : Fin n → Bool
  start : Fin n → Nat
  iFirst : Fin n → Nat
  iLast : Fin n → Nat
  recOf : Fin n → Option RecAddr

namespace History

variable {n : Nat}

@[simps] def setLay (g : History n) (lay : Layout n) : History n := { g with lay := lay }

/-- `mm_op_begin` opens a period of `t` in which every number from `hd` on is protected. -/
@[simps] def enter (g : History n) (t : Fin n) : History n :=
  { g with
    body := Function.update g.body t true
    start := Function.update g.start t g.lay.hd }

@[simps] def leave (g : History n) (t : Fin n) : History n :=
  { g with body := Function.update g.body t false }

@[simps] def setFirst (g : History n) (t : Fin n) (i : Nat) : History n :=
  { g with iFirst := Function.update g.iFirst t i }

@[simps] def setLast (g : History n) (t : Fin n) (i : Nat) : History n :=
  { g with iLast := Function.update g.iLast t i }

@[simps] def setRec (g : History n) (t : Fin n) (r : RecAddr) : History n :=
  { g with recOf := Function.update g.recOf t (some r) }

@[simps] def init (n : Nat) : History n where
  lay := Layout.init n
  body := fun _ => false
  start := fun _ => 0
  iFirst := fun _ => 0
  iLast := fun _ => 0
  recOf := fun _ => none

end History

variable {n : Nat}

/-- How a step moves the history. -/
def record (t : Fin n) (c : Choice) (m : Mem n) (l : Local) (g : History n) : History n :=
  match l.pc with
  | .opBegin => g.enter t
  | .opEnd .inc => g.leave t
  | .upcylce .storeHead =>
      match l.n with
      | some p => g.setLay (g.lay.pop t p)
      | none => g
  | .make .malloc =>
      match c.malloc with
      | some _ => g.setLay (g.lay.take t m.store.brk)
      | none => g
  | .enq .loadTail => g.setLast t g.lay.tl
  | .enq .link =>
      match l.last, l.n with
      | some p, some a =>
          if (m.store.heap p).next = none ∧ c.spurious = false then
            g.setLay (g.lay.link t a (m.store.heap a).data)
          else g
      | _, _ => g
  | .enq .swing | .enq .help | .deq .help =>
      if m.store.tail = l.last ∧ c.spurious = false then
        g.setLay (g.lay.moveTail (g.lay.tl + 1))
      else g
  | .deq .loadHead => g.setFirst t g.lay.hd
  | .deq .loadTail => g.setLast t g.lay.tl
  | .deq .cas =>
      if m.store.head = l.first ∧ c.spurious = false then g.setLay (g.lay.moveHead t) else g
  | .retire .malloc =>
      match c.mallocRec with
      | some _ => g.setRec t m.recBrk
      | none => g
  | .recycle .next =>
      match l.node with
      | some p => g.setLay (g.lay.detach t p)
      | none => g
  | .recycle .head =>
      match l.node with
      | some p => g.setLay (g.lay.push t p)
      | none => g
  | _ => g

/-! ## The memory -/

structure Shared (m : Mem n) (g : History n) : Prop where
  valid : g.lay.Valid m.store
  hd_le_tl : g.lay.hd ≤ g.lay.tl
  lag : g.lay.len ≤ g.lay.tl + 2
  parity : ∀ t, isOdd (m.ctr t) = g.body t
  start_le : ∀ t, g.body t = true → g.start t ≤ g.lay.hd
  protect : ∀ t i, g.body t = true → g.start t ≤ i → i < g.lay.hd → ∃ u, g.lay.pend u = some i
  rec_lt : ∀ t r, g.recOf t = some r → r < m.recBrk
  rec_inj : ∀ t u r, g.recOf t = some r → g.recOf u = some r → t = u

/-! ## The proof outline of a thread -/

/-- Between `mm_op_begin` and the increment of `mm_op_end`. -/
def Pc.inBody : Pc → Bool
  | .upcylce _ | .make _ | .enq _ | .deq _ | .retire _ | .opEnd .inc => true
  | _ => false

/-- How far the `size` field is behind the free list. -/
def Pc.slack : Pc → Int32
  | .upcylce .size => 1
  | .recycle .size => -1
  | _ => 0

namespace Local

/-- The call is a dequeue that has moved `head`. -/
def took (l : Local) : Bool := !l.isEnq && l.code == 1

/-- The node only this thread can reach. -/
def holding (l : Local) : Ptr :=
  match l.pc with
  | .upcylce .size | .make .data | .make .next => l.n
  | .enq .swing => none
  | .enq _ => l.n
  | .recycle .head => l.node
  | _ => none

/-- The thread has unlinked a node and not yet begun to recycle it. -/
def unlinking (l : Local) : Bool :=
  match l.pc with
  | .deq .writeOut | .retire _ | .wait _ => true
  | .opEnd _ => l.took
  | .reclaim .loop => l.r.isSome
  | .reclaim .free => false
  | .reclaim _ => true
  | .recycle .next => true
  | _ => false

/-- The record of the unlinked node is in the retired list. -/
def listed (l : Local) : Bool :=
  match l.pc with
  | .retire .count | .wait _ | .reclaim .load | .reclaim .clear => true
  | .opEnd _ => l.took
  | _ => false

/-- The record of the unlinked node is counted. -/
def counted (l : Local) : Bool :=
  match l.pc with
  | .wait _ | .reclaim .load | .reclaim .clear | .reclaim .count => true
  | .opEnd _ => l.took
  | _ => false

/-- Call, argument and return code fit the program point. -/
def argsOk (l : Local) : Prop :=
  match l.pc with
  | .idle => True
  | .opBegin => l.op = .enq l.v ∨ l.op = .deq l.out
  | .upcylce _ | .make _ | .enq _ => l.op = .enq l.v
  | .deq _ => l.op = .deq l.out
  | .retire _ => l.isEnq = false
  | .opEnd _ | .ret =>
      (l.op = .enq l.v ∧ l.code = 1) ∨ (l.op = .deq l.out ∧ l.code = 0) ∨
        (l.isEnq = false ∧ l.code = 1)
  | .wait _ | .reclaim _ | .recycle _ => l.isEnq = false ∧ l.code = 1

end Local

section Assertions

variable (t : Fin n) (m : Mem n) (g : History n) (l : Local)

/-- What a program point says about memory through functions of the program point alone. -/
structure Status : Prop where
  body : g.body t = l.pc.inBody
  hold : g.lay.hold t = l.holding
  pend : g.lay.pend t = if l.unlinking then some (g.iFirst t) else none
  size : (m.store.freeLists t).size = Int32.ofNat (g.lay.free t).length + l.pc.slack
  retired : m.retired t = if l.listed then g.recOf t else none
  count : m.retiredCount t = if l.counted then 1 else 0
  args : l.argsOk

/-- `first` was loaded from `head` during this operation. -/
structure First : Prop where
  eq : l.first = some (g.lay.node (g.iFirst t))
  start_le : g.start t ≤ g.iFirst t
  le_hd : g.iFirst t ≤ g.lay.hd
  lt_len : g.iFirst t < g.lay.len

/-- `last` was loaded from `tail` during this operation. -/
structure Last : Prop where
  eq : l.last = some (g.lay.node (g.iLast t))
  start_le : g.start t ≤ g.iLast t
  le_tl : g.iLast t ≤ g.lay.tl
  lt_len : g.iLast t < g.lay.len

/-- `next` is `NULL` or the successor of number `i`. -/
def NextOf (i : Nat) : Prop :=
  ∀ p, l.next = some p → i + 1 < g.lay.len ∧ p = g.lay.node (i + 1)

/-- The node of an `enq` is ready to be linked. -/
def Ready : Prop := ∃ p, l.n = some p ∧ m.store.heap p = ⟨l.v, none⟩

/-- `head` may still be at `first`, and then `next` is the successor of `first`. -/
structure Successor : Prop where
  first : First t g l
  last : Last t g l
  lt : g.iFirst t < g.iLast t
  succ_lt : g.iFirst t + 1 < g.lay.len
  next : l.next = some (g.lay.node (g.iFirst t + 1))

/-- The record of the unlinked node. -/
def HasRecord : Prop := ∃ r, g.recOf t = some r ∧ m.records r = ⟨l.first, none⟩

/-- Thread `u` is outside an operation, or its operation began after the node of `t` was
unlinked. -/
def Quiet (u : Fin n) : Prop := g.body u = true → g.iFirst t < g.start u

/-- The node in `first` is unlinked and its record known. -/
structure Unlinked : Prop where
  first : First t g l
  lt_hd : g.iFirst t < g.lay.hd
  record : HasRecord t m g l

/-- Every thread whose counter the scan has left behind is quiet. -/
structure Scanning : Prop where
  unlinked : Unlinked t m g l
  passed : ∀ u, u ≠ t → u.val < l.scan → Quiet t g u

/-- No other thread can hold the unlinked node. -/
structure Safe : Prop where
  unlinked : Unlinked t m g l
  quiet : ∀ u, u ≠ t → Quiet t g u

/-- The proof outline. -/
def outline : Prop :=
  match l.pc with
  | .upcylce .loadNext => ∃ p rest, l.n = some p ∧ g.lay.free t = p :: rest
  | .upcylce .storeHead =>
      ∃ p rest, l.n = some p ∧ g.lay.free t = p :: rest ∧ l.tmp = (m.store.heap p).next
  | .upcylce .size | .make .next | .enq .data => l.n ≠ none
  | .enq .next => ∃ p, l.n = some p ∧ (m.store.heap p).data = l.v
  | .enq .loadTail => Ready m l
  | .enq .loadNext => Ready m l ∧ Last t g l
  | .enq .reload => Ready m l ∧ Last t g l ∧ NextOf g l (g.iLast t)
  | .enq .link => Ready m l ∧ Last t g l
  | .enq .swing =>
      Last t g l ∧ g.iLast t + 1 < g.lay.len ∧ l.n = some (g.lay.node (g.iLast t + 1))
  | .enq .help => Ready m l ∧ Last t g l ∧ NextOf g l (g.iLast t) ∧ l.next ≠ none
  | .deq .loadTail => First t g l
  | .deq .loadNext => First t g l ∧ Last t g l ∧ g.iFirst t ≤ g.iLast t
  | .deq .reload =>
      First t g l ∧ Last t g l ∧ g.iFirst t ≤ g.iLast t ∧ NextOf g l (g.iFirst t) ∧
        (l.next = none → g.iFirst t = g.iLast t)
  | .deq .help =>
      First t g l ∧ Last t g l ∧ g.iFirst t = g.iLast t ∧ NextOf g l (g.iFirst t) ∧ l.next ≠ none
  | .deq .loadData => Successor t g l
  | .deq .cas => Successor t g l ∧ l.val = g.lay.val (g.iFirst t + 1)
  | .deq .writeOut => First t g l ∧ g.iFirst t < g.lay.hd
  | .retire .malloc => First t g l ∧ g.iFirst t < g.lay.hd
  | .retire .node =>
      First t g l ∧ g.iFirst t < g.lay.hd ∧ (l.r = none ∨ (l.r ≠ none ∧ l.r = g.recOf t))
  | .retire .next =>
      First t g l ∧ g.iFirst t < g.lay.hd ∧
        ∃ r, l.r = some r ∧ g.recOf t = some r ∧ (m.records r).node = l.first
  | .retire .push => Unlinked t m g l ∧ l.r = g.recOf t
  | .retire .count => Unlinked t m g l
  | .opEnd _ => l.took = true → Unlinked t m g l
  | .wait .load => Scanning t m g l
  | .wait .spin =>
      Scanning t m g l ∧ isOdd l.seen = true ∧
        ∃ h : l.scan < n, (⟨l.scan, h⟩ : Fin n) ≠ t ∧
          (m.ctr ⟨l.scan, h⟩ ≠ l.seen → Quiet t g ⟨l.scan, h⟩)
  | .reclaim .load => Safe t m g l
  | .reclaim .clear | .reclaim .count => Safe t m g l ∧ l.r = g.recOf t
  | .reclaim .loop => l.r = none ∨ (Safe t m g l ∧ l.r = g.recOf t)
  | .recycle .next => Safe t m g l ∧ l.r ≠ none ∧ l.nxt = none ∧ l.node = l.first
  | .recycle .head =>
      l.r ≠ none ∧ l.nxt = none ∧
        ∃ p, l.node = some p ∧ (m.store.heap p).next = (m.store.freeLists t).head
  | .recycle _ | .reclaim .free => l.r ≠ none ∧ l.nxt = none
  | _ => True

/-- What thread `t` knows. -/
structure Own : Prop where
  status : Status t m g l
  here : outline t m g l

end Assertions

/-! ## What the other threads may do -/

structure Rely (t : Fin n) (m : Mem n) (g : History n) (m' : Mem n) (g' : History n) : Prop where
  frame : Layout.Frame t m.store g.lay m'.store g'.lay
  tl_le : g.lay.tl ≤ g'.lay.tl
  body : g'.body t = g.body t
  start : g'.start t = g.start t
  iFirst : g'.iFirst t = g.iFirst t
  iLast : g'.iLast t = g.iLast t
  recOf : g'.recOf t = g.recOf t
  retired : m'.retired t = m.retired t
  retiredCount : m'.retiredCount t = m.retiredCount t
  records : ∀ r, g.recOf t = some r → m'.records r = m.records r
  epoch : ∀ u, u ≠ t → (m'.ctr u = m.ctr u ∧ g'.body u = g.body u ∧ g'.start u = g.start u) ∨
    g'.body u = false ∨ g.lay.hd ≤ g'.start u

section Locals

variable {t : Fin n} {m : Mem n} {g : History n} {l l' : Local}

theorem First.of_eq (h : First t g l) (hf : l'.first = l.first) : First t g l' :=
  { h with eq := hf.trans h.eq }

theorem Last.of_eq (h : Last t g l) (hl : l'.last = l.last) : Last t g l' :=
  { h with eq := hl.trans h.eq }

theorem Unlinked.of_eq (h : Unlinked t m g l) (hf : l'.first = l.first) : Unlinked t m g l' where
  first := h.first.of_eq hf
  lt_hd := h.lt_hd
  record := by simpa only [HasRecord, hf] using h.record

theorem Safe.of_eq (h : Safe t m g l) (hf : l'.first = l.first) : Safe t m g l' :=
  ⟨h.unlinked.of_eq hf, h.quiet⟩

end Locals

section Stable

variable {t u : Fin n} {m m' : Mem n} {g g' : History n} {l : Local} {i : Nat}

theorem Status.stable (h : Status t m g l) (hr : Rely t m g m' g') : Status t m' g' l where
  body := hr.body.trans h.body
  hold := hr.frame.hold.trans h.hold
  pend := by rw [hr.frame.pend, hr.iFirst]; exact h.pend
  size := by rw [hr.frame.freeList, hr.frame.free]; exact h.size
  retired := by rw [hr.retired, hr.recOf]; exact h.retired
  count := by rw [hr.retiredCount]; exact h.count
  args := h.args

theorem First.stable (h : First t g l) (hr : Rely t m g m' g') : First t g' l where
  eq := by rw [hr.iFirst, hr.frame.node _ h.lt_len]; exact h.eq
  start_le := by rw [hr.start, hr.iFirst]; exact h.start_le
  le_hd := by rw [hr.iFirst]; exact h.le_hd.trans hr.frame.hd_le
  lt_len := by rw [hr.iFirst]; exact h.lt_len.trans_le hr.frame.len_le

theorem Last.stable (h : Last t g l) (hr : Rely t m g m' g') : Last t g' l where
  eq := by rw [hr.iLast, hr.frame.node _ h.lt_len]; exact h.eq
  start_le := by rw [hr.start, hr.iLast]; exact h.start_le
  le_tl := by rw [hr.iLast]; exact h.le_tl.trans hr.tl_le
  lt_len := by rw [hr.iLast]; exact h.lt_len.trans_le hr.frame.len_le

theorem NextOf.stable (h : NextOf g l i) (hr : Rely t m g m' g') : NextOf g' l i := by
  intro p hp
  obtain ⟨hlt, rfl⟩ := h p hp
  exact ⟨hlt.trans_le hr.frame.len_le, (hr.frame.node _ hlt).symm⟩

theorem Ready.stable (h : Ready m l) (hold : g.lay.hold t = l.n) (hr : Rely t m g m' g') :
    Ready m' l := by
  obtain ⟨p, hp, hheap⟩ := h
  exact ⟨p, hp, by rw [hr.frame.heap_hold p (hold.trans hp)]; exact hheap⟩

theorem Successor.stable (h : Successor t g l) (hr : Rely t m g m' g') : Successor t g' l where
  first := h.first.stable hr
  last := h.last.stable hr
  lt := by rw [hr.iFirst, hr.iLast]; exact h.lt
  succ_lt := by rw [hr.iFirst]; exact h.succ_lt.trans_le hr.frame.len_le
  next := by rw [hr.iFirst, hr.frame.node _ h.succ_lt]; exact h.next

theorem HasRecord.stable (h : HasRecord t m g l) (hr : Rely t m g m' g') :
    HasRecord t m' g' l := by
  obtain ⟨r, hrec, heq⟩ := h
  exact ⟨r, hr.recOf.trans hrec, by rw [hr.records r hrec]; exact heq⟩

theorem Unlinked.stable (h : Unlinked t m g l) (hr : Rely t m g m' g') : Unlinked t m' g' l where
  first := h.first.stable hr
  lt_hd := by rw [hr.iFirst]; exact h.lt_hd.trans_le hr.frame.hd_le
  record := h.record.stable hr

/-- A thread stays quiet: an operation it begins later begins after the unlinking. -/
theorem Quiet.stable (h : Quiet t g u) (hlt : g.iFirst t < g.lay.hd) (hu : u ≠ t)
    (hr : Rely t m g m' g') : Quiet t g' u := by
  intro hb
  rw [hr.iFirst]
  -- `u` goes on with its operation, has ended it, or has begun one after the unlinking
  rcases hr.epoch u hu with ⟨-, hbody, hstart⟩ | hbody | hstart
  · rw [hstart]; exact h (hbody ▸ hb)
  · rw [hbody] at hb; cases hb
  · omega

theorem Scanning.stable (h : Scanning t m g l) (hr : Rely t m g m' g') : Scanning t m' g' l where
  unlinked := h.unlinked.stable hr
  passed := fun u hu hlt => (h.passed u hu hlt).stable h.unlinked.lt_hd hu hr

theorem Safe.stable (h : Safe t m g l) (hr : Rely t m g m' g') : Safe t m' g' l where
  unlinked := h.unlinked.stable hr
  quiet := fun u hu => (h.quiet u hu).stable h.unlinked.lt_hd hu hr

/-- A counter that has moved on from an odd value belongs to a quiet thread. -/
theorem Quiet.of_moved {v : UInt64} (h : m.ctr u ≠ v → Quiet t g u) (hlt : g.iFirst t < g.lay.hd)
    (hu : u ≠ t) (hr : Rely t m g m' g') : m'.ctr u ≠ v → Quiet t g' u := by
  intro hne hb
  rw [hr.iFirst]
  rcases hr.epoch u hu with ⟨hctr, hbody, hstart⟩ | hbody | hstart
  · rw [hstart]; exact h (hctr ▸ hne) (hbody ▸ hb)
  · rw [hbody] at hb; cases hb
  · omega

theorem outline_stable (hs : Status t m g l) (h : outline t m g l) (hr : Rely t m g m' g') :
    outline t m' g' l := by
  have hhold := hs.hold
  unfold Local.holding at hhold
  unfold outline at h ⊢
  cases hpc : l.pc with
  | idle => trivial
  | opBegin => trivial
  | upcylce pc =>
      simp only [hpc] at h ⊢
      cases pc with
      | loadHead => trivial
      | loadNext =>
          obtain ⟨p, rest, hn, hfree⟩ := h
          exact ⟨p, rest, hn, hr.frame.free.trans hfree⟩
      | storeHead =>
          obtain ⟨p, rest, hn, hfree, htmp⟩ := h
          have hheap := hr.frame.heap_free p (by simp [hfree])
          exact ⟨p, rest, hn, hr.frame.free.trans hfree, by rw [hheap]; exact htmp⟩
      | size => exact h
  | make pc =>
      simp only [hpc] at h ⊢
      cases pc <;> exact h
  | enq pc =>
      simp only [hpc] at h hhold ⊢
      cases pc with
      | data => exact h
      | next =>
          obtain ⟨p, hn, hdata⟩ := h
          exact ⟨p, hn, by rw [hr.frame.heap_hold p (hhold.trans hn)]; exact hdata⟩
      | loadTail => exact h.stable hhold hr
      | loadNext => exact ⟨h.1.stable hhold hr, h.2.stable hr⟩
      | reload =>
          obtain ⟨hready, hlast, hnext⟩ := h
          exact ⟨hready.stable hhold hr, hlast.stable hr, hr.iLast ▸ hnext.stable hr⟩
      | link => exact ⟨h.1.stable hhold hr, h.2.stable hr⟩
      -- the node is linked by now, so its number is assigned for good
      | swing =>
          obtain ⟨hlast, hlt, hn⟩ := h
          refine ⟨hlast.stable hr, ?_, ?_⟩
          · rw [hr.iLast]; exact hlt.trans_le hr.frame.len_le
          · rw [hr.iLast, hr.frame.node _ hlt]; exact hn
      | help =>
          obtain ⟨hready, hlast, hnext, hne⟩ := h
          exact ⟨hready.stable hhold hr, hlast.stable hr, hr.iLast ▸ hnext.stable hr, hne⟩
  | deq pc =>
      simp only [hpc] at h ⊢
      cases pc with
      | loadHead => trivial
      | loadTail => exact h.stable hr
      | loadNext =>
          obtain ⟨hfirst, hlast, hle⟩ := h
          exact ⟨hfirst.stable hr, hlast.stable hr, by rw [hr.iFirst, hr.iLast]; exact hle⟩
      | reload =>
          obtain ⟨hfirst, hlast, hle, hnext, hnull⟩ := h
          rw [hr.iFirst, hr.iLast]
          exact ⟨hfirst.stable hr, hlast.stable hr, hle, hnext.stable hr, hnull⟩
      | help =>
          obtain ⟨hfirst, hlast, heq, hnext, hne⟩ := h
          rw [hr.iFirst, hr.iLast]
          exact ⟨hfirst.stable hr, hlast.stable hr, heq, hnext.stable hr, hne⟩
      | loadData => exact h.stable hr
      | cas =>
          refine ⟨h.1.stable hr, ?_⟩
          rw [hr.iFirst, hr.frame.val _ h.1.succ_lt]
          exact h.2
      | writeOut =>
          exact ⟨h.1.stable hr, by rw [hr.iFirst]; exact h.2.trans_le hr.frame.hd_le⟩
  | retire pc =>
      simp only [hpc] at h ⊢
      cases pc with
      -- `head` only moves further away from the unlinked node
      | malloc => exact ⟨h.1.stable hr, by rw [hr.iFirst]; exact h.2.trans_le hr.frame.hd_le⟩
      | node =>
          rw [hr.iFirst, hr.recOf]
          exact ⟨h.1.stable hr, h.2.1.trans_le hr.frame.hd_le, h.2.2⟩
      | next =>
          obtain ⟨hfirst, hlt, r, hlr, hrec, hnode⟩ := h
          refine ⟨hfirst.stable hr, by rw [hr.iFirst]; exact hlt.trans_le hr.frame.hd_le, r, hlr,
            hr.recOf.trans hrec, ?_⟩
          -- the record is `recOf t`, which no other thread writes to
          rw [hr.records r hrec]
          exact hnode
      | push => exact ⟨h.1.stable hr, h.2.trans hr.recOf.symm⟩
      | count => exact h.stable hr
  | opEnd pc =>
      simp only [hpc] at h ⊢
      exact fun ht => (h ht).stable hr
  | wait pc =>
      simp only [hpc] at h ⊢
      cases pc with
      | load => exact h.stable hr
      | spin =>
          obtain ⟨hscan, hodd, hlt, hne, hmoved⟩ := h
          exact ⟨hscan.stable hr, hodd, hlt, hne,
            Quiet.of_moved hmoved hscan.unlinked.lt_hd hne hr⟩
  | reclaim pc =>
      simp only [hpc] at h ⊢
      cases pc with
      | load => exact h.stable hr
      | clear => exact ⟨h.1.stable hr, h.2.trans hr.recOf.symm⟩
      | count => exact ⟨h.1.stable hr, h.2.trans hr.recOf.symm⟩
      | loop => exact h.imp_right fun h => ⟨h.1.stable hr, h.2.trans hr.recOf.symm⟩
      | free => exact h
  | recycle pc =>
      simp only [hpc] at h hhold ⊢
      cases pc with
      | next => exact ⟨h.1.stable hr, h.2⟩
      | head =>
          -- the node is on its way to the free list and held by `t` alone
          obtain ⟨hlr, hnxt, p, hnode, hnext⟩ := h
          refine ⟨hlr, hnxt, p, hnode, ?_⟩
          rw [hr.frame.heap_hold p (hhold.trans hnode), hr.frame.freeList]
          exact hnext
      | size => exact h
      | count => exact h
  | ret => trivial

theorem Own.stable (h : Own t m g l) (hr : Rely t m g m' g') : Own t m' g' l :=
  ⟨h.status.stable hr, outline_stable h.status h.here hr⟩

end Stable

end ConcurrentQueues.Ex5
