import ConcurrentQueues.Versions
import ConcurrentQueues.Histories

/-! Sequential histories of the four implementations. -/

namespace ConcurrentQueues

open Reasoning

/-- **Sequential histories agree.**  Two implementations that execute the same calls one after the
other return the same results and have the same main list, the same free lists with the same sizes
and the same insertion counts; `tail` is at the last node, or in Ex5 perhaps one before it.  Every
implementation can execute every sequence of calls: each call returns, whatever `malloc` puts into
a new node, as long as no weak CAS fails spuriously. -/
theorem sequential_histories_agree (n v w : Nat) :
    (∀ hs ks s u, (version n v).Serial hs s → (version n w).Serial ks u →
      hs.map Prod.fst = ks.map Prod.fst →
      hs = ks ∧
        (∀ t, (version n v).insertions s.mem t (s.th t) =
          (version n w).insertions u.mem t (u.th t)) ∧
        ∃ k, ((version n v).store s.mem).Carries k ∧ ((version n w).store u.mem).Carries k ∧
          ((version n v).store s.mem).TailWithin k (if v = 5 then 1 else 0) ∧
          ((version n w).store u.mem).TailWithin k (if w = 5 then 1 else 0)) ∧
    (∀ rs, ∃ hs s, (version n v).Serial hs s ∧ hs.map Prod.fst = rs) ∧
    ∀ hs s, (version n v).Serial hs s → ∀ t op b c,
      ∃ s', fire (version n v).step s (t, (version n v).calling op b c) = some s' ∧
        Returns (version n v).step
          (fun c => (version n v).allocates c = true ∧ (version n v).spurious c = false)
          (fun l => (version n v).idle l = true) t s' := by
  obtain ⟨C, hlag⟩ := exists_correct n v
  obtain ⟨D, hlag'⟩ := exists_correct n w
  refine ⟨fun hs ks s u hser hser' hreq => ?_, C.exists_serial, fun hs s hser t op b c => ?_⟩
  · obtain ⟨hresults, g, hbetween⟩ := C.serial_replay hser
    obtain ⟨hresults', g', hbetween'⟩ := D.serial_replay hser'
    rw [← hreq] at hresults' hbetween'
    refine ⟨?_, fun t => ?_, (replay (hs.map Prod.fst)).nodes, ?_, ?_, ?_, ?_⟩
    · calc
        hs = (hs.map Prod.fst).zip (hs.map Prod.snd) := List.zip_of_prod rfl rfl
        _ = (ks.map Prod.fst).zip (ks.map Prod.snd) := by rw [hresults, hresults', hreq]
        _ = ks := (List.zip_of_prod rfl rfl).symm
    · rw [hbetween.insertions, hbetween'.insertions]
    · exact hbetween.nodes ▸ C.carries hbetween.inv hbetween.quiet
    · exact hbetween'.nodes ▸ D.carries hbetween'.inv hbetween'.quiet
    · exact hlag ▸ hbetween.nodes ▸ C.tail hbetween.inv hbetween.quiet
    · exact hlag' ▸ hbetween'.nodes ▸ D.tail hbetween'.inv hbetween'.quiet
  · obtain ⟨-, g, hbetween⟩ := C.serial_replay hser
    exact C.call_returns hbetween.inv hbetween.quiet t op b c

/-- Thread 1 dequeues what thread 0 has enqueued and reuses the node; Ex5 and Ex4 keep the same
lists. -/
theorem sequential_histories_agree_handover :
    ∃ (hs : List (Request 2 × Res Value)) (s : (version 2 5).State) (u : (version 2 4).State),
      (version 2 5).Serial hs s ∧ (version 2 4).Serial hs u ∧
      hs.map Prod.fst =
        [⟨0, .enq 7, true⟩, ⟨1, .deq 0, true⟩, ⟨1, .enq 8, false⟩, ⟨0, .deq 0, true⟩,
          ⟨0, .deq 0, true⟩] ∧
      hs.map Prod.snd = [.enq 1, .deq 1 7, .enq 1, .deq 1 8, .deq 0 0] ∧
      ∃ k, ((version 2 5).store s.mem).Carries k ∧ ((version 2 4).store u.mem).Carries k := by
  let rs : List (Request 2) :=
    [⟨0, .enq 7, true⟩, ⟨1, .deq 0, true⟩, ⟨1, .enq 8, false⟩, ⟨0, .deq 0, true⟩,
      ⟨0, .deq 0, true⟩]
  obtain ⟨hs, s, hser, hreq⟩ := (sequential_histories_agree 2 5 4).2.1 rs
  obtain ⟨ks, u, hser', hreq'⟩ := (sequential_histories_agree 2 4 5).2.1 rs
  obtain ⟨rfl, -, k, hk, hk', -⟩ :=
    (sequential_histories_agree 2 5 4).1 hs ks s u hser hser' (hreq.trans hreq'.symm)
  obtain ⟨C, -⟩ := exists_correct 2 5
  have hresults := (C.serial_replay hser).1
  rw [hreq] at hresults
  exact ⟨hs, s, u, hser, hser', hreq, hresults, k, hk, hk'⟩

end ConcurrentQueues
