import QueuePair.Proofs.Pair.Agreement

namespace QueuePair

open World

namespace World

/-- Some thread that finished the connection of a side came back well. Every such client keeps the
raise of the gate that it took, and a server gives its own back. -/
def Finalized (w : World) (r : Role) : Prop :=
  ∃ t < w.threads.length, w.finalizing r t = true ∧ w.returned t = true

instance (w : World) (r : Role) : Decidable (w.Finalized r) :=
  inferInstanceAs (Decidable (∃ t < w.threads.length, _ ∧ _))

theorem Finalized.thread {w : World} {r : Role} (h : w.Finalized r) :
    ∃ (t : ThreadId) (th : Thread) (e : Value), w.threads[t]? = some th ∧
      th.origin.finalizes = some r ∧
      th.task = .ended (.returned (.ok e)) := by
  obtain ⟨t, -, hf, hret⟩ := h
  simp only [finalizing, Option.any_eq_true, decide_eq_true_eq] at hf
  obtain ⟨th, ht, ho⟩ := hf
  obtain ⟨e, htask⟩ := Pair.returned_eq ht hret
  exact ⟨t, th, e, ht, ho, htask⟩

end World

namespace Pair

variable {P : Pair} {w v : World} {t : ThreadId} {th : Thread} {r : Role}

theorem Rests.due_gate (h : P.Rests w th) :
    P.due th .gate = th.passed ∨
      (w.kernel.gauge P.keys .gate ≠ 0 ∧ P.due th .gate = 1 ∧ th.passed = 0) := by
  cases h with
  | other ho hg =>
    left
    simp [due, hg]
  | awaitZero hne =>
    right
    refine ⟨hne, ?_, ?_⟩ <;>
      simp [due, Thread.passed, Task.outcome?, Task.gate, Finalizing.gate, Mailbox.Rendezvous.gate]
  | awaitBoth | takeGate | takeLast | ended =>
    left
    simp [due, Task.gate, Finalizing.gate, Mailbox.Rendezvous.gate]

theorem tally_gate (h : ∀ th ∈ w.threads, P.due th .gate = th.passed) :
    tally (P.due · .gate) w.threads = tally Thread.passed w.threads :=
  congrArg List.sum (List.map_congr_left h)

theorem Law.spent (h : P.Law w) (hi : w.Idle) (hq : w.Queued)
    (hp : 1 ≤ tally Thread.passed w.threads) :
    tally (P.due · .gate) w.threads = tally Thread.passed w.threads := by
  refine tally_gate fun th hm => ?_
  obtain ⟨t, ht⟩ := List.mem_iff_getElem?.mp hm
  refine (h.rests hi hq ht).due_gate.resolve_right ?_
  rintro ⟨hne, hdue, hnot⟩
  obtain ⟨u, thu, hut, hu, hpu⟩ := exists_of_lt_tally (f := Thread.passed) ht (by omega)
  have htwo := add_le_tally (f := (P.due · .gate)) ht hu hut.symm
  have hle : thu.passed ≤ P.due thu .gate := Nat.le_add_left _ _
  have hl := h.ledger .gate
  have hs := connected_le (P := P) w .server
  have hc := connected_le (P := P) w .client
  simp only [stock, total] at hl
  omega

theorem Law.gate_open (h : P.Law w) (hi : w.Idle) (hq : w.Queued)
    (hs : 1 ≤ P.connected w .server) (hc : 1 ≤ P.connected w .client)
    (hp : tally Thread.passed w.threads ≤ 1) : 1 ≤ w.kernel.gauge P.keys .gate := by
  by_contra hz
  have hspent : tally (P.due · .gate) w.threads = tally Thread.passed w.threads :=
    tally_gate fun th hm => by
      obtain ⟨t, ht⟩ := List.mem_iff_getElem?.mp hm
      exact (h.rests hi hq ht).due_gate.resolve_right fun hr => hr.1 (by omega)
  have hl := h.ledger .gate
  simp only [stock, total] at hl
  omega

/-- However often both sides of a pair have finished their connection, an idle pair has lost one
raise for every client that came back well. So the gate is free exactly if one of them did. -/
theorem gate_after_finalizing (hb : P.Begins w) (hr : Run Input.Peaceful w v) (hi : v.Idle)
    (hs : v.Finalized .server) (hc : v.Finalized .client) :
    v.kernel.gauge P.keys .gate + tally Thread.passed v.threads = 2 ∧
    (v.kernel.gauge P.keys .gate = 1 ↔ tally Thread.passed v.threads = 1) := by
  obtain ⟨hl, hq⟩ := hb.run hr
  have hconn : ∀ {r}, v.Finalized r → P.connected v r = 1 := by
    intro r hf
    obtain ⟨t, th, e, ht, ho, htask⟩ := hf.thread
    have hone := (hl.finalizer hi hq (hb.sound hr ht) ht ho).resolve_right
      (by rw [htask]; exact Bool.false_ne_true)
    have hle := connected_le (P := P) v r
    omega
  obtain ⟨t, th, e, ht, ho, htask⟩ := hc.thread
  have hpassed : th.passed = 1 := by simp [Thread.passed, ho, htask, Task.outcome?, Outcome.isOk]
  have hle := le_tally (f := Thread.passed) (List.mem_of_getElem? ht)
  have hspent := hl.spent hi hq (by omega)
  have hledger := hl.ledger .gate
  simp only [stock, total, hspent, hconn hs, hconn hc] at hledger
  omega

/-- Both sides of the small pair connect and finish once. -/
def finalizing : List Input :=
  joining ++ [.operate 0 .finalizeAccept] ++ List.replicate 6 (.run 6) ++
    [.operate 1 .finalizeConnect] ++ List.replicate 6 (.run 7) ++ List.replicate 2 (.run 6) ++
    [.run 1, .run 2, .run 4, .run 5]

theorem gate_once_finalized : (newborn.play finalizing).kernel.gauge small.keys .gate = 1 := by
  have hr : Run Input.Peaceful newborn (newborn.play finalizing) :=
    Run.refl.play (by decide +kernel)
  have hi : (newborn.play finalizing).Idle := by decide +kernel
  obtain ⟨-, hiff⟩ := gate_after_finalizing newborn_begins hr hi (by decide +kernel)
    (by decide +kernel)
  exact hiff.mpr (by decide +kernel)

/-- The client of the small pair finishes once more, and then nothing can pass the gate. -/
theorem gate_lost : ∃ v, Run Input.Peaceful newborn v ∧ v.Idle ∧ v.Finalized .server ∧
    v.Finalized .client ∧ v.kernel.gauge small.keys .gate = 0 :=
  ⟨newborn.play (finalizing ++ [.operate 1 .finalizeConnect] ++ List.replicate 6 (.run 8)),
    Run.refl.play (by decide +kernel), by decide +kernel⟩

end Pair

end QueuePair
