import QueuePair.Proofs.Pair.Runs

namespace QueuePair

open World

namespace Task

/-- A sender that took the vacancy and has not yet raised its signal. -/
def sending : Task → Nat
  | .sender _ _ s => s.token
  | _ => 0

/-- A receiver that took a signal and has not yet given the vacancy back. -/
def receiving : Task → Nat
  | .receiver _ _ s => s.token
  | _ => 0

def making : Task → Nat
  | .call _ (.connecting _ s) => s.token
  | _ => 0

theorem token_eq (task : Task) : task.token = task.sending + task.receiving + task.making := by
  cases task with
  | call owner c => cases c <;> simp [token, sending, receiving, making]
  | _ => simp [token, sending, receiving, making]

end Task

theorem Sender.gate_le_token (s : Sender) : s.gate ≤ s.token := by
  cases s with
  | publish _ _ p => cases p <;> exact of_decide_eq_true rfl
  | _ => exact of_decide_eq_true rfl

theorem Receiver.gate_le_token (s : Receiver) : s.gate ≤ s.token := by
  cases s with
  | discard c | collect _ _ c => cases c <;> exact of_decide_eq_true rfl
  | _ => exact of_decide_eq_true rfl

theorem Task.token_of_copies {task : Task} (h : task.copies = true) : 1 ≤ task.token := by
  cases task with
  | sender p l s =>
    have hs : s.gate = 1 := of_decide_eq_true h
    exact hs ▸ s.gate_le_token
  | receiver p l s =>
    have hs : s.gate = 1 := of_decide_eq_true h
    exact hs ▸ s.gate_le_token
  | _ => cases h

theorem tally_token (ths : List Thread) :
    tally (·.task.token) ths = tally (·.task.sending) ths + tally (·.task.receiving) ths +
      tally (·.task.making) ths := by
  induction ths with
  | nil => rfl
  | cons th ths ih =>
    have ht := th.task.token_eq
    simp only [tally, List.map_cons, List.sum_cons] at ih ⊢
    omega

namespace Pair

variable {P : Pair} {w v : World}

def Marked (P : Pair) (w : World) : Prop :=
  (w.kernel.setOf? P.keys.mailbox).isSome = true ∧ ∀ th ∈ w.threads, th.task.making = 0

instance (P : Pair) (w : World) : Decidable (P.Marked w) :=
  inferInstanceAs (Decidable (_ ∧ _))

theorem Law.one_token (h : P.Law w) (hm : P.Marked w) :
    w.kernel.gauge P.keys .vacancy + tally (·.task.sending) w.threads +
      w.kernel.gauge P.keys (.signal .server) + w.kernel.gauge P.keys (.signal .client) +
      tally (·.task.receiving) w.threads = 1 := by
  have hl := h.ledger .token
  have hmaking : tally (·.task.making) w.threads = 0 := tally_eq_zero hm.2
  have hsplit := tally_token w.threads
  simp only [stock, due, total, hm.1, if_true] at hl
  omega

theorem Law.exclusive {t u : ThreadId} {th th' : Thread} (h : P.Law w)
    (ht : w.threads[t]? = some th) (hu : w.threads[u]? = some th')
    (hc : th.task.copies = true) (hc' : th'.task.copies = true) : t = u := by
  by_contra hne
  have hl := h.ledger .token
  have hboth := add_le_tally (f := (·.task.token)) ht hu hne
  have ht' := Task.token_of_copies hc
  have hu' := Task.token_of_copies hc'
  have hone : (if (w.kernel.setOf? P.keys.mailbox).isSome = true then 1 else 0) ≤ 1 := by
    split <;> omega
  simp only [stock, due, total] at hl
  omega

/-- However the threads of a pair interleave, its counters and workers have exactly one token
between them as soon as the mailbox is marked vacant, and never do two threads copy at once. -/
theorem token_and_exclusion (hb : P.Begins w) (hr : Run Input.Peaceful w v) :
    (P.Marked v →
      v.kernel.gauge P.keys .vacancy + tally (·.task.sending) v.threads +
        v.kernel.gauge P.keys (.signal .server) + v.kernel.gauge P.keys (.signal .client) +
        tally (·.task.receiving) v.threads = 1) ∧
    ∀ (t u : ThreadId) (th th' : Thread), v.threads[t]? = some th → v.threads[u]? = some th' →
      th.task.copies = true → th'.task.copies = true → t = u := by
  obtain ⟨hlaw, -⟩ := hb.run hr
  exact ⟨hlaw.one_token, fun t u th th' ht hu hc hc' => hlaw.exclusive ht hu hc hc'⟩

/-- The small pair in the middle of the client's first copy. -/
def copying : World :=
  newborn.play (joining ++ [.operate 1 (.postSend (.ofBytes [1, 2]) .caller)] ++
    List.replicate 5 (.run 6) ++ List.replicate 3 (.run 4))

/-- The gate would let another thread through, but the copying sender has the token. -/
theorem token_while_copying : small.Marked copying ∧ copying.kernel.gauge small.keys .gate = 1 ∧
    copying.threads[4]?.any (·.task.copies) = true ∧
    copying.kernel.gauge small.keys .vacancy + tally (·.task.sending) copying.threads +
      copying.kernel.gauge small.keys (.signal .server) +
      copying.kernel.gauge small.keys (.signal .client) +
      tally (·.task.receiving) copying.threads = 1 := by
  have hm : small.Marked copying := by decide +kernel
  have hr : Run Input.Peaceful newborn copying := Run.refl.play (by decide +kernel)
  exact ⟨hm, by decide +kernel, by decide +kernel,
    (token_and_exclusion newborn_begins hr).1 hm⟩

end Pair

end QueuePair
