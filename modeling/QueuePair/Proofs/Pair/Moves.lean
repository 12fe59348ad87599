import QueuePair.Proofs.Pair.Serving

namespace QueuePair

open World

namespace Pair

variable (P : Pair)

/-- What a connecting thread does after its connection stands or failed. -/
def opened (r : Role) : Except Error Unit → Task
  | .ok () =>
    if r.isServer then .call (some (P.id r)) (.readingState (P.party r))
    else .leaving (P.id r) .release (.returned (.ok .unit))
  | .error e => .leaving (P.id r) .release (.returned (.error e))

/-- The steps of a thread in which it gets an answer. -/
inductive Moves (w : World) (t : ThreadId) : Thread → World → Thread → Prop
  | sender {r : Role} {l : Link} {s s' : Sender} {v : World} : P.Bound w.kernel r l →
      P.SenderFit r s → P.Sends r l w t s v s' →
      Moves w t ⟨.sender (P.party r) l .fetch, .sender (P.party r) l s, []⟩ v
        ⟨.sender (P.party r) l .fetch, .sender (P.party r) l s', []⟩
  | receiver {r : Role} {l : Link} {s s' : Receiver} {v : World} : P.Bound w.kernel r l →
      ReceiverFit s → P.Receives r l w t s v s' →
      Moves w t ⟨.receiver (P.party r) l .await, .receiver (P.party r) l s, []⟩ v
        ⟨.receiver (P.party r) l .await, .receiver (P.party r) l s', []⟩
  | connect {r : Role} {s s' : Connecting} {v : World} : P.ConnectingFit w.kernel r s →
      P.Connects r w t s v (.more s') →
      Moves w t ⟨.call (some (P.id r)) (.connecting (P.party r) .lock),
          .call (some (P.id r)) (.connecting (P.party r) s), []⟩ v
        ⟨.call (some (P.id r)) (.connecting (P.party r) .lock),
          .call (some (P.id r)) (.connecting (P.party r) s'), []⟩
  | connected {r : Role} {s : Connecting} {v : World} {e : Except Error Unit} :
      P.ConnectingFit w.kernel r s → P.Connects r w t s v (.done e) →
      Moves w t ⟨.call (some (P.id r)) (.connecting (P.party r) .lock),
          .call (some (P.id r)) (.connecting (P.party r) s), []⟩ v
        ⟨.call (some (P.id r)) (.connecting (P.party r) .lock), P.opened r e, []⟩
  | finalize {r : Role} {s s' : Finalizing} {v : World} : P.FinalizingFit w.kernel r s →
      P.Finishes r w s v (.more s') →
      Moves w t ⟨.call (some (P.id r)) (.finalizing (P.party r) .check),
          .call (some (P.id r)) (.finalizing (P.party r) s), []⟩ v
        ⟨.call (some (P.id r)) (.finalizing (P.party r) .check),
          .call (some (P.id r)) (.finalizing (P.party r) s'), []⟩
  | finalized {r : Role} {s : Finalizing} {v : World} {e : Except Error Unit} :
      P.FinalizingFit w.kernel r s → P.Finishes r w s v (.done e) →
      Moves w t ⟨.call (some (P.id r)) (.finalizing (P.party r) .check),
          .call (some (P.id r)) (.finalizing (P.party r) s), []⟩ v
        ⟨.call (some (P.id r)) (.finalizing (P.party r) .check),
          .leaving (P.id r) .release (.returned (Call.unit e)), []⟩
  | call {o : Task} {r : Role} {c c' : Call} {v : World} : o.finalizes = none → P.Serving r c →
      P.Serves r w c v (.more c') →
      Moves w t ⟨o, .call (some (P.id r)) c, []⟩ v ⟨o, .call (some (P.id r)) c', []⟩
  | called {o : Task} {r : Role} {c : Call} {v : World} {e : Result} : o.finalizes = none →
      P.Serving r c → P.Serves r w c v (.done e) →
      Moves w t ⟨o, .call (some (P.id r)) c, []⟩ v ⟨o, .leaving (P.id r) .release (.returned e), []⟩
  | callback {o task : Task} {r : Role} {c : Callback} {cs : List Callback} {command : String}
      {call call' : Call} {rest : Script} {v : World} : P.Fit w.kernel ⟨o, task, c :: cs⟩ →
      task.owner? = some (P.id r) → P.CallbackFit r c → c.state = .running command call rest →
      P.Serves r w call v (.more call') →
      Moves w t ⟨o, task, c :: cs⟩ v
        ⟨o, task, { c with state := .running command call' rest } :: cs⟩
  | ended {o task : Task} {r : Role} {c : Callback} {cs : List Callback} {command : String}
      {call : Call} {e : Result} {rest : Script} {v : World} : P.Fit w.kernel ⟨o, task, c :: cs⟩ →
      task.owner? = some (P.id r) → P.CallbackFit r c → c.state = .running command call rest →
      P.Serves r w call v (.done e) →
      Moves w t ⟨o, task, c :: cs⟩ v ⟨o, task, { c with state := .ended command e rest } :: cs⟩
  | acted {o task : Task} {r : Role} {c : Callback} {cs : List Callback} {command : String}
      {e : Result} {rest : Script} : P.Fit w.kernel ⟨o, task, c :: cs⟩ →
      task.owner? = some (P.id r) → P.CallbackFit r c → c.state = .ended command e rest →
      Moves w t ⟨o, task, c :: cs⟩ (w.note (P.id r) (.acted c.lane c.id c.index command e))
        ⟨o, task, ((CallbackState.ofScript c.party c.id c.payload rest).map fun s =>
          { c with index := c.index + 1, state := s }).toList ++ cs⟩
  | release {o : Task} {r : Role} {out : Outcome} {x : Endpoint} :
      w.endpoints[P.id r]? = some x → x.owners ≠ 1 →
      Moves w t ⟨o, .leaving (P.id r) .release out, []⟩
        (w.putEndpoint (P.id r) { x with owners := x.owners - 1 }) ⟨o, .ended out, []⟩

variable {P} {r : Role} {w v : World} {t : ThreadId}

theorem Fit.callbacks {k : Kernel} {o task : Task} {cs : List Callback}
    (h : P.Fit k ⟨o, task, cs⟩) :
    cs = [] ∨ ∃ r, task.owner? = some (P.id r) ∧ ∀ c ∈ cs, P.CallbackFit r c := by
  cases h with
  | sender _ _ hc _ | receiver _ _ hc _ => exact .inr ⟨_, rfl, hc⟩
  | _ => exact .inl rfl

theorem next_task (o task : Task) :
    Thread.next ⟨o, task, []⟩ = task.next.map fun task => ⟨o, task, []⟩ := rfl

theorem next_callback (o task : Task) (c : Callback) (cs : List Callback) :
    Thread.next ⟨o, task, c :: cs⟩ = c.next.map fun c => ⟨o, task, c.toList ++ cs⟩ := rfl

theorem moves_of_callback {o task : Task} {c : Callback} {cs : List Callback} {th' : Thread}
    (he : ∀ r x, w.endpoints[P.id r]? = some x → P.EndFit w.kernel r x)
    (hf : P.Fit w.kernel ⟨o, task, c :: cs⟩)
    (h : w.After t (Thread.next ⟨o, task, c :: cs⟩) v th') :
    P.Moves w t ⟨o, task, c :: cs⟩ v th' := by
  obtain ⟨r, ho, hc⟩ := hf.callbacks.resolve_left (by simp)
  have hcf := hc c (by simp)
  rw [next_callback] at h
  obtain ⟨c', h₁, rfl⟩ := h.of_map
  obtain ⟨p, lane, id, payload, index, state⟩ := c
  cases state with
  | running command call rest =>
    obtain ⟨f, h₂, rfl⟩ := h₁.of_map
    have hs := serves_of_after (he r) hcf.state.1 h₂
    cases f with
    | more call' => exact .callback hf ho hcf rfl hs
    | done e => exact .ended hf ho hcf rfl hs
  | ended command e rest =>
    obtain ⟨a, rfl, rfl⟩ := h₁
    have hp : p = P.party r := hcf.party
    subst hp
    exact .acted hf ho hcf rfl
  | panicking => exact h₁.elim

theorem moves_of_after {th th' : Thread} (hk : w.kernel.Intact P.keys)
    (he : ∀ r x, w.endpoints[P.id r]? = some x → P.EndFit w.kernel r x)
    (hown : ∀ r x, w.endpoints[P.id r]? = some x → th.task.owner? = some (P.id r) → x.owners ≠ 1)
    (hf : P.Fit w.kernel th) (h : w.After t th.next v th') : P.Moves w t th v th' := by
  have hf' := hf
  cases hf with
  | @sender r l s cs hl hs hc ht =>
    cases cs with
    | cons c cs => exact moves_of_callback he hf' h
    | nil =>
      rw [next_task] at h
      obtain ⟨task, h₁, rfl⟩ := h.of_map
      obtain ⟨f, h₂, rfl⟩ := h₁.of_map
      obtain ⟨s', rfl, hm⟩ := sends_of_after hk (he r) hl hs h₂
      exact .sender hl hs hm
  | @receiver r l s cs hl hs hc ht =>
    cases cs with
    | cons c cs => exact moves_of_callback he hf' h
    | nil =>
      rw [next_task] at h
      obtain ⟨task, h₁, rfl⟩ := h.of_map
      obtain ⟨f, h₂, rfl⟩ := h₁.of_map
      obtain ⟨s', rfl, hm⟩ := receives_of_after hk hl hs h₂
      exact .receiver hl hs hm
  | @connecting r s hs =>
    rw [next_task] at h
    obtain ⟨task, h₁, rfl⟩ := h.of_map
    obtain ⟨f, h₂, rfl⟩ := h₁.of_map
    obtain ⟨g, h₃, rfl⟩ := h₂.of_map
    have hc := connects_of_after hk hs h₃
    cases g with
    | more s' => exact .connect hs hc
    | done e =>
      have hm := Moves.connected hs hc
      cases e with
      | error e => exact hm
      | ok a =>
        simp only [opened] at hm
        simp only [Flow.elim, party_settings, P.role_settings]
        cases hsr : r.isServer <;> rw [hsr] at hm <;> exact hm
  | @finalizing r s hs =>
    rw [next_task] at h
    obtain ⟨task, h₁, rfl⟩ := h.of_map
    obtain ⟨f, h₂, rfl⟩ := h₁.of_map
    obtain ⟨g, h₃, rfl⟩ := h₂.of_map
    have hc := finishes_of_after hk (he r) hs h₃
    cases g with
    | more s' => exact .finalize hs hc
    | done e => exact .finalized hs hc
  | @call o r c ho hc =>
    rw [next_task] at h
    obtain ⟨task, h₁, rfl⟩ := h.of_map
    obtain ⟨f, h₂, rfl⟩ := h₁.of_map
    have hs := serves_of_after (he r) hc h₂
    cases f with
    | more c' => exact .call ho hc hs
    | done e => exact .called ho hc hs
  | @leaving o r out =>
    rw [next_task] at h
    obtain ⟨task, h₁, rfl⟩ := h.of_map
    have h₂ : w.After t ((Leaving.next (P.id r) .release).through
      (fun s => Task.leaving (P.id r) s out) fun () => .ended out) v task := h₁
    obtain ⟨f, ⟨a, ⟨x, sec, hx, hc, rfl, rfl⟩, rfl⟩, rfl⟩ := h₂.of_map
    have hx1 := hown r x hx rfl
    simp only [Endpoint.call, if_neg hx1] at hc
    cases hc
    exact .release hx hx1
  | ended => exact h.elim

end Pair

end QueuePair
