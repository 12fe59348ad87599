import QueuePair.Proofs.Pair.Moves

namespace QueuePair

open World

namespace Pair

variable (P : Pair)

/-- A worker hands a job back. -/
inductive Returns (k : Kernel) : Thread → Party → Invocation → Thread → Prop
  | sent {r : Role} {l : Link} {slot : Nat} {job : Job} : P.Bound k r l →
      job.handler.peaceful = true →
      Returns k ⟨.sender (P.party r) l .fetch, .sender (P.party r) l (.complete slot job), []⟩
        (P.party r) (.resolve .send job none)
        ⟨.sender (P.party r) l .fetch, .sender (P.party r) l (.recycle slot true), []⟩
  | received {r : Role} {l : Link} {slot : Nat} {job : Job} : P.Bound k r l →
      job.handler.peaceful = true →
      Returns k ⟨.receiver (P.party r) l .await, .receiver (P.party r) l (.complete slot job), []⟩
        (P.party r) (.resolve .receive job none)
        ⟨.receiver (P.party r) l .await, .receiver (P.party r) l (.recycle slot true), []⟩
  | refused {r : Role} {l : Link} {slot : Nat} {job : Job} {e : Error} : P.Bound k r l →
      job.handler.peaceful = true →
      Returns k ⟨.receiver (P.party r) l .await, .receiver (P.party r) l (.fail slot job e), []⟩
        (P.party r) (.resolve .receive job (some e))
        ⟨.receiver (P.party r) l .await, .receiver (P.party r) l (.recycle slot true), []⟩

variable {P} {r : Role} {k : Kernel}

theorem serving_next {c : Call} (hc : P.Serving r c) {p : Party} {i : Invocation}
    {f : Flow Call Result} : c.next ≠ .invoke p i f := by
  intro h
  cases c with
  | posting p d data handler s => cases s <;> cases h
  | waiting p d data s =>
    cases s with
    | posting s => cases s <;> cases h
    | _ => cases h
  | readingState | holding => cases h
  | _ => exact hc.elim

theorem serving_held {c : Call} (hc : P.Serving r c) : c.held = [] := by
  cases c with
  | posting | waiting | readingState | holding => rfl
  | _ => exact hc.elim

theorem callback_next {c : Callback} (hc : P.CallbackFit r c) {o task : Task}
    {cs : List Callback} {p : Party} {i : Invocation} {th : Thread} :
    Thread.next ⟨o, task, c :: cs⟩ ≠ .invoke p i th := by
  obtain ⟨q, lane, id, payload, index, state⟩ := c
  intro h
  cases state with
  | running command call rest =>
    cases hn : call.next with
    | invoke p i f => exact serving_next hc.state.1 hn
    | perform | panic | halt => simp [Thread.next, Callback.next, hn, Move.through, Move.map] at h
  | ended | panicking => cases h

theorem connecting_next {s : Connecting} (hs : P.ConnectingFit k r s) :
    ∃ (α : Type) (p : Primitive α) (next : α → Flow Connecting (Except Error Unit)),
      s.next (P.party r) = .perform p next := by
  cases s with
  | mailbox s =>
    cases s with
    | map s => cases s <;> exact ⟨_, _, _, rfl⟩
    | semaphores m s => cases s <;> exact ⟨_, _, _, rfl⟩
    | unlink | markVacant => exact ⟨_, _, _, rfl⟩
  | signals m s =>
    cases s with
    | outbound s | inbound out s => cases s <;> exact ⟨_, _, _, rfl⟩
    | discard => exact ⟨_, _, _, rfl⟩
  | attach l s => cases s <;> exact ⟨_, _, _, rfl⟩
  | lock | check | storeConnected | spawnSender | spawnReceiver | unlock => exact ⟨_, _, _, rfl⟩
  | _ => exact hs.elim

theorem returns_of_next {th after : Thread} {p : Party} {i : Invocation} (hf : P.Fit k th)
    (h : th.next = .invoke p i after) : P.Returns k th p i after := by
  cases hf with
  | @sender r l s cs hl hs hc ht =>
    cases cs with
    | cons c cs => exact absurd h (callback_next (hc c (by simp)))
    | nil =>
      cases s with
      | publish slot job s => cases s <;> cases h
      | complete slot job =>
        cases h
        exact .sent hl hs.peaceful
      | fail | depart => exact hs.elim
      | _ => cases h
  | @receiver r l s cs hl hs hc ht =>
    cases cs with
    | cons c cs => exact absurd h (callback_next (hc c (by simp)))
    | nil =>
      cases s with
      | discard s | collect slot job s => cases s <;> cases h
      | complete slot job =>
        cases h
        exact .received hl hs
      | fail slot job e =>
        have hr : P.Returns k _ _ (.resolve .receive job (some e))
            ⟨_, .receiver _ _ (.recycle slot true), []⟩ := .refused hl hs.1
        have hb : (!e.isDisconnect) = true := by rw [hs.2]; rfl
        cases h
        rw [hb]
        exact hr
      | depart => exact hs.elim
      | _ => cases h
  | @connecting r s hs =>
    obtain ⟨α, q, next, hn⟩ := connecting_next hs
    simp [Thread.next, Task.next, Call.next, hn, Move.through, Move.map] at h
  | @finalizing r s hs =>
    cases s with
    | rendezvous l s => cases s <;> cases h
    | _ => cases h
  | @call o r c ho hc =>
    cases hn : c.next with
    | invoke p i f => exact absurd hn (serving_next hc)
    | perform | panic | halt => simp [Thread.next, Task.next, hn, Move.through, Move.map] at h
  | leaving | ended => cases h

/-- A thread that panics, and what it leaves behind. -/
structure Panics (P : Pair) (k : Kernel) (th : Thread) : Prop where
  fit : P.Fit k th.unwound
  owner : ∃ r, th.task.owner? = some (P.id r)
  held : th.held = []
  due : ∀ d, P.due th.unwound d = P.due th d
  locks : th.task.locks = none
  opens : th.task.opens = none
  sender : ∀ p l s, th.task = .sender p l s → ∃ slot, s = .recycle slot true
  receiver : ∀ p l s, th.task = .receiver p l s → ∃ slot, s = .recycle slot true

theorem unwound_fit {th : Thread} (h : th.task.owner? = some (P.id r)) : P.Fit k th.unwound := by
  simp only [Thread.unwound, h, Task.finish]
  exact .leaving

theorem callbacks_held {cs : List Callback} (h : ∀ c ∈ cs, P.CallbackFit r c) :
    cs.flatMap Callback.held = [] := by
  refine List.flatMap_eq_nil_iff.mpr fun c hc => ?_
  obtain ⟨q, lane, id, payload, index, state⟩ := c
  cases state with
  | running command call rest => exact serving_held (h _ hc).state.1
  | ended | panicking => rfl

theorem panics_of_next {th : Thread} (hf : P.Fit k th) (h : th.next = .panic) :
    P.Panics k th := by
  cases hf with
  | @sender r l s cs hl hs hc ht =>
    cases cs with
    | nil =>
      cases s with
      | publish slot job s => cases s <;> cases h
      | fail | depart => exact hs.elim
      | _ => cases h
    | cons c cs =>
      obtain ⟨slot, rfl⟩ := ht (by simp)
      refine ⟨unwound_fit rfl, ⟨r, rfl⟩, ?_, fun d => ?_, rfl, rfl, ?_,
        fun _ _ _ h => by cases h⟩
      · rw [Thread.held, callbacks_held hc]
        rfl
      · cases d <;> rfl
      · rintro p l s ⟨⟩
        exact ⟨slot, rfl⟩
  | @receiver r l s cs hl hs hc ht =>
    cases cs with
    | nil =>
      cases s with
      | discard s | collect slot job s => cases s <;> cases h
      | depart => exact hs.elim
      | _ => cases h
    | cons c cs =>
      obtain ⟨slot, rfl⟩ := ht (by simp)
      refine ⟨unwound_fit rfl, ⟨r, rfl⟩, ?_, fun d => ?_, rfl, rfl,
        fun _ _ _ h => (by cases h), ?_⟩
      · rw [Thread.held, callbacks_held hc]
        rfl
      · cases d <;> rfl
      · rintro p l s ⟨⟩
        exact ⟨slot, rfl⟩
  | @connecting r s hs =>
    obtain ⟨α, q, next, hn⟩ := connecting_next hs
    simp [Thread.next, Task.next, Call.next, hn, Move.through, Move.map] at h
  | @finalizing r s hs =>
    cases s with
    | rendezvous l s =>
      cases s with
      | overflowed =>
        refine ⟨unwound_fit rfl, ⟨r, rfl⟩, rfl, fun d => ?_, rfl, rfl,
          fun _ _ _ h => (by cases h), fun _ _ _ h => by cases h⟩
        cases d <;> simp [due, Thread.unwound, Task.finish, Task.token, Task.gate, Task.attached,
          Task.owes, Task.owner?, Thread.passed, Task.outcome?, Outcome.isOk, Finalizing.gate,
          Mailbox.Rendezvous.gate]
      | _ => cases h
    | _ => cases h
  | @call o r c ho hc =>
    refine ⟨unwound_fit rfl, ⟨r, rfl⟩, serving_held hc, fun d => ?_, ?_, ?_,
      fun _ _ _ h => (by cases h), fun _ _ _ h => by cases h⟩
    · cases c with
      | posting | waiting | readingState | holding =>
        cases d <;> simp [due, Thread.unwound, Task.finish, Task.token, Task.gate, Task.attached,
          Task.owes, Task.owner?, Thread.passed, ho]
      | _ => exact hc.elim
    · cases c with
      | posting | waiting | readingState | holding => rfl
      | _ => exact hc.elim
    · cases c with
      | posting | waiting | readingState | holding => rfl
      | _ => exact hc.elim
  | leaving | ended => cases h

end Pair

end QueuePair
