import QueuePair.Proofs.Pair.Calls

namespace QueuePair

open World

namespace World

abbrev withKernel (w : World) (k : Kernel) : World := { w with kernel := k }

def stored (w : World) (t : ThreadId) (file : FileId) (payload : Bytes) : World :=
  (w.withKernel
    { w.kernel with files := w.kernel.files.modify file (Record.store · payload) }).record
    (.stored t file payload)

def recordOf (w : World) (file : FileId) (capacity : Nat) : Except Error Bytes :=
  Record.load ((w.kernel.files.file? file).getD .empty) capacity

end World

namespace Pair

open Kernel (Shifts)

variable (P : Pair)

/-- The steps of a sender. -/
inductive Sends (r : Role) (l : Link) (w : World) (t : ThreadId) : Sender → World → Sender → Prop
  | dry {x : Endpoint} {q : WorkQueue Job} : w.endpoints[P.id r]? = some x →
      x.sends.next = (none, q) →
      Sends r l w t .fetch (w.putEndpoint (P.id r) { x with sends := q }) .parked
  | take {x : Endpoint} {q : WorkQueue Job} {slot : Nat} {job : Job} :
      w.endpoints[P.id r]? = some x → x.sends.next = (some (slot, job), q) →
      Sends r l w t .fetch
        ((w.putEndpoint (P.id r) { x with sends := q }).note (P.id r) (.taken .send job.serial))
        (.publish slot job .takeVacancy)
  | wake : Sends r l w t .parked w .fetch
  | takeVacancy {slot : Nat} {job : Job} {k : Kernel} : Shifts P.keys .vacancy (-1) w.kernel k →
      Sends r l w t (.publish slot job .takeVacancy) (w.withKernel k) (.publish slot job .takeGate)
  | takeGate {slot : Nat} {job : Job} {k : Kernel} : Shifts P.keys .gate (-1) w.kernel k →
      Sends r l w t (.publish slot job .takeGate) (w.withKernel k) (.publish slot job .copy)
  | copy {slot : Nat} {job : Job} :
      Sends r l w t (.publish slot job .copy) (w.stored t l.mailbox.file job.data.payload)
        (.publish slot job .giveGate)
  | giveGate {slot : Nat} {job : Job} {k : Kernel} : Shifts P.keys .gate 1 w.kernel k →
      Sends r l w t (.publish slot job .giveGate) (w.withKernel k) (.signal slot job)
  | signal {slot : Nat} {job : Job} {k : Kernel} : Shifts P.keys (.signal r) 1 w.kernel k →
      Sends r l w t (.signal slot job) (w.withKernel k) (.complete slot job)
  | recycle {slot : Nat} {x : Endpoint} : w.endpoints[P.id r]? = some x →
      Sends r l w t (.recycle slot true)
        (w.putEndpoint (P.id r) { x with sends := x.sends.complete slot }) .fetch

/-- The steps of a thread that collects a message. -/
inductive Collects (m : Mailbox) (into : Option Buffer) (w : World) (t : ThreadId) :
    Mailbox.Collecting → World → Flow Mailbox.Collecting Mailbox.Collected → Prop
  | takeGate {k : Kernel} : Shifts P.keys .gate (-1) w.kernel k →
      Collects m into w t .takeGate (w.withKernel k) (.more .copy)
  | copy : Collects m into w t .copy
      (w.record (.loaded t m.file (w.recordOf m.file m.capacity)))
      (.more (.giveGate (.ofMessage into (w.recordOf m.file m.capacity))))
  | giveGate {k : Kernel} {c : Mailbox.Collected} : Shifts P.keys .gate 1 w.kernel k →
      Collects m into w t (.giveGate c) (w.withKernel k) (.more (.giveVacancy c))
  | giveVacancy {k : Kernel} {c : Mailbox.Collected} : Shifts P.keys .vacancy 1 w.kernel k →
      Collects m into w t (.giveVacancy c) (w.withKernel k) (.done c)

/-- The steps of a receiver. -/
inductive Receives (r : Role) (l : Link) (w : World) (t : ThreadId) :
    Receiver → World → Receiver → Prop
  | await {k : Kernel} : Shifts P.keys (.signal r.peer) (-1) w.kernel k →
      Receives r l w t .await (w.withKernel k) .fetch
  | miss {x : Endpoint} {q : WorkQueue Job} : w.endpoints[P.id r]? = some x →
      x.receives.next = (none, q) →
      Receives r l w t .fetch
        ((w.putEndpoint (P.id r) { x with receives := q }).note (P.id r) .missed)
        (.discard .takeGate)
  | take {x : Endpoint} {q : WorkQueue Job} {slot : Nat} {job : Job} :
      w.endpoints[P.id r]? = some x → x.receives.next = (some (slot, job), q) →
      Receives r l w t .fetch
        ((w.putEndpoint (P.id r) { x with receives := q }).note (P.id r)
          (.taken .receive job.serial))
        (.collect slot job .takeGate)
  | discard {s s' : Mailbox.Collecting} {v : World} :
      P.Collects l.mailbox none w t s v (.more s') → Receives r l w t (.discard s) v (.discard s')
  | discarded {s : Mailbox.Collecting} {v : World} {c : Mailbox.Collected} :
      P.Collects l.mailbox none w t s v (.done c) → Receives r l w t (.discard s) v .await
  | collect {slot : Nat} {job : Job} {s s' : Mailbox.Collecting} {v : World} :
      P.Collects l.mailbox (some job.data) w t s v (.more s') →
      Receives r l w t (.collect slot job s) v (.collect slot job s')
  | collected {slot : Nat} {job : Job} {s : Mailbox.Collecting} {v : World}
      {c : Mailbox.Collected} : P.Collects l.mailbox (some job.data) w t s v (.done c) →
      Receives r l w t (.collect slot job s) v (.collected slot job c)
  | recycle {slot : Nat} {x : Endpoint} : w.endpoints[P.id r]? = some x →
      Receives r l w t (.recycle slot true)
        (w.putEndpoint (P.id r) { x with receives := x.receives.complete slot }) .await

variable {P} {r : Role} {l : Link} {w v : World} {t : ThreadId}

theorem sends_of_after {s : Sender} {f : Flow Sender Unit} (hk : w.kernel.Intact P.keys)
    (he : ∀ x, w.endpoints[P.id r]? = some x → P.EndFit w.kernel r x)
    (hl : P.Bound w.kernel r l) (hs : P.SenderFit r s)
    (h : w.After t (s.next (P.party r) l) v f) : ∃ s', f = .more s' ∧ P.Sends r l w t s v s' := by
  cases s with
  | fetch =>
    obtain ⟨a, ⟨x, sec, hx, hc, rfl, rfl⟩, hn⟩ := h
    simp only [Endpoint.call, Endpoint.nextSend, Option.some.injEq] at hc
    rw [if_neg (by simp [(he x hx).stopped])] at hc
    split at hc
    · rename_i q hq
      subst hc
      subst hn
      exact ⟨_, rfl, .dry hx hq⟩
    · rename_i slot job q hq
      subst hc
      have hj := ((he x hx).jobs .send job (WorkQueue.keeps_of_next hq)).fits rfl
      have hstart : Sender.ofJob l slot job = .publish slot job .takeVacancy := by
        have hcap : ¬ job.data.payload.length > l.mailbox.capacity := by
          rw [hl.box.capacity]
          omega
        simp [Sender.ofJob, Mailbox.Publishing.start, hcap]
      subst hn
      exact ⟨_, congrArg Flow.more hstart, .take hx hq⟩
  | parked =>
    obtain ⟨a, rfl, hn⟩ := h
    subst hn
    exact ⟨_, rfl, .wake⟩
  | publish slot job s =>
    obtain ⟨g, h', hn⟩ := h.of_map
    cases s with
    | takeVacancy =>
      obtain ⟨k, hsh, rfl, rfl⟩ := hk.after_add (g := .vacancy) hl.box.set (by decide) h'
      subst hn
      exact ⟨_, rfl, .takeVacancy hsh⟩
    | takeGate =>
      obtain ⟨k, hsh, rfl, rfl⟩ := hk.after_add (g := .gate) hl.box.set (by decide) h'
      subst hn
      exact ⟨_, rfl, .takeGate hsh⟩
    | copy =>
      obtain ⟨a, ⟨k, ends, hc, rfl⟩, rfl⟩ := h'
      cases hc
      subst hn
      exact ⟨_, rfl, .copy⟩
    | giveGate =>
      obtain ⟨k, hsh, rfl, rfl⟩ := hk.after_add (g := .gate) hl.box.set (by decide) h'
      subst hn
      exact ⟨_, rfl, .giveGate hsh⟩
  | signal slot job =>
    obtain ⟨k, hsh, rfl, hn⟩ := hk.after_add (g := .signal r) hl.outbound (by decide) h
    subst hn
    exact ⟨_, rfl, .signal hsh⟩
  | recycle slot goOn =>
    obtain rfl : goOn = true := hs
    obtain ⟨a, ⟨x, sec, hx, hc, rfl, rfl⟩, hn⟩ := h
    cases hc
    subst hn
    exact ⟨_, rfl, .recycle hx⟩
  | complete | fail => exact h.elim
  | depart => exact hs.elim

theorem collects_of_after {m : Mailbox} {into : Option Buffer} {s : Mailbox.Collecting}
    {f : Flow Mailbox.Collecting Mailbox.Collected} (hk : w.kernel.Intact P.keys)
    (hm : P.Box w.kernel r m) (h : w.After t (s.next m into) v f) :
    P.Collects m into w t s v f := by
  cases s with
  | takeGate =>
    obtain ⟨k, hsh, rfl, rfl⟩ := hk.after_add (g := .gate) hm.set (by decide) h
    exact .takeGate hsh
  | copy =>
    obtain ⟨a, ⟨k, ends, hc, rfl⟩, rfl⟩ := h
    cases hc
    exact .copy
  | giveGate c =>
    obtain ⟨k, hsh, rfl, rfl⟩ := hk.after_add (g := .gate) hm.set (by decide) h
    exact .giveGate hsh
  | giveVacancy c =>
    obtain ⟨k, hsh, rfl, rfl⟩ := hk.after_add (g := .vacancy) hm.set (by decide) h
    exact .giveVacancy hsh

theorem recordOf_error {file : FileId} {capacity : Nat} {e : Error}
    (h : w.recordOf file capacity = .error e) : e.isDisconnect = false := by
  simp only [World.recordOf, Record.load, Record.size] at h
  split at h
  · cases h
    rfl
  · cases h

theorem harmless_ofMessage {into : Option Buffer} {m : Except Error Bytes}
    (h : ∀ e, m = .error e → e.isDisconnect = false) :
    (Mailbox.Collected.ofMessage into m).Harmless := by
  intro e he
  cases m with
  | error e' =>
    cases he
    exact h _ rfl
  | ok payload =>
    cases into with
    | none => cases he
    | some b =>
      simp only [Mailbox.Collected.ofMessage] at he
      split at he <;> cases he <;> rfl

theorem Collects.fit {m : Mailbox} {into : Option Buffer} {s : Mailbox.Collecting}
    {f : Flow Mailbox.Collecting Mailbox.Collected} (h : P.Collects m into w t s v f)
    (hs : s.Fit) : (∀ s', f = .more s' → s'.Fit) ∧ ∀ c, f = .done c → c.Harmless := by
  cases h with
  | takeGate => exact ⟨by rintro _ ⟨⟩; trivial, nofun⟩
  | copy =>
    refine ⟨?_, nofun⟩
    rintro _ ⟨⟩
    exact harmless_ofMessage fun e he => recordOf_error he
  | giveGate => exact ⟨by rintro _ ⟨⟩; exact hs, nofun⟩
  | giveVacancy => exact ⟨nofun, by rintro _ ⟨⟩; exact hs⟩

theorem receives_of_after {s : Receiver} {f : Flow Receiver Unit} (hk : w.kernel.Intact P.keys)
    (hl : P.Bound w.kernel r l) (hs : ReceiverFit s)
    (h : w.After t (s.next (P.party r) l) v f) :
    ∃ s', f = .more s' ∧ P.Receives r l w t s v s' := by
  cases s with
  | await =>
    obtain ⟨k, hsh, rfl, hn⟩ := hk.after_add (g := .signal r.peer) hl.inbound (by decide) h
    subst hn
    exact ⟨_, rfl, .await hsh⟩
  | fetch =>
    obtain ⟨a, ⟨x, sec, hx, hc, rfl, rfl⟩, hn⟩ := h
    simp only [Endpoint.call, Endpoint.nextReceive, Option.some.injEq] at hc
    split at hc
    · rename_i q hq
      subst hc
      subst hn
      exact ⟨_, rfl, .miss hx hq⟩
    · rename_i slot job q hq
      subst hc
      subst hn
      exact ⟨_, rfl, .take hx hq⟩
  | discard s =>
    obtain ⟨g, h', hn⟩ := h.of_map
    have hc := collects_of_after hk hl.box h'
    have hfit := hc.fit hs
    cases g with
    | more s₁ =>
      subst hn
      exact ⟨_, rfl, .discard hc⟩
    | done c =>
      have hd : Receiver.discarded c = .await := by
        have hh := hfit.2 c rfl
        simp only [Receiver.discarded]
        split
        · rfl
        · rename_i e he
          simp [hh e he]
      simp only [Flow.elim, hd] at hn
      subst hn
      exact ⟨_, rfl, .discarded hc⟩
  | collect slot job s =>
    obtain ⟨g, h', hn⟩ := h.of_map
    have hc := collects_of_after hk hl.box h'
    cases g with
    | more s₁ =>
      subst hn
      exact ⟨_, rfl, .collect hc⟩
    | done c =>
      subst hn
      exact ⟨_, rfl, .collected hc⟩
  | recycle slot goOn =>
    obtain rfl : goOn = true := hs
    obtain ⟨a, ⟨x, sec, hx, hc, rfl, rfl⟩, hn⟩ := h
    cases hc
    subst hn
    exact ⟨_, rfl, .recycle hx⟩
  | complete | fail => exact h.elim
  | depart => exact hs.elim

end Pair

end QueuePair
