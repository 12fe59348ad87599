import QueuePair.Proofs.Pair.Exclusion
import QueuePair.Proofs.Pair.Spending
import QueuePair.Proofs.Parking
import QueuePair.Proofs.Replies

namespace QueuePair

open World

def Thread.Steady (th : Thread) : Prop :=
  ∀ e, th.origin.attends e = true → th.task.attends e = true ∨ th.task.panicked = true

/-- Whether a call posts a send. -/
def Call.sends : Call → Bool
  | .posting _ .send .. | .waiting _ .send .. => true
  | _ => false

namespace Pair

variable {P : Pair} {w v : World} {t : ThreadId} {th th' : Thread} {r : Role} {x : Endpoint}

theorem serving_attends {c : Call} (h : P.Serving r c) (o : Option EndpointId) (e : EndpointId) :
    (Task.call o c).attends e = false := by
  cases c with
  | posting | waiting | readingState | holding => rfl
  | _ => exact h.elim

theorem Moves.steady (hm : P.Moves w t th v th') (h : th.Steady) : th'.Steady := by
  intro e he
  cases hm with
  | sender | receiver => exact .inl he
  | connect | connected | finalize | finalized => cases he
  | call _ hc | called _ hc =>
    rcases h e he with ha | hp
    · rw [serving_attends hc] at ha
      cases ha
    · cases hp
  | callback | ended | acted => exact h e he
  | @release o r out =>
    rcases h e he with ha | hp
    · cases ha
    · cases out with
      | returned => cases hp
      | panicked => exact .inr rfl

theorem Law.steady (hl : P.Law w) (h : ∀ th ∈ w.threads, th.Steady) (ha : P.Acts w v) :
    ∀ th ∈ v.threads, th.Steady := by
  have hfresh : ∀ n : Thread, n.task = n.origin → n.Steady := fun n hn e he => .inl (hn ▸ he)
  cases ha with
  | @move t th th' v ht hm =>
    obtain ⟨news, hv, hnews⟩ := (hm.rises hl).threads
    intro b hb
    rcases List.mem_or_eq_of_mem_set hb with hb | rfl
    · rw [hv] at hb
      rcases List.mem_append.mp hb with hb | hb
      · exact h b hb
      · exact hfresh b (hnews b hb)
    · exact hm.steady (h th (List.mem_of_getElem? ht))
  | @back t th p i after ht hret =>
    intro b hb
    rcases List.mem_or_eq_of_mem_set hb with hb | rfl
    · exact h b (invoke_threads (w := w) p i ▸ hb)
    · cases hret <;> exact fun e he => .inl he
  | @panic t th ht hp =>
    intro b hb
    rcases List.mem_or_eq_of_mem_set hb with hb | rfl
    · exact h b hb
    · obtain ⟨r, ho⟩ := hp.owner
      exact fun e he => .inr (by simp [Thread.unwound, ho, Task.finish, Task.panicked])
  | @operate r x op hx hp =>
    intro b hb
    rcases List.mem_append.mp hb with hb | hb
    · exact h b hb
    · obtain rfl := List.mem_singleton.mp hb
      exact hfresh _ rfl
  | register | release => exact h
  | settle ha => exact ha.threads ▸ h

/-- A sender of an idle pair waits for a send, for the vacancy or for the gate. -/
theorem Law.sender_waits {s : Sender} {l : Link} (h : P.Law w) (hl : P.Bound w.kernel r l)
    (hs : P.SenderFit r s) (hst : w.Stands t (s.next (P.party r) l)) : s = .parked ∨
      ∃ slot job, s = .publish slot job .takeVacancy ∧ w.kernel.gauge P.keys .vacancy = 0 ∨
        s = .publish slot job .takeGate ∧ w.kernel.gauge P.keys .gate = 0 := by
  obtain ⟨x, hx, -⟩ := h.ends r
  cases s with
  | parked => exact .inl rfl
  | fetch => exact (not_refuses_access (r := r) (c := .nextSend) hx rfl hst).elim
  | publish slot job s =>
    simp only [Sender.next, Move.through, stands_map] at hst
    cases s with
    | takeVacancy =>
      have href : w.Refuses t (.system (.change l.mailbox.semaphores.set
        [⟨Mailbox.vacancy, -1⟩] none)) := hst
      obtain ⟨values, hb, -, hgauge⟩ := refuses_change (g := .vacancy) h.wide hl.box.set href
      exact .inr ⟨slot, job, .inl ⟨rfl, hgauge ▸ take_blocks hb⟩⟩
    | takeGate =>
      have href : w.Refuses t (.system (.change l.mailbox.semaphores.set
        [⟨Mailbox.gate, -1⟩] none)) := hst
      obtain ⟨values, hb, -, hgauge⟩ := refuses_change (g := .gate) h.wide hl.box.set href
      exact .inr ⟨slot, job, .inr ⟨rfl, hgauge ▸ take_blocks hb⟩⟩
    | copy => exact hst.elim
    | giveGate => exact (h.raise_goes (t := t) (g := .gate) hl.box rfl hst).elim
  | signal slot job =>
    have href : w.Refuses t (.system (.change l.signals.outbound.set [⟨0, 1⟩] none)) := hst
    obtain ⟨values, hb, -⟩ := refuses_change (g := .signal r) h.wide hl.outbound href
    exact (raise_ne_blocks hb).elim
  | complete => exact hst.elim
  | recycle slot goOn =>
    exact (not_refuses_access (r := r) (c := .complete .send slot) hx rfl hst).elim
  | fail | depart => exact hs.elim

theorem Law.collecting_waits {s : Mailbox.Collecting} {m : Mailbox} {into : Option Buffer}
    (h : P.Law w) (hm : P.Box w.kernel r m) (hst : w.Stands t (s.next m into)) :
    s = .takeGate ∧ w.kernel.gauge P.keys .gate = 0 := by
  cases s with
  | takeGate =>
    have href : w.Refuses t (.system (.change m.semaphores.set
      [⟨Mailbox.gate, -1⟩] none)) := hst
    obtain ⟨values, hb, -, hgauge⟩ := refuses_change (g := .gate) h.wide hm.set href
    exact ⟨rfl, hgauge ▸ take_blocks hb⟩
  | copy => exact hst.elim
  | giveGate => exact (h.raise_goes (t := t) (g := .gate) hm rfl hst).elim
  | giveVacancy => exact (h.raise_goes (t := t) (g := .vacancy) hm rfl hst).elim

theorem Law.receiver_waits {s : Receiver} {l : Link} (h : P.Law w) (hl : P.Bound w.kernel r l)
    (hs : ReceiverFit s) (hst : w.Stands t (s.next (P.party r) l)) :
    s = .await ∧ w.kernel.gauge P.keys (.signal r.peer) = 0 ∨
      (s = .discard .takeGate ∨ ∃ slot job, s = .collect slot job .takeGate) ∧
        w.kernel.gauge P.keys .gate = 0 := by
  obtain ⟨x, hx, -⟩ := h.ends r
  cases s with
  | await =>
    have href : w.Refuses t (.system (.change l.signals.inbound.set [⟨0, -1⟩] none)) := hst
    obtain ⟨values, hb, -, hgauge⟩ := refuses_change (g := .signal r.peer) h.wide hl.inbound href
    exact .inl ⟨rfl, hgauge ▸ take_blocks hb⟩
  | fetch =>
    refine (not_refuses_access (r := r) (c := .nextReceive) hx ?_ hst).elim
    rfl
  | discard s =>
    simp only [Receiver.next, Move.through, stands_map] at hst
    obtain ⟨rfl, hgate⟩ := h.collecting_waits hl.box hst
    exact .inr ⟨.inl rfl, hgate⟩
  | collect slot job s =>
    simp only [Receiver.next, Move.through, stands_map] at hst
    obtain ⟨rfl, hgate⟩ := h.collecting_waits hl.box hst
    exact .inr ⟨.inr ⟨slot, job, rfl⟩, hgate⟩
  | complete | fail => exact hst.elim
  | recycle slot goOn =>
    exact (not_refuses_access (r := r) (c := .complete .receive slot) hx rfl hst).elim
  | depart => exact hs.elim

/-- Where the workers and connecting threads of an idle pair with an open gate are. -/
inductive WorkerRest (P : Pair) (w : World) : Thread → Prop
  | parked {r : Role} {l : Link} :
      WorkerRest P w ⟨.sender (P.party r) l .fetch, .sender (P.party r) l .parked, []⟩
  | full {r : Role} {l : Link} {slot : Nat} {job : Job} :
      w.kernel.gauge P.keys .vacancy = 0 →
      WorkerRest P w ⟨.sender (P.party r) l .fetch,
        .sender (P.party r) l (.publish slot job .takeVacancy), []⟩
  | await {r : Role} {l : Link} : P.Bound w.kernel r l →
      w.kernel.gauge P.keys (.signal r.peer) = 0 →
      WorkerRest P w ⟨.receiver (P.party r) l .await, .receiver (P.party r) l .await, []⟩
  | other {th : Thread} : (∀ e, th.task.attends e = false) → th.task.making = 0 →
      (∀ d r, th.task.owes d r = 0) → WorkerRest P w th

theorem Law.workerRest (h : P.Law w) (hi : w.Idle) (hq : w.Queued)
    (hg : 1 ≤ w.kernel.gauge P.keys .gate) (ht : w.threads[t]? = some th)
    (hn : th.callbacks = []) : P.WorkerRest w th := by
  have hst := hi.stands hq ht
  have hfit := h.fit ht
  cases hfit with
  | sender hl hs =>
    obtain rfl := hn
    rw [next_task] at hst
    simp only [Task.next, Move.through, stands_map] at hst
    obtain rfl | ⟨slot, job, ⟨rfl, hv⟩ | ⟨-, hzero⟩⟩ := h.sender_waits hl hs hst
    · exact .parked
    · exact .full hv
    · omega
  | receiver hl hs =>
    obtain rfl := hn
    rw [next_task] at hst
    simp only [Task.next, Move.through, stands_map] at hst
    obtain ⟨rfl, hsig⟩ | ⟨-, hzero⟩ := h.receiver_waits hl hs hst
    · exact .await hl hsig
    · omega
  | @connecting r s hs =>
    rw [next_task] at hst
    simp only [Task.next, Call.next, Move.through, stands_map] at hst
    cases s with
    | lock =>
      refine .other (fun _ => rfl) rfl fun d r' => ?_
      simp only [Task.owes]
      split <;> cases d <;> rfl
    | _ => exact absurd hst (h.connecting_goes hs (by rintro ⟨⟩))
  | call _ hc =>
    refine .other (serving_attends hc _) ?_ fun d r' => ?_
    · rename_i c _
      cases c <;> first | rfl | exact hc.elim
    · rename_i c _
      cases c <;> first | rfl | exact hc.elim
  | finalizing | leaving | ended => exact .other (fun _ => rfl) rfl fun _ _ => rfl

theorem Law.employed (h : P.Law w) (hl : ∀ th ∈ w.threads, P.WorkerRest w th) (d : Direction)
    (hc : P.connected w r = 1) : ∃ th ∈ w.threads, 1 ≤ th.origin.works d r := by
  by_contra hno
  have hledger := h.ledger (.worker d r)
  have hzero : tally (P.due · (.worker d r)) w.threads = 0 := tally_eq_zero fun th hm => by
    have hw : ¬ 1 ≤ th.origin.works d r := fun hw => hno ⟨th, hm, hw⟩
    have ho : th.task.owes d r = 0 := by
      cases hl th hm with
      | other _ _ ho => exact ho d r
      | _ => rfl
    simp only [due, ho]
    omega
  simp only [stock, total, hc] at hledger
  omega

theorem WorkerRest.token (h : P.WorkerRest w th) :
    th.task.sending = 0 ∧ th.task.receiving = 0 ∧ th.task.making = 0 := by
  cases h with
  | parked | full | await => exact ⟨rfl, rfl, rfl⟩
  | @other th ha hm =>
    obtain ⟨o, task, cs⟩ := th
    cases task with
    | sender p | receiver p =>
      have hself := ha p.id
      simp [Task.attends] at hself
    | _ => exact ⟨rfl, rfl, hm⟩

theorem Law.works (h : P.Law w) (hl : ∀ th ∈ w.threads, P.WorkerRest w th)
    (hs : ∀ th ∈ w.threads, th.Steady) (hh : ∀ e, ¬ w.Harmed e) (d : Direction)
    (hc : P.connected w r = 1) :
    ∃ th ∈ w.threads, 1 ≤ th.origin.works d r ∧ ∃ e, th.task.attends e = true := by
  obtain ⟨th, hm, hw⟩ := h.employed hl d hc
  obtain ⟨e, he⟩ : ∃ e, th.origin.attends e = true := by
    cases ho : th.origin with
    | sender p | receiver p => exact ⟨p.id, by simp [Task.attends]⟩
    | _ => simp [ho, Task.works] at hw
  exact ⟨th, hm, hw, e, (hs th hm e he).resolve_right fun hp => hh e ⟨th, hm, he, hp⟩⟩

theorem Law.receiver_there (h : P.Law w) (hl : ∀ th ∈ w.threads, P.WorkerRest w th)
    (hs : ∀ th ∈ w.threads, th.Steady) (hh : ∀ e, ¬ w.Harmed e) (hc : P.connected w r = 1) :
    (∃ l, P.Bound w.kernel r l) ∧ w.kernel.gauge P.keys (.signal r.peer) = 0 := by
  obtain ⟨th, hm, hw, e, he⟩ := h.works hl hs hh .receive hc
  cases hl th hm with
  | parked | full => simp [Task.works] at hw
  | @await r' l hbound hsig =>
    obtain rfl : r' = r := by
      simp only [Task.works, party_settings, settings_role, true_and] at hw
      split at hw
      · assumption
      · omega
    exact ⟨⟨l, hbound⟩, hsig⟩
  | other ha =>
    rw [ha e] at he
    cases he

theorem Law.sender_there (h : P.Law w) (hl : ∀ th ∈ w.threads, P.WorkerRest w th)
    (hs : ∀ th ∈ w.threads, th.Steady) (hh : ∀ e, ¬ w.Harmed e) (hc : P.connected w r = 1)
    (hv : w.kernel.gauge P.keys .vacancy = 1) : ∃ l : Link,
      ⟨.sender (P.party r) l .fetch, .sender (P.party r) l .parked, []⟩ ∈ w.threads := by
  obtain ⟨th, hm, hw, e, he⟩ := h.works hl hs hh .send hc
  cases hl th hm with
  | await => simp [Task.works] at hw
  | @parked r' l =>
    obtain rfl : r' = r := by
      simp only [Task.works, party_settings, settings_role, true_and] at hw
      split at hw
      · assumption
      · omega
    exact ⟨l, hm⟩
  | full hz => omega
  | other ha =>
    rw [ha e] at he
    cases he

theorem Law.vacant (h : P.Law w) (hl : ∀ th ∈ w.threads, P.WorkerRest w th)
    (hs : ∀ th ∈ w.threads, th.Steady) (hh : ∀ e, ¬ w.Harmed e) (hc : ∀ r, P.connected w r = 1) :
    w.kernel.gauge P.keys .vacancy = 1 ∧ ∀ r, w.kernel.gauge P.keys (.signal r) = 0 := by
  have hsignal : ∀ r, w.kernel.gauge P.keys (.signal r) = 0 := fun r => by
    have hz := (h.receiver_there hl hs hh (hc r.peer)).2
    rwa [Role.peer_peer] at hz
  obtain ⟨⟨l, hbound⟩, -⟩ := h.receiver_there hl hs hh (hc .server)
  have hmarked : P.Marked w :=
    ⟨by rw [hbound.box.set]; rfl, fun th hm => (hl th hm).token.2.2⟩
  have hone := h.one_token hmarked
  have hsending : tally (·.task.sending) w.threads = 0 :=
    tally_eq_zero fun th hm => (hl th hm).token.1
  have hreceiving : tally (·.task.receiving) w.threads = 0 :=
    tally_eq_zero fun th hm => (hl th hm).token.2.1
  have hserver := hsignal .server
  have hclient := hsignal .client
  exact ⟨by omega, hsignal⟩

theorem not_notifying_of_idle {u : ThreadId} {thu : Thread} (hi : w.Idle) (hq : w.Queued)
    (hx : w.endpoints[P.id r]? = some x) (hu : w.threads[u]? = some thu) :
    thu.stance ≠ .notifying (P.id r) := by
  intro hs
  have hst := hi.stands hq hu
  have htell := thu.stance_tells
  rw [hs] at htell
  obtain ⟨next, hn⟩ := htell
  rw [hn] at hst
  exact not_refuses_access (r := r) (c := .notify) hx rfl hst

theorem lacks_of_idle {want : Want} (hi : w.Idle) (hq : w.Queued) (hp : w.Parked)
    (hx : w.endpoints[P.id r]? = some x) (ht : w.threads[t]? = some th)
    (hs : th.stance = .parked (P.id r) want) : x.Lacks want := by
  obtain ⟨y, hy, -, hwhy⟩ := hp.reason ht hs
  obtain rfl := Option.some.inj (hx.symm.trans hy)
  refine hwhy.resolve_right ?_
  rintro ⟨u, thu, hu, hn⟩
  exact not_notifying_of_idle hi hq hx hu hn

theorem posting_waits {d : Direction} {data : Buffer} {handler : Handler} {s : Posting}
    (hx : w.endpoints[P.id r]? = some x)
    (hst : w.Stands t (s.next (P.party r) d data handler)) : ∃ job dl, s = .parked job dl := by
  cases s with
  | check => exact (not_refuses_access (r := r) (c := .readState) hx rfl hst).elim
  | number => exact (not_refuses_access (r := r) (c := .takeSerial) hx rfl hst).elim
  | clock | overflowed => exact hst.elim
  | enqueue job dl => exact (not_refuses_access (r := r) (c := .post d job) hx rfl hst).elim
  | parked job dl => exact ⟨job, dl, rfl⟩

theorem waiting_waits {d : Direction} {data : Buffer} {s : Waiting}
    (hx : w.endpoints[P.id r]? = some x) (hst : w.Stands t (s.next (P.party r) d data)) :
    (∃ job dl, s = .posting (.parked job dl)) ∨
      ∃ n dl, s = .awaiting n dl ∧ (x.reply n).isMissing = true := by
  cases s with
  | posting s =>
    simp only [Waiting.next, Move.through, stands_map] at hst
    obtain ⟨job, dl, rfl⟩ := posting_waits hx hst
    exact .inl ⟨job, dl, rfl⟩
  | clock => exact hst.elim
  | awaiting n dl =>
    cases hreply : (x.reply n).isMissing with
    | true => exact .inr ⟨n, dl, rfl, hreply⟩
    | false =>
      refine (not_refuses_access (r := r) (c := .awaitReply n dl) hx ?_ hst).elim
      simp [Endpoint.call, hreply, Endpoint.quiet]
  | cancel n => exact (not_refuses_access (r := r) (c := .cancel d n) hx rfl hst).elim
  | poll n => exact (not_refuses_access (r := r) (c := .pollReply n) hx rfl hst).elim

/-- What a pair is like that has nothing left to do. -/
structure Quiet (P : Pair) (w : World) : Prop where
  vacancy : w.kernel.gauge P.keys .vacancy = 1
  gate : 1 ≤ w.kernel.gauge P.keys .gate
  signal : ∀ r, w.kernel.gauge P.keys (.signal r) = 0
  -- no send is queued, and every entry of the queue is free
  sends : ∀ r x, w.endpoints[P.id r]? = some x →
    x.sends.pending = .empty ∧ ∀ s ∈ x.sends.slab.slots, s = .free
  -- nobody posts a send or waits for one
  sent : ∀ th ∈ w.threads, ∀ o c, th.task = .call o c → c.sends = false

theorem WorkerRest.hands (h : P.WorkerRest w th) (hn : th.callbacks = [])
    (hv : w.kernel.gauge P.keys .vacancy = 1) (e : EndpointId) :
    (∀ i, (holding e (.slot .send i)).thread th = 0) ∧
      ∀ k, (holding e (.jobs .send k)).thread th = 0 := by
  cases h with
  | parked => simp [Holding.thread, Holding.task, holding, Sender.slot?, Sender.jobs]
  | full hz => omega
  | await => simp [Holding.thread, Holding.task, holding]
  | @other th ha =>
    obtain ⟨o, task, cs⟩ := th
    obtain rfl : cs = [] := hn
    cases task with
    | sender p | receiver p =>
      have hself := ha p.id
      simp [Task.attends] at hself
    | call owner c =>
      cases c with
      | destroying p s =>
        have hself := ha p.id
        simp [Task.attends] at hself
      | _ => exact ⟨fun _ => rfl, fun _ => rfl⟩
    | leaving | ended => exact ⟨fun _ => rfl, fun _ => rfl⟩

/-- What is known of a pair that is idle and has an open gate. -/
structure Lull (P : Pair) (w : World) : Prop where
  law : P.Law w
  idle : w.Idle
  queued : w.Queued
  parked : w.Parked
  silent : ∀ th ∈ w.threads, th.callbacks = []
  workerRest : ∀ th ∈ w.threads, P.WorkerRest w th
  vacancy : w.kernel.gauge P.keys .vacancy = 1
  keeps : ∀ r, w.Keeps (P.id r)
  unharmed : ∀ e, ¬ w.Harmed e
  replied : ∀ r, w.Replied (P.id r)
  room : ∀ r x, w.endpoints[P.id r]? = some x → 1 ≤ x.sends.depth
  sender : ∀ r, ∃ l : Link,
    ⟨.sender (P.party r) l .fetch, .sender (P.party r) l .parked, []⟩ ∈ w.threads

namespace Lull

theorem kept (h : P.Lull w) (hx : w.endpoints[P.id r]? = some x) :
    ((w.stores (P.id r)).shelf .send).Kept true .send (w.hands (P.id r)) ∧
      ((w.stores (P.id r)).shelf .send).queue = x.sends := by
  exact ⟨((h.keeps r).custody true fun _ => h.unharmed _).kept .send, shelf_queue hx .send⟩

theorem hands (h : P.Lull w) (r : Role) :
    (∀ i, w.hands (P.id r) (.slot .send i) = 0) ∧ ∀ k, w.hands (P.id r) (.jobs .send k) = 0 :=
  ⟨fun i => tally_eq_zero fun th hm =>
      ((h.workerRest th hm).hands (h.silent th hm) h.vacancy (P.id r)).1 i,
    fun k => tally_eq_zero fun th hm =>
      ((h.workerRest th hm).hands (h.silent th hm) h.vacancy (P.id r)).2 k⟩

theorem sends (h : P.Lull w) (hx : w.endpoints[P.id r]? = some x) :
    x.sends.pending = .empty ∧ ∀ s ∈ x.sends.slab.slots, s = .free := by
  obtain ⟨l, hm⟩ := h.sender r
  obtain ⟨t, ht⟩ := List.mem_iff_getElem?.mp hm
  have hp : x.sends.pending = .empty := lacks_of_idle h.idle h.queued h.parked hx ht rfl
  obtain ⟨hk, hqueue⟩ := h.kept hx
  have htidy := hk.tidy
  rw [hqueue] at htidy
  refine ⟨hp, fun s hs => htidy.free_of_idle hp (fun i => ?_) hs⟩
  have hslot : w.hands (P.id r) (.slot .send i) =
      ((w.stores (P.id r)).shelf .send).queue.reserves i := hk.slots i
  rw [(h.hands r).1, hqueue] at hslot
  exact hslot.symm

theorem not_parked (h : P.Lull w) (ht : w.threads[t]? = some th) :
    th.stance ≠ .parked (P.id r) (.room .send) := by
  intro hs
  obtain ⟨x, hx, -⟩ := h.law.ends r
  have hfree : x.sends.slab.free = [] := lacks_of_idle h.idle h.queued h.parked hx ht hs
  obtain ⟨-, hall⟩ := h.sends hx
  obtain ⟨hk, hqueue⟩ := h.kept hx
  have htidy := hk.tidy
  rw [hqueue] at htidy
  have hroom : 0 < x.sends.slab.slots.length := h.room r x hx
  have hzero : x.sends.slab.slots[0]? = some .free := by
    rw [List.getElem?_eq_getElem hroom]
    exact congrArg some (hall _ (List.getElem_mem hroom))
  have hmem := (htidy.free 0).mpr hzero
  rw [hfree] at hmem
  cases hmem

theorem answered (h : P.Lull w) (hx : w.endpoints[P.id r]? = some x) {n : Nat} {dl : Option Instant}
    {data : Buffer} {o : Option EndpointId} (hm : th ∈ w.threads)
    (ht : th.task = .call o (.waiting (P.party r) .send data (.awaiting n dl))) :
    (x.reply n).isMissing = false :=
  (h.replied r).answered (h.kept hx).1 (h.hands r).2 hx (h.sends hx).1 hm (h.silent th hm)
    (party_id r) ht

/-- No post of a send and no wait for one is left. -/
theorem sent (h : P.Lull w) (hm : th ∈ w.threads) {o : Option EndpointId} {c : Call}
    (ht : th.task = .call o c) : c.sends = false := by
  obtain ⟨t, hth⟩ := List.mem_iff_getElem?.mp hm
  have hst := h.idle.stands h.queued hth
  have hfit := h.law.fit hth
  cases hfit with
  | sender | receiver | leaving | ended => cases ht
  | connecting | finalizing =>
    cases ht
    rfl
  | @call origin r c' _ hc =>
    obtain ⟨rfl, rfl⟩ : some (P.id r) = o ∧ c' = c := by simpa using ht
    obtain ⟨x, hx, -⟩ := h.law.ends r
    rw [next_task] at hst
    simp only [Task.next, Move.through, stands_map] at hst
    cases c' with
    | posting p d data handler s =>
      cases d with
      | receive => rfl
      | send =>
        obtain ⟨rfl, -⟩ := hc
        simp only [Call.next, Move.through, stands_map] at hst
        obtain ⟨job, dl, rfl⟩ := posting_waits hx hst
        exact (h.not_parked (r := r) hth rfl).elim
    | waiting p d data s =>
      cases d with
      | receive => rfl
      | send =>
        obtain ⟨rfl, -⟩ := hc
        simp only [Call.next, Move.through, stands_map] at hst
        obtain ⟨job, dl, rfl⟩ | ⟨n, dl, rfl, hmissing⟩ := waiting_waits hx hst
        · exact (h.not_parked (r := r) hth rfl).elim
        · rw [h.answered hx hm rfl] at hmissing
          cases hmissing
    | readingState | holding => rfl
    | _ => exact hc.elim

end Lull

theorem Begins.keeps (hb : P.Begins w) (e : EndpointId) : w.Keeps e := by
  refine keeps_of_new hb.threads hb.history fun x hx => ?_
  obtain ⟨f, hf⟩ := hb.endpoints
  rw [hf] at hx
  rcases List.mem_cons.mp (List.mem_of_getElem? hx) with rfl | hx
  · exact ⟨_, _, rfl⟩
  · exact ⟨_, _, List.mem_singleton.mp hx⟩

theorem Begins.replied (hb : P.Begins w) (r : Role) : w.Replied (P.id r) := by
  obtain ⟨script, hx⟩ := hb.ends r
  refine ⟨_, hx, by simp [Endpoint.Frank, Endpoint.ofSettings], fun d a ha => ?_⟩
  simp [World.stores, Stores.ofRecord, hb.history] at ha

theorem Begins.room (hb : P.Begins w) (hr : Run Input.Peaceful w v)
    (hx : v.endpoints[P.id r]? = some x) : 1 ≤ x.sends.depth := by
  obtain ⟨script, hy⟩ := hb.ends r
  have hdepth := (hb.replied r).depth (hb.keeps _) hb.queued hr .send
  rw [shelf_queue hx, shelf_queue hy] at hdepth
  have hsame : x.sends.depth = (P.settings r).sendDepth := by
    simpa [Stores.ofRecord, Endpoint.queue, Endpoint.ofSettings, WorkQueue.depth, Slab.depth,
      WorkQueue.ofDepth, Slab.ofDepth] using hdepth
  exact hsame ▸ P.one_le_sendDepth r

/-- An idle connected pair of which at most one client is through has nothing left to send, as long
as its callbacks came back: the vacancy is there, the gate is open, no signal is up, and no post of
a send or wait for one is left. -/
theorem no_send_stuck (hb : P.Begins w) (hr : Run Input.Peaceful w v) (hi : v.Idle)
    (hc : ∀ r, P.connected v r = 1) (hp : tally Thread.passed v.threads ≤ 1)
    (hn : ∀ th ∈ v.threads, th.callbacks = []) (hh : ∀ e, ¬ v.Harmed e) : P.Quiet v := by
  obtain ⟨hl, hq, hsteady⟩ := hb.induction (motive := fun u => ∀ th ∈ u.threads, th.Steady) hr
    (by simp [hb.threads]) fun hl ha hs => hl.steady hs ha
  have hgate := hl.gate_open hi hq (Nat.le_of_eq (hc _).symm) (Nat.le_of_eq (hc _).symm) hp
  have hlulls : ∀ th ∈ v.threads, P.WorkerRest v th := fun th hm => by
    obtain ⟨t, ht⟩ := List.mem_iff_getElem?.mp hm
    exact hl.workerRest hi hq hgate ht (hn th hm)
  obtain ⟨hvacancy, hsignal⟩ := hl.vacant hlulls hsteady hh hc
  have hlull : P.Lull v := {
    law := hl
    idle := hi
    queued := hq
    parked := (parked_of_new hb.threads).run hr
    silent := hn
    workerRest := hlulls
    vacancy := hvacancy
    keeps := fun r => (hb.keeps _).run hb.queued hr
    unharmed := hh
    replied := fun r => (hb.replied r).run (hb.keeps _) hb.queued hr
    room := fun r x hx => hb.room hr hx
    sender := fun r => hl.sender_there hlulls hsteady hh (hc r) hvacancy }
  exact {
    vacancy := hvacancy
    gate := hgate
    signal := hsignal
    sends := fun r x hx => hlull.sends hx
    sent := fun th hm o c ht => hlull.sent hm ht }

/-- The small pair after both sides have finished their connection and a message has arrived. -/
def rested : World :=
  newborn.play (finalizing ++ [.operate 0 (.waitReceive (.ofLimit 8))] ++
    List.replicate 6 (.run 8) ++ [.operate 1 (.waitSend (.ofBytes [1, 2]))] ++
    List.replicate 6 (.run 9) ++ List.replicate 10 (.run 4) ++ List.replicate 12 (.run 2) ++
    List.replicate 4 (.run 8) ++ List.replicate 4 (.run 9) ++ [.run 1])

theorem nothing_left_to_send :
    (∃ job ∈ replay (Event.accepted? 1 .send) rested.history, job.data.payload = [1, 2]) ∧
      small.Quiet rested := by
  have hr : Run Input.Peaceful newborn rested := Run.refl.play (by decide +kernel)
  have hi : rested.Idle := by decide +kernel
  have hn := silent_of_isEmpty (w := rested) (by decide +kernel)
  have hh := not_harmed (w := rested) (by decide +kernel)
  have hc : ∀ r, small.connected rested r = 1 := fun r => by cases r <;> decide +kernel
  exact ⟨by decide +kernel, no_send_stuck newborn_begins hr hi hc (by decide +kernel) hn hh⟩

end Pair

end QueuePair
