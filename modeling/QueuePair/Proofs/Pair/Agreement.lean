import QueuePair.Proofs.Idle
import QueuePair.Proofs.Pair.Rendezvous

namespace QueuePair

open World

namespace World

def returned (w : World) (t : ThreadId) : Bool :=
  (w.outcome? t).any Outcome.isOk

def failed (w : World) (t : ThreadId) : Bool :=
  (w.outcome? t).any fun o => !o.isOk

/-- A thread is the only one that was started to finish the connection of a side. -/
structure Finalizes (w : World) (r : Role) (t : ThreadId) : Prop where
  started : ∃ th, w.threads[t]? = some th ∧ th.origin.finalizes = some r
  only : ∀ {u : ThreadId} {th : Thread}, w.threads[u]? = some th →
    th.origin.finalizes = some r → u = t

def finalizing (w : World) (r : Role) (t : ThreadId) : Bool :=
  w.threads[t]?.any fun th => th.origin.finalizes = some r

theorem finalizes_iff {w : World} {r : Role} {t : ThreadId} : w.Finalizes r t ↔
    w.finalizing r t = true ∧ ∀ u < w.threads.length, w.finalizing r u = true → u = t := by
  simp only [finalizing, Option.any_eq_true, decide_eq_true_eq]
  refine ⟨fun h => ⟨h.started, fun u _ ⟨th, hu, ho⟩ => h.only hu ho⟩, fun h => ⟨h.1, ?_⟩⟩
  intro u th hu ho
  exact h.2 u (List.getElem?_eq_some_iff.mp hu).1 ⟨th, hu, ho⟩

instance (w : World) (r : Role) (t : ThreadId) : Decidable (w.Finalizes r t) :=
  decidable_of_iff _ finalizes_iff.symm

/-- Of two threads, one came back well and the other has not come back. A worker that takes the gate
for a copy while the server waits for zero shows it the zero that the client was to make. -/
def Disagree (w : World) (a b : ThreadId) : Prop :=
  (w.returned a = true ∧ w.outcome? b = none) ∨ (w.returned b = true ∧ w.outcome? a = none)

end World

/-- Nobody destroys, and nobody runs out of time. -/
def Input.Patient : Input → Prop
  | .expire _ => False
  | i => i.Peaceful

theorem Input.Patient.peaceful {i : Input} (h : i.Patient) : i.Peaceful := by
  cases i with
  | expire => exact h.elim
  | _ => exact h

instance : DecidablePred Input.Patient
  | .expire _ => inferInstanceAs (Decidable False)
  | .run t => inferInstanceAs (Decidable (Input.run t).Peaceful)
  | .make a => inferInstanceAs (Decidable (Input.make a).Peaceful)
  | .operate e op => inferInstanceAs (Decidable (Input.operate e op).Peaceful)
  | .request op => inferInstanceAs (Decidable (Input.request op).Peaceful)
  | .drop e => inferInstanceAs (Decidable (Input.drop e).Peaceful)
  | .register e addr length access =>
    inferInstanceAs (Decidable (Input.register e addr length access).Peaceful)
  | .release id => inferInstanceAs (Decidable (Input.release id).Peaceful)

namespace Pair

variable {P : Pair} {w v : World} {t a b : ThreadId} {th : Thread} {r : Role} {x : Endpoint}

/-- Where the threads of an idle pair are. -/
inductive Rests (P : Pair) (w : World) : Thread → Prop
  | other {th : Thread} : th.origin.finalizes = none → th.task.gate = 0 → th.task.attached = 0 →
      Rests P w th
  | awaitBoth {r : Role} {l : Link} {d : Instant} : w.kernel.gauge P.keys .attached < 2 →
      Rests P w ⟨.call (some (P.id r)) (.finalizing (P.party r) .check),
        .call (some (P.id r)) (.finalizing (P.party r) (.rendezvous l (.awaitBoth d))), []⟩
  | takeGate {l : Link} {d : Instant} : w.kernel.gauge P.keys .gate = 0 →
      Rests P w ⟨.call (some (P.id .server)) (.finalizing (P.party .server) .check),
        .call (some (P.id .server)) (.finalizing (P.party .server) (.rendezvous l (.takeGate d))),
        []⟩
  | awaitZero {l : Link} {d : Instant} : w.kernel.gauge P.keys .gate ≠ 0 →
      Rests P w ⟨.call (some (P.id .server)) (.finalizing (P.party .server) .check),
        .call (some (P.id .server)) (.finalizing (P.party .server) (.rendezvous l (.awaitZero d))),
        []⟩
  | takeLast {l : Link} {d : Instant} : w.kernel.gauge P.keys .gate ≠ 1 →
      Rests P w ⟨.call (some (P.id .client)) (.finalizing (P.party .client) .check),
        .call (some (P.id .client)) (.finalizing (P.party .client) (.rendezvous l (.takeLast d))),
        []⟩
  | ended {o : Task} {out : Outcome} : Rests P w ⟨o, .ended out, []⟩

theorem refuses_change {g : Gauge} {set : SetId} {changes : List Change} {d : Option Instant}
    (hw : w.kernel.Wide P.keys) (hset : w.kernel.setOf? (g.key P.keys) = some set)
    (h : w.Refuses t (.system (.change set changes d))) :
    ∃ values, attempt values changes = .blocks ∧ values.length = g.width ∧
      w.kernel.gauge P.keys g = values.getD g.index 0 := by
  obtain ⟨s, hs, hb⟩ := h
  obtain ⟨s', hs', hl⟩ := hw g set hset
  obtain rfl := Option.some.inj (hs.symm.trans hs')
  exact ⟨s.values, hb, hl, Kernel.gauge_eq hset hs⟩

theorem not_refuses_access {α : Type} {c : EndpointCall α} (hx : w.endpoints[P.id r]? = some x)
    (hc : (x.call t c).isSome = true) : ¬ w.Refuses t (.endpoint (P.id r) c) := by
  intro h
  simp only [Refuses, hx, Option.bind_some] at h
  simp [h] at hc

theorem Law.raise_goes {g : Gauge} {m : Mailbox} (h : P.Law w) (hm : P.Box w.kernel r m)
    (hg : g.key P.keys = P.keys.mailbox) :
    ¬ w.Refuses t (.system (.change m.semaphores.set [⟨g.index, 1⟩] none)) := by
  intro href
  obtain ⟨values, hb, -⟩ := refuses_change (g := g) h.wide (hg ▸ hm.set) href
  exact raise_ne_blocks hb

theorem Law.connecting_goes {s : Connecting} (h : P.Law w) (hs : P.ConnectingFit w.kernel r s)
    (hne : s ≠ .lock) : ¬ w.Stands t (s.next (P.party r)) := by
  obtain ⟨x, hx, -⟩ := h.ends r
  intro hst
  cases s with
  | lock => exact hne rfl
  | check busy => exact not_refuses_access (r := r) (c := .readState) hx rfl hst
  | mailbox s =>
    cases s with
    | map s => cases s <;> exact hst
    | semaphores m s => cases s <;> exact hst
    | unlink => exact hs.elim
    | markVacant m => exact h.raise_goes (t := t) (g := .vacancy) hs rfl hst
  | signals m s =>
    cases s with
    | outbound s | inbound out s => cases s <;> exact hst
    | discard => exact hs.2.elim
  | storeConnected l => exact not_refuses_access (r := r) (c := .writeState .connected) hx rfl hst
  | spawnSender | spawnReceiver => exact hst
  | attach l s =>
    cases s with
    | raiseGate => exact h.raise_goes (t := t) (g := .gate) hs.box rfl hst
    | raiseCount => exact h.raise_goes (t := t) (g := .attached) hs.box rfl hst
  | unlock l e => exact not_refuses_access (r := r) (c := .unlockLink l) hx rfl hst
  | _ => exact hs.elim

theorem Law.unlocked (h : P.Law w) (hi : w.Idle) (hq : w.Queued)
    (hx : w.endpoints[P.id r]? = some x) : x.linkHolder = none := by
  cases hh : x.linkHolder with
  | none => rfl
  | some t =>
    obtain ⟨th, ht, hl⟩ := (h.holder hx t).mp hh
    have hst := hi.stands hq ht
    have hfit := h.fit ht
    cases hfit with
    | @connecting r' s hs =>
      rw [next_task] at hst
      simp only [Task.next, Call.next, Move.through, stands_map] at hst
      refine absurd hst (h.connecting_goes hs ?_)
      rintro rfl
      cases hl
    | call _ hc =>
      rw [serving_locks hc] at hl
      cases hl
    | _ => cases hl

theorem Law.worker_rests {s : Sender} {l : Link} (h : P.Law w) (hl : P.Bound w.kernel r l)
    (hst : w.Stands t (s.next (P.party r) l)) : s.gate = 0 := by
  cases s with
  | publish slot job s =>
    cases s with
    | takeVacancy | takeGate => rfl
    | copy => exact hst.elim
    | giveGate => exact (h.raise_goes (t := t) (g := .gate) hl.box rfl hst).elim
  | _ => rfl

theorem Law.collecting_rests {s : Mailbox.Collecting} {m : Mailbox} {into : Option Buffer}
    (h : P.Law w) (hm : P.Box w.kernel r m) (hst : w.Stands t (s.next m into)) : s.gate = 0 := by
  cases s with
  | takeGate | giveVacancy => rfl
  | copy => exact hst.elim
  | giveGate => exact (h.raise_goes (t := t) (g := .gate) hm rfl hst).elim

theorem Law.rendezvous_rests {s : Mailbox.Rendezvous} {l : Link} {restore : Bool} {span : Span}
    (h : P.Law w) (hs : P.FinalizingFit w.kernel r (.rendezvous l s))
    (hst : w.Stands t (s.next l.mailbox restore span)) :
    P.Rests w ⟨.call (some (P.id r)) (.finalizing (P.party r) .check),
      .call (some (P.id r)) (.finalizing (P.party r) (.rendezvous l s)), []⟩ := by
  have hset := hs.1.box.set
  cases s with
  | clock | overflowed => exact hst.elim
  | awaitBoth d =>
    have href : w.Refuses t (.system (.change l.mailbox.semaphores.set
      [⟨Mailbox.attached, -2⟩, ⟨Mailbox.attached, 2⟩] (some d))) := hst
    obtain ⟨values, hb, -, hg⟩ := refuses_change (g := .attached) h.wide hset href
    exact .awaitBoth (hg ▸ both_blocks hb)
  | takeGate d =>
    have href : w.Refuses t (.system (.change l.mailbox.semaphores.set
      [⟨Mailbox.gate, -1⟩] (some d))) := hst
    obtain ⟨values, hb, -, hg⟩ := refuses_change (g := .gate) h.wide hset href
    cases r with
    | server => exact .takeGate (hg ▸ take_blocks hb)
    | client => exact hs.2.elim
  | awaitZero d =>
    have href : w.Refuses t (.system (.change l.mailbox.semaphores.set
      [⟨Mailbox.gate, 0⟩] (some d))) := hst
    obtain ⟨values, hb, -, hg⟩ := refuses_change (g := .gate) h.wide hset href
    cases r with
    | server => exact .awaitZero (hg ▸ zero_blocks hb)
    | client => exact hs.2.elim
  | giveBack | undo => exact (h.raise_goes (t := t) (g := .gate) hs.1.box rfl hst).elim
  | takeLast d =>
    have href : w.Refuses t (.system (.change l.mailbox.semaphores.set
      [⟨Mailbox.gate, -1⟩, ⟨Mailbox.gate, 0⟩] (some d))) := hst
    obtain ⟨values, hb, hl, hg⟩ := refuses_change (g := .gate) h.wide hset href
    cases r with
    | server => exact hs.2.elim
    | client => exact .takeLast (hg ▸ last_blocks (hl ▸ Gauge.index_lt .gate) hb)

theorem Law.rests (h : P.Law w) (hi : w.Idle) (hq : w.Queued) (ht : w.threads[t]? = some th) :
    P.Rests w th := by
  have hst := hi.stands hq ht
  have hfit := h.fit ht
  cases hfit with
  | @sender r l s cs hl hs hc hcs =>
    cases cs with
    | cons c cs =>
      obtain ⟨slot, rfl⟩ := hcs (by simp)
      exact .other rfl rfl rfl
    | nil =>
      rw [next_task] at hst
      simp only [Task.next, Move.through, stands_map] at hst
      exact .other rfl (h.worker_rests hl hst) rfl
  | @receiver r l s cs hl hs hc hcs =>
    cases cs with
    | cons c cs =>
      obtain ⟨slot, rfl⟩ := hcs (by simp)
      exact .other rfl rfl rfl
    | nil =>
      rw [next_task] at hst
      simp only [Task.next, Move.through, stands_map] at hst
      cases s with
      | discard s | collect slot job s =>
        simp only [Receiver.next, Move.through, stands_map] at hst
        exact .other rfl (h.collecting_rests hl.box hst) rfl
      | _ => exact .other rfl rfl rfl
  | @connecting r s hs =>
    rw [next_task] at hst
    simp only [Task.next, Call.next, Move.through, stands_map] at hst
    cases s with
    | lock => exact .other rfl rfl rfl
    | _ => exact absurd hst (h.connecting_goes hs (by rintro ⟨⟩))
  | @finalizing r s hs =>
    rw [next_task] at hst
    simp only [Task.next, Call.next, Move.through, stands_map] at hst
    obtain ⟨x, hx, -⟩ := h.ends r
    cases s with
    | check | unlinked => exact (not_refuses_access (r := r) (c := .readState) hx rfl hst).elim
    | readLink =>
      refine (not_refuses_access (r := r) (c := .readLink) hx ?_ hst).elim
      simp [Endpoint.call, Endpoint.underLink, h.unlocked hi hq hx, Endpoint.quiet]
    | rendezvous l s =>
      simp only [Finalizing.next, Move.through, stands_map] at hst
      exact h.rendezvous_rests hs hst
  | @call o r c ho hc =>
    cases c with
    | posting | waiting | readingState | holding => exact .other ho rfl rfl
    | _ => exact hc.elim
  | @leaving o r out =>
    obtain ⟨x, hx, -⟩ := h.ends r
    rw [next_task] at hst
    simp only [Task.next, Move.through, stands_map] at hst
    refine absurd hst (not_refuses_access (r := r) (c := .release) hx ?_)
    simp only [Endpoint.call]
    split <;> rfl
  | ended => exact .ended

theorem Rests.attached (h : P.Rests w th) : th.task.attached = 0 := by
  cases h with
  | other _ _ ha => exact ha
  | _ => rfl

theorem Rests.gate (h : P.Rests w th) (hs : th.origin.finalizes ≠ some .server)
    (hc : th.origin.finalizes ≠ some .client) : P.due th .gate = 0 := by
  have hpassed : th.passed = 0 := by simp [Thread.passed, hc]
  have hgate : th.task.gate = 0 := by
    cases h with
    | other _ hg => exact hg
    | awaitZero => exact absurd (congrArg some (P.role_settings .server)) hs
    | _ => rfl
  simp [due, hpassed, hgate]

theorem outcome_eq {out : Outcome} (ht : w.threads[t]? = some th)
    (h : w.outcome? t = some out) : th.task = .ended out := by
  obtain ⟨o, task, cs⟩ := th
  simp only [outcome?, ht, Option.bind_some, Thread.outcome?] at h
  split at h <;> cases h
  rfl

theorem returned_eq (ht : w.threads[t]? = some th) (h : w.returned t = true) :
    ∃ e, th.task = .ended (.returned (.ok e)) := by
  simp only [returned, Option.any_eq_true] at h
  obtain ⟨out, hout, hok⟩ := h
  have htask := outcome_eq ht hout
  cases out with
  | panicked => cases hok
  | returned e =>
    cases e with
    | error e => cases hok
    | ok e => exact ⟨e, htask⟩

theorem Law.attached_eq (h : P.Law w) (hi : w.Idle) (hq : w.Queued)
    (hs : 1 ≤ P.connected w .server) (hc : 1 ≤ P.connected w .client) :
    w.kernel.gauge P.keys .attached = 2 := by
  have hs' := connected_le (P := P) w .server
  have hc' := connected_le (P := P) w .client
  have hl := h.ledger .attached
  have hzero : tally (P.due · .attached) w.threads = 0 := tally_eq_zero fun th hm => by
    obtain ⟨t, ht⟩ := List.mem_iff_getElem?.mp hm
    exact (h.rests hi hq ht).attached
  simp only [stock, total] at hl
  omega

theorem Law.finalizer (h : P.Law w) (hi : w.Idle) (hq : w.Queued) (hs : P.Sound w th)
    (ht : w.threads[t]? = some th) (ho : th.origin.finalizes = some r) :
    1 ≤ P.connected w r ∨ th.task.failed = true := by
  rcases hs.connected r ho with hu | hf | hc
  · cases h.rests hi hq ht with
    | other ho' =>
      rw [ho] at ho'
      cases ho'
    | _ => cases hu
  · exact .inr hf
  · exact .inl hc

theorem Law.gate_eq {tha thb : Thread} (h : P.Law w) (hi : w.Idle) (hq : w.Queued)
    (ha : w.Finalizes .server a) (hb : w.Finalizes .client b) (hta : w.threads[a]? = some tha)
    (htb : w.threads[b]? = some thb) (hne : a ≠ b) :
    w.kernel.gauge P.keys .gate + (P.due tha .gate + P.due thb .gate) =
      P.connected w .server + P.connected w .client := by
  have hl := h.ledger .gate
  have hpair := tally_pair (f := (P.due · .gate)) hta htb hne fun u thu hua hub hu =>
    (h.rests hi hq hu).gate (fun ho => hua (ha.only hu ho)) fun ho => hub (hb.only hu ho)
  rwa [hpair] at hl

theorem Finalizes.ne (ha : w.Finalizes .server a) (hb : w.Finalizes .client b) : a ≠ b := by
  rintro rfl
  obtain ⟨th, ht, ho⟩ := ha.started
  obtain ⟨th', ht', ho'⟩ := hb.started
  obtain rfl := Option.some.inj (ht.symm.trans ht')
  rw [ho] at ho'
  cases ho'

theorem due_of_passed (hb : th.origin.finalizes = some .client) {e : Value}
    (ht : th.task = .ended (.returned (.ok e))) : P.due th .gate = 1 := by
  simp [due, Thread.passed, hb, ht, Task.gate, Task.outcome?, Outcome.isOk]

/-- Once the client is through, the server cannot be held up. -/
theorem Law.server_goes (h : P.Law w) (hi : w.Idle) (hq : w.Queued)
    (hs : ∀ {t : ThreadId} {th : Thread}, w.threads[t]? = some th → P.Sound w th)
    (ha : w.Finalizes .server a) (hb : w.Finalizes .client b) (hok : w.returned b = true) :
    w.outcome? a ≠ none := by
  intro hnone
  obtain ⟨tha, hta, hoa⟩ := ha.started
  obtain ⟨thb, htb, hob⟩ := hb.started
  obtain ⟨e, htask⟩ := returned_eq htb hok
  have hdue := due_of_passed (P := P) hob htask
  have hgate := h.gate_eq hi hq ha hb hta htb (Finalizes.ne ha hb)
  have hconnb : 1 ≤ P.connected w .client :=
    (h.finalizer hi hq (hs htb) htb hob).resolve_right (by rw [htask]; nofun)
  have hconna := h.finalizer hi hq (hs hta) hta hoa
  have hle := connected_le (P := P) w .server
  have hle' := connected_le (P := P) w .client
  cases h.rests hi hq hta with
  | other ho =>
    rw [hoa] at ho
    cases ho
  | awaitBoth hlt =>
    have hboth := h.attached_eq hi hq (hconna.resolve_right nofun) hconnb
    omega
  | takeGate hz =>
    have hconn := hconna.resolve_right nofun
    rw [due_finalizing] at hgate
    simp only [Finalizing.gate, Mailbox.Rendezvous.gate] at hgate
    omega
  | awaitZero hnz =>
    rw [due_finalizing] at hgate
    simp only [Finalizing.gate, Mailbox.Rendezvous.gate] at hgate
    omega
  | takeLast => cases (P.role_settings .client).symm.trans (Option.some.inj hoa)
  | ended => simp [outcome?, hta, Thread.outcome?] at hnone

/-- If the server came back and the client did not, the gate has both raises. -/
theorem Law.gate_of_pending (h : P.Law w) (hi : w.Idle) (hq : w.Queued)
    (hs : ∀ {t : ThreadId} {th : Thread}, w.threads[t]? = some th → P.Sound w th)
    (ha : w.Finalizes .server a) (hb : w.Finalizes .client b) (hok : w.returned a = true)
    (hnone : w.outcome? b = none) : w.kernel.gauge P.keys .gate = 2 := by
  obtain ⟨tha, hta, hoa⟩ := ha.started
  obtain ⟨thb, htb, hob⟩ := hb.started
  obtain ⟨e, htask⟩ := returned_eq hta hok
  have hdue : P.due tha .gate = 0 := by
    simp [due, Thread.passed, hoa, htask, Task.gate]
  have hgate := h.gate_eq hi hq ha hb hta htb (Finalizes.ne ha hb)
  have hconna : 1 ≤ P.connected w .server :=
    (h.finalizer hi hq (hs hta) hta hoa).resolve_right (by rw [htask]; exact Bool.false_ne_true)
  have hconnb := h.finalizer hi hq (hs htb) htb hob
  have hle := connected_le (P := P) w .server
  have hle' := connected_le (P := P) w .client
  cases h.rests hi hq htb with
  | other ho =>
    rw [hob] at ho
    cases ho
  | awaitBoth hlt =>
    have hboth := h.attached_eq hi hq hconna (hconnb.resolve_right (by rintro ⟨⟩))
    omega
  | takeGate | awaitZero => cases (P.role_settings .server).symm.trans (Option.some.inj hob)
  | takeLast =>
    have hconn := hconnb.resolve_right (by rintro ⟨⟩)
    rw [due_finalizing] at hgate
    simp only [Finalizing.gate, Mailbox.Rendezvous.gate] at hgate
    omega
  | ended => simp [outcome?, htb, Thread.outcome?] at hnone

theorem Law.pending_of_gate (h : P.Law w) (hi : w.Idle) (hq : w.Queued)
    (ha : w.Finalizes .server a) (hb : w.Finalizes .client b) (hfail : w.failed b = false)
    (hg : w.kernel.gauge P.keys .gate = 2) : w.outcome? b = none := by
  cases hout : w.outcome? b with
  | none => rfl
  | some out =>
    obtain ⟨tha, hta, hoa⟩ := ha.started
    obtain ⟨thb, htb, hob⟩ := hb.started
    have hok : w.returned b = true := by simpa [failed, returned, hout] using hfail
    obtain ⟨e, htask⟩ := returned_eq htb hok
    have hdue := due_of_passed (P := P) hob htask
    have hgate := h.gate_eq hi hq ha hb hta htb (Finalizes.ne ha hb)
    have hle := connected_le (P := P) w .server
    have hle' := connected_le (P := P) w .client
    omega

/-- A server that came back before the client was let through by a copy. -/
theorem Law.copied_of_pending (h : P.Law w) (hi : w.Idle) (hq : w.Queued)
    (hs : ∀ {t : ThreadId} {th : Thread}, w.threads[t]? = some th → P.Sound w th)
    (ha : w.Finalizes .server a) (hb : w.Finalizes .client b) (hok : w.returned a = true)
    (hnone : w.outcome? b = none) : w.Copied := by
  obtain ⟨tha, hta, hoa⟩ := ha.started
  obtain ⟨e, htask⟩ := returned_eq hta hok
  have hcrossed : Crossed w := (hs hta).crossed hoa (by rw [htask]; rfl)
  cases hcrossed with
  | copied hc => exact hc
  | @passed t th ht hp =>
    have hpassed : th.origin.finalizes = some .client ∧ th.task.outcome?.any Outcome.isOk := by
      unfold Thread.passed at hp
      split at hp
      · assumption
      · cases hp
    obtain rfl := hb.only ht hpassed.1
    cases h.rests hi hq ht with
    | other ho => cases ho.symm.trans hpassed.1
    | ended => simp [outcome?, ht, Thread.outcome?] at hnone
    | _ => cases hpassed.2
  | @copies t th ht hc =>
    cases h.rests hi hq ht with
    | other _ hg =>
      cases htask' : th.task with
      | sender p l s | receiver p l s =>
        rw [htask'] at hg hc
        have hone : s.gate = 1 := of_decide_eq_true hc
        simp only [Task.gate] at hg
        omega
      | _ =>
        rw [htask'] at hc
        cases hc
    | _ => cases hc
  | twice hne ht hu hot hou => exact absurd ((ha.only ht hot).trans (ha.only hu hou).symm) hne

/-- Two sides that finish their connection once each can disagree in an idle world: exactly when
the server came back and the gate still has both raises, although the client did not fail. This
takes a message that was copied. -/
theorem finalize_disagreement (hb : P.Begins w) (hr : Run Input.Peaceful w v) (hi : v.Idle)
    (hs : v.Finalizes .server a) (hc : v.Finalizes .client b) :
    (v.Disagree a b ↔
      v.returned a = true ∧ v.failed b = false ∧ v.kernel.gauge P.keys .gate = 2) ∧
    (v.Disagree a b → v.Copied) := by
  obtain ⟨hl, hq⟩ := hb.run hr
  have hsound : ∀ {t : ThreadId} {th : Thread}, v.threads[t]? = some th → P.Sound v th :=
    fun ht => hb.sound hr ht
  have hcase : v.Disagree a b → v.returned a = true ∧ v.outcome? b = none := by
    rintro (h | ⟨hok, hnone⟩)
    · exact h
    · exact absurd hnone (hl.server_goes hi hq hsound hs hc hok)
  refine ⟨⟨fun h => ?_, fun ⟨hok, hfail, hg⟩ => ?_⟩, fun h => ?_⟩
  · obtain ⟨hok, hnone⟩ := hcase h
    exact ⟨hok, by simp [failed, hnone], hl.gate_of_pending hi hq hsound hs hc hok hnone⟩
  · exact .inl ⟨hok, hl.pending_of_gate hi hq hs hc hfail hg⟩
  · obtain ⟨hok, hnone⟩ := hcase h
    exact hl.copied_of_pending hi hq hsound hs hc hok hnone

/-- Both sides of the small pair connect. The server finalizes and waits for zero, then the client
sends a message, and only then the client finalizes. -/
def overtaken : List Input :=
  joining ++ [.operate 0 .finalizeAccept] ++ List.replicate 6 (.run 6) ++
    [.operate 1 (.postSend (.ofBytes [120]) .caller)] ++ List.replicate 5 (.run 7) ++
    List.replicate 9 (.run 4) ++ List.replicate 2 (.run 6) ++ List.replicate 7 (.run 2) ++
    [.operate 1 .finalizeConnect] ++ List.replicate 5 (.run 8) ++ [.run 1, .run 5]

theorem overtaken_facts : (∀ i ∈ overtaken, i.Patient) ∧ (newborn.play overtaken).Idle ∧
    (newborn.play overtaken).Finalizes .server 6 ∧ (newborn.play overtaken).Finalizes .client 8 ∧
    (newborn.play overtaken).returned 6 = true ∧
    ((newborn.play overtaken).outcome? 8).isNone = true ∧
    (newborn.play overtaken).kernel.gauge small.keys .gate = 2 := by
  decide +kernel

/-- A copy lets the server through, and nothing ever lets the client through. -/
theorem disagreement_reached : ∃ v, Run Input.Patient newborn v ∧ v.Idle ∧
    v.Finalizes .server 6 ∧ v.Finalizes .client 8 ∧ v.returned 6 = true ∧ v.outcome? 8 = none := by
  obtain ⟨hin, hidle, hs, hc, hok, hnone, -⟩ := overtaken_facts
  exact ⟨_, Run.refl.play hin, hidle, hs, hc, hok, Option.isNone_iff_eq_none.mp hnone⟩

theorem disagreement_after_overtaking : (newborn.play overtaken).Disagree 6 8 ∧
    (newborn.play overtaken).Copied := by
  obtain ⟨hin, hidle, hs, hc, hok, hnone, hg⟩ := overtaken_facts
  have hr : Run Input.Peaceful newborn (newborn.play overtaken) :=
    Run.refl.play fun i hi => (hin i hi).peaceful
  obtain ⟨hiff, hcopied⟩ := finalize_disagreement newborn_begins hr hidle hs hc
  have hfail : (newborn.play overtaken).failed 8 = false := by
    rw [failed, Option.isNone_iff_eq_none.mp hnone]
    rfl
  have h := hiff.mpr ⟨hok, hfail, hg⟩
  exact ⟨h, hcopied h⟩

end Pair

end QueuePair
