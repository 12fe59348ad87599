import QueuePair.Proofs.Pair.Stranding

namespace QueuePair

open World

namespace Teardown

variable (T : Teardown)

/-- After the teardown nobody can go on, and the callbacks came back. -/
structure Sunk (v : World) : Prop where
  sinks : T.Sinks v
  idle : v.Idle
  silent : ∀ th ∈ v.threads, th.callbacks = []
  unharmed : ∀ e, ¬ v.Harmed e
  parked : v.Parked
  keeps : ∀ s, v.Keeps (T.pair.id s)
  settled : ∀ s, v.Settled (T.pair.id s)
  replied : ∀ s, v.Replied (T.pair.id s)

namespace Sunk

variable {T} {s : Role} {t : ThreadId} {v : World} {th : Thread} {x : Endpoint} {l : Link}
  {d : Direction}

theorem stands (h : T.Sunk v) (ht : v.threads[t]? = some th) : v.Stands t th.task.next :=
  stands_task (h.idle.stands h.sinks.queued ht) (h.silent th (List.mem_of_getElem? ht))

theorem destroying_waits (h : T.Sunk v) {a : Destroying} (ha : T.DestroyingFades v a)
    (hst : v.Stands t (a.next (T.pair.party T.side))) : ∃ r b rest, a = .join r b rest := by
  obtain ⟨x, hx, hfx⟩ := h.sinks.ends T.side
  have hx' : v.endpoints[(T.pair.party T.side).id]? = some x := hx
  cases a with
  | begin | close => exact ha.elim
  | takeLink =>
    refine (Pair.not_refuses_access (r := T.side) (c := .takeLink) hx ?_ hst).elim
    simp [Endpoint.call, hfx.underLink, Endpoint.quiet]
  | remove l m =>
    simp only [Destroying.next, Move.through, stands_map] at hst
    cases m with
    | mailbox m => cases m <;> exact hst.elim
    | signals r m => cases m <;> exact hst.elim
  | takeWorkers | dropDisconnect => exact (access_goes hx' rfl hst).elim
  | join r b rest => exact ⟨r, b, rest, rfl⟩
  | fail r d f =>
    simp only [Destroying.next, Move.through, stands_map] at hst
    exact (failPending_goes hx' f hst).elim

theorem adrift (h : T.Sunk v) : T.Adrift v := by
  obtain ⟨th, ht⟩ : ∃ th, v.threads[T.thread]? = some th :=
    ⟨_, List.getElem?_eq_getElem h.sinks.there⟩
  have hst := h.stands ht
  obtain ⟨s, hf, hs⟩ := h.sinks.threads ht
  obtain rfl := hs rfl
  have htask := hf.task
  obtain ⟨o, task, cs⟩ := th
  cases task with
  | sender | receiver => exact absurd rfl htask.2.1.other
  | leaving => exact htask.2.2.1 rfl
  | ended => exact htask.1 rfl
  | call o c =>
    obtain ⟨rfl, hfade, -⟩ := htask
    cases c with
    | finalizing | posting | waiting => exact absurd rfl hfade.2.1
    | destroying p a =>
      obtain ⟨rfl, -, -, ha⟩ := hfade
      simp only [Task.next, Call.next, Move.through, stands_map] at hst
      obtain ⟨r, b, rest, rfl⟩ := h.destroying_waits ha hst
      exact ha.1
    | _ => exact hfade.elim

theorem gone (h : T.Sunk v) (hl : T.pair.Bound T.before.kernel s l) :
    v.kernel.live? l.mailbox.semaphores.set = none ∧
      v.kernel.live? l.signals.outbound.set = none ∧
      v.kernel.live? l.signals.inbound.set = none :=
  ⟨h.adrift .gate _ hl.box.set, h.adrift (.signal s) _ hl.outbound,
    h.adrift (.signal s.peer) _ hl.inbound⟩

theorem sender_done (h : T.Sunk v) {a : Sender} {p : Party}
    (hl : T.pair.Bound T.before.kernel s l) :
    ¬ v.Awaits (a.next p l) := by
  obtain ⟨hbox, hout, -⟩ := h.gone hl
  intro ha
  cases a with
  | publish slot job m =>
    simp only [Sender.next, Move.through, awaits_map] at ha
    cases m <;> simp [Mailbox.Publishing.next, Move.call, Move.add, Awaits, hbox] at ha
  | signal => simp [Sender.next, Move.add, Awaits, hout] at ha
  | depart a =>
    simp only [Sender.next, Move.through, awaits_map] at ha
    cases a with
    | fail localEnd f => cases f <;> exact ha.elim
    | _ => exact ha.elim
  | _ => exact ha.elim

theorem receiver_done (h : T.Sunk v) {a : Receiver} {p : Party}
    (hl : T.pair.Bound T.before.kernel s l) : ¬ v.Awaits (a.next p l) := by
  obtain ⟨hbox, -, hin⟩ := h.gone hl
  intro ha
  cases a with
  | await => simp [Receiver.next, Move.add, Awaits, hin] at ha
  | discard c | collect slot job c =>
    simp only [Receiver.next, Move.through, awaits_map] at ha
    cases c <;> simp [Mailbox.Collecting.next, Move.call, Move.add, Awaits, hbox] at ha
  | depart a =>
    simp only [Receiver.next, Move.through, awaits_map] at ha
    cases a with
    | fail localEnd f => cases f <;> exact ha.elim
    | _ => exact ha.elim
  | _ => exact ha.elim

theorem not_lingers (h : T.Sunk v) (q : Role) (d : Direction) : ¬ v.Lingers (T.pair.id q) d := by
  rintro ⟨th, hm, hserves, ha⟩
  obtain ⟨t, ht⟩ := List.mem_iff_getElem?.mp hm
  obtain ⟨s, hf, -⟩ := h.sinks.threads ht
  have htask := hf.task
  have hn := h.silent th hm
  obtain ⟨o, task, cs⟩ := th
  obtain rfl : cs = [] := hn
  rw [Pair.next_task, awaits_map] at ha
  cases task with
  | sender p l a =>
    simp only [Task.next, Move.through, awaits_map] at ha
    exact h.sender_done htask.2.2.1 ha
  | receiver p l a =>
    simp only [Task.next, Move.through, awaits_map] at ha
    exact h.receiver_done htask.2.2.1 ha
  | _ => cases hserves

theorem closed (h : T.Sunk v) (s : Role) :
    ∃ x, v.endpoints[T.pair.id s]? = some x ∧ x.state = .closed := by
  rcases (h.settled s).guarded .receive with hharm | ⟨th, hm, hw⟩ | ⟨x, hx, hclosed, -⟩
  · exact absurd hharm (h.unharmed _)
  · -- a receiver that still watches would have to wait for something that is gone
    obtain ⟨t, ht⟩ := List.mem_iff_getElem?.mp hm
    obtain ⟨q, hf, -⟩ := h.sinks.threads ht
    have hst := h.stands ht
    have htask := hf.task
    obtain ⟨o, task, cs⟩ := th
    cases task with
    | receiver p l a =>
      obtain ⟨rfl, -, hl, -⟩ := htask
      obtain ⟨x, hx, -⟩ := h.sinks.ends q
      simp only [Task.next, Move.through, stands_map] at hst
      exact absurd (receiver_stands (p := T.pair.party q) hx hst) (h.receiver_done hl)
    | sender p => simp [Thread.watch, Task.watch] at hw
    | _ => cases hw
  · exact ⟨x, hx, hclosed⟩

theorem rests (h : T.Sunk v) (s : Role) : v.Rests (T.pair.id s) where
  idle := h.idle
  queued := h.sinks.queued
  parked := h.parked
  keeps := h.keeps s
  settled := h.settled s
  closed := h.closed s
  silent := fun th hm _ => h.silent th hm
  unharmed := h.unharmed _

theorem cleared (h : T.Sunk v) (s : Role) (d : Direction) : v.Cleared (T.pair.id s) d :=
  (h.rests s).cleared (h.not_lingers s d)

theorem answered (h : T.Sunk v) (hx : v.endpoints[T.pair.id s]? = some x) {n : Nat}
    {dl : Option Instant} {data : Buffer} {o : Option EndpointId} (hm : th ∈ v.threads)
    (ht : th.task = .call o (.waiting (T.pair.party s) d data (.awaiting n dl))) :
    (x.reply n).isMissing = false :=
  (h.replied s).answered ((h.rests s).kept d) ((h.rests s).hands (h.not_lingers s d)).2 hx
    ((h.cleared s d).empty x hx) hm (h.silent th hm) rfl ht

/-- No call is left, unless the destroying thread waits for another one. -/
theorem call_done (h : T.Sunk v) {c : Call} {o : Option EndpointId}
    (ht : v.threads[t]? = some th) (hc : th.task = .call o c) (hf : T.CallFades s t v c) :
    ∃ b, t = T.thread ∧ b ≠ T.thread ∧ ∃ th', v.threads[b]? = some th' ∧ th'.isEnded = false := by
  obtain ⟨x, hx, hfx⟩ := h.sinks.ends s
  have hst := h.stands ht
  have hn := h.silent th (List.mem_of_getElem? ht)
  rw [hc] at hst
  simp only [Task.next, Move.through, stands_map] at hst
  have hunparked : ∀ want, th.task.stance ≠ .parked (T.pair.id s) want := fun want hw => by
    refine (h.rests s).unparked want ht ?_
    rw [Thread.stance, hn]
    exact hw
  cases c with
  | finalizing p a =>
    obtain ⟨-, -, l, m, rfl, hstuck, hl, -⟩ := hf
    obtain ⟨hbox, -⟩ := h.gone hl
    simp only [Call.next, Finalizing.next, Move.through, stands_map] at hst
    cases m with
    | clock | overflowed | giveBack => exact hstuck.elim
    | awaitBoth | takeGate | awaitZero | takeLast | undo =>
      obtain ⟨b, hlive, -⟩ := hst
      rw [hbox] at hlive
      cases hlive
  | posting p d data handler a =>
    obtain ⟨rfl, -⟩ := hf
    simp only [Call.next, Move.through, stands_map] at hst
    obtain ⟨job, dl, rfl⟩ := Pair.posting_waits hx hst
    exact absurd (by rw [hc]; rfl) (hunparked (.room d))
  | waiting p d data a =>
    obtain ⟨rfl, -⟩ := hf
    simp only [Call.next, Move.through, stands_map] at hst
    obtain ⟨job, dl, rfl⟩ | ⟨n, dl, rfl, hmissing⟩ := Pair.waiting_waits hx hst
    · exact absurd (by rw [hc]; rfl) (hunparked (.room d))
    · rw [h.answered hx (List.mem_of_getElem? ht) hc] at hmissing
      cases hmissing
  | destroying p a =>
    obtain ⟨rfl, rfl, rfl, ha⟩ := hf
    simp only [Call.next, Move.through, stands_map] at hst
    obtain ⟨r, b, rest, rfl⟩ := h.destroying_waits ha hst
    exact ⟨b, rfl, fun hb => ha.2 (hb ▸ List.mem_cons_self), hst⟩
  | _ => exact hf.elim

theorem ended_or_joins (h : T.Sunk v) (ht : v.threads[t]? = some th) : th.isEnded = true ∨
    ∃ b, t = T.thread ∧ b ≠ T.thread ∧ ∃ th', v.threads[b]? = some th' ∧ th'.isEnded = false := by
  obtain ⟨s, hf, -⟩ := h.sinks.threads ht
  obtain ⟨x, hx, hfx⟩ := h.sinks.ends s
  have hst := h.stands ht
  have hn := h.silent th (List.mem_of_getElem? ht)
  have htask := hf.task
  obtain ⟨o, task, cs⟩ := th
  obtain rfl : cs = [] := hn
  cases task with
  | sender p l a =>
    obtain ⟨rfl, -, hl, -⟩ := htask
    simp only [Task.next, Move.through, stands_map] at hst
    obtain rfl | ha := sender_stands (p := T.pair.party s) hx hst
    · exact absurd rfl ((h.rests s).unparked .job ht)
    · exact absurd ha (h.sender_done hl)
  | receiver p l a =>
    obtain ⟨rfl, -, hl, -⟩ := htask
    simp only [Task.next, Move.through, stands_map] at hst
    exact absurd (receiver_stands (p := T.pair.party s) hx hst) (h.receiver_done hl)
  | call o c => exact .inr (h.call_done ht rfl htask.2.1)
  | leaving e a out =>
    obtain ⟨rfl, rfl, -⟩ := htask
    refine (Pair.not_refuses_access (r := s) (c := .release) hx (call_prompt rfl) hst).elim
  | ended => exact .inl rfl

theorem ended (h : T.Sunk v) (hm : th ∈ v.threads) : th.isEnded = true := by
  obtain ⟨t, ht⟩ := List.mem_iff_getElem?.mp hm
  rcases h.ended_or_joins ht with hend | ⟨b, -, hb, th', hth', hleft⟩
  · exact hend
  · rcases h.ended_or_joins hth' with hend | ⟨-, hself, -⟩
    · rw [hend] at hleft
      cases hleft
    · exact absurd hself hb

theorem failed (h : T.Sunk v) {b : Thread} {c : Call} (hb : T.before.threads[t]? = some b)
    (hc : b.task.call? = some c) (ht : v.threads[t]? = some th) :
    ∃ out, th.outcome? = some out ∧ c.Fails v out := by
  obtain ⟨out, hout⟩ := Option.isSome_iff_exists.mp (h.ended (List.mem_of_getElem? ht))
  refine ⟨out, hout, ?_⟩
  obtain ⟨s, hf, -⟩ := h.sinks.threads ht
  have hcall : T.call? t = some c := by simp [call?, hb, hc]
  have htask := hf.task
  obtain ⟨o, task, cs⟩ := th
  cases task with
  | ended out' =>
    have hsame : out' = out := by
      cases cs with
      | nil => exact Option.some.inj hout
      | cons => cases hout
    exact hsame ▸ htask.2 c hcall
  | _ => cases hout

theorem given_back {a : Tag} (h : T.Sunk v)
    (ha : a ∈ ((v.stores (T.pair.id s)).shelf d).received)
    (hnew : a ∉ ((T.before.stores (T.pair.id s)).shelf d).settled) : ∃ job, job.tag = a ∧
      (job, some .connectionClosed) ∈ ((v.stores (T.pair.id s)).shelf d).resolved := by
  obtain ⟨evs, hevs, hfails⟩ := h.sinks.history
  have hreplay : ∀ {α : Type} (f : Event → Option α),
      replay f v.history = replay f T.before.history ++ replay f evs := fun f => by
    simp [hevs, replay, List.filterMap_append]
  rcases List.mem_append.mp ((h.cleared s d).settled.symm.subset ha) with hres | hwith
  · obtain ⟨⟨job, error⟩, hjob, rfl⟩ := List.mem_map.mp hres
    have hsplit : (job, error) ∈ replay (Event.resolved? (T.pair.id s) d) v.history := hjob
    rw [hreplay] at hsplit
    rcases List.mem_append.mp hsplit with hold | hlate
    · exact absurd (List.mem_append_left _ (List.mem_map.mpr ⟨_, hold, rfl⟩)) hnew
    · obtain ⟨ev, hev, hresolved⟩ := List.mem_filterMap.mp hlate
      obtain rfl := (hfails ev (List.mem_reverse.mp hev)).resolved hresolved
      exact ⟨job, rfl, hjob⟩
  · obtain ⟨n, hn, rfl⟩ := List.mem_map.mp hwith
    have hsplit : n ∈ replay (Event.withdrawn? (T.pair.id s) d) v.history := hn
    rw [hreplay] at hsplit
    rcases List.mem_append.mp hsplit with hold | hlate
    · exact absurd (List.mem_append_right _ (List.mem_map.mpr ⟨_, hold, rfl⟩)) hnew
    · obtain ⟨ev, hev, hwithdrawn⟩ := List.mem_filterMap.mp hlate
      rw [(hfails ev (List.mem_reverse.mp hev)).withdrawn] at hwithdrawn
      cases hwithdrawn

theorem parted {n : Nat} (h : T.Sunk v) (hp : T.Parting n v) : v.partings T.left = n := by
  have hover : ∀ th ∈ v.threads, th.farewell T.left = .over := fun th hm => by
    have hend := h.ended hm
    obtain ⟨o, task, cs⟩ := th
    cases task with
    | ended => rfl
    | _ => cases hend
  obtain ⟨x, hx, -⟩ := h.sinks.ends T.side.peer
  have hsum := hp.sum x hx
  have howing : tally (Thread.owing T.left) v.threads = 0 :=
    tally_eq_zero fun th hm => by simp [Thread.owing, hover th hm]
  have hnone : x.onDisconnect.isSome = false := by
    cases hsome : x.onDisconnect.isSome with
    | false => rfl
    | true =>
      obtain ⟨th, hm, hahead⟩ := hp.warned x hx hsome
      rw [hover th hm] at hahead
      cases hahead
  simpa [howing, hnone] using hsum

end Sunk

end Teardown

/-- A blocked call has failed: it returned that the connection is closed, or it was a post whose
job was accepted after all and then given back with this error. -/
def Call.Failed (v : World) (c : Call) (out : Outcome) : Prop :=
  out = .returned (.error .connectionClosed) ∨
    ∃ p d data handler s job, c = .posting p d data handler s ∧ s.job? = some job ∧
      out = .returned (.ok .unit) ∧ ∃ job', job'.tag = job.tag ∧
        (job', some .connectionClosed) ∈ ((v.stores p.id).shelf d).resolved

namespace Pair

/-- What has become of a connected pair after one of its sides was torn down. -/
structure TornDown (P : Pair) (r : Role) (w v : World) : Prop where
  closed : ∀ s, ∃ x, v.endpoints[P.id s]? = some x ∧ x.state = .closed
  -- no thread is left
  ended : ∀ th ∈ v.threads, th.isEnded = true
  -- the calls that were blocked have failed
  failed : ∀ (t : ThreadId) th c, w.threads[t]? = some th → th.task.call? = some c →
    ∃ out, v.outcome? t = some out ∧ c.Failed v out
  -- the queues are empty and all their entries are free
  cleared : ∀ s d, v.Cleared (P.id s) d
  -- work that was not yet given back has failed
  given : ∀ s d a, a ∈ ((v.stores (P.id s)).shelf d).received →
    a ∉ ((w.stores (P.id s)).shelf d).settled → ∃ job, job.tag = a ∧
      (job, some .connectionClosed) ∈ ((v.stores (P.id s)).shelf d).resolved
  -- the other side's disconnect callback has run once, if there is one
  parted : ∀ x, w.endpoints[P.id r.peer]? = some x →
    v.partings (P.id r.peer) = if x.onDisconnect.isSome then 1 else 0
  -- the disconnect callback of the side that was torn down has not run
  spared : v.partings (P.id r) = 0

variable {P : Pair} {w₀ w u v : World} {r s : Role} {t : ThreadId} {th : Thread} {c : Call}

namespace Becalmed

section

variable (h : P.Becalmed w₀ w) (hu : w.apply (.operate (P.id r) .destroy) = some u)

include hu in
theorem run_on (hr : Run Input.Steps u v) : Run (fun _ => True) w v :=
  (Run.refl.step _ trivial hu).trans (hr.mono fun _ _ => trivial)

include h hu

theorem run_all (hr : Run Input.Steps u v) : Run (fun _ => True) w₀ v :=
  (h.run.mono fun _ _ => trivial).trans (run_on hu hr)

theorem unharmed (hr : Run Input.Steps u v) (hharm : ∀ e, ¬ v.Harmed e) (e : EndpointId) :
    ¬ w.Harmed e := by
  rintro ⟨th, hm, ho, hp⟩
  have hopens := Teardown.opens_begin h hu
  refine hharm e (World.Harmed.run (v := u) ⟨th, ?_, ho, hp⟩ hopens.queued hr)
  rw [hopens.threads]
  exact List.mem_append_left _ (List.mem_map.mpr ⟨th, hm, rfl⟩)

theorem sunk (hs : ∀ x f, w.endpoints[P.id r.peer]? = some x → x.onDisconnect = some f →
      Script.peaceful f = true) (hr : Run Input.Steps u v) (hi : v.Idle)
    (hn : ∀ th ∈ v.threads, th.callbacks = []) (hharm : ∀ e, ¬ v.Harmed e) :
    (h.teardown r).Sunk v := by
  have hall := run_all h hu hr
  have hkeeps : ∀ {v : World} (s : Role), Run (fun _ => True) w₀ v → v.Keeps (P.id s) :=
    fun s => (h.begins.keeps _).run h.begins.queued
  exact {
    sinks := (h.stranded r hs).idle (Teardown.opens_begin h hu)
      (hkeeps r (run_all h hu .refl)) hr hharm hi
    idle := hi
    silent := hn
    unharmed := hharm
    parked := (parked_of_new h.begins.threads).run hall
    keeps := fun s => hkeeps s hall
    settled := fun s => (h.settled s).run (hkeeps s (h.run.mono fun _ _ => trivial)) h.queued
      (run_on hu hr)
    replied := fun s => (h.begins.replied s).run (h.begins.keeps _) h.begins.queued hall }

end

theorem unsettled {d d' : Direction} {data : Buffer} {handler : Handler} {a : Posting} {job : Job}
    (h : P.Becalmed w₀ w) (ht : w.threads[t]? = some th)
    (hc : th.task.call? = some (.posting (P.party s) d data handler a)) (ha : a.job? = some job) :
    job.tag ∉ ((w.stores (P.id s)).shelf d').settled := by
  intro hm
  have hnumber : a.numbers job.serial = 1 := by
    cases a <;> cases ha <;> simp [Posting.numbers]
  have hdrawn := call_le (drawn (P.id s) job.serial) hc
  simp only [drawn_posting, party_id, if_true, hnumber] at hdrawn
  have hunused := (h.begins.unanswered h.run (List.mem_of_getElem? ht) hdrawn).1 d'
  have hk := (((h.begins.keeps (P.id s)).run h.begins.queued h.run).custody false (by simp)).kept d'
  exact hunused (List.mem_map.mpr ⟨_, hk.settled_subperm.subset hm, rfl⟩)

theorem posting_party {p : Party} {d : Direction} {data : Buffer} {handler : Handler} {a : Posting}
    (h : P.Becalmed w₀ w) (ht : w.threads[t]? = some th)
    (hc : th.task.call? = some (.posting p d data handler a)) : ∃ s, p = P.party s := by
  have hfit := h.law.fit ht
  obtain ⟨o, task, cs⟩ := th
  cases task with
  | call owner c =>
    cases hc
    cases hfit with
    | call _ hserving => exact ⟨_, hserving.1⟩
  | _ => cases hc

theorem failed {out : Outcome} (h : P.Becalmed w₀ w) (hsunk : (h.teardown r).Sunk v)
    (ht : w.threads[t]? = some th) (hc : th.task.call? = some c) (hf : c.Fails v out) :
    c.Failed v out := by
  refine hf.imp_right ?_
  rintro ⟨p, d, data, handler, a, job, rfl, hjob, hout, haccepted⟩
  refine ⟨p, d, data, handler, a, job, rfl, hjob, hout, ?_⟩
  obtain ⟨s, rfl⟩ := h.posting_party ht hc
  refine hsunk.given_back (s := s) (List.mem_map.mpr ⟨job, ?_, rfl⟩) (h.unsettled ht hc hjob)
  exact List.mem_filterMap.mpr ⟨_, List.mem_reverse.mpr haccepted, if_pos ⟨rfl, rfl⟩⟩

end Becalmed

/-- From whichever state a connected pair has come to rest in, with all its queued work and blocked
calls, destroying one side tears the other down too. Once nobody can go on, both sides are closed
and no thread is left; each call that was blocked has failed with the closed connection, as has all
work that was not given back; the other side's disconnect callback has run exactly once, and that of
the side that was destroyed has not. The callbacks that run have to come back, and destroy nothing
themselves. -/
theorem teardown_reaches_peer (h : P.Becalmed w₀ w)
    (hs : ∀ x f, w.endpoints[P.id r.peer]? = some x → x.onDisconnect = some f →
      Script.peaceful f = true)
    (hu : w.apply (.operate (P.id r) .destroy) = some u) (hr : Run Input.Steps u v) (hi : v.Idle)
    (hn : ∀ th ∈ v.threads, th.callbacks = []) (hharm : ∀ e, ¬ v.Harmed e) :
    P.TornDown r w v := by
  have hsunk := Becalmed.sunk h hu hs hr hi hn hharm
  obtain ⟨x, hx, -⟩ := h.law.ends r.peer
  have hparting := (h.stranded r hs).parting
    (h.parting r hx (Becalmed.unharmed h hu hr hharm)) (Teardown.opens_begin h hu)
    ((h.begins.keeps (P.id r)).run h.begins.queued (Becalmed.run_all h hu .refl)) hr hharm
  refine {
    closed := hsunk.closed
    ended := fun th hm => hsunk.ended hm
    failed := fun t th c ht hc => ?_
    cleared := hsunk.cleared
    given := fun s d a ha hnew => hsunk.given_back (s := s) ha hnew
    parted := fun y hy => ?_
    spared := hparting.spared }
  · have hlt : t < v.threads.length :=
      Nat.lt_trans (List.getElem?_eq_some_iff.mp ht).1 hsunk.sinks.there
    obtain ⟨out, hout, hfails⟩ := hsunk.failed ht hc (List.getElem?_eq_getElem hlt)
    exact ⟨out, by simp [World.outcome?, hlt, hout], h.failed hsunk ht hc hfails⟩
  · obtain rfl := Option.some.inj (hx.symm.trans hy)
    exact hsunk.parted hparting

def attentive : World :=
  { World.empty with
    endpoints := [.ofSettings (small.settings .server) (some []),
      .ofSettings (small.settings .client) (some [])] }

theorem attentive_begins : small.Begins attentive where
  endpoints := ⟨fun _ => some [], rfl⟩
  threads := rfl
  history := rfl
  mailbox := by decide +kernel
  signal := fun r => by cases r <;> decide +kernel
  waiters := by simp [attentive, World.empty, Kernel.empty]
  housed := fun file h => by
    have hnone : (attentive.kernel.files.lookup small.keys.path).toOption = some none := by
      decide +kernel
    rw [h] at hnone
    cases hnone

def turns (ts : List ThreadId) : List Input :=
  ts.flatMap fun t => List.replicate 20 (.run t)

/-- The server waits for a message and for the other side to finish the connection, and cannot post
another receive. -/
def becalmed : World :=
  attentive.play (joining ++ turns [1, 2, 4, 5] ++
    [.operate 0 (.waitReceive (.ofLimit 8))] ++ turns [6] ++
    [.operate 0 .finalizeAccept] ++ turns [7] ++
    [.operate 0 (.postReceive (.ofLimit 8) (.callbacks "a" [] []))] ++ turns [8] ++
    [.operate 0 (.postReceive (.ofLimit 8) (.callbacks "b" [] []))] ++ turns [9])

def shaken : World := becalmed.play [.operate 1 .destroy]

def wrecked : World := shaken.play (turns [10, 1, 2, 4, 5, 10, 6, 7, 9, 1, 2, 10])

theorem blocked_calls_fail : (∀ t ∈ [6, 7, 9], (becalmed.outcome? t).isNone = true) ∧
    small.TornDown .client becalmed wrecked := by
  have hb : small.Becalmed attentive becalmed := {
    begins := attentive_begins
    run := Run.refl.play (by decide +kernel)
    idle := by decide +kernel
    connected := fun r => by cases r <;> decide +kernel
    silent := silent_of_isEmpty (by decide +kernel) }
  have hpeaceful : ∀ x f, becalmed.endpoints[small.id Role.client.peer]? = some x →
      x.onDisconnect = some f → Script.peaceful f = true := fun x f hx hf => by
    have hsome : (becalmed.endpoints[0]?.bind (·.onDisconnect)).all Script.peaceful = true := by
      decide +kernel
    have hx' : becalmed.endpoints[0]? = some x := hx
    simpa [hx', hf] using hsome
  have hu : becalmed.apply (.operate (small.id .client) .destroy) = some shaken := by
    have hsome : (becalmed.apply (.operate 1 .destroy)).isSome = true := by decide +kernel
    obtain ⟨u, hu⟩ := Option.isSome_iff_exists.mp hsome
    have hshaken : shaken = u := by simp [shaken, World.play, hu]
    exact hshaken ▸ hu
  have hr : Run Input.Steps shaken wrecked := Run.refl.play (by decide +kernel)
  have hharm := not_harmed (w := wrecked) (by decide +kernel)
  exact ⟨by decide +kernel, teardown_reaches_peer hb hpeaceful hu hr (by decide +kernel)
    (silent_of_isEmpty (by decide +kernel)) hharm⟩

end Pair

end QueuePair
