import QueuePair.Proofs.Pair.Farewell
import QueuePair.Proofs.Pair.Unanswered

namespace QueuePair

open World

theorem World.Idle.waitsWhileLive {w : World} {t : ThreadId} {th : Thread} {set : SetId}
    {changes : List Change} {d : Option Instant} {next : Except Error Unit → Thread}
    (hi : w.Idle) (hq : w.Queued) (ht : w.threads[t]? = some th)
    (hn : th.next = .perform (.system (.change set changes d)) next) :
    w.kernel.WaitsWhileLive t set := by
  intro s hs
  cases hh : w.kernel.holds t with
  | true =>
    obtain ⟨set', s', q, hs', hm, rfl⟩ := holds_iff.mp hh
    obtain ⟨th', d', next', ht', hn'⟩ := hq.waits hs' hm
    obtain rfl := Option.some.inj (ht.symm.trans ht')
    rw [hn] at hn'
    cases hn'
    obtain rfl := Option.some.inj (hs'.symm.trans (Teardown.live?_eq hs).1)
    exact List.any_eq_true.mpr ⟨q, hm, by simp⟩
  | false =>
    have hstep := hi t
    simp only [step, ht, hh, Bool.false_eq_true, if_false, hn] at hstep
    cases hp : w.perform t (.system (.change set changes d)) with
    | refused =>
      simp only [perform] at hp
      split at hp <;> cases hp
    | queued | done => simp [hp] at hstep

theorem call_le (m : Holding) {th : Thread} {c : Call} (hc : th.task.call? = some c) :
    m.call c ≤ m.thread th := by
  obtain ⟨o, task, cs⟩ := th
  cases task with
  | call owner c' =>
    cases hc
    exact Nat.le_add_right _ _
  | _ => cases hc

namespace Pair

theorem Fit.farewell {P : Pair} {k : Kernel} {th : Thread} (h : P.Fit k th) (e : EndpointId) :
    th.farewell e ≠ .due ∧ (th.watch e .receive = .awake → th.farewell e = .ahead) := by
  cases h with
  | @sender r l s cs hl hs =>
    have hahead : s.farewell = .ahead := by cases s <;> first | rfl | exact hs.elim
    refine ⟨?_, fun hw => by simp [Thread.watch, Task.watch] at hw⟩
    simp only [Thread.farewell, Task.farewell, hahead]
    split <;> rintro ⟨⟩
  | @receiver r l s cs hl hs =>
    have hahead : s.farewell = .ahead := by cases s <;> first | rfl | exact hs.elim
    simp only [Thread.farewell, Task.farewell, hahead, Thread.watch, Task.watch, and_true]
    split
    · exact ⟨by rintro ⟨⟩, fun _ => rfl⟩
    · exact ⟨by rintro ⟨⟩, by rintro ⟨⟩⟩
  | _ => exact ⟨by rintro ⟨⟩, by rintro ⟨⟩⟩

/-- Both sides are connected, everything has come to rest, and no callback is under way. -/
structure Becalmed (P : Pair) (w₀ w : World) : Prop where
  begins : P.Begins w₀
  run : Run Input.Peaceful w₀ w
  idle : w.Idle
  connected : ∀ r, P.connected w r = 1
  silent : ∀ th ∈ w.threads, th.callbacks = []

namespace Becalmed

variable {P : Pair} {w₀ w u : World} {t : ThreadId} {th : Thread} {r : Role} {x : Endpoint}
  {l : Link}

theorem law (h : P.Becalmed w₀ w) : P.Law w := (h.begins.run h.run).1

theorem queued (h : P.Becalmed w₀ w) : w.Queued := (h.begins.run h.run).2

theorem composed (h : P.Becalmed w₀ w) : P.Composed w₀ w := h.begins.composed h.run

def teardown (h : P.Becalmed w₀ w) (r : Role) : Teardown where
  pair := P
  side := r
  before := w
  thread := w.threads.length
  idle := h.idle
  queued := h.queued

theorem stands (h : P.Becalmed w₀ w) (ht : w.threads[t]? = some th) :
    w.Stands t th.task.next := by
  have hst := h.idle.stands h.queued ht
  obtain ⟨o, task, cs⟩ := th
  obtain rfl : cs = [] := h.silent _ (List.mem_of_getElem? ht)
  rw [next_task] at hst
  exact stands_map.mp hst

theorem thread_ne (h : P.Becalmed w₀ w) (ht : w.threads[t]? = some th) :
    t ≠ (h.teardown r).thread :=
  Nat.ne_of_lt (List.getElem?_eq_some_iff.mp ht).1

theorem unlocked (h : P.Becalmed w₀ w) (hx : w.endpoints[P.id r]? = some x) :
    x.linkHolder = none := by
  by_contra hne
  obtain ⟨t, hholder⟩ := Option.ne_none_iff_exists'.mp hne
  obtain ⟨th, ht, hlocks⟩ := (h.law.holder hx t).mp hholder
  have hst := h.stands ht
  cases h.law.fit ht with
  | @connecting q s hs =>
    simp only [Task.next, Call.next, Move.through, stands_map] at hst
    refine h.law.connecting_goes hs ?_ hst
    rintro rfl
    cases hlocks
  | @call o q c _ hc => cases c <;> first | exact hc.elim | cases hlocks
  | _ => cases hlocks

theorem unconnecting (h : P.Becalmed w₀ w) (ht : w.threads[t]? = some th) (e : EndpointId) :
    th.task.connecting? e = none := by
  have hst := h.stands ht
  cases h.law.fit ht with
  | @connecting q s hs =>
    simp only [Task.next, Call.next, Move.through, stands_map] at hst
    obtain ⟨x, hx, -⟩ := h.law.ends q
    by_cases hlock : s = .lock
    · subst hlock
      refine (not_refuses_access (r := q) (c := .lockLink) hx ?_ hst).elim
      simp [Endpoint.call, Endpoint.underLink, h.unlocked hx, Endpoint.quiet]
    · exact (h.law.connecting_goes hs hlock hst).elim
  | @call o q c _ hc => cases c <;> first | exact hc.elim | rfl
  | _ => rfl

theorem linked (h : P.Becalmed w₀ w) (hx : w.endpoints[P.id r]? = some x) :
    ∃ l, x.link = some l ∧ P.Bound w.kernel r l := by
  have hstate : x.state = .connected := by
    have hc := h.connected r
    rw [connected_eq hx] at hc
    by_contra hne
    simp [hne] at hc
  rcases h.composed.linked hx hstate with hl | ⟨th, hm, s, hs, -⟩
  · obtain ⟨l, hl⟩ := Option.isSome_iff_exists.mp hl
    exact ⟨l, hl, (h.law.end_ hx).link l hl⟩
  · obtain ⟨t, ht⟩ := List.mem_iff_getElem?.mp hm
    rw [h.unconnecting ht] at hs
    cases hs

theorem call? (h : P.Becalmed w₀ w) (ht : w.threads[t]? = some th) :
    (h.teardown r).call? t = th.task.call? := by
  simp [Teardown.call?, teardown, ht]

theorem fades_of_task {s : Role} (h : P.Becalmed w₀ w) (ht : w.threads[t]? = some th)
    (hf : (h.teardown r).TaskFades s t w th.task) : (h.teardown r).Fades s t w th := by
  have hn := h.silent th (List.mem_of_getElem? ht)
  exact ⟨hf, by simp [hn], fun hne => absurd hn hne⟩

theorem fresh_of_parked {s : Role} {d : Direction} {data : Buffer} {job : Job}
    {dl : Instant} (h : P.Becalmed w₀ w) (ht : w.threads[t]? = some th)
    (hc : th.task.call? = some (.waiting (P.party s) d data (.posting (.parked job dl)))) :
    (h.teardown r).Fresh s job.serial := by
  have hdrawn := call_le (drawn (P.id s) job.serial) hc
  simp only [drawn_waiting, party_id, if_true, Waiting.numbers, Posting.numbers] at hdrawn
  exact (h.begins.unanswered h.run (List.mem_of_getElem? ht) hdrawn).2

theorem fresh_of_missing {s : Role} {n : Nat} (h : P.Becalmed w₀ w)
    (hx : w.endpoints[P.id s]? = some x) (hmissing : (x.reply n).isMissing = true) :
    (h.teardown r).Fresh s n := by
  obtain ⟨y, hy, hfrank, -⟩ := (h.begins.replied s).run (h.begins.keeps _) h.begins.queued h.run
  obtain rfl := Option.some.inj (hx.symm.trans hy)
  intro z hz a ha hn
  obtain rfl := Option.some.inj (hx.symm.trans hz)
  rw [hfrank.reply ⟨a, ha, hn⟩] at hmissing
  cases hmissing

theorem sender_fades {s : Role} {a : Sender} {o : Task} (h : P.Becalmed w₀ w)
    (ht : w.threads[t]? = some ⟨o, .sender (P.party s) l a, []⟩) (hl : P.Bound w.kernel s l)
    (hs : P.SenderFit s a) : (h.teardown r).TaskFades s t w (.sender (P.party s) l a) := by
  have hst := h.stands ht
  simp only [Task.next, Move.through, stands_map] at hst
  refine ⟨rfl, ⟨h.thread_ne ht, h.call? ht⟩, hl, ?_⟩
  obtain rfl | ⟨slot, job, ⟨rfl, -⟩ | ⟨rfl, -⟩⟩ := h.law.sender_waits hl hs hst
  · trivial
  · exact ⟨.inl rfl, hs.peaceful, h.idle.waitsWhileLive h.queued ht rfl⟩
  · exact ⟨.inr rfl, hs.peaceful, h.idle.waitsWhileLive h.queued ht rfl⟩

theorem receiver_fades {s : Role} {a : Receiver} {o : Task} (h : P.Becalmed w₀ w)
    (ht : w.threads[t]? = some ⟨o, .receiver (P.party s) l a, []⟩) (hl : P.Bound w.kernel s l)
    (hs : ReceiverFit a) : (h.teardown r).TaskFades s t w (.receiver (P.party s) l a) := by
  have hst := h.stands ht
  simp only [Task.next, Move.through, stands_map] at hst
  refine ⟨rfl, ⟨h.thread_ne ht, h.call? ht⟩, hl, ?_⟩
  obtain ⟨rfl, -⟩ | ⟨rfl | ⟨slot, job, rfl⟩, -⟩ := h.law.receiver_waits hl hs hst
  · exact h.idle.waitsWhileLive h.queued ht rfl
  · exact ⟨rfl, h.idle.waitsWhileLive h.queued ht rfl⟩
  · exact ⟨rfl, hs.1, h.idle.waitsWhileLive h.queued ht rfl⟩

theorem finalizing_fades {s : Role} {a : Finalizing} {o : Task} (h : P.Becalmed w₀ w)
    (ht : w.threads[t]? = some
      ⟨o, .call (some (P.id s)) (.finalizing (P.party s) a), []⟩)
    (hs : P.FinalizingFit w.kernel s a) :
    (h.teardown r).CallFades s t w (.finalizing (P.party s) a) := by
  have hst := h.stands ht
  simp only [Task.next, Call.next, Move.through, stands_map] at hst
  obtain ⟨x, hx, -⟩ := h.law.ends s
  refine ⟨rfl, h.thread_ne ht, ?_⟩
  cases a with
  | check => exact (not_refuses_access (r := s) (c := .readState) hx rfl hst).elim
  | readLink =>
    refine (not_refuses_access (r := s) (c := .readLink) hx ?_ hst).elim
    simp [Endpoint.call, Endpoint.underLink, h.unlocked hx, Endpoint.quiet]
  | unlinked => exact (not_refuses_access (r := s) (c := .readState) hx rfl hst).elim
  | rendezvous l m =>
    simp only [Finalizing.next, Move.through, stands_map] at hst
    cases m with
    | clock | overflowed => exact hst.elim
    | awaitBoth | takeGate | awaitZero | takeLast =>
      exact ⟨l, _, rfl, trivial, hs.1, h.idle.waitsWhileLive h.queued ht rfl⟩
    | giveBack | undo => exact (h.law.raise_goes (t := t) (g := .gate) hs.1.box rfl hst).elim

/-- A post or a wait that waits fades. -/
theorem serving_fades {s : Role} {c : Call} {o : Task} (h : P.Becalmed w₀ w)
    (ht : w.threads[t]? = some ⟨o, .call (some (P.id s)) c, []⟩) (hc : P.Serving s c) :
    (h.teardown r).CallFades s t w c ∧ c.Follows c := by
  have hst := h.stands ht
  simp only [Task.next, Move.through, stands_map] at hst
  obtain ⟨x, hx, -⟩ := h.law.ends s
  cases c with
  | posting p d data handler a =>
    obtain ⟨rfl, -, ha⟩ := hc
    simp only [Call.next, Move.through, stands_map] at hst
    obtain ⟨job, dl, rfl⟩ := posting_waits hx hst
    exact ⟨⟨rfl, h.thread_ne ht, ha, trivial⟩, rfl, rfl, rfl⟩
  | waiting p d data a =>
    obtain ⟨rfl, -, ha⟩ := hc
    simp only [Call.next, Move.through, stands_map] at hst
    refine ⟨⟨rfl, h.thread_ne ht, ha, ?_⟩, trivial⟩
    obtain ⟨job, dl, rfl⟩ | ⟨n, dl, rfl, hmissing⟩ := waiting_waits hx hst
    · refine ⟨trivial, fun f hf => ?_, fun n hn => ?_⟩
      · cases hf
        trivial
      · cases hn
        exact h.fresh_of_parked ht rfl
    · refine ⟨trivial, (fun f hf => by cases hf), fun m hm => ?_⟩
      cases hm
      exact h.fresh_of_missing hx hmissing
  | readingState p =>
    obtain rfl := hc
    exact (not_refuses_access (r := s) (c := .readState) hx rfl hst).elim
  | holding =>
    have hno := h.composed.holds _ (List.mem_of_getElem? ht)
    cases hno
  | _ => exact hc.elim

theorem fades (h : P.Becalmed w₀ w) (r : Role) (ht : w.threads[t]? = some th) :
    ∃ s, (h.teardown r).Fades s t w th := by
  have hst := h.stands ht
  have hn := h.silent th (List.mem_of_getElem? ht)
  cases h.law.fit ht with
  | @sender s l a cs hl hs =>
    obtain rfl : cs = [] := hn
    exact ⟨s, h.fades_of_task ht (h.sender_fades ht hl hs)⟩
  | @receiver s l a cs hl hs =>
    obtain rfl : cs = [] := hn
    exact ⟨s, h.fades_of_task ht (h.receiver_fades ht hl hs)⟩
  | @connecting s a hs =>
    have hno := h.unconnecting ht (P.id s)
    simp [connecting?_self] at hno
  | @finalizing s a hs =>
    refine ⟨s, h.fades_of_task ht ⟨rfl, h.finalizing_fades ht hs, fun c hc => ?_⟩⟩
    rw [h.call? ht] at hc
    cases hc
    trivial
  | @call o s c _ hc =>
    obtain ⟨hfade, hself⟩ := h.serving_fades (r := r) ht hc
    refine ⟨s, h.fades_of_task ht ⟨rfl, hfade, fun c' hc' => ?_⟩⟩
    rw [h.call? ht] at hc'
    cases hc'
    exact hself
  | @leaving o s out =>
    obtain ⟨x, hx, -⟩ := h.law.ends s
    refine (not_refuses_access (r := s) (c := .release) hx ?_ hst).elim
    simp only [Endpoint.call]
    split <;> rfl
  | ended =>
    refine ⟨r, h.fades_of_task ht ⟨fun heq => absurd heq (h.thread_ne ht), fun c hc => ?_⟩⟩
    rw [h.call? ht] at hc
    cases hc

theorem ends_rest (h : P.Becalmed w₀ w) (r : Role)
    (hs : ∀ x f, w.endpoints[P.id r.peer]? = some x → x.onDisconnect = some f →
      Script.peaceful f = true) (s : Role) :
    ∃ x, w.endpoints[P.id s]? = some x ∧ (h.teardown r).EndRests s x := by
  obtain ⟨x, hx, hfit⟩ := h.law.ends s
  obtain ⟨script, hx₀⟩ := h.begins.ends s
  refine ⟨x, hx, h.unlocked hx, (h.composed.even hx₀ hx).stopping, fun hne f hf => ?_, hfit.jobs,
    ?_, fun heq => ?_⟩
  · obtain rfl : s = r.peer := (Traffic.eq_or_eq_peer r s).resolve_left hne
    exact hs x f hx hf
  · have hledger := h.law.ledger (.owner s)
    simp only [stock, total, owners_eq hx] at hledger
    exact (Nat.add_comm _ _).trans hledger
  · subst heq
    exact h.linked hx

theorem stranded (h : P.Becalmed w₀ w) (r : Role)
    (hs : ∀ x f, w.endpoints[P.id r.peer]? = some x → x.onDisconnect = some f →
      Script.peaceful f = true) : (h.teardown r).Stranded :=
  ⟨rfl, h.fades r, h.ends_rest r hs⟩

theorem settled (h : P.Becalmed w₀ w) (r : Role) : w.Settled (P.id r) := by
  obtain ⟨x, hx, -⟩ := h.law.ends r
  obtain ⟨l, hl, -⟩ := h.linked hx
  obtain ⟨script, hx₀⟩ := h.begins.ends r
  have hfounded : World.Founded w₀ (P.id r) := founded_of_new h.begins.threads fun y hy =>
    ⟨_, _, Option.some.inj (hy.symm.trans hx₀)⟩
  exact (hfounded.run (h.begins.keeps _) h.begins.queued h.run).linked hx (by rw [hl]; rfl)

theorem parting (h : P.Becalmed w₀ w) (r : Role) (hx : w.endpoints[P.id r.peer]? = some x)
    (hharm : ∀ e, ¬ w.Harmed e) :
    (h.teardown r).Parting (if x.onDisconnect.isSome then 1 else 0) w where
  sum y hy := by
    obtain rfl := Option.some.inj (hx.symm.trans hy)
    have hnone : tally (Thread.owing (h.teardown r).left) w.threads = 0 :=
      tally_eq_zero fun th hm => by
        obtain ⟨t, ht⟩ := List.mem_iff_getElem?.mp hm
        exact if_neg ((h.law.fit ht).farewell _).1
    rw [hnone, h.composed.partings]
    omega
  warned y hy _ := by
    rcases (h.settled r.peer).guarded .receive with hh | ⟨th, hm, hw⟩ | ⟨z, hz, hclosed, -⟩
    · exact absurd hh (hharm _)
    · obtain ⟨t, ht⟩ := List.mem_iff_getElem?.mp hm
      exact ⟨th, hm, ((h.law.fit ht).farewell _).2 hw⟩
    · exact absurd hclosed (h.law.end_ hz).open_
  spared := h.composed.partings _

end Becalmed

end Pair

namespace Teardown

theorem opens_begin {P : Pair} {w₀ w u : World} {r : Role} (h : P.Becalmed w₀ w)
    (hu : w.apply (.operate (P.id r) .destroy) = some u) :
    (h.teardown r).Opens .begin Endpoint.started id u := by
  obtain ⟨x, hx, hfit⟩ := h.law.ends r
  have hq : u.Queued := outside_spec h.queued rfl hu
  have hp : w.party? (P.id r) = some (P.party r) := by simp [party?, hx, hfit.settings, Pair.party]
  simp only [apply, operate, hp, Option.map_some, Option.some.injEq, spawn] at hu
  subst hu
  refine ⟨rfl, rfl, rfl, hq, ?_, x, hx, ?_⟩
  · rw [List.map_id]
    rfl
  · exact modify_of_getElem? hx

end Teardown

end QueuePair
