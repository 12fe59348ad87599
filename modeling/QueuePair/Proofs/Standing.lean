import QueuePair.Proofs.Connectors
import QueuePair.Proofs.Watch

namespace QueuePair

open World

namespace Connecting

def stored : Connecting → Bool
  | .spawnSender _ | .spawnReceiver _ | .attach .. | .unlock (some _) _ => true
  | _ => false

def manned (d : Direction) : Connecting → Bool
  | .spawnReceiver _ => d = .send
  | .attach .. | .unlock (some _) _ => true
  | _ => false

end Connecting

namespace Endpoint

structure Opened (x : Endpoint) : Prop where
  state : x.state ≠ .init
  stopped : x.state = .closed → x.stopped = true

/-- How an endpoint changes as long as nobody opens it: it may be closed, and no more jobs come into
queues that are stopped. -/
structure Lasts (x y : Endpoint) : Prop where
  state : (y.state = x.state ∧ y.stopped = x.stopped) ∨ (y.state = .closed ∧ y.stopped = true)
  empty : ∀ d, x.stopped = true → (x.queue d).pending = .empty → (y.queue d).pending = .empty

structure UnconnectedChange (x y : Endpoint) : Prop extends Lasts x y where
  holder : y.linkHolder = x.linkHolder
  link : y.link = x.link ∨ y.link = none

theorem lasts_of_same {x y : Endpoint} (hs : y.state = x.state) (ht : y.stopped = x.stopped)
    (hq : y.queue = x.queue) : x.Lasts y :=
  ⟨.inl ⟨hs, ht⟩, fun d _ h => by rw [hq]; exact h⟩

theorem UnconnectedChange.refl (x : Endpoint) : x.UnconnectedChange x :=
  ⟨lasts_of_same rfl rfl rfl, rfl, .inl rfl⟩

theorem Lasts.trans {x y z : Endpoint} (h : x.Lasts y) (h' : y.Lasts z) : x.Lasts z where
  state := by
    obtain ⟨hs, ht⟩ | hc := h'.state
    · exact h.state.imp (fun hy => ⟨hs.trans hy.1, ht.trans hy.2⟩)
        fun hy => ⟨hs.trans hy.1, ht.trans hy.2⟩
    · exact .inr hc
  empty d hx hq := by
    refine h'.empty d ?_ (h.empty d hx hq)
    obtain ⟨-, ht⟩ | ⟨-, ht⟩ := h.state
    · exact ht.trans hx
    · exact ht

theorem UnconnectedChange.trans {x y z : Endpoint} (h : x.UnconnectedChange y)
    (h' : y.UnconnectedChange z) : x.UnconnectedChange z where
  toLasts := h.toLasts.trans h'.toLasts
  holder := h'.holder.trans h.holder
  link := by
    obtain hz | hz := h'.link
    · exact h.link.imp hz.trans hz.trans
    · exact .inr hz

theorem Lasts.opened {x y : Endpoint} (h : x.Lasts y) (hx : x.Opened) : y.Opened := by
  obtain ⟨hs, hst⟩ | ⟨hs, hst⟩ := h.state
  · exact ⟨hs ▸ hx.state, fun hc => hst ▸ hx.stopped (hs ▸ hc)⟩
  · exact ⟨by simp [hs], fun _ => hst⟩

theorem Lasts.closed {x y : Endpoint} (h : x.Lasts y) (hs : x.state = .closed)
    (ht : x.stopped = true) : y.state = .closed ∧ y.stopped = true := by
  obtain ⟨hs', ht'⟩ | hc := h.state
  · exact ⟨hs'.trans hs, ht'.trans ht⟩
  · exact hc

theorem unconnectedChange_of_same {x y : Endpoint} (hh : y.linkHolder = x.linkHolder)
    (hl : y.link = x.link)
    (hs : y.state = x.state) (ht : y.stopped = x.stopped) (hq : y.queue = x.queue) :
    x.UnconnectedChange y :=
  ⟨lasts_of_same hs ht hq, hh, .inl hl⟩

theorem unconnectedChange_withQueue {x : Endpoint} {d : Direction} {q : WorkQueue Job}
    (h : (x.queue d).pending = .empty → q.pending = .empty) : x.UnconnectedChange
    (x.withQueue d q) := by
  refine ⟨⟨.inl ⟨by cases d <;> rfl, by cases d <;> rfl⟩, fun d' _ hd => ?_⟩, by cases d <;> rfl,
    .inl (by cases d <;> rfl)⟩
  rw [queue_withQueue]
  split
  · rename_i he
    subst he
    exact h hd
  · exact hd

end Endpoint

namespace WorkQueue

variable {α : Type} {q : WorkQueue α}

theorem next_empty (h : q.pending = .empty) : q.next.2.pending = .empty := by
  simp [next, h, Fifo.empty, takeFirst]

theorem cancel_empty (p : α → Bool) (h : q.pending = .empty) : (q.cancel p).2.pending = .empty := by
  simp [cancel, h, Fifo.empty]

end WorkQueue

section

variable {α : Type} {x : Endpoint} {t : ThreadId} {e : EndpointId} {d : Direction}
  {c : EndpointCall α} {s : Section α}

theorem call_unconnectedChange (hc : x.call t c = some s) (hf : c.founds = false) :
    x.UnconnectedChange s.endpoint := by
  have hsame : ∀ {y : Endpoint}, y.linkHolder = x.linkHolder → y.link = x.link →
      y.state = x.state → y.stopped = x.stopped → y.queue = x.queue → x.UnconnectedChange y :=
    Endpoint.unconnectedChange_of_same
  have hunder : ∀ {y : Endpoint} {a : α}, x.underLink (y.quiet a) = some s → s.endpoint = y := by
    intro y a h
    simp only [Endpoint.underLink] at h
    split at h <;> cases h
    rfl
  cases c with
  | writeState | setStopped | writeStopping | lockLink | unlockLink => cases hf
  | post d job =>
    simp only [Endpoint.call, Option.some.injEq] at hc
    subst hc
    unfold Endpoint.post
    split
    · exact .refl x
    · rename_i hstop
      split
      · exact .refl x
      · rename_i q hq
        exact ⟨⟨.inl ⟨by cases d <;> rfl, by cases d <;> rfl⟩, fun _ h => absurd h hstop⟩,
          by cases d <;> rfl, .inl (by cases d <;> rfl)⟩
  | nextSend =>
    simp only [Endpoint.call, Option.some.injEq] at hc
    subst hc
    unfold Endpoint.nextSend
    have hq : ∀ q, x.sends.next.2 = q → x.UnconnectedChange { x with sends := q } := fun q he =>
      Endpoint.unconnectedChange_withQueue (d := .send) fun h => he ▸ WorkQueue.next_empty h
    split
    · exact .refl x
    · split <;> exact hq _ (by simp_all)
  | nextReceive =>
    simp only [Endpoint.call, Option.some.injEq] at hc
    subst hc
    unfold Endpoint.nextReceive
    have hq : ∀ q, x.receives.next.2 = q → x.UnconnectedChange { x with receives := q } :=
      fun q he =>
      Endpoint.unconnectedChange_withQueue (d := .receive) fun h => he ▸ WorkQueue.next_empty h
    split <;> exact hq _ (by simp_all)
  | complete d slot =>
    cases hc
    exact Endpoint.unconnectedChange_withQueue fun h => h
  | cancel d serial =>
    simp only [Endpoint.call, Option.some.injEq] at hc
    subst hc
    unfold Endpoint.cancel
    have hq : ∀ q, ((x.queue d).cancel (·.serial = serial)).2 = q → x.UnconnectedChange
      (x.withQueue d q) :=
      fun q he => Endpoint.unconnectedChange_withQueue fun h => he ▸ WorkQueue.cancel_empty _ h
    split <;> exact hq _ (by simp_all)
  | drain d =>
    cases hc
    exact Endpoint.unconnectedChange_withQueue fun _ => rfl
  | close =>
    cases hc
    exact ⟨⟨.inr ⟨rfl, rfl⟩, fun d _ h => by cases d <;> exact h⟩, rfl, .inl rfl⟩
  | readLink =>
    rw [hunder hc]
    exact .refl x
  | takeLink =>
    rw [hunder hc]
    exact ⟨Endpoint.lasts_of_same rfl rfl rfl, rfl, .inr rfl⟩
  | awaitReply =>
    simp only [Endpoint.call] at hc
    split at hc <;> cases hc
    exact .refl x
  | release =>
    simp only [Endpoint.call] at hc
    split at hc <;> cases hc
    · exact ⟨Endpoint.lasts_of_same rfl rfl rfl, rfl, .inr rfl⟩
    · exact hsame rfl rfl rfl rfl rfl
  | readState | notify | readStopping | pollReply | takeSerial | takeDisconnect | takeWorkers
  | beginStopping =>
    cases hc
    exact hsame rfl rfl rfl rfl rfl

theorem call_closes (hc : x.call t c = some s)
    (hp : (Primitive.endpoint e c).closes e = true) :
    s.endpoint.state = .closed ∧ s.endpoint.stopped = true := by
  cases c with
  | close =>
    cases hc
    exact ⟨rfl, rfl⟩
  | _ => cases hp

theorem call_drains (hc : x.call t c = some s)
    (hp : (Primitive.endpoint e c).drains e d = true) :
    (s.endpoint.queue d).pending = .empty := by
  cases c with
  | drain d' =>
    simp only [Primitive.drains, Bool.and_eq_true, decide_eq_true_eq, true_and] at hp
    subst hp
    cases hc
    rw [Endpoint.drain, queue_withQueue, if_pos rfl]
    rfl
  | _ => cases hp

end

namespace World

variable {w v : World} {e : EndpointId} {d : Direction} {t : ThreadId} {th th' : Thread}
  {x y : Endpoint} {s : Connecting}

def place (w : World) (e : EndpointId) (t : ThreadId) : Option Connecting :=
  w.threads[t]?.bind (·.connecting? e)

/-- A queue has a worker that watches over it, or the endpoint is closed and the queue was
drained. -/
def Guarded (w : World) (e : EndpointId) (d : Direction) : Prop :=
  w.Harmed e ∨ (∃ th ∈ w.threads, th.watch e d = .awake) ∨
    ∃ x, w.endpoints[e]? = some x ∧ x.state = .closed ∧ x.stopped = true ∧
      ((∃ th ∈ w.threads, th.watch e d = .draining) ∨ (x.queue d).pending = .empty)

structure Settled (w : World) (e : EndpointId) : Prop where
  opened : ∃ x, w.endpoints[e]? = some x ∧ x.Opened
  guarded : ∀ d, w.Guarded e d
  calm : ∀ {t : ThreadId} {s : Connecting}, w.place e t = some s → s.alters = false

/-- Whoever connects an endpoint holds its link lock until it is done, and each queue is guarded as
soon as its worker was started: the worker is there, or it has closed the endpoint and drained the
queue. -/
structure Founded (w : World) (e : EndpointId) : Prop where
  absent : w.endpoints[e]? = none → ∀ t, w.place e t = none
  holder : ∀ {x : Endpoint}, w.endpoints[e]? = some x → ∀ t, x.linkHolder = some t ↔
    ∃ s, w.place e t = some s ∧ s.locks = true
  stored : ∀ {x : Endpoint} {t : ThreadId} {s : Connecting}, w.endpoints[e]? = some x →
    w.place e t = some s → s.stored = true → x.Opened
  manned : ∀ {t : ThreadId} {s : Connecting} {d : Direction}, w.place e t = some s →
    s.manned d = true → w.Guarded e d
  linked : ∀ {x : Endpoint}, w.endpoints[e]? = some x → x.link.isSome = true → w.Settled e

theorem stored_locks (h : s.stored = true) : s.locks = true := by
  cases s <;> first | rfl | cases h

theorem manned_locks (h : s.manned d = true) : s.locks = true := by
  cases s <;> first | rfl | cases h

theorem alters_locks (h : s.alters = true) : s.locks = true := by
  cases s <;> first | rfl | cases h

/-- What happens to an endpoint and those who connect it as long as nobody goes on with that. -/
structure Passes (w v : World) (e : EndpointId) : Prop where
  absent : w.endpoints[e]? = none → v.endpoints[e]? = none ∨
    ∃ s f, v.endpoints[e]? = some (.ofSettings s f)
  ends : ∀ {x : Endpoint}, w.endpoints[e]? = some x →
    ∃ y, v.endpoints[e]? = some y ∧ x.UnconnectedChange y
  places : ∀ t, v.place e t = w.place e t ∨
    w.place e t = none ∧ v.place e t = some .lock ∧ ∃ x, w.endpoints[e]? = some x
  guarded : ∀ d, w.Guarded e d → v.Guarded e d

theorem Passes.place (h : Passes w v e) (hp : v.place e t = some s) (hs : s ≠ .lock) :
    w.place e t = some s := by
  obtain he | ⟨-, he, -⟩ := h.places t
  · exact he ▸ hp
  · exact absurd (Option.some.inj (hp.symm.trans he)) hs

theorem Settled.pass (h : w.Settled e) (hp : Passes w v e) : v.Settled e where
  opened := by
    obtain ⟨x, hx, ho⟩ := h.opened
    obtain ⟨y, hy, ht⟩ := hp.ends hx
    exact ⟨y, hy, ht.opened ho⟩
  guarded d := hp.guarded d (h.guarded d)
  calm hs := by
    obtain he | ⟨-, he, -⟩ := hp.places _
    · exact h.calm (he ▸ hs)
    · obtain rfl := Option.some.inj (hs.symm.trans he)
      rfl

theorem Founded.pass (h : Founded w e) (hp : Passes w v e) : Founded v e := by
  have hne : ∀ {s : Connecting}, s.locks = true → s ≠ .lock := fun hs he => by
    subst he
    cases hs
  cases hx : w.endpoints[e]? with
  | none =>
    have hplace : ∀ t, v.place e t = none := fun t => by
      obtain he | ⟨-, -, x, hx'⟩ := hp.places t
      · exact he.trans (h.absent hx t)
      · rw [hx] at hx'
        cases hx'
    refine ⟨fun _ => hplace, fun hy t => ?_, fun _ hs => ?_, fun hs => ?_, fun hy hl => ?_⟩
    · obtain hy' | ⟨s, f, hy'⟩ := hp.absent hx
      · rw [hy] at hy'
        cases hy'
      · obtain rfl := Option.some.inj (hy.symm.trans hy')
        simp [Endpoint.ofSettings, hplace]
    · rw [hplace] at hs
      cases hs
    · rw [hplace] at hs
      cases hs
    · obtain hy' | ⟨s, f, hy'⟩ := hp.absent hx
      · rw [hy] at hy'
        cases hy'
      · obtain rfl := Option.some.inj (hy.symm.trans hy')
        cases hl
  | some x =>
    obtain ⟨y, hy, ht⟩ := hp.ends hx
    refine ⟨fun hn => ?_, fun hy' t => ?_, fun hy' hs hst => ?_, fun hs hm => ?_, fun hy' hl => ?_⟩
    · rw [hy] at hn
      cases hn
    · obtain rfl := Option.some.inj (hy.symm.trans hy')
      rw [ht.holder, h.holder hx]
      refine exists_congr fun s =>
        ⟨fun ⟨hs, hl⟩ => ⟨?_, hl⟩, fun ⟨hs, hl⟩ => ⟨hp.place hs (hne hl), hl⟩⟩
      obtain he | ⟨hnone, -⟩ := hp.places t
      · exact he.trans hs
      · rw [hnone] at hs
        cases hs
    · obtain rfl := Option.some.inj (hy.symm.trans hy')
      exact ht.opened (h.stored hx (hp.place hs (hne (stored_locks hst))) hst)
    · exact hp.guarded _ (h.manned (hp.place hs (hne (manned_locks hm))) hm)
    · obtain rfl := Option.some.inj (hy.symm.trans hy')
      obtain hl' | hl' := ht.link
      · exact (h.linked hx (hl' ▸ hl)).pass hp
      · rw [hl'] at hl
        cases hl

inductive Relieves (v : World) (e : EndpointId) (d : Direction) (th th' : Thread) : Prop
  | stay : th'.watch e d = th.watch e d → Relieves v e d th th'
  | close {y : Endpoint} : th'.watch e d = .draining → v.endpoints[e]? = some y →
      y.state = .closed → y.stopped = true → Relieves v e d th th'
  | drain {y : Endpoint} : th.watch e d = .draining → v.endpoints[e]? = some y →
      (y.queue d).pending = .empty → Relieves v e d th th'
  | harm : v.Harmed e → Relieves v e d th th'

/-- A queue stays guarded when one thread goes on. -/
theorem Guarded.go {news : List Thread} (h : w.Guarded e d) (ht : w.threads[t]? = some th)
    (hv : v.threads = w.threads.set t th' ++ news) (hg : Goes th th')
    (hends : ∀ {x : Endpoint}, w.endpoints[e]? = some x → ∃ y, v.endpoints[e]? = some y ∧ x.Lasts y)
    (hr : Relieves v e d th th') : v.Guarded e d := by
  by_cases hharm : v.Harmed e
  · exact .inl hharm
  have hlt := (List.getElem?_eq_some_iff.mp ht).1
  have hmem' : th' ∈ v.threads :=
    hv ▸ List.mem_append_left _ (List.mem_of_getElem? (List.getElem?_set_self hlt))
  have hkeep : ∀ {s : Watch}, (∃ b ∈ w.threads, b.watch e d = s) →
      (∃ b ∈ v.threads, b.watch e d = s) ∨ th.watch e d = s := by
    rintro s ⟨b, hb, hs⟩
    rcases mem_set hb t th' with hm | hm
    · exact .inl ⟨b, hv ▸ List.mem_append_left _ hm, hs⟩
    · exact .inr (Option.some.inj (ht.symm.trans hm) ▸ hs)
  rcases h with hw | hawake | ⟨x, hx, hs, hst, hq⟩
  · obtain ⟨b, hb, hob⟩ := hw.set (v := { v with threads := w.threads.set t th' }) ht rfl hg
    exact .inl ⟨b, hv ▸ List.mem_append_left _ hb, hob⟩
  · rcases hkeep hawake with hm | hm
    · exact .inr (.inl hm)
    · cases hr with
      | stay he => exact .inr (.inl ⟨th', hmem', he.trans hm⟩)
      | close he hy hs hst => exact .inr (.inr ⟨_, hy, hs, hst, .inl ⟨th', hmem', he⟩⟩)
      | drain he =>
        rw [hm] at he
        cases he
      | harm he => exact absurd he hharm
  · obtain ⟨y, hy, hxy⟩ := hends hx
    obtain ⟨hc, hct⟩ := hxy.closed hs hst
    refine .inr (.inr ⟨y, hy, hc, hct, ?_⟩)
    rcases hq with hdrain | hempty
    · rcases hkeep hdrain with hm | hm
      · exact .inl hm
      · cases hr with
        | stay he => exact .inl ⟨th', hmem', he.trans hm⟩
        | close he => exact .inl ⟨th', hmem', he⟩
        | drain _ hy' he =>
          obtain rfl := Option.some.inj (hy.symm.trans hy')
          exact .inr he
        | harm he => exact absurd he hharm
    · exact .inr (hxy.empty d hst hempty)

theorem place_go {news : List Thread} (ht : w.threads[t]? = some th)
    (hv : v.threads = w.threads.set t th' ++ news) (hnews : ∀ b ∈ news, b.connecting? e = none)
    (u : ThreadId) : v.place e u = if u = t then th'.connecting? e else w.place e u := by
  have hlt := (List.getElem?_eq_some_iff.mp ht).1
  simp only [World.place, hv]
  by_cases hu : u < w.threads.length
  · rw [List.getElem?_append_left (by simpa using hu)]
    split
    · rename_i he
      subst he
      rw [List.getElem?_set_self hu, Option.bind_some]
    · rename_i he
      rw [List.getElem?_set_ne (Ne.symm he)]
  · rw [List.getElem?_eq_none (Nat.le_of_not_lt hu), if_neg fun he : u = t => hu (he ▸ hlt),
      Option.bind_none]
    cases hb : (w.threads.set t th' ++ news)[u]? with
    | none => rfl
    | some b =>
      rw [List.getElem?_append_right (by simpa using hu)] at hb
      exact hnews b (List.mem_of_getElem? hb)

theorem Passes.go (news : List Thread) (ht : w.threads[t]? = some th)
    (hv : v.threads = w.threads.set t th' ++ news) (hg : Goes th th')
    (hc : th.connecting? e = none) (hc' : th'.connecting? e = none)
    (hnews : ∀ b ∈ news, b.connecting? e = none)
    (habsent : w.endpoints[e]? = none → v.endpoints[e]? = none)
    (hends : ∀ {x : Endpoint}, w.endpoints[e]? = some x → ∃ y, v.endpoints[e]? = some y ∧
    x.UnconnectedChange y)
    (hr : ∀ d, Relieves v e d th th') : Passes w v e where
  absent h := .inl (habsent h)
  ends := hends
  places u := by
    rw [place_go ht hv hnews]
    split
    · rename_i he
      subst he
      exact .inl (hc'.trans (by simp [World.place, ht, hc]))
    · exact .inl rfl
  guarded d h := h.go ht hv hg (fun hx => (hends hx).imp fun _ => And.imp_right (·.toLasts)) (hr d)

theorem Guarded.grow {news : List Thread} (h : w.Guarded e d) (hv : v.threads = w.threads ++ news)
    (hends : ∀ {x : Endpoint}, w.endpoints[e]? = some x →
      ∃ y, v.endpoints[e]? = some y ∧ x.Lasts y) : v.Guarded e d := by
  have hmem : ∀ {b : Thread}, b ∈ w.threads → b ∈ v.threads := fun hb =>
    hv ▸ List.mem_append_left _ hb
  rcases h with ⟨b, hb, hob⟩ | ⟨b, hb, hw⟩ | ⟨x, hx, hs, hst, hq⟩
  · exact .inl ⟨b, hmem hb, hob⟩
  · exact .inr (.inl ⟨b, hmem hb, hw⟩)
  · obtain ⟨y, hy, hxy⟩ := hends hx
    obtain ⟨hc, hct⟩ := hxy.closed hs hst
    refine .inr (.inr ⟨y, hy, hc, hct, ?_⟩)
    rcases hq with ⟨b, hb, hw⟩ | hq
    · exact .inl ⟨b, hmem hb, hw⟩
    · exact .inr (hxy.empty d hst hq)

theorem Passes.grow (news : List Thread) (hv : v.threads = w.threads ++ news)
    (hnews : ∀ b ∈ news, b.connecting? e = none ∨
      b.connecting? e = some .lock ∧ ∃ x, w.endpoints[e]? = some x)
    (habsent : w.endpoints[e]? = none → v.endpoints[e]? = none ∨
      ∃ s f, v.endpoints[e]? = some (.ofSettings s f))
    (hends : ∀ {x : Endpoint}, w.endpoints[e]? = some x →
      ∃ y, v.endpoints[e]? = some y ∧ x.UnconnectedChange y) : Passes w v e where
  absent := habsent
  ends := hends
  places u := by
    simp only [World.place, hv]
    by_cases hu : u < w.threads.length
    · exact .inl (by rw [List.getElem?_append_left hu])
    · rw [List.getElem?_eq_none (Nat.le_of_not_lt hu), Option.bind_none]
      cases hb : (w.threads ++ news)[u]? with
      | none => exact .inl rfl
      | some b =>
        rw [List.getElem?_append_right (Nat.le_of_not_lt hu)] at hb
        exact (hnews b (List.mem_of_getElem? hb)).imp id fun h => ⟨rfl, h⟩
  guarded d h := h.grow hv fun hx => (hends hx).imp fun _ => And.imp_right (·.toLasts)

theorem Passes.same (ht : v.threads = w.threads) (he : v.endpoints = w.endpoints) :
    Passes w v e :=
  .grow [] (by simp [ht]) (by simp) (fun h => .inl (he ▸ h))
    fun hx => ⟨_, he ▸ hx, .refl _⟩

theorem notes_endpoints {e' : EndpointId} (ns : List Note) (u : World) :
    (ns.foldl (·.note e' ·) u).endpoints = u.endpoints :=
  (notes_same ns u).2

/-- What an answered action does to an endpoint that it does not connect. -/
theorem Answers.unconnectedChange {α : Type} {p : Primitive α} {a : α} (h : w.Answers t p v a)
    (hp : p.founds e = false) : (w.endpoints[e]? = none → v.endpoints[e]? = none) ∧
      ∀ {x : Endpoint}, w.endpoints[e]? = some x → ∃ y, v.endpoints[e]? = some y ∧
      x.UnconnectedChange y ∧
        (p.closes e = true → y.state = .closed ∧ y.stopped = true) ∧
        ∀ d, p.drains e d = true → (y.queue d).pending = .empty := by
  have hsame : v.endpoints = w.endpoints → (p.closes e = false ∧ ∀ d, p.drains e d = false) →
      (w.endpoints[e]? = none → v.endpoints[e]? = none) ∧
      ∀ {x : Endpoint}, w.endpoints[e]? = some x → ∃ y, v.endpoints[e]? = some y ∧
        x.UnconnectedChange y ∧
        (p.closes e = true → y.state = .closed ∧ y.stopped = true) ∧
        ∀ d, p.drains e d = true → (y.queue d).pending = .empty := fun he hn =>
    ⟨fun h => he ▸ h, fun hx => ⟨_, he ▸ hx, .refl _, fun hc => by simp [hn.1] at hc,
      fun d hd => by simp [hn.2] at hd⟩⟩
  cases h with
  | system => exact hsame (observe_endpoints _ _) ⟨rfl, fun _ => rfl⟩
  | @access α e' x' c s hx' hcall =>
    have hv : (s.notes.foldl (·.note e' ·) (w.putEndpoint e' s.endpoint)).endpoints =
        w.endpoints.set e' s.endpoint := notes_endpoints _ _
    rw [hv]
    by_cases he : e' = e
    · subst he
      have hlt := (List.getElem?_eq_some_iff.mp hx').1
      refine ⟨fun h => by simp [hx'] at h, fun hx => ⟨s.endpoint, List.getElem?_set_self hlt, ?_⟩⟩
      obtain rfl := Option.some.inj (hx'.symm.trans hx)
      have hf : c.founds = false := by simpa [Primitive.founds] using hp
      exact ⟨call_unconnectedChange hcall hf, call_closes hcall, fun d => call_drains hcall⟩
    · rw [List.getElem?_set_ne he]
      refine ⟨id, fun hx => ⟨_, hx, .refl _, fun hc => ?_, fun d hd => ?_⟩⟩
      · cases c <;> simp [Primitive.closes, he] at hc
      · cases c <;> simp [Primitive.drains, he] at hd
  | @spawn q l d =>
    have hq : q.id ≠ e := of_decide_eq_false hp
    have hv : (w.spawnWorker q l d).endpoints[e]? = w.endpoints[e]? :=
      List.getElem?_modify_ne _ _ hq
    rw [hv]
    exact ⟨id, fun hx => ⟨_, hx, .refl _, fun h => (by cases h), fun _ h => by cases h⟩⟩
  | unanswered => exact hsame rfl ⟨rfl, fun _ => rfl⟩
  | note => exact hsame rfl ⟨rfl, fun _ => rfl⟩
  | grant | overflow | gone | late | clock | notified | timedOut | join | hold =>
    exact hsame rfl ⟨rfl, fun _ => rfl⟩

theorem Answers.present {α : Type} {p : Primitive α} {a : α} (h : w.Answers t p v a)
    (hp : p.closes e = true ∨ p.drains e d = true) : ∃ x, w.endpoints[e]? = some x := by
  cases h with
  | @access α e' x c s hx =>
    have he : e' = e := by
      by_contra he
      cases c <;> simp [Primitive.closes, Primitive.drains, he] at hp
    exact ⟨x, he ▸ hx⟩
  | _ => rcases hp with hp | hp <;> cases hp

/-- A thread gets an answer that does not connect the endpoint. -/
theorem passes_act {α : Type} {p : Primitive α} {next : α → Thread} {a : α}
    (ht : w.threads[t]? = some th) (hs : th.Shaped) (hc : th.connecting? e = none)
    (hn : th.next = .perform p next) (ha : w.Answers t p v a) :
    Passes w (v.putThread t (next a)) e := by
  have htame := hs.notFounding hc
  have hinto := th.next_into
  have hplace := th.next_not_connecting hc
  rw [hn] at htame hinto hplace
  obtain ⟨habsent, hends⟩ := ha.unconnectedChange htame
  have hlt := (List.getElem?_eq_some_iff.mp ht).1
  obtain ⟨news, hv, hnews⟩ : ∃ news, v.threads = w.threads ++ news ∧
      ∀ b ∈ news, b.connecting? e = none := by
    rcases ha.threads_cases with he | ⟨q, l, d, he⟩
    · exact ⟨[], by simp [he], by simp⟩
    · refine ⟨_, he, fun b hb => ?_⟩
      obtain rfl := List.mem_singleton.mp hb
      cases d <;> rfl
  refine .go news ht ?_ ⟨(hinto a).1, (hinto a).2⟩ hc (hplace a) hnews habsent
    (fun hx => ?_) fun d => ?_
  · simp only [putThread, hv, List.set_append_left _ _ hlt]
  · obtain ⟨y, hy, hxy, -⟩ := hends hx
    exact ⟨y, hy, hxy⟩
  · have hw := th.watches e d
    rw [hn] at hw
    have hturn := hw a
    generalize hnow : th.watch e d = now at hturn
    generalize hthen : (next a).watch e d = later at hturn
    cases hturn with
    | stay => exact .stay (hthen.trans hnow.symm)
    | close hclose =>
      obtain ⟨x, hx⟩ := ha.present (d := d) (.inl hclose)
      obtain ⟨y, hy, -, hc, -⟩ := hends hx
      exact .close hthen hy (hc hclose).1 (hc hclose).2
    | drain hdrain =>
      obtain ⟨x, hx⟩ := ha.present (.inr hdrain)
      obtain ⟨y, hy, -, -, hd⟩ := hends hx
      exact .drain hnow hy (hd d hdrain)

theorem unconnectedChange_modify {e' : EndpointId} {f : Endpoint → Endpoint}
    (hf : ∀ x : Endpoint, x.UnconnectedChange (f x))
    (hv : v.endpoints = w.endpoints.modify e' f) :
    (w.endpoints[e]? = none → v.endpoints[e]? = none) ∧
      ∀ {x : Endpoint}, w.endpoints[e]? = some x → ∃ y, v.endpoints[e]? = some y ∧
      x.UnconnectedChange y := by
  rw [hv, List.getElem?_modify]
  refine ⟨fun h => by simp [h], fun hx => ?_⟩
  rw [hx]
  split
  · exact ⟨_, rfl, hf _⟩
  · exact ⟨_, rfl, .refl _⟩

theorem unconnectedChange_of_eq (hv : v.endpoints = w.endpoints) :
    (w.endpoints[e]? = none → v.endpoints[e]? = none) ∧
      ∀ {x : Endpoint}, w.endpoints[e]? = some x → ∃ y, v.endpoints[e]? = some y ∧
      x.UnconnectedChange y :=
  ⟨fun h => hv ▸ h, fun hx => ⟨_, hv ▸ hx, .refl _⟩⟩

theorem unconnectedChange_putReply (x : Endpoint) (n : Nat) (r : Reply) : x.UnconnectedChange
    (x.putReply n r) :=
  Endpoint.unconnectedChange_of_same rfl rfl rfl rfl rfl

theorem passes_invoke {p : Party} {i : Invocation} {after : Thread} (ht : w.threads[t]? = some th)
    (hc : th.connecting? e = none) (hn : th.next = .invoke p i after) :
    Passes w ((w.invoke p i).1.putThread t (after.push (w.invoke p i).2)) e := by
  have hinto := th.next_into
  have hplace := th.next_not_connecting hc
  have hw := fun d => th.watches e d
  rw [hn] at hinto hplace
  simp only [hn] at hw
  have hends : (w.endpoints[e]? = none → (w.invoke p i).1.endpoints[e]? = none) ∧
      ∀ {x : Endpoint}, w.endpoints[e]? = some x →
        ∃ y, (w.invoke p i).1.endpoints[e]? = some y ∧ x.UnconnectedChange y := by
    cases i with
    | disconnect => exact unconnectedChange_of_eq rfl
    | resolve d job error =>
      simp only [invoke, resolve]
      split
      · exact unconnectedChange_modify (fun x => unconnectedChange_putReply x _ _) rfl
      · exact unconnectedChange_of_eq rfl
  have hv : ((w.invoke p i).1.putThread t (after.push (w.invoke p i).2)).threads =
      w.threads.set t (after.push (w.invoke p i).2) ++ [] := by
    simp [putThread, invoke_threads]
  exact .go [] ht hv ⟨hinto.1, hinto.2⟩ hc hplace (by simp) hends.1 hends.2 fun d => .stay (hw d)

theorem passes_panic (ht : w.threads[t]? = some th) (hs : th.Shaped)
    (hc : th.connecting? e = none) : Passes w (w.panic t th) e := by
  have hlt := (List.getElem?_eq_some_iff.mp ht).1
  have hv := panic_threads (w := w) t th
  have hpanic := th.unwound_panicked
  have hput : ∀ (jobs : List Job) (x : Endpoint), x.UnconnectedChange
      (jobs.foldl (fun (x : Endpoint) job => x.putReply job.serial .abandoned) x) := by
    intro jobs
    induction jobs with
    | nil => exact .refl
    | cons job jobs ih => exact fun x => (unconnectedChange_putReply x _ _).trans (ih _)
  have hends : (w.endpoints[e]? = none → (w.panic t th).endpoints[e]? = none) ∧
      ∀ {x : Endpoint}, w.endpoints[e]? = some x →
        ∃ y, (w.panic t th).endpoints[e]? = some y ∧ x.UnconnectedChange y := by
    rw [panic_eq]
    unfold abandon
    split
    · exact unconnectedChange_of_eq rfl
    · exact unconnectedChange_modify (hput _) rfl
  refine .go [] ht (hv.trans (List.append_nil _).symm) ⟨rfl, fun _ => hpanic⟩ hc
    (Task.connecting?_finish _ _ _) (by simp) hends.1 hends.2 fun d => ?_
  by_cases hw : th.watch e d = .over
  · exact .stay ((Task.watch_finish e d _ _).trans hw.symm)
  · exact .harm ⟨th.unwound, hv ▸ List.mem_of_getElem? (List.getElem?_set_self hlt),
      hs.attends_of_watch hw, hpanic⟩

theorem operation_place (e : EndpointId) (p : Party) (owner : Option EndpointId) (op : Operation) :
    (Thread.ofTask (.ofStarted owner (Call.ofOperation p op))).connecting? e = none ∨
      (Thread.ofTask (.ofStarted owner (Call.ofOperation p op))).connecting? e = some .lock ∧
        p.id = e := by
  have hfinish : ∀ r, (Thread.ofTask (.ofStarted owner (.done r))).connecting? e = none := fun r =>
    Task.connecting?_finish e owner (.returned r)
  cases op with
  | connect | accept =>
    simp only [Call.ofOperation, Call.requireRole]
    split
    · by_cases hp : p.id = e
      · exact .inr ⟨by simp [Thread.connecting?, Thread.ofTask, Task.ofStarted,
          Task.connecting?, hp], hp⟩
      · exact .inl (by simp [Thread.connecting?, Thread.ofTask, Task.ofStarted,
          Task.connecting?, hp])
    · exact .inl (hfinish _)
  | finalizeConnect | finalizeAccept =>
    simp only [Call.ofOperation, Call.requireRole]
    split
    · exact .inl rfl
    · exact .inl (hfinish _)
  | postSend | waitSend =>
    simp only [Call.ofOperation, Call.sendFits]
    split
    · exact .inl (hfinish _)
    · exact .inl rfl
  | postReceive | waitReceive | readState | destroy => exact .inl rfl

theorem request_place (e : EndpointId) (op : ObjectOperation) :
    (Thread.ofTask (.ofStarted none (Call.ofObject op))).connecting? e = none := by
  cases op with
  | add =>
    simp only [Call.ofObject]
    split <;> rfl
  | change handle changes span =>
    simp only [Call.ofObject, TimedChange.start]
    split <;> rfl
  | publish m payload =>
    simp only [Call.ofObject, Mailbox.Publishing.start]
    split <;> rfl
  | _ => rfl

/-- Something comes from outside. -/
theorem passes_outside {i : Input} (hi : i.outside = true) (ha : w.apply i = some v) :
    Passes w v e := by
  cases outside_of_apply hi ha with
  | @make a s _ =>
    refine .grow [] (by simp) (by simp) (fun hx => ?_) fun hx => ?_
    · rcases Nat.lt_or_ge w.endpoints.length e with hlt | hle
      · exact .inl (List.getElem?_eq_none (by simpa using Nat.succ_le_of_lt hlt))
      · obtain rfl := Nat.le_antisymm hle (List.getElem?_eq_none_iff.mp hx)
        exact .inr ⟨s, a.onDisconnect, by simp⟩
    · refine ⟨_, ?_, .refl _⟩
      rw [List.getElem?_append_left (List.getElem?_eq_some_iff.mp hx).1]
      exact hx
  | @operate e' z op hz =>
    have hmodify : (w.modifyEndpoint e' fun x => { x with owners := x.owners + 1 }).endpoints =
        w.endpoints.modify e' fun x => { x with owners := x.owners + 1 } := rfl
    have htame : ∀ x : Endpoint, x.UnconnectedChange { x with owners := x.owners + 1 } := fun _ =>
      Endpoint.unconnectedChange_of_same rfl rfl rfl rfl rfl
    have hends := unconnectedChange_modify (e := e) htame hmodify
    refine .grow [_] rfl (fun b hb => ?_) (fun h => .inl (hends.1 h)) hends.2
    obtain rfl := List.mem_singleton.mp hb
    obtain h | ⟨h, rfl⟩ := operation_place e ⟨e', z.settings⟩ (some e') op
    · exact .inl h
    · exact .inr ⟨h, z, hz⟩
  | request op =>
    refine .grow [_] rfl (fun b hb => ?_) .inl fun hx => ⟨_, hx, .refl _⟩
    obtain rfl := List.mem_singleton.mp hb
    exact .inl (request_place e op)
  | drop =>
    refine .grow [_] rfl (fun b hb => ?_) .inl fun hx => ⟨_, hx, .refl _⟩
    obtain rfl := List.mem_singleton.mp hb
    exact .inl rfl
  | @register e' _ _ _ _ hz =>
    refine .grow [] (by simp [putEndpoint]) (by simp) (fun hx => .inl ?_) fun hx => ?_
    · simp only [putEndpoint]
      rw [List.getElem?_eq_none_iff] at hx ⊢
      simpa using hx
    · by_cases he : e' = e
      · subst he
        obtain rfl := Option.some.inj (hx.symm.trans hz)
        exact ⟨_, List.getElem?_set_self (List.getElem?_eq_some_iff.mp hx).1,
          Endpoint.unconnectedChange_of_same rfl rfl rfl rfl rfl⟩
      · exact ⟨_, by simp [putEndpoint, List.getElem?_set_ne he, hx], .refl _⟩
  | release => exact .same rfl rfl

theorem passes_settle (ha : w.Alike v) : Passes w v e :=
  .same ha.threads ha.endpoints

end World

end QueuePair
