import QueuePair.Proofs.Decomposition
import QueuePair.Proofs.Stance

namespace QueuePair

namespace Endpoint

def Lacks (x : Endpoint) : Want → Prop
  | .job => x.sends.pending = .empty
  | .room d => (x.queue d).slab.free = []

end Endpoint

def Primitive.notifies {α : Type} : Primitive α → Bool
  | .endpoint _ .notify => true
  | _ => false

section

variable {α : Type} {x : Endpoint} {t : ThreadId} {e e' : EndpointId} {c : EndpointCall α}
  {s : Section α} {want : Want}

theorem WorkQueue.takeFirst_free {β : Type} (slab : Slab β) (is : List Nat) :
    (takeFirst slab is).2.slab.free = slab.free := by
  induction is generalizing slab with
  | nil => rfl
  | cons i is ih =>
    unfold takeFirst
    cases ht : slab.take i with
    | none => exact ih slab
    | some r =>
      obtain ⟨b, slab'⟩ := r
      simp only [Slab.take, Option.map_eq_some_iff, Prod.mk.injEq] at ht
      obtain ⟨_, -, -, rfl⟩ := ht
      rfl

theorem WorkQueue.next_free {β : Type} (q : WorkQueue β) : q.next.2.slab.free = q.slab.free :=
  takeFirst_free _ _

theorem WorkQueue.next_none {β : Type} {q q' : WorkQueue β} (h : q.next = (none, q')) :
    q'.pending = .empty := by
  have hall : ∀ (is : List Nat) (slab : Slab β) (q' : WorkQueue β),
      takeFirst slab is = (none, q') → q'.pending = .empty := by
    intro is
    induction is with
    | nil =>
      rintro slab q' ⟨⟩
      rfl
    | cons i is ih =>
      intro slab q' h
      unfold takeFirst at h
      split at h
      · cases h
      · exact ih slab q' h
  exact hall _ _ _ h

theorem WorkQueue.drain_free {β : Type} {q q' : WorkQueue β} (h : q.drain = ([], q')) :
    q' = ⟨q.slab, .empty⟩ := by
  have hall : ∀ (is : List Nat) (slab slab' : Slab β),
      drainFrom slab is = ([], slab') → slab' = slab := by
    intro is
    induction is with
    | nil =>
      rintro slab slab' ⟨⟩
      rfl
    | cons i is ih =>
      intro slab slab' h
      unfold drainFrom at h
      split at h
      · cases h
      · exact ih slab slab' h
  obtain ⟨hd, rfl⟩ := Prod.mk.inj h
  rw [hall q.pending.indices q.slab (drainFrom q.slab q.pending.indices).2 (Prod.ext hd rfl)]

theorem lacks_of_queue {y : Endpoint} (hq : y.queue = x.queue) (h : x.Lacks want) :
    y.Lacks want := by
  cases want with
  | job => exact (congrArg WorkQueue.pending (congrFun hq .send)).trans h
  | room d =>
    simp only [Endpoint.Lacks, hq]
    exact h

/-- Where a thread parks after an access, there is really nothing for it, and nobody wakes. -/
theorem call_parks (hc : x.call t c = some s)
    (hp : (Primitive.endpoint e c).stance s.answer = .parked e' want) :
    e' = e ∧ s.wakes = false ∧ s.endpoint.stopped = false ∧ s.endpoint.Lacks want := by
  cases c with
  | post d job =>
    simp only [Endpoint.call, Endpoint.post, Option.some.injEq] at hc
    split at hc
    · subst hc
      cases hp
    · rename_i hs
      split at hc
      · rename_i hq
        subst hc
        cases hp
        refine ⟨rfl, rfl, by simpa using hs, ?_⟩
        simp only [WorkQueue.post, Slab.acquire] at hq
        split at hq
        · rename_i hf
          exact hf
        · cases hq
      · subst hc
        cases hp
  | nextSend =>
    simp only [Endpoint.call, Endpoint.nextSend, Option.some.injEq] at hc
    split at hc
    · subst hc
      cases hp
    · rename_i hs
      split at hc
      · rename_i q hq
        subst hc
        cases hp
        exact ⟨rfl, rfl, by simpa using hs, WorkQueue.next_none hq⟩
      · subst hc
        cases hp
  | drain d =>
    simp only [Endpoint.call, Option.some.injEq] at hc
    subst hc
    simp only [Endpoint.drain] at hp
    cases hj : (x.queue d).drain.1 <;> simp [hj, Primitive.stance] at hp
  | _ => cases hp

theorem post_lacks {d : Direction} {job : Job} (hs : x.stopped = false)
    (hw : (x.post d job).wakes = false) : (x.post d job).endpoint.stopped = false ∧
      (x.Lacks want → (x.post d job).endpoint.Lacks want) := by
  have hrun : ¬ x.stopped = true := by simp [hs]
  cases hq : (x.queue d).post job with
  | none =>
    simp only [Endpoint.post, if_neg hrun, hq]
    exact ⟨hs, id⟩
  | some q =>
    simp only [Endpoint.post, if_neg hrun, hq] at hw ⊢
    obtain rfl : d = .receive := by
      cases d with
      | send => cases hw
      | receive => rfl
    refine ⟨hs, fun hl => ?_⟩
    cases want with
    | job => exact hl
    | room d =>
      cases d with
      | send => exact hl
      | receive =>
        have hf : x.receives.slab.free = [] := hl
        simp [WorkQueue.post, Slab.acquire, Endpoint.queue, hf] at hq

theorem nextSend_lacks (hs : x.stopped = false) : x.nextSend.endpoint.stopped = false ∧
    (x.Lacks want → x.nextSend.endpoint.Lacks want) := by
  have hrun : ¬ x.stopped = true := by simp [hs]
  have hfree := WorkQueue.next_free x.sends
  simp only [Endpoint.nextSend, if_neg hrun]
  split
  · rename_i q hq
    rw [hq] at hfree
    refine ⟨hs, fun hl => ?_⟩
    cases want with
    | job => exact WorkQueue.next_none hq
    | room d =>
      cases d with
      | send => exact hfree.trans hl
      | receive => exact hl
  · rename_i slot job q hq
    rw [hq] at hfree
    refine ⟨hs, fun hl => ?_⟩
    cases want with
    | job =>
      have hp : x.sends.pending = .empty := hl
      simp [WorkQueue.next, hp, Fifo.empty, WorkQueue.takeFirst] at hq
    | room d =>
      cases d with
      | send => exact hfree.trans hl
      | receive => exact hl

theorem nextReceive_lacks : x.nextReceive.endpoint.stopped = x.stopped ∧
    (x.Lacks want → x.nextReceive.endpoint.Lacks want) := by
  have hfree := WorkQueue.next_free x.receives
  have hmove : ∀ q : WorkQueue Job, q.slab.free = x.receives.slab.free → x.Lacks want →
      Endpoint.Lacks { x with receives := q } want := by
    intro q hq hl
    cases want with
    | job => exact hl
    | room d =>
      cases d with
      | send => exact hl
      | receive => exact hq.trans hl
  simp only [Endpoint.nextReceive]
  split
  · rename_i q hq
    rw [hq] at hfree
    exact ⟨rfl, hmove q hfree⟩
  · rename_i slot job q hq
    rw [hq] at hfree
    exact ⟨rfl, hmove q hfree⟩

theorem drain_lacks (e : EndpointId) (d : Direction) : (x.drain d).endpoint.stopped = x.stopped ∧
    (x.Lacks want → (x.drain d).endpoint.Lacks want ∨
      (Primitive.endpoint e (.drain d)).stance (x.drain d).answer = .notifying e) := by
  refine ⟨by cases d <;> rfl, fun hl => ?_⟩
  simp only [Endpoint.drain]
  cases hd : (x.queue d).drain with
  | mk jobs q =>
    cases jobs with
    | cons job jobs => exact .inr rfl
    | nil =>
      refine .inl ?_
      obtain rfl := WorkQueue.drain_free hd
      cases want with
      | job =>
        cases d with
        | send => rfl
        | receive => exact hl
      | room d' => cases d <;> cases d' <;> exact hl

/-- An access that wakes nobody leaves those who are parked without a job or room, unless its
thread is about to wake them. -/
theorem call_lacks (hc : x.call t c = some s) (hw : s.wakes = false) (hs : x.stopped = false) :
    s.endpoint.stopped = false ∧ (x.Lacks want → s.endpoint.Lacks want ∨
      (Primitive.endpoint e c).stance s.answer = .notifying e) := by
  have hsame : ∀ y : Endpoint, y.stopped = x.stopped → y.queue = x.queue →
      y.stopped = false ∧ (x.Lacks want → y.Lacks want ∨
        (Primitive.endpoint e c).stance s.answer = .notifying e) :=
    fun y hy hq => ⟨hy.trans hs, fun hl => .inl (lacks_of_queue hq hl)⟩
  cases c with
  | post d job =>
    cases hc
    exact (post_lacks hs hw).imp_right fun h hl => .inl (h hl)
  | nextSend =>
    cases hc
    exact (nextSend_lacks hs).imp_right fun h hl => .inl (h hl)
  | nextReceive =>
    cases hc
    exact nextReceive_lacks.imp (fun h => h.trans hs) fun h hl => .inl (h hl)
  | drain d =>
    cases hc
    exact (drain_lacks e d).imp_left fun h => h.trans hs
  | setStopped stopped =>
    cases hc
    obtain rfl : stopped = false := hw
    exact hsame _ hs.symm rfl
  | complete | notify | close =>
    cases hc
    cases hw
  | cancel d serial =>
    simp only [Endpoint.call, Endpoint.cancel, Option.some.injEq] at hc
    split at hc <;> subst hc <;> cases hw
  | release =>
    simp only [Endpoint.call] at hc
    split at hc <;> cases hc <;> exact hsame _ rfl rfl
  | lockLink | readLink | takeLink =>
    simp only [Endpoint.call, Endpoint.underLink] at hc
    split at hc <;> cases hc
    exact hsame _ rfl rfl
  | awaitReply =>
    simp only [Endpoint.call] at hc
    split at hc <;> cases hc
    exact hsame _ rfl rfl
  | _ =>
    cases hc
    exact hsame _ rfl rfl

end

namespace World

variable {w v : World} {t : ThreadId} {th th' : Thread} {e : EndpointId} {ths ths' : List Thread}

/-- Whoever is parked on an endpoint found no job or no room there, and since then neither came, or
a thread is about to wake everybody. A step wakes all threads that are parked there at once, so this
is kept by steps and not by each atom of them. -/
structure Parked (w : World) : Prop where
  seated : ∀ {t : ThreadId} {th : Thread}, w.threads[t]? = some th → th.Seated
  reason : ∀ {t : ThreadId} {th : Thread} {e : EndpointId} {want : Want},
    w.threads[t]? = some th → th.stance = .parked e want →
    ∃ x, w.endpoints[e]? = some x ∧ x.stopped = false ∧
      (x.Lacks want ∨ ∃ (u : ThreadId) (thu : Thread),
        w.threads[u]? = some thu ∧ thu.stance = .notifying e)

structure Calm (th : Thread) : Prop where
  seated : th.Seated
  free : th.stance = .free

def Eases (ths ths' : List Thread) : Prop :=
  ∀ u : ThreadId, ths'[u]? = ths[u]? ∨ ∃ th', ths'[u]? = some th' ∧ Calm th' ∧
    ∀ th, ths[u]? = some th → ∀ e, th.stance ≠ .notifying e

theorem Eases.refl (ths : List Thread) : Eases ths ths :=
  fun _ => .inl rfl

theorem Calm.not_notifying (h : Calm th) : th.stance ≠ .notifying e := by
  rw [h.free]
  simp

theorem Eases.trans {ths'' : List Thread} (h : Eases ths ths') (h' : Eases ths' ths'') :
    Eases ths ths'' := by
  intro u
  rcases h' u with he' | ⟨th'', hu'', hcalm, hn⟩
  · rcases h u with he | ⟨th', hu', hcalm, hn⟩
    · exact .inl (he'.trans he)
    · exact .inr ⟨th', he'.trans hu', hcalm, hn⟩
  · refine .inr ⟨th'', hu'', hcalm, ?_⟩
    rcases h u with he | ⟨th', hu', hcalm', hn'⟩
    · exact fun th hu => hn th (he.trans hu)
    · exact hn'

theorem Eases.set (ht : ths[t]? = some th) (hn : ∀ e, th.stance ≠ .notifying e)
    (hc : Calm th') : Eases ths (ths.set t th') := by
  intro u
  by_cases hu : t = u
  · subst hu
    have hlt := (List.getElem?_eq_some_iff.mp ht).1
    refine .inr ⟨th', List.getElem?_set_self hlt, hc, fun b hb => ?_⟩
    obtain rfl := Option.some.inj (ht.symm.trans hb)
    exact hn
  · exact .inl (List.getElem?_set_ne hu)

theorem Eases.append (ths : List Thread) (hc : Calm th') : Eases ths (ths ++ [th']) := by
  intro u
  rcases Nat.lt_trichotomy u ths.length with hlt | rfl | hgt
  · exact .inl (List.getElem?_append_left hlt)
  · exact .inr ⟨th', by simp, hc, by simp⟩
  · refine .inl ?_
    rw [List.getElem?_eq_none (Nat.le_of_lt hgt), List.getElem?_eq_none]
    simp only [List.length_append, List.length_cons, List.length_nil]
    omega

theorem not_notifying {α : Type} {p : Primitive α} {next : α → Thread}
    (hn : th.next = .perform p next) (hp : p.notifies = false) : th.stance ≠ .notifying e := by
  intro hs
  have htell := th.stance_tells
  rw [hs] at htell
  obtain ⟨next', he⟩ := htell
  rw [hn] at he
  cases he
  cases hp

theorem Eases.go (h : Eases ths ths') (ht : ths[t]? = some th) (hn : ∀ e, th.stance ≠ .notifying e)
    (hc : Calm th') : Eases ths (ths'.set t th') := by
  rcases h t with he | ⟨b, hb, hcalm, -⟩
  · exact h.trans (.set (he.trans ht) hn hc)
  · exact h.trans (.set hb (fun e => hcalm.not_notifying) hc)

theorem Eases.seated (h : Eases ths ths')
    (hs : ∀ {u : ThreadId} {th : Thread}, ths[u]? = some th → th.Seated) {u : ThreadId}
    (hu : ths'[u]? = some th') : th'.Seated := by
  rcases h u with he | ⟨b, hb, hcalm, -⟩
  · exact hs (he ▸ hu)
  · obtain rfl := Option.some.inj (hb.symm.trans hu)
    exact hcalm.seated

theorem calm_next {α : Type} {p : Primitive α} {next : α → Thread} {a : α} (hs : th.Seated)
    (hn : th.next = .perform p next) (hp : p.stance a = .free) : Calm (next a) := by
  obtain ⟨hinto, hstance⟩ := hs.moves
  rw [hn] at hinto hstance
  exact ⟨hinto a, (hstance a).trans hp⟩

theorem complete_eases (hs : ∀ {u : ThreadId} {th : Thread}, ths[u]? = some th → th.Seated)
    (ends : List Completion) :
    Eases ths (ends.foldl (fun ths c => ths.modify c.thread (·.complete c.result)) ths) := by
  induction ends generalizing ths with
  | nil => exact .refl ths
  | cons c ends ih =>
    have hone : Eases ths (ths.modify c.thread (·.complete c.result)) := by
      cases ht : ths[c.thread]? with
      | none =>
        rw [List.modify_eq_self (List.getElem?_eq_none_iff.mp ht)]
        exact .refl ths
      | some th =>
        rw [modify_of_getElem? ht]
        unfold Thread.complete
        split
        · rename_i hn
          exact .set ht (fun e => not_notifying hn rfl) (calm_next (hs ht) hn rfl)
        · rw [set_of_getElem? ht]
          exact .refl ths
    exact hone.trans (ih fun hu => hone.seated hs hu)

/-- No endpoint is stopped or started, and no queue changes. -/
def Untouched (w v : World) : Prop :=
  ∀ (e : EndpointId) (x : Endpoint), w.endpoints[e]? = some x →
    ∃ y, v.endpoints[e]? = some y ∧ y.stopped = x.stopped ∧ y.queue = x.queue

theorem untouched_of_eq (h : v.endpoints = w.endpoints) : w.Untouched v :=
  fun _ x hx => ⟨x, h ▸ hx, rfl, rfl⟩

theorem untouched_modify {f : Endpoint → Endpoint} (hv : v.endpoints = w.endpoints.modify e f)
    (hs : ∀ x, (f x).stopped = x.stopped) (hq : ∀ x, (f x).queue = x.queue) :
    w.Untouched v := by
  intro e' x hx
  by_cases he : e = e'
  · subst he
    exact ⟨f x, by simp [hv, hx], hs x, hq x⟩
  · exact ⟨x, by simp [hv, List.getElem?_modify_ne _ _ he, hx], rfl, rfl⟩

theorem Parked.ease (h : w.Parked) (he : w.Untouched v) (ht : Eases w.threads v.threads) :
    v.Parked := by
  refine ⟨fun hu => ht.seated h.seated hu, fun {u b e want} hu hb => ?_⟩
  rcases ht u with hsame | ⟨b', hb', hcalm, -⟩
  · obtain ⟨x, hx, hstop, hwhy⟩ := h.reason (hsame ▸ hu) hb
    obtain ⟨y, hy, hys, hyq⟩ := he e x hx
    refine ⟨y, hy, hys.trans hstop, hwhy.imp (lacks_of_queue hyq) ?_⟩
    rintro ⟨k, thk, hk, hnk⟩
    refine ⟨k, thk, ?_, hnk⟩
    rcases ht k with hsame' | ⟨-, -, -, hn⟩
    · exact hsame'.trans hk
    · exact absurd hnk (hn thk hk e)
  · obtain rfl := Option.some.inj (hb'.symm.trans hu)
    rw [hcalm.free] at hb
    cases hb

theorem wake_cases (hs : th.Seated) (e : EndpointId) :
    (th.wake e = th ∧ ∀ want, th.stance ≠ .parked e want) ∨
    Calm (th.wake e) ∧ ∀ e', th.stance ≠ .notifying e' := by
  unfold Thread.wake
  split
  · rename_i e' d next hn
    split
    · exact .inr ⟨calm_next hs hn rfl, fun _ => not_notifying hn rfl⟩
    · rename_i hne
      refine .inl ⟨rfl, fun want hp => ?_⟩
      have htell := th.stance_tells
      rw [hp, hn] at htell
      obtain ⟨d', next', he⟩ := htell
      cases he
      exact hne rfl
  · rename_i hn
    refine .inl ⟨rfl, fun want hp => ?_⟩
    have htell := th.stance_tells
    rw [hp] at htell
    obtain ⟨d', next', he⟩ := htell
    exact hn _ _ _ he

theorem notifying_next {α : Type} {e' : EndpointId} {c : EndpointCall α} {next : α → Thread}
    (hn : th.next = .perform (.endpoint e c) next) (hs : th.stance = .notifying e') :
    e' = e ∧ ∀ {x : Endpoint} {s : Section α}, x.call t c = some s → s.wakes = true := by
  have htell := th.stance_tells
  rw [hs] at htell
  obtain ⟨next', he⟩ := htell
  rw [hn] at he
  cases he
  refine ⟨rfl, fun hc => ?_⟩
  cases hc
  rfl

section

variable {α : Type} {c : EndpointCall α} {next : α → Thread} {x : Endpoint} {s : Section α}

/-- An access that wakes everybody leaves nobody parked there. -/
theorem Parked.wakes (h : w.Parked) (ht : w.threads[t]? = some th)
    (hn : th.next = .perform (.endpoint e c) next) (hc : x.call t c = some s)
    (hw : s.wakes = true) (hv : v.threads = (w.threads.map (·.wake e)).set t (next s.answer))
    (he : v.endpoints = w.endpoints.set e s.endpoint) : v.Parked := by
  obtain ⟨hinto, hstance⟩ := (h.seated ht).moves
  rw [hn] at hinto hstance
  have hlt : t < (w.threads.map (·.wake e)).length := by
    simpa using (List.getElem?_eq_some_iff.mp ht).1
  have hself : v.threads[t]? = some (next s.answer) := by rw [hv, List.getElem?_set_self hlt]
  have hother : ∀ {u}, u ≠ t → v.threads[u]? = w.threads[u]?.map (·.wake e) := fun hu => by
    rw [hv, List.getElem?_set_ne (Ne.symm hu), List.getElem?_map]
  refine ⟨fun {u b} hu => ?_, fun {u b e' want} hu hb => ?_⟩
  · by_cases hut : u = t
    · subst hut
      obtain rfl := Option.some.inj (hself.symm.trans hu)
      exact hinto _
    · rw [hother hut, Option.map_eq_some_iff] at hu
      obtain ⟨thu, hu, rfl⟩ := hu
      rcases wake_cases (h.seated hu) e with ⟨hsame, -⟩ | ⟨hcalm, -⟩
      · rw [hsame]
        exact h.seated hu
      · exact hcalm.seated
  · by_cases hut : u = t
    · subst hut
      obtain rfl := Option.some.inj (hself.symm.trans hu)
      rw [hstance] at hb
      rw [(call_parks hc hb).2.1] at hw
      cases hw
    · rw [hother hut, Option.map_eq_some_iff] at hu
      obtain ⟨thu, hu, rfl⟩ := hu
      rcases wake_cases (h.seated hu) e with ⟨hsame, hnot⟩ | ⟨hcalm, -⟩
      · rw [hsame] at hb
        have hne : e ≠ e' := fun he => hnot want (he ▸ hb)
        obtain ⟨y, hy, hstop, hwhy⟩ := h.reason hu hb
        refine ⟨y, by rw [he, List.getElem?_set_ne hne, hy], hstop, hwhy.imp_right ?_⟩
        rintro ⟨k, thk, hk, hnk⟩
        refine ⟨k, thk, ?_, hnk⟩
        have hkt : k ≠ t := fun hkt => by
          subst hkt
          obtain rfl := Option.some.inj (ht.symm.trans hk)
          exact hne (notifying_next (t := k) hn hnk).1.symm
        rw [hother hkt, hk]
        rcases wake_cases (h.seated hk) e with ⟨hsame', -⟩ | ⟨-, hnot'⟩
        · rw [Option.map_some, hsame']
        · exact absurd hnk (hnot' _)
      · rw [hcalm.free] at hb
        cases hb

/-- After an access that wakes nobody, whoever was parked there has a reason still. -/
theorem Parked.rests (h : w.Parked) (ht : w.threads[t]? = some th)
    (hn : th.next = .perform (.endpoint e c) next) (hx : w.endpoints[e]? = some x)
    (hc : x.call t c = some s) (hw : s.wakes = false)
    (hv : v.threads = w.threads.set t (next s.answer))
    (he : v.endpoints = w.endpoints.set e s.endpoint) : v.Parked := by
  obtain ⟨hinto, hstance⟩ := (h.seated ht).moves
  rw [hn] at hinto hstance
  have hlt := (List.getElem?_eq_some_iff.mp ht).1
  have hself : v.threads[t]? = some (next s.answer) := by rw [hv, List.getElem?_set_self hlt]
  have hother : ∀ {u}, u ≠ t → v.threads[u]? = w.threads[u]? := fun hu => by
    rw [hv, List.getElem?_set_ne (Ne.symm hu)]
  have hend : v.endpoints[e]? = some s.endpoint := by
    rw [he, List.getElem?_set_self (List.getElem?_eq_some_iff.mp hx).1]
  refine ⟨fun {u b} hu => ?_, fun {u b e' want} hu hb => ?_⟩
  · by_cases hut : u = t
    · subst hut
      obtain rfl := Option.some.inj (hself.symm.trans hu)
      exact hinto _
    · exact h.seated (hother hut ▸ hu)
  · by_cases hut : u = t
    · subst hut
      obtain rfl := Option.some.inj (hself.symm.trans hu)
      rw [hstance] at hb
      obtain ⟨rfl, -, hstop, hlack⟩ := call_parks hc hb
      exact ⟨_, hend, hstop, .inl hlack⟩
    · obtain ⟨y, hy, hstop, hwhy⟩ := h.reason (hother hut ▸ hu) hb
      -- whoever wakes others does it in this step, so it is somebody else
      have hstay : (∃ (k : ThreadId) (thk : Thread),
          w.threads[k]? = some thk ∧ thk.stance = .notifying e') →
          ∃ (k : ThreadId) (thk : Thread), v.threads[k]? = some thk ∧
            thk.stance = .notifying e' := by
        rintro ⟨k, thk, hk, hnk⟩
        refine ⟨k, thk, ?_, hnk⟩
        by_cases hkt : k = t
        · subst hkt
          obtain rfl := Option.some.inj (ht.symm.trans hk)
          rw [(notifying_next hn hnk).2 hc] at hw
          cases hw
        · exact (hother hkt).trans hk
      by_cases hee : e = e'
      · subst hee
        obtain rfl := Option.some.inj (hx.symm.trans hy)
        obtain ⟨hstop', hlack⟩ := @call_lacks _ x t e c s want hc hw hstop
        refine ⟨_, hend, hstop', ?_⟩
        rcases hwhy with hl | hk
        · exact (hlack hl).imp_right fun hnow => ⟨t, _, hself, (hstance _).trans hnow⟩
        · exact .inr (hstay hk)
      · exact ⟨y, by rw [he, List.getElem?_set_ne hee, hy], hstop, hwhy.imp_right hstay⟩

end

theorem worker_calm (p : Party) (l : Link) (d : Direction) : Calm (.ofTask (worker p l d)) := by
  cases d <;> exact ⟨Thread.seated_nil _ _, rfl⟩

theorem invoke_untouched (w : World) (p : Party) (i : Invocation) :
    w.Untouched (w.invoke p i).1 := by
  cases i with
  | disconnect => exact untouched_of_eq rfl
  | resolve d job error =>
    simp only [invoke, resolve]
    split
    · exact untouched_modify (e := p.id) rfl (fun _ => rfl) fun _ => rfl
    · exact untouched_of_eq rfl

theorem invoke_stance {p : Party} {i : Invocation} {c : Callback}
    (h : (w.invoke p i).2 = some c) : c.stance = .free := by
  cases i with
  | resolve d job error =>
    simp only [invoke, resolve] at h
    split at h
    · cases h
    · exact start_stance h
  | disconnect script => exact start_stance h

theorem panic_untouched (t : ThreadId) (th : Thread) : w.Untouched (w.panic t th) := by
  have hput : ∀ (jobs : List Job) (x : Endpoint),
      (jobs.foldl (fun (x : Endpoint) job => x.putReply job.serial .abandoned) x).stopped =
        x.stopped ∧
      (jobs.foldl (fun (x : Endpoint) job => x.putReply job.serial .abandoned) x).queue =
        x.queue := by
    intro jobs
    induction jobs with
    | nil => exact fun _ => ⟨rfl, rfl⟩
    | cons job jobs ih => exact fun x => ih (x.putReply job.serial .abandoned)
  unfold World.panic
  split
  · exact untouched_of_eq rfl
  · rename_i e _
    exact untouched_modify (e := e) rfl (fun x => (hput _ x).1) fun x => (hput _ x).2

/-- An action of a thread, but for an access to an endpoint. -/
theorem perform_eases {α : Type} {p : Primitive α} {u : World} {a : α} (h : w.Parked)
    (hp : w.perform t p = .done u a) (hne : ∀ e c, p ≠ .endpoint e c) :
    w.Untouched u ∧ Eases w.threads u.threads ∧ p.stance a = .free := by
  cases p with
  | system c =>
    simp only [perform] at hp
    split at hp
    · cases hp
    · cases hp
      refine ⟨untouched_of_eq (observe_endpoints _ _), ?_, rfl⟩
      rw [observe_threads]
      exact complete_eases h.seated _
  | endpoint e c => exact absurd rfl (hne e c)
  | clock | note =>
    cases hp
    exact ⟨untouched_of_eq rfl, .refl _, rfl⟩
  | park => cases hp
  | spawn p l d =>
    cases hp
    exact ⟨untouched_modify (e := p.id) rfl (fun _ => rfl) fun _ => rfl,
      .append _ (worker_calm p l d), rfl⟩
  | join k =>
    simp only [perform] at hp
    split at hp
    · cases hp
      exact ⟨untouched_of_eq rfl, .refl _, rfl⟩
    · split at hp <;> cases hp
      exact ⟨untouched_of_eq rfl, .refl _, rfl⟩
  | hold id =>
    simp only [perform] at hp
    split at hp <;> cases hp
    exact ⟨untouched_of_eq rfl, .refl _, rfl⟩

theorem Parked.queue {α : Type} {p : Primitive α} (h : w.Parked)
    (hp : w.perform t p = .queued v) : v.Parked := by
  cases p with
  | system c =>
    simp only [perform] at hp
    split at hp <;> cases hp
    refine h.ease (untouched_of_eq (observe_endpoints _ _)) ?_
    rw [observe_threads]
    exact complete_eases h.seated _
  | endpoint e c =>
    simp only [perform] at hp
    split at hp <;> cases hp
  | join k =>
    simp only [perform] at hp
    split at hp
    · cases hp
    · split at hp <;> cases hp
  | hold id =>
    simp only [perform] at hp
    split at hp <;> cases hp
  | clock | note | park | spawn => cases hp

/-- A thread gets an answer. -/
theorem Parked.answer {α : Type} {p : Primitive α} {next : α → Thread} {u : World} {a : α}
    (h : w.Parked) (ht : w.threads[t]? = some th) (hn : th.next = .perform p next)
    (hp : w.perform t p = .done u a) : (u.putThread t (next a)).Parked := by
  have hother : (∀ e c, p ≠ .endpoint e c) → p.notifies = false →
      (u.putThread t (next a)).Parked := fun hne hnot => by
    obtain ⟨hu, hthreads, hfree⟩ := perform_eases h hp hne
    exact h.ease hu (hthreads.go ht (fun e => not_notifying hn hnot)
      (calm_next (h.seated ht) hn hfree))
  cases p with
  | endpoint e c =>
    simp only [perform] at hp
    split at hp
    · cases hp
    · rename_i s hs
      obtain ⟨x, hx, hc⟩ := Option.bind_eq_some_iff.mp hs
      obtain ⟨hthreads, hends⟩ := notes_same (e := e) s.notes (w.putEndpoint e s.endpoint)
      cases hw : s.wakes with
      | true =>
        rw [hw, if_pos rfl] at hp
        cases hp
        refine h.wakes ht hn hc hw ?_ hends
        simp only [putThread, wake, hthreads]
        rfl
      | false =>
        rw [hw, if_neg (by decide)] at hp
        cases hp
        refine h.rests ht hn hx hc hw ?_ hends
        simp only [putThread, hthreads]
        rfl
  | _ => exact hother (by simp) rfl

theorem Parked.step (h : w.Parked) (hv : w.step t = some v) : v.Parked := by
  obtain ⟨th, ht, -, ⟨α, p, next, hn, hp⟩ | ⟨p, i, after, hn, rfl⟩ | ⟨hn, rfl⟩⟩ := step_cases hv
  · rcases hp with hp | ⟨u, a, hp, rfl⟩
    · exact h.queue hp
    · exact h.answer ht hn hp
  · have hnot : ∀ e, th.stance ≠ .notifying e := fun e hs => by
      have htell := th.stance_tells
      rw [hs, hn] at htell
      obtain ⟨next', he⟩ := htell
      cases he
    obtain ⟨hinto, hstance⟩ := (h.seated ht).moves
    rw [hn] at hinto hstance
    obtain ⟨hs, hf⟩ := Thread.Seated.push hinto hstance fun c hc => invoke_stance (w := w) hc
    refine h.ease (invoke_untouched w p i) ?_
    simp only [putThread, invoke_threads]
    exact .set ht hnot ⟨hs, hf⟩
  · have hnot : ∀ e, th.stance ≠ .notifying e := fun e hs => by
      have htell := th.stance_tells
      rw [hs, hn] at htell
      obtain ⟨next', he⟩ := htell
      cases he
    refine h.ease (panic_untouched t th) ?_
    rw [panic_eq, putThread, abandon_threads]
    refine .set ht hnot ⟨Thread.seated_nil _ _, ?_⟩
    cases ho : th.task.owner? <;> simp [Thread.unwound, Thread.stance, ho, Task.finish, Task.stance]

theorem expired_stance {α : Type} {p : Primitive α} {a : α} (h : p.expired? = some a) :
    p.stance a = .free ∧ p.notifies = false := by
  cases p with
  | system | park => exact ⟨rfl, rfl⟩
  | endpoint e c =>
    cases c with
    | awaitReply => exact ⟨rfl, rfl⟩
    | _ => cases h
  | clock | spawn | join | hold | note => cases h

theorem Parked.expire (h : w.Parked) (hv : w.expire t = some v) : v.Parked := by
  unfold World.expire at hv
  split at hv
  · rename_i deadline th' hd hth'
    cases hv
    obtain ⟨th, ht, hx⟩ := Option.bind_eq_some_iff.mp hth'
    unfold Thread.expire? at hx
    split at hx
    · rename_i α p next hn
      obtain ⟨a, ha, rfl⟩ := Option.map_eq_some_iff.mp hx
      obtain ⟨hfree, hnot⟩ := expired_stance ha
      refine h.ease (untouched_of_eq rfl) ?_
      exact .set ht (fun e => not_notifying hn hnot) (calm_next (h.seated ht) hn hfree)
    · cases hx
  · cases hv

theorem started_calm (owner : Option EndpointId) {s : Call.Started}
    (hs : ∀ c, s = .more c → c.stance = .free) : Calm (.ofTask (.ofStarted owner s)) := by
  refine ⟨Thread.seated_nil _ _, ?_⟩
  cases s with
  | more c => exact hs c rfl
  | done r => cases owner <;> rfl

theorem Parked.outside {i : Input} (h : w.Parked) (hi : i.outside = true)
    (hv : w.apply i = some v) : v.Parked := by
  cases outside_of_apply hi hv with
  | make =>
    refine h.ease (fun e x hx => ⟨x, ?_, rfl, rfl⟩) (.refl _)
    rw [List.getElem?_append_left (List.getElem?_eq_some_iff.mp hx).1]
    exact hx
  | @operate e _ _ _ =>
    exact h.ease (untouched_modify (e := e) rfl (fun _ => rfl) fun _ => rfl)
      (.append _ (started_calm _ fun c hc => ofOperation_stance hc))
  | request =>
    exact h.ease (untouched_of_eq rfl) (.append _ (started_calm _ fun c hc => ofObject_stance hc))
  | drop => exact h.ease (untouched_of_eq rfl) (.append _ ⟨Thread.seated_nil _ _, rfl⟩)
  | @register e _ _ _ _ hx =>
    refine h.ease (fun e' y hy => ?_) (.refl _)
    by_cases he : e = e'
    · subst he
      obtain rfl := Option.some.inj (hx.symm.trans hy)
      exact ⟨_, List.getElem?_set_self (List.getElem?_eq_some_iff.mp hx).1, rfl, rfl⟩
    · exact ⟨y, by simp [putEndpoint, List.getElem?_set_ne he, hy], rfl, rfl⟩
  | release => exact h.ease (untouched_of_eq rfl) (.refl _)

theorem Parked.apply {i : Input} (h : w.Parked) (hv : w.apply i = some v) : v.Parked := by
  cases hi : i.outside with
  | true => exact h.outside hi hv
  | false =>
    cases i with
    | run t => exact h.step hv
    | expire t => exact h.expire hv
    | make | operate | request | drop | register | release => cases hi

theorem Parked.run {allowed : Input → Prop} (h : w.Parked) (hr : Run allowed w v) : v.Parked := by
  induction hr with
  | refl => exact h
  | step i _ _ hv ih => exact ih.apply hv

theorem parked_of_new (h : w.threads = []) : w.Parked where
  seated := by simp [h]
  reason := by simp [h]

end World

end QueuePair
