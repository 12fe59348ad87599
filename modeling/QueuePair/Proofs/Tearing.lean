import QueuePair.Proofs.Covering
import QueuePair.Proofs.Ownership

namespace QueuePair

open World

theorem Thread.Shaped.connecting_tears {e : EndpointId} {th : Thread} {s : Connecting}
    (hs : th.Shaped) (hc : th.connecting? e = some s) :
    th.tears e = [] ∧ th.next.Into fun b => b.tears e = [] := by
  obtain ⟨origin, o, q, -, rfl⟩ := hs.connecting_cases hc
  refine ⟨rfl, ?_⟩
  simp only [Thread.next, Task.next, Call.next, Move.into_map]
  refine Move.into_map.mpr (Move.into_map.mpr (Move.into_of_forall fun f => ?_))
  cases f with
  | more => rfl
  | done r =>
    cases r with
    | error => simp [Flow.elim, Thread.tears]
    | ok =>
      cases hr : q.settings.role.isServer
      · simp [Flow.elim, Thread.tears]
      · simp [Flow.elim, Thread.tears, Task.tears, Task.call?, Call.tears, Call.destroying?]

theorem Thread.tears_of_bypassed {e : EndpointId} {th : Thread}
    (hd : ∀ c, th.call? = some c → c.destroying? e = none) : th.tears e = th.below e := by
  have hnone : ∀ c : Option Call, (∀ a ∈ c, a.destroying? e = none) → c.elim []
    (Call.tears e) = [] :=
    fun c hc => by
      cases c with
      | none => rfl
      | some c => simp [Call.tears, hc c rfl]
  obtain ⟨o, task, cs⟩ := th
  cases cs with
  | nil => exact hnone _ hd
  | cons c cs =>
    have hc : c.tears e = [] := hnone _ hd
    simp [tears, below, hc]

theorem destroying_not_panics {p : Party} (s : Destroying) : s.next p ≠ .panic := by
  intro h
  cases s with
  | remove l s =>
    have hacts := (removal_confined l s).2
    simp only [Destroying.next, Move.through] at h
    cases hm : s.next l <;> rw [hm] at h hacts <;> first | exact hacts.elim | cases h
  | fail r d s => cases s <;> cases h
  | _ => cases h

theorem Thread.Covered.panics {e : EndpointId} {th : Thread} (h : th.Covered)
    (hn : th.next = .panic) {s : Destroying} (hs : s ∈ th.tears e) : s.rests = true := by
  refine h.below (e := e) (Thread.tears_of_bypassed (fun c hc => ?_) ▸ hs)
  cases c with
  | destroying p s =>
    obtain ⟨f, hnext, -⟩ := Thread.next_destroying hc
    rw [hn] at hnext
    cases hm : s.next p with
    | panic => exact (destroying_not_panics s hm).elim
    | perform | invoke | halt =>
      rw [hm] at hnext
      cases hnext
  | _ => rfl

namespace Endpoint

structure Stands (x y : Endpoint) : Prop where
  link : y.link = x.link
  workers : y.workers = x.workers
  stopping : y.stopping = x.stopping

theorem Stands.refl (x : Endpoint) : x.Stands x :=
  ⟨rfl, rfl, rfl⟩

theorem Stands.trans {x y z : Endpoint} (h : x.Stands y) (h' : y.Stands z) : x.Stands z :=
  ⟨h'.link.trans h.link, h'.workers.trans h.workers, h'.stopping.trans h.stopping⟩

theorem stands_withQueue (x : Endpoint) (d : Direction) (q : WorkQueue Job) :
    x.Stands (x.withQueue d q) := by
  cases d <;> exact ⟨rfl, rfl, rfl⟩

end Endpoint

section

variable {α : Type} {x : Endpoint} {t : ThreadId} {c : EndpointCall α} {s : Section α}

/-- Only connecting and tearing down change what stands. -/
theorem call_stands (hc : x.call t c = some s) (hs : c.strips = false) (hf : c.founds = false) :
    x.Stands s.endpoint := by
  cases c with
  | writeState | setStopped | writeStopping | lockLink | unlockLink => cases hf
  | beginStopping | takeLink | takeWorkers | release => cases hs
  | post d job =>
    cases hc
    simp only [Endpoint.post]
    split
    · exact .refl x
    · split
      · exact .refl x
      · exact Endpoint.stands_withQueue x d _
  | nextSend =>
    cases hc
    simp only [Endpoint.nextSend]
    split
    · exact .refl x
    · split <;> exact Endpoint.stands_withQueue x .send _
  | nextReceive =>
    cases hc
    simp only [Endpoint.nextReceive]
    split <;> exact Endpoint.stands_withQueue x .receive _
  | cancel d serial =>
    cases hc
    simp only [Endpoint.cancel]
    split <;> exact Endpoint.stands_withQueue x d _
  | complete d =>
    cases hc
    exact Endpoint.stands_withQueue x d _
  | drain d =>
    cases hc
    exact Endpoint.stands_withQueue x d _
  | readLink =>
    simp only [Endpoint.call, Endpoint.underLink] at hc
    split at hc <;> cases hc
    exact .refl x
  | awaitReply =>
    simp only [Endpoint.call] at hc
    split at hc <;> cases hc
    exact .refl x
  | readState | notify | readStopping | pollReply =>
    cases hc
    exact .refl x
  | takeSerial | takeDisconnect | close =>
    cases hc
    exact ⟨rfl, rfl, rfl⟩

end

namespace World

variable {w v u : World} {e : EndpointId} {t i : ThreadId} {th th' : Thread} {x y : Endpoint}
  {p : Party} {s : Destroying} {allowed : Input → Prop}

def tearing (w : World) (e : EndpointId) (i : ThreadId) : List Destroying :=
  (w.threads[i]?.map (Thread.tears e)).getD []

theorem tearing_eq (ht : w.threads[t]? = some th) : w.tearing e t = th.tears e := by
  simp [tearing, ht]

def Abandoned (w : World) (e : EndpointId) (x : Endpoint) : Prop :=
  x.owners = 1 ∧ ∃ th ∈ w.threads, th.parting e = true

structure Steady (w v : World) (e : EndpointId) : Prop where
  ends : ∀ {x : Endpoint}, w.endpoints[e]? = some x → ∃ y, v.endpoints[e]? = some y ∧
    (x.Stands y ∨ w.Abandoned e x ∧ { x with link := none }.Stands y)
  staff : ∀ {i : ThreadId} {b : Thread}, v.threads[i]? = some b → b.task.staffs e = true →
    ∃ a, w.threads[i]? = some a ∧ a.task.staffs e = true
  tearing : ∀ i, v.tearing e i = w.tearing e i ∨
    v.tearing e i = [] ∧ ∀ s ∈ w.tearing e i, s.rests = true

inductive Strikes (w : World) (t : ThreadId) (p : Party) (s : Destroying) :
    World → Flow Destroying (Except Error Unit) → Prop
  | act {u : World} {f : Flow Destroying (Except Error Unit)} : w.After t (s.next p) u f →
      Strikes w t p s u f
  | back {i : Invocation} {after : Flow Destroying (Except Error Unit)} :
      s.next p = .invoke p i after → Strikes w t p s (w.invoke p i).1 after

theorem tearing_go {news : List Thread} (ht : w.threads[t]? = some th)
    (hv : v.threads = w.threads.set t th' ++ news) (hnews : ∀ b ∈ news, b.tears e = [])
    (i : ThreadId) : v.tearing e i = if i = t then th'.tears e else w.tearing e i := by
  have hlt := (List.getElem?_eq_some_iff.mp ht).1
  simp only [tearing, hv]
  by_cases hi : i < w.threads.length
  · rw [List.getElem?_append_left (by simpa using hi)]
    split
    · rename_i he
      subst he
      simp [hi]
    · rename_i he
      rw [List.getElem?_set_ne (Ne.symm he)]
  · rw [if_neg fun he : i = t => hi (he ▸ hlt), List.getElem?_eq_none (Nat.le_of_not_lt hi)]
    cases hb : (w.threads.set t th' ++ news)[i]? with
    | none => rfl
    | some b =>
      rw [List.getElem?_append_right (by simpa using hi)] at hb
      exact hnews b (List.mem_of_getElem? hb)

theorem staff_go {news : List Thread} (ht : w.threads[t]? = some th)
    (hv : v.threads = w.threads.set t th' ++ news)
    (hnews : ∀ b ∈ news, b.task.staffs e = false)
    (hstaff : th'.task.staffs e = true → th.task.staffs e = true) {b : Thread}
    (hb : v.threads[i]? = some b) (hs : b.task.staffs e = true) :
    ∃ a, w.threads[i]? = some a ∧ a.task.staffs e = true := by
  rw [hv] at hb
  rcases Nat.lt_or_ge i (w.threads.set t th').length with hlt | hle
  · rw [List.getElem?_append_left hlt] at hb
    by_cases hi : t = i
    · subst hi
      rw [List.getElem?_set_self (List.getElem?_eq_some_iff.mp ht).1] at hb
      obtain rfl := Option.some.inj hb
      exact ⟨th, ht, hstaff hs⟩
    · exact ⟨b, (List.getElem?_set_ne hi).symm.trans hb, hs⟩
  · rw [List.getElem?_append_right hle] at hb
    rw [hnews b (List.mem_of_getElem? hb)] at hs
    cases hs

theorem Steady.go (news : List Thread) (ht : w.threads[t]? = some th)
    (hv : v.threads = w.threads.set t th' ++ news)
    (hnews : ∀ b ∈ news, b.tears e = [] ∧ b.task.staffs e = false)
    (htears : th'.tears e = th.tears e ∨ th'.tears e = [] ∧ ∀ s ∈ th.tears e, s.rests = true)
    (hstaff : th'.task.staffs e = true → th.task.staffs e = true)
    (hends : ∀ {x : Endpoint}, w.endpoints[e]? = some x → ∃ y, v.endpoints[e]? = some y ∧
      (x.Stands y ∨ w.Abandoned e x ∧ { x with link := none }.Stands y)) : Steady w v e where
  ends := hends
  staff := staff_go ht hv (fun b hb => (hnews b hb).2) hstaff
  tearing i := by
    rw [tearing_go ht hv fun b hb => (hnews b hb).1]
    split
    · rename_i hi
      rw [hi, tearing_eq ht]
      exact htears
    · exact .inl rfl

theorem Steady.grow (news : List Thread) (hv : v.threads = w.threads ++ news)
    (hnews : ∀ b ∈ news, b.tears e = [] ∧ b.task.staffs e = false)
    (hends : ∀ {x : Endpoint}, w.endpoints[e]? = some x →
      ∃ y, v.endpoints[e]? = some y ∧ x.Stands y) : Steady w v e where
  ends hx := (hends hx).imp fun _ => And.imp_right .inl
  staff {i b} hb hs := by
    rw [hv] at hb
    rcases Nat.lt_or_ge i w.threads.length with hlt | hle
    · rw [List.getElem?_append_left hlt] at hb
      exact ⟨b, hb, hs⟩
    · rw [List.getElem?_append_right hle] at hb
      rw [(hnews b (List.mem_of_getElem? hb)).2] at hs
      cases hs
  tearing i := .inl <| by
    simp only [World.tearing, hv]
    rcases Nat.lt_or_ge i w.threads.length with hlt | hle
    · rw [List.getElem?_append_left hlt]
    · rw [List.getElem?_eq_none hle, List.getElem?_append_right hle]
      cases hb : news[i - w.threads.length]? with
      | none => rfl
      | some b => exact (hnews b (List.mem_of_getElem? hb)).1

theorem Answers.stands {α : Type} {a : Primitive α} {r : α} (h : w.Answers t a v r)
    (hs : a.strips e = false) (hf : a.founds e = false) (hx : w.endpoints[e]? = some x) :
    ∃ y, v.endpoints[e]? = some y ∧ x.Stands y := by
  have hsame : v.endpoints = w.endpoints → ∃ y, v.endpoints[e]? = some y ∧ x.Stands y :=
    fun he => ⟨x, he ▸ hx, .refl x⟩
  cases h with
  | system => exact hsame (observe_endpoints _ _)
  | @access α e' x' c s hx' hc =>
    rw [notes_endpoints]
    by_cases he : e' = e
    · subst he
      obtain rfl := Option.some.inj (hx.symm.trans hx')
      refine ⟨s.endpoint, List.getElem?_set_self (List.getElem?_eq_some_iff.mp hx).1, ?_⟩
      exact call_stands hc (by simpa [Primitive.strips] using hs)
        (by simpa [Primitive.founds] using hf)
    · exact ⟨x, (List.getElem?_set_ne he).trans hx, .refl x⟩
  | @spawn q l d =>
    have hq : q.id ≠ e := of_decide_eq_false hf
    exact ⟨x, (List.getElem?_modify_ne _ _ hq).trans hx, .refl x⟩
  | _ => exact hsame rfl

theorem invoke_stands (p : Party) (i : Invocation) (hx : w.endpoints[e]? = some x) :
    ∃ y, (w.invoke p i).1.endpoints[e]? = some y ∧ x.Stands y := by
  cases i with
  | disconnect => exact ⟨x, hx, .refl x⟩
  | resolve d job error =>
    simp only [invoke, resolve]
    split
    · simp only [modifyEndpoint, note, record, List.getElem?_modify, hx]
      split
      · exact ⟨_, rfl, rfl, rfl, rfl⟩
      · exact ⟨x, rfl, .refl x⟩
    · exact ⟨x, hx, .refl x⟩

theorem abandon_stands (th : Thread) (hx : w.endpoints[e]? = some x) :
    ∃ y, (w.abandon th).endpoints[e]? = some y ∧ x.Stands y := by
  have hput : ∀ (jobs : List Job) (x : Endpoint), x.Stands
      (jobs.foldl (fun (x : Endpoint) job => x.putReply job.serial .abandoned) x) := by
    intro jobs
    induction jobs with
    | nil => exact .refl
    | cons job jobs ih =>
      intro x
      have hfirst : x.Stands (x.putReply job.serial .abandoned) := ⟨rfl, rfl, rfl⟩
      exact hfirst.trans (ih _)
  unfold abandon
  split
  · exact ⟨x, hx, .refl x⟩
  · simp only [modifyEndpoint, List.getElem?_modify, hx]
    split
    · exact ⟨_, rfl, hput _ _⟩
    · exact ⟨x, rfl, .refl x⟩

theorem answered_news {α : Type} {a : Primitive α} {r : α} (h : w.Answers t a v r)
    (hf : a.founds e = false) : ∃ news, v.threads = w.threads ++ news ∧
      ∀ b ∈ news, b.tears e = [] ∧ b.task.staffs e = false := by
  cases h with
  | system => exact ⟨[], by simp [observe_threads], by simp⟩
  | access => exact ⟨[], by simp [(notes_same _ _).1, putEndpoint], by simp⟩
  | @spawn q l d =>
    have hq : q.id ≠ e := of_decide_eq_false hf
    refine ⟨[_], rfl, fun b hb => ?_⟩
    obtain rfl := List.mem_singleton.mp hb
    cases d <;> exact ⟨rfl, decide_eq_false hq⟩
  | _ => exact ⟨[], by simp [note, record], by simp⟩

/-- Something comes from outside. -/
theorem steady_outside {i : Input} (hi : i.outside = true) (ha : w.apply i = some v) :
    Steady w v e := by
  obtain ⟨news, hv, hnews⟩ := outside_threads hi ha
  refine .grow news hv (fun b hb => ?_) fun {x} hx => ?_
  · obtain ⟨j, hj⟩ := List.mem_iff_getElem?.mp hb
    have hnew : v.threads[w.threads.length + j]? = some b := by
      rw [hv, List.getElem?_append_right (Nat.le_add_right ..), Nat.add_sub_cancel_left, hj]
    refine ⟨(apply_new ha hnew (Nat.le_add_right ..)).tears, ?_⟩
    obtain ⟨task, rfl, hbegins⟩ := hnews b hb
    cases hbegins with
    | leaving => rfl
    | @started owner s =>
      cases s with
      | more => rfl
      | done r => exact Task.staffs_finish ..
  · cases outside_of_apply hi ha with
    | make =>
      refine ⟨x, ?_, .refl x⟩
      rw [List.getElem?_append_left (List.getElem?_eq_some_iff.mp hx).1, hx]
    | operate =>
      simp only [spawn, modifyEndpoint, List.getElem?_modify, hx]
      split
      · exact ⟨_, rfl, rfl, rfl, rfl⟩
      · exact ⟨x, rfl, .refl x⟩
    | @register e' _ _ _ _ hz =>
      by_cases he : e' = e
      · subst he
        obtain rfl := Option.some.inj (hx.symm.trans hz)
        exact ⟨_, List.getElem?_set_self (List.getElem?_eq_some_iff.mp hx).1, rfl, rfl, rfl⟩
      · exact ⟨x, (List.getElem?_set_ne he).trans hx, .refl x⟩
    | request | drop | release => exact ⟨x, hx, .refl x⟩

theorem Strikes.threads {f : Flow Destroying (Except Error Unit)} (h : Strikes w t p s u f) :
    u.threads = w.threads := by
  cases h with
  | back => exact invoke_threads _ _
  | act h =>
    cases s with
    | remove l s => exact (h.outward (Move.outward_through.mpr (removal_confined l s).1.outward)).2
    | join r t rest =>
      obtain ⟨_, ⟨rfl, -⟩, -⟩ := h
      rfl
    | fail r d s =>
      obtain ⟨g, hg, -⟩ := After.of_map h
      cases s with
      | fail => exact hg.elim
      | _ =>
        obtain ⟨_, _, -, -, -, ht, -⟩ := after_access rfl hg
        exact ht
    | _ =>
      obtain ⟨_, _, -, -, -, ht, -⟩ := after_access rfl h
      exact ht

/-- The steps of a teardown, by what they make of the endpoint and the places they lead to. -/
inductive Strides (w : World) (t : ThreadId) (u : World) (x : Endpoint) :
    Destroying → Endpoint → List Destroying → Prop
  -- somebody destroys the endpoint already
  | seen : x.stopping = true → Strides w t u x .begin { x with stopping := true } []
  | begin : x.stopping = false → Strides w t u x .begin { x with stopping := true } [.close]
  | close : Strides w t u x .close { x with stopped := true, state := .closed } [.takeLink]
  | missing : x.linkHolder = none → x.link = none →
      Strides w t u x .takeLink { x with link := none } [.takeWorkers (.ok ())]
  | takeLink {l : Link} : x.linkHolder = none → x.link = some l →
      Strides w t u x .takeLink { x with link := none } [.remove l .start]
  | remove {l : Link} {r : Link.Removal} {f : Flow Link.Removal (Except Error Unit)} :
      w.After t (r.next l) u f →
      Strides w t u x (.remove l r) x [f.elim (.remove l) .takeWorkers]
  | takeWorkers {r : Except Error Unit} : Strides w t u x (.takeWorkers r) { x with workers := [] }
      [Destroying.joining r (x.workers.filter (· ≠ t))]
  | join {r : Except Error Unit} {a : ThreadId} {rest : List ThreadId} :
      (∀ th, w.threads[a]? = some th → th.isEnded = true) →
      Strides w t u x (.join r a rest) x [Destroying.joining r rest]
  | drain {r : Except Error Unit} {d : Direction} {s : Destroying} :
      s = Destroying.failed r d ∨ (∃ job rest, s = .fail r d (.notify job rest)) →
      Strides w t u x (.fail r d .drain) (x.drain d).endpoint [s]
  | notify {r : Except Error Unit} {d : Direction} {job : Job} {rest : List Job} :
      Strides w t u x (.fail r d (.notify job rest)) x [.fail r d (.fail job rest)]
  | fail {r : Except Error Unit} {d : Direction} {job : Job} {rest : List Job}
      {replies : List (Nat × Reply)} {s : Destroying} :
      s = Destroying.failed r d ∨ (∃ job rest, s = .fail r d (.fail job rest)) →
      Strides w t u x (.fail r d (.fail job rest)) { x with replies } [s]
  | dropDisconnect {r : Except Error Unit} :
      Strides w t u x (.dropDisconnect r) { x with onDisconnect := none } []

theorem strides_act {f : Flow Destroying (Except Error Unit)} (h : w.After t (s.next p) u f)
    (hx : w.endpoints[p.id]? = some x) : ∃ y, u.endpoints[p.id]? = some y ∧
      Strides w t u x s y (Destroying.going f) := by
  have hput : ∀ {y : Endpoint}, u.endpoints = w.endpoints.set p.id y →
      u.endpoints[p.id]? = some y := fun he =>
    he ▸ List.getElem?_set_self (List.getElem?_eq_some_iff.mp hx).1
  cases s with
  | begin =>
    obtain ⟨z, sec, hz, hc, he, -, rfl⟩ := after_access rfl h
    obtain rfl := Option.some.inj (hx.symm.trans hz)
    cases hc
    refine ⟨_, hput he, ?_⟩
    split
    · rename_i hstop
      exact .seen hstop
    · rename_i hstop
      exact .begin ((Bool.not_eq_true _).mp hstop)
  | close =>
    obtain ⟨z, sec, hz, hc, he, -, rfl⟩ := after_access rfl h
    obtain rfl := Option.some.inj (hx.symm.trans hz)
    cases hc
    exact ⟨_, hput he, .close⟩
  | takeLink =>
    obtain ⟨z, sec, hz, hc, he, -, rfl⟩ := after_access rfl h
    obtain rfl := Option.some.inj (hx.symm.trans hz)
    simp only [Endpoint.call, Endpoint.underLink] at hc
    split at hc
    · cases hc
    · rename_i hfree
      cases hc
      have hfree : x.linkHolder = none := by simpa using hfree
      refine ⟨_, hput he, ?_⟩
      dsimp only
      split
      · rename_i hl
        exact .missing hfree hl
      · rename_i l hl
        exact .takeLink hfree hl
  | remove l r =>
    have he := (h.outward (Move.outward_through.mpr (removal_confined l r).1.outward)).1
    obtain ⟨g, hg, rfl⟩ := After.of_map h
    refine ⟨x, he ▸ hx, ?_⟩
    have hstride : Strides w t u x (.remove l r) x _ := .remove hg
    cases g <;> exact hstride
  | takeWorkers r =>
    obtain ⟨z, sec, hz, hc, he, -, rfl⟩ := after_access rfl h
    obtain rfl := Option.some.inj (hx.symm.trans hz)
    cases hc
    refine ⟨_, hput he, ?_⟩
    have hgoing : ∀ ts, Destroying.going (.more (Destroying.joining r ts)) =
        [Destroying.joining r ts] := fun ts => by cases ts <;> rfl
    exact hgoing _ ▸ .takeWorkers
  | join r a rest =>
    obtain ⟨_, ⟨rfl, hended⟩, rfl⟩ := h
    refine ⟨x, hx, ?_⟩
    cases rest <;> exact .join hended
  | fail r d s =>
    obtain ⟨g, hg, rfl⟩ := After.of_map h
    cases s with
    | drain =>
      obtain ⟨z, sec, hz, hc, he, -, rfl⟩ := after_access rfl hg
      obtain rfl := Option.some.inj (hx.symm.trans hz)
      cases hc
      refine ⟨_, hput he, ?_⟩
      cases hjobs : (x.drain d).answer with
      | nil => cases d <;> exact .drain (.inl rfl)
      | cons job rest => exact .drain (.inr ⟨job, rest, rfl⟩)
    | notify job rest =>
      obtain ⟨z, sec, hz, hc, he, -, rfl⟩ := after_access rfl hg
      obtain rfl := Option.some.inj (hx.symm.trans hz)
      cases hc
      exact ⟨_, hput he, .notify⟩
    | fail => exact hg.elim
  | dropDisconnect r =>
    obtain ⟨z, sec, hz, hc, he, -, rfl⟩ := after_access rfl h
    obtain rfl := Option.some.inj (hx.symm.trans hz)
    cases hc
    exact ⟨_, hput he, .dropDisconnect⟩

/-- While a teardown fails a queue, answers are left for those who wait for them. -/
theorem strides_back {i : Invocation} {f : Flow Destroying (Except Error Unit)}
    (h : s.next p = .invoke p i f) (hx : w.endpoints[p.id]? = some x) :
    ∃ y, (w.invoke p i).1.endpoints[p.id]? = some y ∧
      Strides w t (w.invoke p i).1 x s y (Destroying.going f) := by
  cases s with
  | remove l s =>
    have hacts := (removal_confined l s).2
    simp only [Destroying.next, Move.through] at h
    cases hm : s.next l <;> rw [hm] at h hacts <;> first | exact hacts.elim | cases h
  | fail r d s =>
    cases s with
    | drain | notify => cases h
    | fail job rest =>
      cases h
      have hgoing : ∃ s, Destroying.going (Flow.elim (fun s => Flow.more (.fail r d s))
          (fun _ => .more (Destroying.failed r d)) (FailPending.after rest)) = [s] ∧
          (s = Destroying.failed r d ∨ ∃ job rest, s = .fail r d (.fail job rest)) := by
        cases rest with
        | nil => cases d <;> exact ⟨_, rfl, .inl rfl⟩
        | cons job rest => exact ⟨_, rfl, .inr ⟨job, rest, rfl⟩⟩
      obtain ⟨s, hs, hcases⟩ := hgoing
      rw [hs]
      simp only [invoke, resolve]
      split
      · refine ⟨x.putReply job.serial (.delivered (.error .connectionClosed)), ?_, .fail hcases⟩
        simp [modifyEndpoint, note, record, hx]
      · have hstride : Strides w t (w.note p.id (.resolved d job (some .connectionClosed))) x
            (.fail r d (.fail job rest)) x [s] := .fail hcases
        exact ⟨x, hx, hstride⟩
  | _ => cases h

/-- A thread tears an endpoint down: the innermost call of a thread is about that and moves. -/
structure Tears (w v : World) (e : EndpointId) (t : ThreadId) (th th' : Thread) (p : Party)
    (s : Destroying) (u : World) (f : Flow Destroying (Except Error Unit)) : Prop where
  thread : w.threads[t]? = some th
  call : th.call? = some (.destroying p s)
  party : p.id = e
  strikes : Strikes w t p s u f
  world : v = u.putThread t th'
  tears : th'.tears e = Destroying.going f ++ th.below e
  staff : th'.task.staffs e = true → th.task.staffs e = true

theorem Tears.threads {f : Flow Destroying (Except Error Unit)}
    (h : Tears w v e t th th' p s u f) : v.threads = w.threads.set t th' ++ [] := by
  rw [h.world, putThread, h.strikes.threads, List.append_nil]

theorem Tears.strides {f : Flow Destroying (Except Error Unit)}
    (h : Tears w v e t th th' p s u f) (hx : w.endpoints[e]? = some x) :
    ∃ y, v.endpoints[e]? = some y ∧ Strides w t u x s y (Destroying.going f) := by
  obtain ⟨-, -, rfl, hstrikes, rfl, -, -⟩ := h
  cases hstrikes with
  | act hafter => exact strides_act hafter hx
  | back hn => exact strides_back hn hx

theorem Tears.before {f : Flow Destroying (Except Error Unit)}
    (h : Tears w v e t th th' p s u f) : w.tearing e t = s.begun ++ th.below e := by
  rw [tearing_eq h.thread, Thread.tears_eq h.call]
  simp [Call.tears, Call.destroying?, h.party]

theorem Tears.after {f : Flow Destroying (Except Error Unit)}
    (h : Tears w v e t th th' p s u f) (i : ThreadId) : v.tearing e i =
      if i = t then Destroying.going f ++ th.below e else w.tearing e i := by
  rw [tearing_go h.thread h.threads (by simp), h.tears]

theorem Connects.aside {c : Connecting} (h : Connects w v e t th th' c u) (hs : th.Shaped) :
    th.tears e = [] ∧ th'.tears e = [] ∧ (th'.task.staffs e = true → th.task.staffs e = true) := by
  obtain ⟨hnone, hinto⟩ := hs.connecting_tears h.place
  exact ⟨hnone, h.after.into hinto, h.after.into th.next_staffs⟩

theorem destroys_or (e : EndpointId) (th : Thread) :
    (∀ c, th.call? = some c → c.destroying? e = none) ∨
      ∃ p s, p.id = e ∧ th.call? = some (.destroying p s) := by
  cases hc : th.call? with
  | none => exact .inl fun _ h => by cases h
  | some c =>
    cases c with
    | destroying p s =>
      by_cases hp : p.id = e
      · exact .inr ⟨p, s, hp, rfl⟩
      · exact .inl fun _ h => Option.some.inj h ▸ if_neg hp
    | _ => exact .inl fun _ h => Option.some.inj h ▸ rfl

/-- Somebody parts from an endpoint. -/
theorem steady_parting {α : Type} {a : Primitive α} {next : α → Thread} {r : α}
    {news : List Thread} (ht : w.threads[t]? = some th) (hn : th.next = .perform a next)
    (hans : w.Answers t a u r) (hp : th.parting e = true)
    (hv : (u.putThread t (next r)).threads = w.threads.set t (next r) ++ news)
    (hnews : ∀ b ∈ news, b.tears e = [] ∧ b.task.staffs e = false) :
    Steady w (u.putThread t (next r)) e := by
  obtain ⟨-, next', hnext, -⟩ := Thread.next_parting hp
  have hleft : ∀ a, (next' a).tears e = th.tears e := by
    obtain ⟨o, task, cs⟩ := th
    unfold Thread.parting at hp
    split at hp
    · rename_i e' out hcs htask
      simp only at hcs htask
      subst hcs htask
      obtain rfl : e' = e := of_decide_eq_true hp
      cases hnext
      intro a
      cases a <;> rfl
    · cases hp
  have hstaff := th.next_staffs (e := e)
  rw [hn] at hstaff
  cases hnext.symm.trans hn
  obtain ⟨z, sec, hz, hsec, rfl, rfl⟩ := hans.answered
  refine .go news ht hv hnews (.inl (hleft _)) (hstaff _) fun {x} hx => ?_
  obtain rfl := Option.some.inj (hx.symm.trans hz)
  refine ⟨sec.endpoint, ?_, ?_⟩
  · show (sec.notes.foldl (·.note e ·) (w.putEndpoint e sec.endpoint)).endpoints[e]? = _
    rw [notes_endpoints]
    exact List.getElem?_set_self (List.getElem?_eq_some_iff.mp hx).1
  · simp only [Endpoint.call] at hsec
    split at hsec
    · rename_i hone
      cases hsec
      exact .inr ⟨⟨hone, th, List.mem_of_getElem? ht, hp⟩, rfl, rfl, rfl⟩
    · cases hsec
      exact .inl ⟨rfl, rfl, rfl⟩

theorem steady_act {α : Type} {a : Primitive α} {next : α → Thread} {r : α}
    (ht : w.threads[t]? = some th) (hs : th.Shaped) (hc : th.connecting? e = none)
    (hn : th.next = .perform a next) (hans : w.Answers t a u r) :
    Steady w (u.putThread t (next r)) e ∨
      ∃ p s f, Tears w (u.putThread t (next r)) e t th (next r) p s u f := by
  have hstaff := th.next_staffs (e := e)
  have htame := hs.notFounding hc
  rw [hn] at hstaff htame
  obtain ⟨news, hv, hnews⟩ := answered_news hans htame
  have hput : (u.putThread t (next r)).threads = w.threads.set t (next r) ++ news := by
    simp only [putThread, hv, List.set_append_left _ _ (List.getElem?_eq_some_iff.mp ht).1]
  obtain hd | ⟨p, s, rfl, hcall⟩ := destroys_or e th
  · cases hp : th.parting e with
    | true => exact .inl (steady_parting ht hn hans hp hput hnews)
    | false =>
      have hbypass := hs.bypasses hd hc hp
      rw [hn] at hbypass
      exact .inl (.go news ht hput hnews (.inl (hbypass.2 r)) (hstaff r) fun hx =>
        (hans.stands hbypass.1 htame hx).imp fun _ => And.imp_right .inl)
  · obtain ⟨f, hnext, htears, hkeep⟩ := Thread.next_destroying hcall
    have hafter : w.After t th.next u (next r) := by
      rw [hn]
      exact ⟨r, hans.answered, rfl⟩
    rw [hnext] at hafter
    obtain ⟨g, hg, he⟩ := After.of_map hafter
    exact .inr ⟨p, s, g, ht, hcall, rfl, .act hg, rfl, he ▸ htears g, fun h => hkeep _ g (he ▸ h)⟩

theorem destroying_invokes {q : Party} {i : Invocation}
    {f : Flow Destroying (Except Error Unit)} (h : s.next q = .invoke p i f) : q = p := by
  cases s with
  | remove l s =>
    have hacts := (removal_confined l s).2
    simp only [Destroying.next, Move.through] at h
    cases hm : s.next l <;> rw [hm] at h hacts <;> first | exact hacts.elim | cases h
  | fail r d s =>
    cases s with
    | fail => exact ((Move.invoke.injEq ..).mp h).1
    | _ => cases h
  | _ => cases h

/-- A thread gives something back. -/
theorem steady_invoke {i : Invocation} {after : Thread} (ht : w.threads[t]? = some th)
    (hs : th.Shaped) (hc : th.connecting? e = none) (hn : th.next = .invoke p i after) :
    Steady w ((w.invoke p i).1.putThread t (after.push (w.invoke p i).2)) e ∨
      ∃ p' s f, Tears w ((w.invoke p i).1.putThread t (after.push (w.invoke p i).2)) e t th
        (after.push (w.invoke p i).2) p' s (w.invoke p i).1 f := by
  have hstaff := th.next_staffs (e := e)
  have hnew : ∀ b ∈ (w.invoke p i).2, b.tears e = [] := fun b hb => by
    obtain ⟨_, _, _, _, hstart⟩ := invoke_starts hb
    exact start_tears hstart
  have hput : ((w.invoke p i).1.putThread t (after.push (w.invoke p i).2)).threads =
      w.threads.set t (after.push (w.invoke p i).2) ++ [] := by
    simp [putThread, invoke_threads]
  obtain hd | ⟨q, s, rfl, hcall⟩ := destroys_or e th
  · have hparting : th.parting e = false := by
      by_contra hp
      obtain ⟨-, next, hnext, -⟩ := Thread.next_parting ((Bool.not_eq_false _).mp hp)
      cases hn.symm.trans hnext
    have hbypass := hs.bypasses hd hc hparting
    rw [hn] at hbypass hstaff
    have htears : (after.push (w.invoke p i).2).tears e = th.tears e :=
      (Thread.tears_push hnew).trans hbypass
    exact .inl (.go [] ht hput (by simp) (.inl htears) hstaff fun hx =>
      (invoke_stands p i hx).imp fun _ => And.imp_right .inl)
  · obtain ⟨f, hnext, htears, hkeep⟩ := Thread.next_destroying hcall
    rw [hn] at hnext
    cases hm : s.next q with
    | invoke p' i' after' =>
      rw [hm] at hnext
      cases hnext
      obtain rfl := destroying_invokes hm
      exact .inr ⟨q, s, after', ht, hcall, rfl, .back hm, rfl,
        (Thread.tears_push hnew).trans (htears after'), fun h => hkeep _ after' h⟩
    | perform | panic | halt =>
      rw [hm] at hnext
      cases hnext

theorem steady_panic (ht : w.threads[t]? = some th) (hcov : th.Covered) (hn : th.next = .panic) :
    Steady w (w.panic t th) e := by
  have hput : (w.panic t th).threads = w.threads.set t th.unwound ++ [] := by simp [panic_threads]
  refine .go [] ht hput (by simp)
    (.inr ⟨by simp [Thread.tears, Thread.unwound], fun s => hcov.panics hn⟩) (fun h => ?_)
    fun hx => (abandon_stands th hx).imp fun _ => And.imp_right .inl
  simp [Thread.unwound] at h

/-- Whatever happens, somebody connects an endpoint or nobody does; in the latter case it stands, or
somebody tears it down. -/
theorem Atom.steady_or (hk : w.Keeps e) (hcov : ∀ th ∈ w.threads, th.Covered)
    (ha : Atom allowed w v) :
    (Passes w v e ∧ (Steady w v e ∨ ∃ t th th' p s u f, Tears w v e t th th' p s u f)) ∨
      ∃ t th th' s u, Connects w v e t th th' s u := by
  cases ha with
  | @act t th α a next u r ht hn hans =>
    have hs := hk.shaped th (List.mem_of_getElem? ht)
    cases hc : th.connecting? e with
    | some s => exact .inr ⟨t, th, _, s, u, connects_act ht hs hc hn hans⟩
    | none =>
      exact .inl ⟨passes_act ht hs hc hn hans, (steady_act ht hs hc hn hans).imp_right
        fun ⟨p, s, f, h⟩ => ⟨t, th, _, p, s, u, f, h⟩⟩
  | @invoke t th p i after ht hn =>
    have hs := hk.shaped th (List.mem_of_getElem? ht)
    cases hc : th.connecting? e with
    | none =>
      exact .inl ⟨passes_invoke ht hc hn, (steady_invoke ht hs hc hn).imp_right
        fun ⟨p, s, f, h⟩ => ⟨t, th, _, p, s, _, f, h⟩⟩
    | some s =>
      have hacts := connecting_performs hs hc
      rw [hn] at hacts
      exact hacts.elim
  | @panic t th ht hn =>
    have hm := List.mem_of_getElem? ht
    cases hc : th.connecting? e with
    | none =>
      exact .inl ⟨passes_panic ht (hk.shaped th hm) hc, .inl (steady_panic ht (hcov th hm) hn)⟩
    | some s =>
      have hacts := connecting_performs (hk.shaped th hm) hc
      rw [hn] at hacts
      exact hacts.elim
  | outside _ hi ha => exact .inl ⟨passes_outside hi ha, .inl (steady_outside hi ha)⟩
  | settle ha =>
    exact .inl ⟨passes_settle ha, .inl (.grow [] (by simp [ha.threads]) (by simp) fun {x} hx =>
      ⟨x, ha.endpoints ▸ hx, .refl x⟩)⟩

end World

end QueuePair
