import QueuePair.Proofs.Idle
import QueuePair.Proofs.Pair.Receding

namespace QueuePair

open World

def Primitive.releases {α : Type} : Primitive α → Bool
  | .endpoint _ c => c.releases
  | _ => false

theorem tally_congr {f g : Thread → Nat} {ths ths' : List Thread} (hl : ths.length = ths'.length)
    (h : ∀ (i : ThreadId) a b, ths[i]? = some a → ths'[i]? = some b → f a = g b) :
    tally f ths = tally g ths' := by
  have hmap : ths.map f = ths'.map g := by
    refine List.ext_getElem (by simpa using hl) fun i hi hi' => ?_
    simp only [List.length_map] at hi hi'
    simpa using h i _ _ (List.getElem?_eq_getElem hi) (List.getElem?_eq_getElem hi')
  rw [tally, tally, hmap]

/-- A thread takes a step. -/
def Input.Steps : Input → Prop
  | .run _ => True
  | _ => False

instance : DecidablePred Input.Steps
  | .run _ => .isTrue trivial
  | .expire _ | .make _ | .operate .. | .request _ | .drop _ | .register .. | .release _ =>
    .isFalse fun h => h

theorem World.Queued.step {v u : World} {t : ThreadId} (hq : v.Queued) (hs : v.step t = some u) :
    u.Queued :=
  (show World.Steps (fun _ => True) v u ∧ u.Queued from step_spec hq hs).2

/-- Whoever panicked stays so. -/
theorem World.Harmed.atom {u v : World} {e : EndpointId} {allowed : Input → Prop} (h : v.Harmed e)
    (hno : ∀ i, ¬ allowed i) (ha : Atom allowed v u) : u.Harmed e := by
  cases ha with
  | @act t th α p next w a ht hn hans =>
    have hinto := th.next_into
    rw [hn] at hinto
    have hset : ({ v with threads := v.threads.set t (next a) } : World).Harmed e :=
      h.set ht rfl ⟨(hinto a).1, (hinto a).2⟩
    obtain ⟨b, hb, ho, hp⟩ := hset
    refine ⟨b, ?_, ho, hp⟩
    have hlt := (List.getElem?_eq_some_iff.mp ht).1
    rcases hans.threads_cases with hw | ⟨q, l, d, hw⟩
    · simpa [putThread, hw] using hb
    · simp only [putThread, hw, List.set_append_left _ _ hlt]
      exact List.mem_append_left _ hb
  | @invoke t th p i after ht hn =>
    have hinto := th.next_into
    rw [hn] at hinto
    have hset : ((v.invoke p i).1.putThread t (after.push (v.invoke p i).2)).threads =
        v.threads.set t (after.push (v.invoke p i).2) := by
      rw [putThread, invoke_threads]
    exact h.set ht hset ⟨hinto.1, hinto.2⟩
  | @panic t th ht hn =>
    exact h.set ht (panic_threads t th) ⟨rfl, fun _ => th.unwound_panicked⟩
  | outside hi => exact absurd hi (hno _)
  | settle ha =>
    obtain ⟨b, hb, hw⟩ := h
    exact ⟨b, ha.threads ▸ hb, hw⟩

theorem World.Harmed.step {u v : World} {e : EndpointId} (h : v.Harmed e) (hq : v.Queued)
    (hstep : v.step t = some u) : u.Harmed e := by
  obtain ⟨hsteps, -⟩ : World.Steps (fun _ => False) v u ∧ u.Queued := step_spec hq hstep
  have hatoms := hsteps.atoms
  clear hstep hsteps
  induction hatoms with
  | refl => exact h
  | tail _ ha ih => exact ih.atom (fun _ => id) ha

theorem World.Harmed.run {u v : World} {e : EndpointId} (h : v.Harmed e) (hq : v.Queued)
    (hr : Run Input.Steps v u) : u.Harmed e := by
  induction hr with
  | refl => exact h
  | @step _ _ i hr hi ha ih =>
    cases i with
    | run t => exact ih.step (hr.queued hq) ha
    | _ => exact hi.elim

/-- What the steps of threads keep, as long as nobody is lost, holds all along a run in which nobody
is. -/
theorem World.Run.unharmed {v u : World} {m : World → Prop} (hr : Run Input.Steps v u)
    (hq : v.Queued) (hv : m v)
    (hstep : ∀ {w u : World} {t : ThreadId}, Run Input.Steps v w → m w → (∀ e, ¬ w.Harmed e) →
      w.step t = some u → (∀ e, ¬ u.Harmed e) → m u)
    (hharm : ∀ e, ¬ u.Harmed e) : m u := by
  induction hr with
  | refl => exact hv
  | @step _ _ i hr hi ha ih =>
    cases i with
    | run t =>
      have hbefore := fun e he => hharm e (World.Harmed.step he (hr.queued hq) ha)
      exact hstep hr (ih hbefore) hbefore ha hharm
    | _ => exact hi.elim

namespace World.Recedes

variable {u v w : World}

theorem refl (v : World) : v.Recedes v :=
  ⟨fun _ _ h => h, fun _ h => h⟩

theorem trans (h : w.Recedes v) (h' : v.Recedes u) : w.Recedes u :=
  ⟨fun set s hs => h.sheds set s (h'.sheds set s hs), fun ev hev => h'.history ev
    (h.history ev hev)⟩

theorem put (v : World) (t : ThreadId) (th : Thread) : v.Recedes (v.putThread t th) :=
  ⟨fun _ _ h => h, fun _ h => h⟩

end World.Recedes

namespace Teardown

variable (T : Teardown)

structure Frozen (s : Role) (v : World) : Prop where
  kernel : v.kernel = T.before.kernel
  released : v.released = T.before.released
  ends : ∀ x, v.endpoints[T.pair.id s]? = some x → ∃ y, T.before.endpoints[T.pair.id s]? = some y ∧
    x.linkHolder = y.linkHolder ∧ x.replies = y.replies
  threads : ∀ {i : ThreadId} {th : Thread}, i ≠ T.thread → v.threads[i]? = some th →
    th.task.owner? = some (T.pair.id s) → T.before.threads[i]? = some th

/-- What a step of a thread of one side makes of the world, the thread itself apart. -/
structure SideStep (s : Role) (th : Thread) (v u : World) : Prop where
  recedes : v.Recedes u
  released : u.released = v.released
  kernel : T.Cut u .gate ∨ u.kernel = v.kernel
  elsewhere : ∀ q, q ≠ s → u.endpoints[T.pair.id q]? = v.endpoints[T.pair.id q]?
  ends : ∀ x, v.endpoints[T.pair.id s]? = some x → ∃ y, u.endpoints[T.pair.id s]? = some y ∧
    T.EndFades s y ∧ (y.owners + if th.leaves then 1 else 0) = x.owners ∧
    (th.task.takesLink = false → y.link = x.link)
  movedOn : ∀ {i : ThreadId} {th' : Thread}, u.threads[i]? = some th' →
    ∃ a, v.threads[i]? = some a ∧ MovedOn (T.pair.id s) u.kernel a th'
  length : u.threads.length = v.threads.length
  history : ∃ evs, u.history = evs ++ v.history ∧ ∀ ev ∈ evs, ev.Fails

/-- A pair of which one side was closed and is torn down. Every step leads every thread towards its
end; until the mailbox is removed the other side cannot take a step. -/
structure Sinks (v : World) : Prop where
  sheds : T.before.kernel.Sheds v.kernel
  history : ∃ evs, v.history = evs ++ T.before.history ∧ ∀ ev ∈ evs, ev.Fails
  queued : v.Queued
  there : T.thread < v.threads.length
  threads : ∀ {i : ThreadId} {th : Thread}, v.threads[i]? = some th →
    ∃ s, T.Fades s i v th ∧ (i = T.thread → s = T.side)
  ends : ∀ s, ∃ x, v.endpoints[T.pair.id s]? = some x ∧ T.EndFades s x
  owners : ∀ s x, v.endpoints[T.pair.id s]? = some x →
    tally (T.pair.due · (.owner s)) v.threads + 1 = x.owners
  link : ∀ {x : Endpoint} {th : Thread}, v.endpoints[T.pair.id T.side]? = some x →
    v.threads[T.thread]? = some th → th.task.takesLink = true →
    ∃ l, x.link = some l ∧ T.pair.Bound T.before.kernel T.side l
  frozen : T.Cut v .gate ∨ T.Frozen T.side.peer v

variable {T} {s q : Role} {i t : ThreadId} {v u : World} {th th' : Thread} {x : Endpoint}

theorem Fades.owner (h : T.Fades s t v th) :
    th.task.owner? = some (T.pair.id s) ∨ ∃ out, th.task = .ended out := by
  have htask := h.task
  obtain ⟨o, task, cs⟩ := th
  cases task with
  | sender | receiver => exact .inl (congrArg some (congrArg Party.id htask.1))
  | call => exact .inl htask.1
  | leaving => exact .inl (congrArg some htask.1)
  | ended out => exact .inr ⟨out, rfl⟩

theorem Fades.side (h : T.Fades s t v th) (ho : th.task.owner? = some (T.pair.id q)) : s = q := by
  rcases h.owner with hs | ⟨out, hout⟩
  · exact Pair.id_inj.mp (Option.some.inj (hs.symm.trans ho))
  · rw [hout] at ho
    cases ho

theorem Fades.leaving (h : T.Fades s t v th) (hl : th.leaves = true) :
    ∃ o out, th = ⟨o, .leaving (T.pair.id s) .release out, []⟩ := by
  have htask := h.task
  obtain ⟨o, task, cs⟩ := th
  simp only [Thread.leaves, Bool.and_eq_true, List.isEmpty_iff] at hl
  obtain ⟨hl, rfl⟩ := hl
  cases task with
  | leaving e a out =>
    obtain ⟨rfl, rfl, -⟩ := htask
    exact ⟨o, out, rfl⟩
  | _ => cases hl

theorem Fades.taking (h : T.Fades s t v th) (hk : th.task.takesLink = true) :
    s = T.side ∧ t = T.thread := by
  have htask := h.task
  obtain ⟨o, task, cs⟩ := th
  cases task with
  | call o c =>
    cases c with
    | destroying p a => exact ⟨htask.2.1.2.1, htask.2.1.2.2.1⟩
    | _ => cases hk
  | _ => cases hk

theorem Fades.releases {α : Type} {p : Primitive α} {next : α → Thread} (h : T.Fades s t v th)
    (hn : th.next = .perform p next) : p.releases = th.leaves := by
  have hebbs := h.honours (.refl v)
  rw [hn] at hebbs
  cases hl : th.leaves with
  | false =>
    by_contra hp
    rw [Bool.not_eq_false] at hp
    cases p with
    | endpoint e c =>
      cases c with
      | release =>
        have hleaves : th.leaves = true := hebbs.1.2
        rw [hl] at hleaves
        cases hleaves
      | _ => cases hp
    | _ => cases hp
  | true =>
    obtain ⟨o, out, rfl⟩ := h.leaving hl
    cases hn
    rfl

theorem MovedOn.fades {e : EndpointId} (h : T.Fades s i u th) (hn : MovedOn e u.kernel th th') :
    T.Fades s i u th' ∧ th'.task.owner? = th.task.owner? ∧
      (th'.task.takesLink = true → th.task.takesLink = true) := by
  cases hn with
  | same => exact ⟨h, rfl, id⟩
  | woken hnext =>
    have hebbs := h.honours (.refl u)
    rw [hnext] at hebbs
    have hgo := hebbs.2 .notified rfl
    refine ⟨hgo.fades, ?_, fun hk => ?_⟩
    · rw [hgo.owner, ← h.releases hnext]
      rfl
    · rw [hgo.takes] at hk
      cases hk
  | failed hnext =>
    have hebbs := h.honours (.refl u)
    rw [hnext] at hebbs
    have hgo := hebbs.2 (.error .connectionClosed) rfl
    refine ⟨hgo.fades, ?_, fun hk => ?_⟩
    · rw [hgo.owner, ← h.releases hnext]
      rfl
    · rw [hgo.takes] at hk
      cases hk

theorem Frozen.refuses {α : Type} {p : Primitive α} {lc : Licence} (h : T.Frozen s v)
    (hi : i ≠ T.thread) (hh : v.kernel.holds i = false) (ha : T.Asks s i v lc p)
    (hst : T.before.Refuses i p) : v.perform i p = .refused := by
  cases p with
  | system c =>
    cases c with
    | change set changes d =>
      obtain ⟨a, hlive, -⟩ := hst
      rw [← h.kernel, gone_of_waitsWhileLive ha hh] at hlive
      cases hlive
    | _ => exact hst.elim
  | endpoint e c =>
    obtain ⟨rfl, -⟩ := ha
    simp only [perform]
    cases hx : v.endpoints[T.pair.id s]? with
    | none => rfl
    | some x =>
      obtain ⟨y, hy, hholder, hreplies⟩ := h.ends x hx
      have hnone : y.call i c = none := by simpa [Refuses, hy] using hst
      simp [call_none hholder hreplies hnone]
  | park => rfl
  | join b => exact absurd ha.2 hi
  | hold id =>
    have hno : T.before.released.contains id = false := hst
    simp only [perform, h.released, hno, Bool.false_eq_true, if_false]
  | clock | note => exact hst.elim
  | spawn => exact ha.elim

theorem Frozen.stuck (h : T.Frozen s v) (hi : i ≠ T.thread) (ht : v.threads[i]? = some th)
    (hf : T.Fades s i v th) : v.step i = none := by
  simp only [step, ht]
  split
  · rfl
  · rename_i hh
    rcases hf.owner with ho | ⟨out, hout⟩
    · have hst := T.idle.stands T.queued (h.threads hi ht ho)
      have hebbs := hf.honours (.refl v)
      cases hn : th.next with
      | perform p next =>
        rw [hn] at hst hebbs
        simp [h.refuses hi (by simpa using hh) hebbs.1 hst]
      | invoke | panic =>
        rw [hn] at hst
        exact hst.elim
      | halt => rfl
    · obtain ⟨o, task, cs⟩ := th
      cases hout
      cases cs with
      | nil => rfl
      | cons =>
        have ho := (hf.beneath (by simp)).owner
        cases ho

theorem Ripples.history {α : Type} {p : Primitive α} {a : α} {lc : Licence}
    (h : T.Ripples s t lc v p u a) :
    ∃ evs, u.history = evs ++ v.history ∧ ∀ ev ∈ evs, ev.Fails ∧ ∀ e, ev.parts e = false := by
  cases h with
  | access hm hx hc =>
    refine ⟨_, accessed_history, fun ev hev => ?_⟩
    obtain ⟨n, hn, rfl⟩ := List.mem_map.mp hev
    exact call_fails hm hc _ n (List.mem_reverse.mp hn)
  | @note n hn =>
    refine ⟨[.noted (T.pair.id s) n], rfl, fun ev hev => ?_⟩
    obtain rfl := List.mem_singleton.mp hev
    cases n with
    | acted => exact ⟨trivial, fun _ => rfl⟩
    | _ => cases hn
  | _ => exact ⟨[], rfl, fun _ hev => by cases hev⟩

theorem Ripples.sideStep {α : Type} {p : Primitive α} {a : α}
    (h : T.Ripples s t (licence th) v p u a) (hq : v.Queued) (hp : p.releases = th.leaves)
    (hx : v.endpoints[T.pair.id s]? = some x) (hf : T.EndFades s x)
    (ho : th.leaves = true → 2 ≤ x.owners) : T.SideStep s th v u := by
  obtain ⟨evs, hevs, hfails⟩ := h.history
  refine ⟨h.recedes, h.released, h.kernel, fun q hne => h.elsewhere hne, fun y hy => ?_,
    fun hi => h.movedOn hq hi, h.length, evs, hevs, fun ev hev => (hfails ev hev).1⟩
  obtain rfl := Option.some.inj (hx.symm.trans hy)
  have hsame : th.leaves = false → ∃ y, v.endpoints[T.pair.id s]? = some y ∧ T.EndFades s y ∧
      (y.owners + if th.leaves then 1 else 0) = x.owners ∧
      (th.task.takesLink = false → y.link = x.link) := fun hl =>
    ⟨x, hx, hf, by simp [hl], fun _ => rfl⟩
  cases h with
  | @access α c z sec hm hz hc =>
    obtain rfl := Option.some.inj (hx.symm.trans hz)
    have hlt := (List.getElem?_eq_some_iff.mp hx).1
    have howners : th.leaves = true → x.owners ≠ 1 := fun hl => by
      have htwo := ho hl
      omega
    refine ⟨sec.endpoint, by simp [List.getElem?_set_self hlt], hf.call hm hc, ?_, fun hk =>
      call_link hm hc (fun h : th.task.takesLink = true => by simp [hk] at h) howners⟩
    cases hl : th.leaves with
    | false => simpa using (call_frame hc).1 (hp.trans hl)
    | true =>
      cases c with
      | release =>
        have htwo := ho hl
        simp only [Endpoint.call, if_neg (howners hl)] at hc
        cases hc
        show x.owners - 1 + 1 = x.owners
        omega
      | _ => cases hp.trans hl
  | _ => exact hsame hp.symm

theorem Ripples.hears {α : Type} {p : Primitive α} {a : α}
    (h : T.Ripples s t (licence th) v p u a) (hx : v.endpoints[T.pair.id s]? = some x)
    (hf : T.EndFades s x) (ho : th.leaves = true → 2 ≤ x.owners)
    (hcut : s ≠ T.side → T.Cut v .gate) (hlink : th.task.takesLink = true →
      ∃ l, x.link = some l ∧ T.pair.Bound T.before.kernel T.side l) : T.Hears s u p a := by
  cases h with
  | gone => rfl
  | absent hnone => exact hnone
  | remove hlive =>
    show (v.removed _ _).kernel.live? _ = none
    rw [live?_removed hlive, if_pos rfl]
  | access hm hz hc =>
    obtain rfl := Option.some.inj (hx.symm.trans hz)
    refine hf.hears_of_call hm hc hcut (fun hl => ?_) hlink
    have htwo := ho hl
    omega
  | _ => trivial

theorem sideStep_of_record {ev : Event} {y : Endpoint} (hx : v.endpoints[T.pair.id s]? = some x)
    (hl : th.leaves = false)
    (ht : u.threads = v.threads) (hk : u.kernel = v.kernel) (hr : u.released = v.released)
    (he : u.endpoints = v.endpoints.set (T.pair.id s) y) (hh : u.history = ev :: v.history)
    (hy : T.EndFades s y) (ho : y.owners = x.owners) (hlink : y.link = x.link) (hev : ev.Fails) :
    T.SideStep s th v u where
  recedes := ⟨fun _ _ h => hk ▸ h, fun _ h => hh ▸ List.mem_cons_of_mem _ h⟩
  released := hr
  kernel := .inr hk
  elsewhere q hq := by
    rw [he, List.getElem?_set_ne fun hid => hq (Pair.id_inj.mp hid).symm]
  ends z hz := by
    obtain rfl := Option.some.inj (hx.symm.trans hz)
    have hlt := (List.getElem?_eq_some_iff.mp hx).1
    exact ⟨y, by rw [he, List.getElem?_set_self hlt], hy, by simp [hl, ho], fun _ => hlink⟩
  movedOn {i th'} hi := ⟨th', ht ▸ hi, .same⟩
  length := congrArg List.length ht
  history := ⟨[ev], hh, fun ev' hev' => List.mem_singleton.mp hev' ▸ hev⟩

theorem invoke_sideStep {p : Party} {i : Invocation} (hg : T.Gives s p i)
    (hx : v.endpoints[T.pair.id s]? = some x) (hf : T.EndFades s x) (hl : th.leaves = false) :
    T.SideStep s th v (v.invoke p i).1 := by
  have hsame := (set_of_getElem? hx).symm
  cases i with
  | disconnect script =>
    obtain ⟨rfl, -⟩ := hg
    exact sideStep_of_record hx hl rfl rfl rfl hsame rfl hf rfl rfl trivial
  | resolve d job error =>
    obtain ⟨rfl, -, rfl⟩ := hg
    obtain ⟨n, data, handler⟩ := job
    cases handler with
    | callbacks => exact sideStep_of_record hx hl rfl rfl rfl hsame rfl hf rfl rfl rfl
    | caller =>
      refine sideStep_of_record hx hl rfl rfl rfl (modify_of_getElem? hx) rfl
        ⟨hf.holder, hf.stopping, hf.closed, hf.script, hf.jobs, fun a ha => ?_⟩
        rfl rfl rfl
      rcases List.mem_append.mp ha with ha | ha
      · exact hf.replies a ha
      · obtain rfl := List.mem_singleton.mp ha
        exact .inl rfl

theorem invoke_callback {p : Party} {i : Invocation} {c : Callback} (hg : T.Gives s p i)
    (hc : (v.invoke p i).2 = some c) : T.CallbackFades s c := by
  cases i with
  | resolve d job error =>
    obtain ⟨rfl, hj, rfl⟩ := hg
    obtain ⟨n, data, handler⟩ := job
    cases handler with
    | caller => cases hc
    | callbacks id onDone onError =>
      obtain ⟨a, ha, rfl⟩ := Option.map_eq_some_iff.mp hc
      have hboth : Script.peaceful onDone = true ∧ Script.peaceful onError = true := by
        simpa [Handler.peaceful] using hj
      exact callback_fades hboth.2 rfl ha
  | disconnect script =>
    obtain ⟨rfl, -, hscript⟩ := hg
    obtain ⟨a, ha, rfl⟩ := Option.map_eq_some_iff.mp hc
    exact callback_fades hscript rfl ha
theorem ThreadStep.due (hgo : T.ThreadStep s t u th th') (h : T.Fades s t v th) (q : Role) :
    T.pair.due th' (.owner q) + (if q = s ∧ th.leaves = true then 1 else 0) =
      T.pair.due th (.owner q) := by
  simp only [Pair.due, hgo.owner]
  cases hl : th.leaves with
  | false => simp
  | true =>
    obtain ⟨o, out, rfl⟩ := h.leaving hl
    simp only [Task.owner?]
    by_cases hq : q = s
    · simp [hq]
    · have hne : T.pair.id s ≠ T.pair.id q := fun he => hq (Pair.id_inj.mp he).symm
      simp [hq, hne]

/-- Nobody but the destroying side goes on while the other side cannot, and it leaves the other
side as it is. -/
theorem Frozen.go (h : T.Frozen T.side.peer v) (hv : ∀ {i : ThreadId} {th : Thread}, i ≠ T.thread →
    v.threads[i]? = some th → ∃ q, T.Fades q i v th) (hs : s = T.side)
    (hsw : T.SideStep s th v u) (hk : u.kernel = v.kernel) (hgo : T.Fades s t u th') :
    T.Frozen T.side.peer (u.putThread t th') where
  kernel := hk.trans h.kernel
  released := hsw.released.trans h.released
  ends x hx := by
    have hne : T.side.peer ≠ s := by
      rw [hs]
      cases T.side <;> decide
    exact h.ends x ((hsw.elsewhere _ hne).symm.trans hx)
  threads {i thi} hi hthi ho := by
    have hne : T.side.peer ≠ T.side := by cases T.side <;> decide
    by_cases hit : i = t
    · subst hit
      have hlt : i < (u.threads.set i th').length := (List.getElem?_eq_some_iff.mp hthi).1
      have hthi' : (u.threads.set i th')[i]? = some thi := hthi
      rw [List.getElem?_set_self (by simpa using hlt)] at hthi'
      obtain rfl := Option.some.inj hthi'
      exact absurd ((hgo.side ho).symm.trans hs) hne
    · have hu : u.threads[i]? = some thi := by
        rwa [World.putThread, List.getElem?_set_ne (Ne.symm hit)] at hthi
      obtain ⟨a, ha, hnudge⟩ := hsw.movedOn hu
      obtain ⟨q, hfa⟩ := hv hi ha
      have hoa : a.task.owner? = some (T.pair.id T.side.peer) := by
        rw [← (hnudge.fades (hfa.mono hsw.recedes)).2.1]
        exact ho
      have hold := h.threads hi ha hoa
      obtain rfl := hfa.side hoa
      have hebbs := hfa.honours (.refl v)
      cases hnudge with
      | same => exact hold
      | woken hn =>
        rw [hn] at hebbs
        have hpark : T.pair.id s = T.pair.id T.side.peer := hebbs.1
        exact absurd ((Pair.id_inj.mp hpark).symm.trans hs) hne
      | failed hn hnone =>
        have hst := T.idle.stands T.queued hold
        rw [hn] at hst
        obtain ⟨b, hlive, -⟩ := hst
        rw [hk, h.kernel, hlive] at hnone
        cases hnone

/-- The owners of an endpoint are one less when a thread leaves it. Whoever was moved on besides
owes what it owed. -/
theorem Sinks.owners_go {y : Endpoint} (h : T.Sinks v) (ht : v.threads[t]? = some th)
    (hf : T.Fades s t v th) (hsw : T.SideStep s th v u) (hgo : T.ThreadStep s t u th th')
    (hy : u.endpoints[T.pair.id q]? = some y) :
    tally (T.pair.due · (.owner q)) (u.threads.set t th') + 1 = y.owners := by
  obtain ⟨x, hx, -⟩ := h.ends q
  have hown := h.owners q x hx
  obtain ⟨a, ha⟩ : ∃ a, u.threads[t]? = some a :=
    ⟨_, List.getElem?_eq_getElem (hsw.length ▸ (List.getElem?_eq_some_iff.mp ht).1)⟩
  have hdue : ∀ (i : ThreadId) b c, u.threads[i]? = some b → v.threads[i]? = some c →
      T.pair.due b (.owner q) = T.pair.due c (.owner q) := by
    intro i b c hb hc
    obtain ⟨c', hc', hnudge⟩ := hsw.movedOn hb
    obtain rfl := Option.some.inj (hc.symm.trans hc')
    obtain ⟨q', hfc, -⟩ := h.threads hc
    simp only [Pair.due, (hnudge.fades (hfc.mono hsw.recedes)).2.1]
  have hall := tally_congr (f := (T.pair.due · (.owner q))) hsw.length hdue
  have hset := tally_set (f := (T.pair.due · (.owner q))) ha th'
  have hself := hdue t a th ha ht
  have hgone := hgo.due hf q
  have hends : (y.owners + if q = s ∧ th.leaves = true then 1 else 0) = x.owners := by
    by_cases hqs : q = s
    · subst hqs
      obtain ⟨y', hy', -, hless, -⟩ := hsw.ends x hx
      obtain rfl := Option.some.inj (hy.symm.trans hy')
      simpa using hless
    · obtain rfl := Option.some.inj (hy.symm.trans ((hsw.elsewhere q hqs).trans hx))
      simp [hqs]
  omega

/-- The link is there until the destroying thread takes it. -/
theorem Sinks.link_go {y : Endpoint} {a : Thread} (h : T.Sinks v) (hf : T.Fades s t v th)
    (hsw : T.SideStep s th v u) (hgo : T.ThreadStep s t u th th')
    (hy : u.endpoints[T.pair.id T.side]? = some y)
    (ha : (u.threads.set t th')[T.thread]? = some a) (hk : a.task.takesLink = true) :
    ∃ l, y.link = some l ∧ T.pair.Bound T.before.kernel T.side l := by
  by_cases hit : t = T.thread
  · subst hit
    have hlt : T.thread < u.threads.length := hsw.length ▸ h.there
    rw [List.getElem?_set_self hlt] at ha
    obtain rfl := Option.some.inj ha
    rw [hgo.takes] at hk
    cases hk
  · rw [List.getElem?_set_ne hit] at ha
    obtain ⟨a₀, ha₀, hnudge⟩ := hsw.movedOn ha
    obtain ⟨q, hfa, -⟩ := h.threads ha₀
    have hk₀ := (hnudge.fades (hfa.mono hsw.recedes)).2.2 hk
    obtain ⟨x, hx, -⟩ := h.ends T.side
    obtain ⟨l, hl, hbound⟩ := h.link hx ha₀ hk₀
    refine ⟨l, Eq.trans ?_ hl, hbound⟩
    by_cases hside : T.side = s
    · subst hside
      obtain ⟨y', hy', -, -, hlink⟩ := hsw.ends x hx
      obtain rfl := Option.some.inj (hy.symm.trans hy')
      exact hlink (Bool.eq_false_iff.mpr fun hk' => hit (hf.taking hk').2)
    · obtain rfl := Option.some.inj (hy.symm.trans ((hsw.elsewhere _ hside).trans hx))
      rfl

/-- One step of a thread. -/
theorem Sinks.go (h : T.Sinks v) (ht : v.threads[t]? = some th) (hf : T.Fades s t v th)
    (hs : t = T.thread → s = T.side) (hsw : T.SideStep s th v u) (hgo : T.ThreadStep s t u th th')
    (hcut : T.Cut v .gate ∨ s = T.side) (hq : (u.putThread t th').Queued) :
    T.Sinks (u.putThread t th') where
  sheds := fun set a ha => h.sheds set a (hsw.recedes.sheds set a ha)
  history := by
    obtain ⟨evs, hevs, hfails⟩ := h.history
    obtain ⟨more, hmore, hfails'⟩ := hsw.history
    refine ⟨more ++ evs, ?_, fun ev hev => (List.mem_append.mp hev).elim (hfails' ev) (hfails ev)⟩
    show u.history = _
    rw [hmore, hevs, List.append_assoc]
  queued := hq
  there := by
    show T.thread < (u.threads.set t th').length
    rw [List.length_set, hsw.length]
    exact h.there
  threads {i thi} hi := by
    by_cases hit : i = t
    · subst hit
      have hlt : i < u.threads.length := hsw.length ▸ (List.getElem?_eq_some_iff.mp ht).1
      rw [World.putThread, List.getElem?_set_self hlt] at hi
      obtain rfl := Option.some.inj hi
      exact ⟨s, hgo.fades.mono (.put u i _), hs⟩
    · rw [World.putThread, List.getElem?_set_ne (Ne.symm hit)] at hi
      obtain ⟨a, ha, hnudge⟩ := hsw.movedOn hi
      obtain ⟨q, hfa, hqs⟩ := h.threads ha
      exact ⟨q, (hnudge.fades (hfa.mono hsw.recedes)).1.mono (.put u t _), hqs⟩
  ends q := by
    obtain ⟨x, hx, hfx⟩ := h.ends q
    by_cases hqs : q = s
    · subst hqs
      obtain ⟨y, hy, hfy, -⟩ := hsw.ends x hx
      exact ⟨y, hy, hfy⟩
    · exact ⟨x, (hsw.elsewhere q hqs).trans hx, hfx⟩
  owners _ _ hy := h.owners_go ht hf hsw hgo hy
  link hy ha hk := h.link_go hf hsw hgo hy ha hk
  frozen := by
    rcases h.frozen with hgate | hfroz
    · exact .inl (hgate.mono (hsw.recedes.trans (.put u t th')))
    · rcases hcut with hgate | hside
      · exact .inl (hgate.mono (hsw.recedes.trans (.put u t th')))
      · rcases hsw.kernel with hgate | hk
        · exact .inl hgate
        · exact .inr (hfroz.go (fun _ ha => (h.threads ha).imp fun _ hfa => hfa.1) hside hsw hk
            hgo.fades)

theorem ThreadStep.push {p : Party} {a : Invocation} {after : Thread} (h : T.Fades s t v th)
    (hn : th.next = .invoke p a after) (hu : v.Recedes u) (hgo : T.ThreadStep s t u th after)
    {c : Option Callback} (hc : ∀ b, c = some b → T.CallbackFades s b) :
    T.ThreadStep s t u th (after.push c) := by
  obtain ⟨hcall, hdrift⟩ := h.invokes hn
  have hstay : th.leaves = false := Bool.eq_false_iff.mpr fun hl => by
    obtain ⟨o, out, rfl⟩ := h.leaving hl
    cases hn
  have howner : th.task.owner? = some (T.pair.id s) := by
    rcases h.owner with ho | ⟨out, hout⟩
    · exact ho
    · obtain ⟨o, task, cs⟩ := th
      cases hout
      cases cs with
      | nil => cases hn
      | cons => exact (h.beneath (by simp)).owner
  refine ⟨⟨hgo.fades.task, fun b hb => ?_, fun _ =>
    ⟨hcall, fun ht => (hdrift ht).mono hu, hgo.takes,
    ?_⟩⟩, hgo.takes, hgo.owner⟩
  · rcases List.mem_append.mp hb with hb | hb
    · exact hc b (Option.mem_toList.mp hb)
    · exact hgo.fades.callbacks b hb
  · rw [show (after.push c).task.owner? = after.task.owner? from rfl, hgo.owner, hstay]
    exact howner

theorem attends_of_callbacks (h : th.Shaped) (hc : th.callbacks ≠ []) :
    ∃ e, th.origin.attends e = true := by
  cases h with
  | @sender p | @receiver p | @destroying _ p => exact ⟨p.id, by simp [Task.attends]⟩
  | @departing _ p _ _ hw =>
    obtain ⟨l, rfl | rfl⟩ := hw
    all_goals exact ⟨p.id, by simp [Task.attends]⟩
  | call | leaving | ended => exact absurd rfl hc

variable (T) in
inductive Does (s : Role) (t : ThreadId) (th : Thread) (v : World) : World → Thread → Prop
  | act {α : Type} {p : Primitive α} {next : α → Thread} {u : World} {a : α} :
      th.next = .perform p next → T.Ripples s t (licence th) v p u a → Does s t th v u (next a)
  | back {p : Party} {i : Invocation} {after : Thread} : th.next = .invoke p i after →
      T.Gives s p i → Does s t th v (v.invoke p i).1 (after.push (v.invoke p i).2)

theorem Fades.step (h : T.Fades s t v th) (ht : v.threads[t]? = some th) (hshape : th.Shaped)
    (hstep : v.step t = some u) (hharm : ∀ e, ¬ u.Harmed e) :
    ∃ w th', T.Does s t th v w th' ∧ u = w.putThread t th' := by
  obtain ⟨th, ht', hh, hcase⟩ := step_cases hstep
  obtain rfl := Option.some.inj (ht.symm.trans ht')
  have hasks := h.honours (.refl v)
  rcases hcase with ⟨α, p, next, hn, hp⟩ | ⟨p, i, after, hn, rfl⟩ | ⟨hn, rfl⟩
  · rw [hn] at hasks
    rcases hp with hp | ⟨w, a, hp, rfl⟩
    · exact absurd hp (not_queued hh hasks.1)
    · exact ⟨w, _, .act hn (ripples_of_perform hh hasks.1 hp), rfl⟩
  · rw [hn] at hasks
    exact ⟨_, _, .back hn hasks.1, rfl⟩
  · rw [hn] at hasks
    obtain ⟨e, he⟩ := attends_of_callbacks hshape hasks
    have hlt := (List.getElem?_eq_some_iff.mp ht).1
    refine absurd ⟨th.unwound, ?_, he, th.unwound_panicked⟩ (hharm e)
    exact panic_threads t th ▸ List.mem_of_getElem? (List.getElem?_set_self hlt)

/-- One step, unless a callback panics. -/
theorem Sinks.step (h : T.Sinks v) (hshape : ∀ th ∈ v.threads, th.Shaped)
    (hstep : v.step t = some u) (hharm : ∀ e, ¬ u.Harmed e) : T.Sinks u := by
  obtain ⟨th, ht, -⟩ := step_cases hstep
  have hq := h.queued.step hstep
  obtain ⟨s, hf, hs⟩ := h.threads ht
  obtain ⟨x, hx, hfx⟩ := h.ends s
  have hcut : T.Cut v .gate ∨ s = T.side := by
    rcases h.frozen with hgate | hfroz
    · exact .inl hgate
    · by_cases hside : s = T.side
      · exact .inr hside
      · obtain rfl : s = T.side.peer := by
          revert hside
          cases s <;> cases T.side <;> simp [Role.peer]
        rw [hfroz.stuck (fun he => hside (hs he)) ht hf] at hstep
        cases hstep
  obtain ⟨w, th', hdoes, rfl⟩ := hf.step ht (hshape th (List.mem_of_getElem? ht)) hstep hharm
  cases hdoes with
  | @act α p next w a hn hr =>
    have htwo : th.leaves = true → 2 ≤ x.owners := fun hl => by
      have hown := h.owners s x hx
      have hdue := le_tally (f := (T.pair.due · (.owner s))) (List.mem_of_getElem? ht)
      have hone : T.pair.due th (.owner s) = 1 := by
        obtain ⟨o, out, rfl⟩ := hf.leaving hl
        simp [Pair.due, Task.owner?]
      omega
    have hhears := hr.hears hx hfx htwo (fun hne => hcut.resolve_right hne) fun hk => by
      obtain ⟨rfl, rfl⟩ := hf.taking hk
      exact h.link hx ht hk
    have hgo := hf.honours hr.recedes
    rw [hn] at hgo
    exact h.go ht hf hs (hr.sideStep h.queued (hf.releases hn) hx hfx htwo) (hgo.2 a hhears) hcut hq
  | @back p i after hn hgives =>
    have hstay : th.leaves = false := Bool.eq_false_iff.mpr fun hl => by
      obtain ⟨o, out, rfl⟩ := hf.leaving hl
      cases hn
    have hsw := invoke_sideStep hgives hx hfx hstay
    have hgo := hf.honours hsw.recedes
    rw [hn] at hgo
    exact h.go ht hf hs hsw (ThreadStep.push hf hn hsw.recedes hgo.2 fun c hc =>
      invoke_callback hgives hc) hcut hq

end Teardown

end QueuePair
