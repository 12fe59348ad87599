import QueuePair.Proofs.Exit
import QueuePair.Proofs.Withdrawal

namespace QueuePair

/-- How many jobs a direction has room for. -/
def Settings.depth (s : Settings) : Direction → Nat
  | .send => s.sendDepth
  | .receive => s.receiveDepth

theorem Endpoint.Lasts.stays {x y : Endpoint} (h : x.Lasts y) (hx : x.stopped = true) :
    y.stopped = true :=
  h.state.elim (fun hy => hy.2.trans hx) And.right

namespace Endpoint

structure Akin (x y : Endpoint) : Prop where
  settings : y.settings = x.settings
  queue : y.queue = x.queue
  stopped : y.stopped = x.stopped
  stopping : y.stopping = x.stopping

theorem Akin.refl (x : Endpoint) : x.Akin x :=
  ⟨rfl, rfl, rfl, rfl⟩

theorem Akin.trans {x y z : Endpoint} (h : x.Akin y) (h' : y.Akin z) : x.Akin z :=
  ⟨h'.settings.trans h.settings, h'.queue.trans h.queue, h'.stopped.trans h.stopped,
    h'.stopping.trans h.stopping⟩

theorem akin_putReply (x : Endpoint) (n : Nat) (r : Reply) : x.Akin (x.putReply n r) :=
  ⟨rfl, rfl, rfl, rfl⟩

end Endpoint

section

variable {α : Type} {x : Endpoint} {t : ThreadId} {e : EndpointId} {c : EndpointCall α}
  {s : Section α}

/-- An access leaves the settings alone, and the marks unless it is one of a few. -/
theorem call_rest (hc : x.call t c = some s) : s.endpoint.settings = x.settings ∧
    (c.quits = false → s.endpoint.stopped = x.stopped ∧ s.endpoint.stopping = x.stopping) := by
  have hqueue : ∀ {d : Direction} {q : WorkQueue Job}, (x.withQueue d q).settings = x.settings ∧
      (c.quits = false → (x.withQueue d q).stopped = x.stopped ∧
        (x.withQueue d q).stopping = x.stopping) := fun {d q} => by
    cases d <;> exact ⟨rfl, fun _ => ⟨rfl, rfl⟩⟩
  cases c with
  | post d job =>
    simp only [Endpoint.call, Option.some.injEq] at hc
    subst hc
    unfold Endpoint.post
    split
    · exact ⟨rfl, fun _ => ⟨rfl, rfl⟩⟩
    · split
      · exact ⟨rfl, fun _ => ⟨rfl, rfl⟩⟩
      · exact hqueue
  | nextSend =>
    simp only [Endpoint.call, Option.some.injEq] at hc
    subst hc
    unfold Endpoint.nextSend
    split
    · exact ⟨rfl, fun _ => ⟨rfl, rfl⟩⟩
    · split <;> exact ⟨rfl, fun _ => ⟨rfl, rfl⟩⟩
  | nextReceive =>
    simp only [Endpoint.call, Option.some.injEq] at hc
    subst hc
    unfold Endpoint.nextReceive
    split <;> exact ⟨rfl, fun _ => ⟨rfl, rfl⟩⟩
  | complete d slot =>
    cases hc
    exact hqueue
  | cancel d serial =>
    simp only [Endpoint.call, Option.some.injEq] at hc
    subst hc
    unfold Endpoint.cancel
    split <;> exact hqueue
  | drain d =>
    cases hc
    exact hqueue
  | close | setStopped | beginStopping | writeStopping =>
    cases hc
    exact ⟨rfl, fun h => by cases h⟩
  | lockLink | readLink | takeLink =>
    simp only [Endpoint.call, Endpoint.underLink] at hc
    split at hc <;> cases hc
    exact ⟨rfl, fun _ => ⟨rfl, rfl⟩⟩
  | awaitReply =>
    simp only [Endpoint.call] at hc
    split at hc <;> cases hc
    exact ⟨rfl, fun _ => ⟨rfl, rfl⟩⟩
  | release =>
    simp only [Endpoint.call] at hc
    split at hc <;> cases hc <;> exact ⟨rfl, fun _ => ⟨rfl, rfl⟩⟩
  | _ =>
    cases hc
    exact ⟨rfl, fun _ => ⟨rfl, rfl⟩⟩

/-- If the teardown mark is set after an access and the queues go on, then the answer tells so, or
it was like this before and nothing was done about it. -/
theorem call_marks (hc : x.call t c = some s) (hon : s.endpoint.stopping = true)
    (hgo : s.endpoint.stopped = false) : (Primitive.endpoint e c).owes e s.answer = true ∨
      x.stopping = true ∧ x.stopped = false ∧ (Primitive.endpoint e c).tips e = false := by
  have hrest := (call_rest hc).2
  cases c with
  | close =>
    cases hc
    cases hgo
  | setStopped stopped =>
    cases hc
    obtain rfl : stopped = false := hgo
    exact .inl (by simp [Primitive.owes])
  | writeStopping stopping =>
    cases hc
    obtain rfl : stopping = true := hon
    exact .inl (by simp [Primitive.owes])
  | beginStopping =>
    cases hc
    cases hs : x.stopping with
    | false => exact .inl (by simp [Primitive.owes])
    | true => exact .inr ⟨rfl, hgo, rfl⟩
  | drain d =>
    cases hc
    refine .inr ⟨?_, ?_, rfl⟩
    · cases d <;> exact hon
    · cases d <;> exact hgo
  | _ =>
    obtain ⟨hstopped, hstopping⟩ := hrest rfl
    exact .inr ⟨hstopping.symm.trans hon, hstopped.symm.trans hgo, rfl⟩

end

namespace World

variable {w v u : World} {e : EndpointId} {t : ThreadId} {th : Thread} {x : Endpoint}
  {allowed : Input → Prop}

structure Akin (w v : World) (e : EndpointId) : Prop where
  absent : w.endpoints[e]? = none → v.endpoints[e]? = none ∨
    ∃ s f, v.endpoints[e]? = some (.ofSettings s f)
  ends : ∀ {x : Endpoint}, w.endpoints[e]? = some x →
    ∃ y, v.endpoints[e]? = some y ∧ x.Akin y

theorem akin_of_eq (h : v.endpoints = w.endpoints) : Akin w v e :=
  ⟨fun hx => .inl (h ▸ hx), fun hx => ⟨_, h ▸ hx, .refl _⟩⟩

theorem akin_modify {i : EndpointId} {f : Endpoint → Endpoint} (hf : ∀ x : Endpoint, x.Akin (f x))
    (hv : v.endpoints = w.endpoints.modify i f) : Akin w v e := by
  refine ⟨fun hx => .inl (by simp [hv, List.getElem?_modify, hx]), fun hx => ?_⟩
  rw [hv, List.getElem?_modify, hx]
  split
  · exact ⟨_, rfl, hf _⟩
  · exact ⟨_, rfl, .refl _⟩

theorem invoke_akin (w : World) (p : Party) (i : Invocation) (e : EndpointId) :
    Akin w (w.invoke p i).1 e := by
  cases i with
  | disconnect => exact akin_of_eq rfl
  | resolve d job error =>
    simp only [invoke, resolve]
    split
    · exact akin_modify (fun x => x.akin_putReply _ _) rfl
    · exact akin_of_eq rfl

theorem panic_akin (w : World) (t : ThreadId) (th : Thread) (e : EndpointId) :
    Akin w (w.panic t th) e := by
  have hput : ∀ (jobs : List Job) (x : Endpoint), x.Akin
      (jobs.foldl (fun (x : Endpoint) job => x.putReply job.serial .abandoned) x) := by
    intro jobs
    induction jobs with
    | nil => exact .refl
    | cons job jobs ih => exact fun x => (x.akin_putReply _ _).trans (ih _)
  unfold World.panic
  split
  · exact akin_of_eq rfl
  · exact akin_modify (hput _) rfl

theorem outside_akin {i : Input} (hi : i.outside = true) (ha : w.apply i = some v) :
    Akin w v e := by
  cases outside_of_apply hi ha with
  | @make a s _ =>
    refine ⟨fun hx => ?_, fun hx => ⟨_, ?_, .refl _⟩⟩
    · rcases Nat.lt_or_ge w.endpoints.length e with hlt | hle
      · exact .inl (List.getElem?_eq_none (by simpa using Nat.succ_le_of_lt hlt))
      · obtain rfl := Nat.le_antisymm hle (List.getElem?_eq_none_iff.mp hx)
        exact .inr ⟨s, a.onDisconnect, by simp⟩
    · rw [List.getElem?_append_left (List.getElem?_eq_some_iff.mp hx).1]
      exact hx
  | @operate e' _ _ _ =>
    exact akin_modify (i := e') (f := fun x => { x with owners := x.owners + 1 })
      (fun _ => ⟨rfl, rfl, rfl, rfl⟩) rfl
  | @register e' _ _ _ _ hz =>
    refine ⟨fun hx => .inl ?_, fun hx => ?_⟩
    · simp only [putEndpoint, List.getElem?_eq_none_iff, List.length_set] at hx ⊢
      exact hx
    · by_cases he : e' = e
      · subst he
        obtain rfl := Option.some.inj (hx.symm.trans hz)
        exact ⟨_, List.getElem?_set_self (List.getElem?_eq_some_iff.mp hx).1, rfl, rfl, rfl, rfl⟩
      · exact ⟨_, by simp [putEndpoint, List.getElem?_set_ne he, hx], .refl _⟩
  | request | drop | release => exact akin_of_eq rfl

theorem spawnWorker_akin (p : Party) (l : Link) (d : Direction) :
    Akin w (w.spawnWorker p l d) e :=
  akin_modify (i := p.id)
    (f := fun x => { x with workers := x.workers ++ [w.threads.length], owners := x.owners + 1 })
    (fun _ => ⟨rfl, rfl, rfl, rfl⟩) rfl

theorem Answers.akin_or_access {α : Type} {p : Primitive α} {a : α} (h : w.Answers t p v a)
    (e : EndpointId) : p.tips e = false ∧ Akin w v e ∨
      ∃ (c : EndpointCall α) (x : Endpoint) (s : Section α), p = .endpoint e c ∧
        w.endpoints[e]? = some x ∧ x.call t c = some s ∧ v.endpoints[e]? = some s.endpoint ∧
        a = s.answer := by
  cases h with
  | system => exact .inl ⟨rfl, akin_of_eq (observe_endpoints _ _)⟩
  | @access α e' x c s hx hc =>
    have hv := (notes_same (e := e') s.notes (w.putEndpoint e' s.endpoint)).2
    by_cases he : e' = e
    · subst he
      refine .inr ⟨c, x, s, rfl, hx, hc, ?_, rfl⟩
      rw [hv]
      exact List.getElem?_set_self (List.getElem?_eq_some_iff.mp hx).1
    · have hsame : (s.notes.foldl (·.note e' ·) (w.putEndpoint e' s.endpoint)).endpoints[e]? =
          w.endpoints[e]? := by
        rw [hv]
        exact List.getElem?_set_ne he
      refine .inl ⟨?_, fun h => .inl (hsame.trans h), fun h => ⟨_, hsame.trans h, .refl _⟩⟩
      cases c <;> simp [Primitive.tips, he]
  | spawn => exact .inl ⟨rfl, spawnWorker_akin _ _ _⟩
  | _ => exact .inl ⟨rfl, akin_of_eq rfl⟩

theorem outside_threads {i : Input} (hi : i.outside = true) (ha : w.apply i = some v) :
    ∃ news, v.threads = w.threads ++ news ∧
      ∀ b ∈ news, ∃ task : Task, b = .ofTask task ∧ task.Begins := by
  cases outside_of_apply hi ha with
  | make => exact ⟨[], by simp, by simp⟩
  | operate => exact ⟨[_], rfl, by simpa using ⟨_, rfl, .started fun c hc _ => ofOperation_exit hc⟩⟩
  | request => exact ⟨[_], rfl, by simpa using ⟨_, rfl, .started fun c hc _ => ofObject_exit hc⟩⟩
  | drop => exact ⟨[_], rfl, by simpa using ⟨_, rfl, .leaving⟩⟩
  | register => exact ⟨[], by simp [putEndpoint], by simp⟩
  | release => exact ⟨[], by simp [World.release], by simp⟩

/-- The queues of an endpoint have the depths that were asked for, and whenever the teardown mark is
set while they go on, somebody is about to change that. -/
structure Marked (w : World) (e : EndpointId) : Prop where
  depth : ∀ {x : Endpoint}, w.endpoints[e]? = some x → ∀ d, (x.queue d).depth = x.settings.depth d
  agrees : ∀ {x : Endpoint}, w.endpoints[e]? = some x → x.stopping = true → x.stopped = false →
    ∃ th ∈ w.threads, th.exit e = .due

theorem Marked.akin (h : w.Marked e) (hv : Akin w v e)
    (hd : ∀ th ∈ w.threads, th.exit e = .due → th ∈ v.threads) : v.Marked e := by
  cases hx : w.endpoints[e]? with
  | none =>
    rcases hv.absent hx with hy | ⟨s, f, hy⟩
    · refine ⟨fun hy' => ?_, fun hy' => ?_⟩ <;> cases hy.symm.trans hy'
    · refine ⟨fun hy' d => ?_, fun hy' hon => ?_⟩
      · obtain rfl := Option.some.inj (hy.symm.trans hy')
        cases d <;> simp [Endpoint.ofSettings, Endpoint.queue, WorkQueue.depth, WorkQueue.ofDepth,
          Slab.depth, Slab.ofDepth, Settings.depth]
      · obtain rfl := Option.some.inj (hy.symm.trans hy')
        cases hon
  | some x =>
    obtain ⟨y, hy, hxy⟩ := hv.ends hx
    refine ⟨fun hy' d => ?_, fun hy' hon hgo => ?_⟩
    · obtain rfl := Option.some.inj (hy.symm.trans hy')
      rw [hxy.queue, hxy.settings]
      exact h.depth hx d
    · obtain rfl := Option.some.inj (hy.symm.trans hy')
      obtain ⟨th, hm, hdue⟩ := h.agrees hx (hxy.stopping.symm.trans hon)
        (hxy.stopped.symm.trans hgo)
      exact ⟨th, hd th hm hdue, hdue⟩

theorem call_depth {α : Type} {c : EndpointCall α} {s : Section α} (hc : x.call t c = some s)
    (d : Direction) : (s.endpoint.queue d).depth = (x.queue d).depth :=
  (call_deed 0 [] hc).depth d

theorem Marked.atom (h : w.Marked e) (ha : Atom allowed w v) : v.Marked e := by
  -- whoever is about to act is still there, unless it was its turn
  have hstay : ∀ {t : ThreadId} {th : Thread} (th' : Thread), w.threads[t]? = some th →
      th.exit e ≠ .due → ∀ b ∈ w.threads, b.exit e = .due → b ∈ w.threads.set t th' :=
    fun th' ht hne b hb hdue => (mem_set hb _ th').resolve_right fun hbt =>
      hne (Option.some.inj (ht.symm.trans hbt) ▸ hdue)
  cases ha with
  | @act t th α p next u a ht hn hans =>
    have hexits := th.exits (e := e)
    have htips := th.exit_tips (e := e)
    rw [hn] at hexits htips
    have hmem : ∀ b ∈ w.threads.set t (next a), b ∈ (u.putThread t (next a)).threads :=
      fun b hb => by
        rcases hans.threads_cases with he | ⟨q, l, d, he⟩
        · simpa only [putThread, he] using hb
        · simp only [putThread, he,
            List.set_append_left _ _ (List.getElem?_eq_some_iff.mp ht).1]
          exact List.mem_append_left _ hb
    have hidle : p.tips e = false → ∀ b ∈ w.threads, b.exit e = .due →
        b ∈ (u.putThread t (next a)).threads := fun hp b hb hdue =>
      hmem b (hstay _ ht (fun hd => Bool.false_ne_true (hp.symm.trans (htips hd))) b hb hdue)
    rcases hans.akin_or_access e with ⟨hp, hu⟩ | ⟨c, x, s, rfl, hx, hc, hy, rfl⟩
    · exact h.akin (v := u.putThread t (next a)) ⟨hu.absent, hu.ends⟩ (hidle hp)
    · refine ⟨fun hy' d => ?_, fun hy' hon hgo => ?_⟩
      · obtain rfl := Option.some.inj (hy.symm.trans hy')
        rw [(call_rest hc).1, call_depth hc]
        exact h.depth hx d
      · obtain rfl := Option.some.inj (hy.symm.trans hy')
        rcases call_marks (e := e) hc hon hgo with howes | ⟨hon', hgo', hp⟩
        · refine ⟨_, hmem _ ?_, (hexits.2 _).1 howes⟩
          exact List.mem_of_getElem?
            (List.getElem?_set_self (List.getElem?_eq_some_iff.mp ht).1)
        · obtain ⟨b, hb, hdue⟩ := h.agrees hx hon' hgo'
          exact ⟨b, hidle hp b hb hdue, hdue⟩
  | @invoke t th p i after ht hn =>
    have htips := th.exit_tips (e := e)
    rw [hn] at htips
    refine h.akin (v := (w.invoke p i).1.putThread t _)
      ⟨(invoke_akin w p i e).absent, (invoke_akin w p i e).ends⟩ ?_
    simp only [putThread, invoke_threads]
    exact hstay _ ht htips
  | @panic t th ht hn =>
    have htips := th.exit_tips (e := e)
    rw [hn] at htips
    refine h.akin (panic_akin w t th e) ?_
    rw [panic_threads]
    exact hstay _ ht htips
  | outside _ hi ha =>
    obtain ⟨news, hv, -⟩ := outside_threads hi ha
    exact h.akin (outside_akin hi ha) fun b hb _ => hv ▸ List.mem_append_left _ hb
  | settle ha => exact h.akin (akin_of_eq ha.endpoints) fun b hb _ => ha.threads ▸ hb

theorem Reachable.marked (hr : Reachable w) (e : EndpointId) : w.Marked e :=
  (Run.induction (m := fun u => u.Marked e) hr (queued_of_new rfl)
    ⟨fun h => (by cases h), fun h => by cases h⟩ fun h ha => h.atom ha).1

/-- Whoever may still drain the queues of an endpoint has them stopped. So it is at the beginning,
where there are no threads. -/
def Barred (w : World) (e : EndpointId) : Prop :=
  ∀ th ∈ w.threads, th.Closes e → ∃ x, w.endpoints[e]? = some x ∧ x.stopped = true

theorem Settled.lasts (h : w.Settled e) (hk : w.Keeps e) (ha : Atom allowed w v)
    (hx : w.endpoints[e]? = some x) : ∃ y, v.endpoints[e]? = some y ∧ x.Lasts y := by
  obtain hp | ⟨t, th, th', s, u, ht, hc, -, -, hf, -, rfl⟩ := atom_cases hk ha
  · exact (hp.ends hx).imp fun y hy => ⟨hy.1, hy.2.toLasts⟩
  · have hcalm : s.alters = false := h.calm (t := t) (by simp [place, ht, hc])
    have hlt := (List.getElem?_eq_some_iff.mp hx).1
    generalize th'.connecting? e = s' at hf
    cases hf with
    | @lock z _ busy hz _ he =>
      obtain rfl := Option.some.inj (hx.symm.trans hz)
      refine ⟨_, ?_, Endpoint.lasts_of_same (y := { x with linkHolder := some t }) rfl rfl rfl⟩
      exact he ▸ List.getElem?_set_self hlt
    | rest _ _ he => exact ⟨x, he ▸ hx, Endpoint.lasts_of_same rfl rfl rfl⟩
    | store => cases hcalm
    | spawn _ _ _ hs =>
      rw [hcalm] at hs
      cases hs
    | undo hs =>
      rw [hcalm] at hs
      cases hs
    | @unlock z link r _ hz he =>
      obtain rfl := Option.some.inj (hx.symm.trans hz)
      refine ⟨_, ?_, Endpoint.lasts_of_same
        (y := { x with link := link.orElse fun _ => x.link, linkHolder := none }) rfl rfl rfl⟩
      exact he ▸ List.getElem?_set_self hlt

/-- What becomes of an endpoint that a thread does not access. -/
theorem perform_akin {α : Type} {p : Primitive α} (hne : ∀ e c, p ≠ .endpoint e c)
    (hp : w.perform t p = .queued u ∨ ∃ a, w.perform t p = .done u a) : Akin w u e := by
  cases p with
  | endpoint e' c => exact absurd rfl (hne e' c)
  | system c =>
    have hu : u = ({ w with kernel := (w.kernel.call t c).kernel }.complete
        (w.kernel.call t c).ends).observe t (w.kernel.call t c).answer c := by
      simp only [perform] at hp
      split at hp <;> rcases hp with hp | ⟨a, hp⟩ <;> cases hp <;> rfl
    rw [hu]
    exact akin_of_eq (observe_endpoints _ _)
  | spawn =>
    rcases hp with hp | ⟨a, hp⟩ <;> cases hp
    exact spawnWorker_akin _ _ _
  | clock | note =>
    rcases hp with hp | ⟨a, hp⟩ <;> cases hp
    exact akin_of_eq rfl
  | park => rcases hp with hp | ⟨a, hp⟩ <;> cases hp
  | join k =>
    simp only [perform] at hp
    split at hp
    · rcases hp with hp | ⟨a, hp⟩ <;> cases hp
      exact akin_of_eq rfl
    · split at hp <;> rcases hp with hp | ⟨a, hp⟩ <;> cases hp
      exact akin_of_eq rfl
  | hold id =>
    simp only [perform] at hp
    split at hp <;> rcases hp with hp | ⟨a, hp⟩ <;> cases hp
    exact akin_of_eq rfl

/-- An input leaves settings, queues and marks of an endpoint alone, unless it lets a thread access
the endpoint. -/
theorem apply_akin_or_access {i : Input} (ha : w.apply i = some v) (e : EndpointId) : Akin w v e ∨
    ∃ (t : ThreadId) (th : Thread) (α : Type) (c : EndpointCall α) (next : α → Thread),
      i = .run t ∧ w.threads[t]? = some th ∧ th.next = .perform (.endpoint e c) next := by
  cases i with
  | run t =>
    obtain ⟨th, ht, -, ⟨α, p, next, hn, hp⟩ | ⟨p, i, after, hn, rfl⟩ | ⟨hn, rfl⟩⟩ := step_cases ha
    · by_cases hne : ∀ e c, p ≠ .endpoint e c
      · rcases hp with hp | ⟨u, a, hp, rfl⟩
        · exact .inl (perform_akin hne (.inl hp))
        · have hu := perform_akin (e := e) hne (.inr ⟨a, hp⟩)
          exact .inl ⟨hu.absent, hu.ends⟩
      · simp only [ne_eq, not_forall, not_not] at hne
        obtain ⟨e', c, rfl⟩ := hne
        by_cases he : e' = e
        · exact .inr ⟨t, th, α, c, next, rfl, ht, he ▸ hn⟩
        · obtain ⟨-, -, s, -, -, -, -, -, -, hends⟩ := step_access ht hn ha
          have hsame : v.endpoints[e]? = w.endpoints[e]? := by
            rw [hends, List.getElem?_set_ne he]
          exact .inl ⟨fun h => .inl (hsame.trans h), fun h => ⟨_, hsame.trans h, .refl _⟩⟩
    · exact .inl ⟨(invoke_akin w p i e).absent, (invoke_akin w p i e).ends⟩
    · exact .inl (panic_akin w t th e)
  | expire t =>
    simp only [apply, World.expire] at ha
    split at ha <;> cases ha
    exact .inl (akin_of_eq rfl)
  | _ => exact .inl (outside_akin rfl ha)

end World

end QueuePair
