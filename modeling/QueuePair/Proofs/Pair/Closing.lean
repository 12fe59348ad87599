import QueuePair.Proofs.Pair.Teardown

namespace QueuePair

open World

theorem World.step_accessed {α : Type} {v u : World} {t : ThreadId} {th : Thread} {e : EndpointId}
    {c : EndpointCall α} {next : α → Thread} {x : Endpoint} {sec : Section α}
    (hstep : v.step t = some u) (ht : v.threads[t]? = some th)
    (hn : th.next = .perform (.endpoint e c) next) (hx : v.endpoints[e]? = some x)
    (hc : x.call t c = some sec) : u = (v.accessed e sec).putThread t (next sec.answer) := by
  simp only [step, ht, hn] at hstep
  split at hstep
  · cases hstep
  · simp only [perform, hx, Option.bind_some, hc] at hstep
    exact (Option.some.inj hstep).symm

namespace Endpoint

def started (x : Endpoint) : Endpoint := { x with owners := x.owners + 1 }

def marked (x : Endpoint) : Endpoint := { x.started with stopping := true }

def shut (x : Endpoint) : Endpoint := { x.marked with stopped := true, state := .closed }

end Endpoint

namespace Teardown

variable (T : Teardown)

structure EndRests (s : Role) (x : Endpoint) : Prop where
  holder : x.linkHolder = none
  stopping : x.stopping = false
  script : s ≠ T.side → ∀ f, x.onDisconnect = some f → Script.peaceful f = true
  jobs : ∀ d job, (x.queue d).Keeps job → T.pair.Accepts s d job.data job.handler
  owners : tally (T.pair.due · (.owner s)) T.before.threads + 1 = x.owners
  link : s = T.side → ∃ l, x.link = some l ∧ T.pair.Bound T.before.kernel T.side l

structure Stranded : Prop where
  thread : T.thread = T.before.threads.length
  threads : ∀ {i : ThreadId} {th : Thread}, T.before.threads[i]? = some th →
    ∃ s, T.Fades s i T.before th
  ends : ∀ s, ∃ x, T.before.endpoints[T.pair.id s]? = some x ∧ T.EndRests s x

def destroyer (a : Destroying) : Thread where
  origin := .call (some (T.pair.id T.side)) (.destroying (T.pair.party T.side) .begin)
  task := .call (some (T.pair.id T.side)) (.destroying (T.pair.party T.side) a)
  callbacks := []

/-- The destroying thread is at a place; besides the endpoint has changed, and so have the other
threads. -/
structure Opens (a : Destroying) (f : Endpoint → Endpoint) (g : Thread → Thread) (v : World) :
    Prop where
  kernel : v.kernel = T.before.kernel
  released : v.released = T.before.released
  history : v.history = T.before.history
  queued : v.Queued
  threads : v.threads = T.before.threads.map g ++ [T.destroyer a]
  endpoints : ∃ x, T.before.endpoints[T.pair.id T.side]? = some x ∧
    v.endpoints = T.before.endpoints.set (T.pair.id T.side) (f x)

variable {T} {s : Role} {i t : ThreadId} {v u : World} {th : Thread} {a : Destroying}
  {f : Endpoint → Endpoint} {g : Thread → Thread} {x : Endpoint}

theorem Opens.recedes (h : T.Opens a f g v) : T.before.Recedes v :=
  ⟨fun _ _ hs => h.kernel ▸ hs, fun _ hev => h.history ▸ hev⟩

theorem Opens.side (h : T.Opens a f g v) (hx : T.before.endpoints[T.pair.id T.side]? = some x) :
    v.endpoints[T.pair.id T.side]? = some (f x) := by
  obtain ⟨y, hy, he⟩ := h.endpoints
  obtain rfl := Option.some.inj (hx.symm.trans hy)
  rw [he, List.getElem?_set_self (List.getElem?_eq_some_iff.mp hx).1]

theorem Opens.elsewhere (h : T.Opens a f g v) (hs : s ≠ T.side) :
    v.endpoints[T.pair.id s]? = T.before.endpoints[T.pair.id s]? := by
  obtain ⟨y, -, he⟩ := h.endpoints
  rw [he, List.getElem?_set_ne fun hid => hs (Pair.id_inj.mp hid).symm]

theorem Opens.destroyer (h : T.Opens a f g v) (hT : T.Stranded) :
    v.threads[T.thread]? = some (T.destroyer a) := by
  have hlen : T.thread = (T.before.threads.map g).length := by
    rw [List.length_map, hT.thread]
  rw [h.threads, hlen, List.getElem?_concat_length]

theorem Opens.others (h : T.Opens a f g v) (hT : T.Stranded) (hi : i ≠ T.thread)
    (ht : v.threads[i]? = some th) : ∃ b, T.before.threads[i]? = some b ∧ th = g b := by
  rw [h.threads] at ht
  rcases Nat.lt_or_ge i T.before.threads.length with hlt | hge
  · rw [List.getElem?_append_left (by simpa using hlt), List.getElem?_map] at ht
    obtain ⟨b, hb, rfl⟩ := Option.map_eq_some_iff.mp ht
    exact ⟨b, hb, rfl⟩
  · have hlen := (List.getElem?_eq_some_iff.mp ht).1
    rw [List.length_append, List.length_map, List.length_singleton] at hlen
    exact absurd ((Nat.le_antisymm (Nat.lt_succ_iff.mp hlen) hge).trans hT.thread.symm) hi

theorem Opens.frozen (h : T.Opens a f id v) (hT : T.Stranded)
    (hf : ∀ x, (f x).linkHolder = x.linkHolder ∧ (f x).replies = x.replies) (s : Role) :
    T.Frozen s v where
  kernel := h.kernel
  released := h.released
  ends x hx := by
    by_cases hs : s = T.side
    · subst hs
      obtain ⟨y, hy, -⟩ := h.endpoints
      rw [h.side hy] at hx
      obtain rfl := Option.some.inj hx
      exact ⟨y, hy, hf y⟩
    · exact ⟨x, (h.elsewhere hs).symm.trans hx, rfl, rfl⟩
  threads hi ht _ := by
    obtain ⟨b, hb, rfl⟩ := h.others hT hi ht
    exact hb

theorem Opens.alone (h : T.Opens a f id v) (hT : T.Stranded)
    (hf : ∀ x, (f x).linkHolder = x.linkHolder ∧ (f x).replies = x.replies)
    (hstep : v.step i = some u) : i = T.thread := by
  by_contra hi
  cases ht : v.threads[i]? with
  | none => simp [step, ht] at hstep
  | some th =>
    obtain ⟨b, hb, rfl⟩ := h.others hT hi ht
    obtain ⟨s, hfade⟩ := hT.threads hb
    rw [(h.frozen hT hf s).stuck hi ht (hfade.mono h.recedes)] at hstep
    cases hstep

theorem Opens.step {α : Type} {c : EndpointCall α} {b : α} {next : α → Thread} {a' : Destroying}
    {f' : Endpoint → Endpoint} (wakes : Bool) (h : T.Opens a f id v) (hT : T.Stranded)
    (hn : (T.destroyer a).next = .perform (.endpoint (T.pair.id T.side) c) next)
    (hx : T.before.endpoints[T.pair.id T.side]? = some x)
    (hc : (f x).call T.thread c = some ⟨f' x, b, wakes, []⟩) (hb : next b = T.destroyer a')
    (hstep : v.step T.thread = some u) :
    T.Opens a' f' (if wakes then (·.wake (T.pair.id T.side)) else id) u := by
  have hq := h.queued.step hstep
  obtain rfl := step_accessed hstep (h.destroyer hT) hn (h.side hx) hc
  refine ⟨?_, ?_, ?_, hq, ?_, x, hx, ?_⟩
  · exact accessed_kernel.trans h.kernel
  · exact accessed_released.trans h.released
  · exact accessed_history.trans h.history
  · rw [putThread, accessed_threads, h.threads, hT.thread, hb]
    cases wakes <;> simp
  · obtain ⟨y, hy, he⟩ := h.endpoints
    rw [putThread, accessed_endpoints, he, List.set_set]

theorem Opens.begin (h : T.Opens .begin Endpoint.started id v) (hT : T.Stranded)
    (hstep : v.step T.thread = some u) : T.Opens .close Endpoint.marked id u := by
  obtain ⟨x, hx, hrest⟩ := hT.ends T.side
  have hstop : x.started.stopping = false := hrest.stopping
  exact h.step false hT rfl hx rfl (by rw [hstop]; rfl) hstep

theorem Opens.close (h : T.Opens .close Endpoint.marked id v) (hT : T.Stranded)
    (hstep : v.step T.thread = some u) :
    T.Opens .takeLink Endpoint.shut (·.wake (T.pair.id T.side)) u := by
  obtain ⟨x, hx, hrest⟩ := hT.ends T.side
  exact h.step true hT rfl hx rfl rfl hstep

theorem EndRests.shut (h : T.EndRests T.side x)
    (hx : T.before.endpoints[T.pair.id T.side]? = some x) : T.EndFades T.side x.shut where
  holder := h.holder
  stopping := by simp [Endpoint.shut, Endpoint.marked]
  closed _ := ⟨rfl, rfl⟩
  script := h.script
  jobs := h.jobs
  replies a ha := .inr fun _ hn => hn x hx a ha

theorem EndRests.waits (h : T.EndRests s x) (hs : s ≠ T.side)
    (hx : T.before.endpoints[T.pair.id s]? = some x) : T.EndFades s x where
  holder := h.holder
  stopping := by simp [h.stopping, hs]
  closed he := absurd he hs
  script := h.script
  jobs := h.jobs
  replies a ha := .inr fun _ hn => hn x hx a ha

theorem Stranded.destroyer (hT : T.Stranded) (v : World) :
    T.Fades T.side T.thread v (T.destroyer .takeLink) := by
  have hnone : T.call? T.thread = none := by
    simp [call?, hT.thread]
  refine ⟨⟨rfl, ⟨rfl, rfl, rfl, trivial⟩, fun c hc => ?_⟩, fun _ hc => (by cases hc),
    fun hc => absurd rfl hc⟩
  rw [hnone] at hc
  cases hc

theorem Fades.wake {q : Role} (h : T.Fades s i v th) (hne : s ≠ q) :
    th.wake (T.pair.id q) = th := by
  have hebbs := h.honours (.refl v)
  unfold Thread.wake
  split
  · rename_i e d next hn
    rw [hn] at hebbs
    have hpark : e = T.pair.id s := hebbs.1
    rw [if_neg fun he => hne (Pair.id_inj.mp (hpark.symm.trans he))]
  · rfl

/-- Once the endpoint is closed the pair is torn down. -/
theorem Opens.sinks (h : T.Opens .takeLink Endpoint.shut (·.wake (T.pair.id T.side)) v)
    (hT : T.Stranded) : T.Sinks v := by
  have hothers : ∀ {i : ThreadId} {th : Thread}, i ≠ T.thread → v.threads[i]? = some th →
      ∃ b s, T.before.threads[i]? = some b ∧ th = b.wake (T.pair.id T.side) ∧ T.Fades s i v b ∧
        T.Fades s i v th ∧ th.task.owner? = b.task.owner? := by
    intro i th hi ht
    obtain ⟨b, hb, rfl⟩ := h.others hT hi ht
    obtain ⟨s, hf⟩ := hT.threads hb
    have hf' := hf.mono h.recedes
    obtain ⟨hgo, ho, -⟩ := (movedOn_wake b (T.pair.id T.side) v.kernel).fades hf'
    exact ⟨b, s, hb, rfl, hf', hgo, ho⟩
  have hne : T.side.peer ≠ T.side := by cases T.side <;> decide
  exact {
    sheds := h.recedes.sheds
    history := ⟨[], h.history, fun _ hev => (by cases hev)⟩
    queued := h.queued
    there := (List.getElem?_eq_some_iff.mp (h.destroyer hT)).1
    threads := fun {i th} ht => by
      by_cases hi : i = T.thread
      · subst hi
        obtain rfl := Option.some.inj ((h.destroyer hT).symm.trans ht)
        exact ⟨T.side, hT.destroyer v, fun _ => rfl⟩
      · obtain ⟨b, s, -, -, -, hgo, -⟩ := hothers hi ht
        exact ⟨s, hgo, fun he => absurd he hi⟩
    ends := fun s => by
      obtain ⟨x, hx, hrest⟩ := hT.ends s
      by_cases hs : s = T.side
      · subst hs
        exact ⟨x.shut, h.side hx, hrest.shut hx⟩
      · exact ⟨x, (h.elsewhere hs).trans hx, hrest.waits hs hx⟩
    owners := fun s y hy => by
      obtain ⟨x, hx, hrest⟩ := hT.ends s
      have hold : tally (T.pair.due · (.owner s)) (T.before.threads.map
          (·.wake (T.pair.id T.side))) = tally (T.pair.due · (.owner s)) T.before.threads := by
        refine tally_congr (List.length_map _) fun i b c hb hc => ?_
        rw [List.getElem?_map, hc] at hb
        obtain rfl := Option.some.inj hb
        obtain ⟨q, hf⟩ := hT.threads hc
        simp only [Pair.due, ((movedOn_wake c _ T.before.kernel).fades hf).2.1]
      rw [h.threads, tally_append, hold]
      have howners := hrest.owners
      by_cases hs : s = T.side
      · subst hs
        obtain rfl := Option.some.inj ((h.side hx).symm.trans hy)
        have hone : T.pair.due (T.destroyer .takeLink) (.owner T.side) = 1 := if_pos rfl
        show _ = x.owners + 1
        omega
      · obtain rfl := Option.some.inj (((h.elsewhere hs).trans hx).symm.trans hy)
        have hno : T.pair.due (T.destroyer .takeLink) (.owner s) = 0 := by
          simp only [Pair.due, Teardown.destroyer, Task.owner?, Option.some.injEq]
          exact if_neg fun hid => hs (Pair.id_inj.mp hid).symm
        omega
    link := fun {y th} hy ht hk => by
      obtain ⟨x, hx, hrest⟩ := hT.ends T.side
      obtain rfl := Option.some.inj ((h.side hx).symm.trans hy)
      exact hrest.link rfl
    frozen := .inr {
      kernel := h.kernel
      released := h.released
      ends := fun x hx => ⟨x, (h.elsewhere hne).symm.trans hx, rfl, rfl⟩
      threads := fun {i th} hi ht ho => by
        obtain ⟨b, s, hb, rfl, hf, -, howner⟩ := hothers hi ht
        obtain rfl := hf.side (howner.symm.trans ho)
        rwa [hf.wake hne] } }

theorem Stranded.run {e : EndpointId} (hT : T.Stranded) (h : T.Opens .begin Endpoint.started id v)
    (hk : v.Keeps e) (hr : Run Input.Steps v u) (hharm : ∀ e, ¬ u.Harmed e) :
    T.Opens .begin Endpoint.started id u ∨ T.Opens .close Endpoint.marked id u ∨ T.Sinks u := by
  refine hr.unharmed (m := fun u => T.Opens .begin Endpoint.started id u ∨
    T.Opens .close Endpoint.marked id u ∨ T.Sinks u) h.queued (.inl h)
    (fun hr hw _ ha hharm => ?_) hharm
  rcases hw with hw | hw | hw
  · obtain rfl := hw.alone hT (fun _ => ⟨rfl, rfl⟩) ha
    exact .inr (.inl (hw.begin hT ha))
  · obtain rfl := hw.alone hT (fun _ => ⟨rfl, rfl⟩) ha
    exact .inr (.inr ((hw.close hT ha).sinks hT))
  · exact .inr (.inr (hw.step (hk.run h.queued hr).shaped ha hharm))

theorem Opens.goes {α : Type} {c : EndpointCall α} {next : α → Thread} {sec : Section α}
    (h : T.Opens a f g v) (hT : T.Stranded) (hx : T.before.endpoints[T.pair.id T.side]? = some x)
    (hn : (T.destroyer a).next = .perform (.endpoint (T.pair.id T.side) c) next)
    (hc : (f x).call T.thread c = some sec) : ¬ v.Idle := by
  intro hi
  have hst := hi.stands h.queued (h.destroyer hT)
  rw [hn] at hst
  simp [Stands, Refuses, h.side hx, hc] at hst

theorem Stranded.idle {e : EndpointId} (hT : T.Stranded) (h : T.Opens .begin Endpoint.started id v)
    (hk : v.Keeps e) (hr : Run Input.Steps v u) (hharm : ∀ e, ¬ u.Harmed e) (hi : u.Idle) :
    T.Sinks u := by
  obtain ⟨x, hx, -⟩ := hT.ends T.side
  rcases hT.run h hk hr hharm with hu | hu | hu
  · exact absurd hi (hu.goes hT hx rfl rfl)
  · exact absurd hi (hu.goes hT hx rfl rfl)
  · exact hu

end Teardown

end QueuePair
