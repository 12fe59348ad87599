import QueuePair.Proofs.Keeping

namespace QueuePair

open World

def Endpoint.Frank (x : Endpoint) : Prop :=
  ∀ a ∈ x.replies, a.2.isMissing = false

section

variable {x : Endpoint} {n : Nat}

theorem Endpoint.Frank.reply (h : x.Frank) (hn : ∃ a ∈ x.replies, a.1 = n) :
    (x.reply n).isMissing = false := by
  unfold Endpoint.reply
  cases hf : x.replies.find? (·.1 = n) with
  | none =>
    obtain ⟨a, ha, rfl⟩ := hn
    simpa using List.find?_eq_none.mp hf a ha
  | some a => exact h a (List.mem_of_find?_eq_some hf)

theorem Endpoint.Frank.putReply (h : x.Frank) {r : Reply} (hr : r.isMissing = false) :
    (x.putReply n r).Frank := by
  intro a ha
  rcases List.mem_append.mp ha with ha | ha
  · exact h a ha
  · obtain rfl := List.mem_singleton.mp ha
    exact hr

theorem call_replies {α : Type} {t : ThreadId} {c : EndpointCall α} {s : Section α}
    (hc : x.call t c = some s) : s.endpoint.replies = x.replies := by
  cases c with
  | post d job =>
    cases hc
    simp only [Endpoint.post]
    split
    · rfl
    · split
      · rfl
      · cases d <;> rfl
  | nextSend =>
    cases hc
    simp only [Endpoint.nextSend]
    split
    · rfl
    · split <;> rfl
  | nextReceive =>
    cases hc
    simp only [Endpoint.nextReceive]
    split <;> rfl
  | cancel d serial =>
    cases hc
    simp only [Endpoint.cancel]
    split <;> cases d <;> rfl
  | complete d slot | drain d =>
    cases hc
    cases d <;> rfl
  | lockLink | readLink | takeLink =>
    simp only [Endpoint.call, Endpoint.underLink] at hc
    split at hc <;> cases hc
    rfl
  | awaitReply =>
    simp only [Endpoint.call] at hc
    split at hc <;> cases hc
    rfl
  | release =>
    simp only [Endpoint.call] at hc
    split at hc <;> cases hc <;> rfl
  | _ =>
    cases hc
    rfl

end

theorem Stores.Does.resolved {x y : Stores} {act : Deed} (h : x.Does act y) (d : Direction) :
    (y.shelf d).resolved = (x.shelf d).resolved ∨ ∃ job error, act = .resolve d job error ∧
      (y.shelf d).resolved = (x.shelf d).resolved ++ [(job, error)] := by
  cases h with
  | number => exact .inl rfl
  | @lane d' act s hs =>
    by_cases hd : d = d'
    · subst hd
      simp only [Function.update_self]
      cases hs with
      | resolve => exact .inr ⟨_, _, rfl, rfl⟩
      | _ => exact .inl rfl
    · exact .inl (by simp only [Function.update_of_ne hd])

theorem Primitive.deed_ne_resolve {α : Type} (e : EndpointId) (p : Primitive α) (a : α)
    (d : Direction) (job : Job) (error : Option Error) : p.deed e a ≠ .resolve d job error := by
  cases p with
  | endpoint e' c =>
    simp only [deed]
    split
    · cases c with
      | post | nextSend => cases a <;> simp [EndpointCall.deed, Posted.deed, Supply.deed]
      | nextReceive => cases a <;> simp [EndpointCall.deed]
      | cancel => cases a <;> simp [EndpointCall.deed]
      | _ => simp [EndpointCall.deed]
    · simp
  | _ => simp [deed]

namespace World

variable {w v : World} {e : EndpointId} {t : ThreadId} {th : Thread}

def Replied (w : World) (e : EndpointId) : Prop :=
  ∃ x, w.endpoints[e]? = some x ∧ x.Frank ∧ ∀ d, ∀ a ∈ ((w.stores e).shelf d).resolved,
    a.1.handler = .caller → ∃ b ∈ x.replies, b.1 = a.1.serial

theorem Replied.keep (h : w.Replied e) (hx : ∀ x, w.endpoints[e]? = some x → x.Frank →
      ∃ y, v.endpoints[e]? = some y ∧ y.Frank ∧ x.replies ⊆ y.replies ∧
      ∀ d, ∀ a ∈ ((v.stores e).shelf d).resolved, a ∈ ((w.stores e).shelf d).resolved ∨
        (a.1.handler = .caller → ∃ b ∈ y.replies, b.1 = a.1.serial)) : v.Replied e := by
  obtain ⟨x, he, hf, hall⟩ := h
  obtain ⟨y, hy, hfrank, hsub, hnew⟩ := hx x he hf
  refine ⟨y, hy, hfrank, fun d a ha hc => ?_⟩
  rcases hnew d a ha with hold | hnow
  · obtain ⟨b, hb, hn⟩ := hall d a hold hc
    exact ⟨b, hsub hb, hn⟩
  · exact hnow hc

theorem Replied.same (h : w.Replied e) (hx : ∀ x, w.endpoints[e]? = some x → x.Frank →
      ∃ y, v.endpoints[e]? = some y ∧ y.Frank ∧ x.replies ⊆ y.replies)
    (hr : ∀ d, ((v.stores e).shelf d).resolved = ((w.stores e).shelf d).resolved) :
    v.Replied e :=
  h.keep fun x he hf => by
    obtain ⟨y, hy, hfrank, hsub⟩ := hx x he hf
    exact ⟨y, hy, hfrank, hsub, fun d a ha => .inl (hr d ▸ ha)⟩

theorem replies_modify {e' : EndpointId} {f : Endpoint → Endpoint}
    (hf : ∀ x, x.Frank → (f x).Frank ∧ x.replies ⊆ (f x).replies)
    (hv : v.endpoints = w.endpoints.modify e' f) (x : Endpoint) (hx : w.endpoints[e]? = some x)
    (hfrank : x.Frank) : ∃ y, v.endpoints[e]? = some y ∧ y.Frank ∧ x.replies ⊆ y.replies := by
  by_cases he : e' = e
  · subst he
    exact ⟨f x, by simp [hv, hx], hf x hfrank⟩
  · exact ⟨x, by simp [hv, List.getElem?_modify_ne _ _ he, hx], hfrank, fun _ h => h⟩

theorem Answers.replies_eq {α : Type} {p : Primitive α} {a : α} (h : w.Answers t p v a)
    (e : EndpointId) :
    v.endpoints[e]?.map Endpoint.replies = w.endpoints[e]?.map Endpoint.replies := by
  cases h with
  | system => rw [observe_endpoints]
  | @access α e' z c s hz hc =>
    rw [(notes_same s.notes _).2, putEndpoint, List.getElem?_set]
    split
    · rename_i he
      subst he
      rw [if_pos (List.getElem?_eq_some_iff.mp hz).1, hz]
      exact congrArg some (call_replies hc)
    · rfl
  | @spawn p l d =>
    refine (congrArg _ (List.getElem?_modify _ _ _ e)).trans ?_
    dsimp only
    cases w.endpoints[e]? with
    | none => rfl
    | some x =>
      refine congrArg some ?_
      dsimp only
      split <;> rfl
  | _ => rfl

theorem Answers.replies {α : Type} {p : Primitive α} {a : α} {x : Endpoint}
    (h : w.Answers t p v a) (hx : w.endpoints[e]? = some x) (hf : x.Frank) :
    ∃ y, v.endpoints[e]? = some y ∧ y.Frank ∧ x.replies ⊆ y.replies := by
  have heq := h.replies_eq e
  rw [hx, Option.map_some, Option.map_eq_some_iff] at heq
  obtain ⟨y, hy, hr⟩ := heq
  exact ⟨y, hy, fun a ha => hf a (hr ▸ ha), fun _ h => hr ▸ h⟩

/-- What is given back to a caller is answered at once. -/
theorem Replied.invoke (h : w.Replied e) (p : Party) (i : Invocation) :
    ((w.invoke p i).1).Replied e := by
  have hdeed := invoke_deed w p i e
  cases i with
  | disconnect =>
    refine h.same (fun x hx hf => ⟨x, hx, hf, fun _ h => h⟩) fun d => ?_
    refine (hdeed.resolved d).resolve_right ?_
    rintro ⟨job, error, hd, -⟩
    cases hd
  | resolve d job error =>
    by_cases hp : p.id = e
    · subst hp
      have hnew : ∀ d', ∀ a ∈ (((w.invoke p (.resolve d job error)).1.stores p.id).shelf
          d').resolved, a ∈ ((w.stores p.id).shelf d').resolved ∨ a.1 = job := by
        intro d' a ha
        rcases hdeed.resolved d' with hr | ⟨job', error', hd, hr⟩
        · exact .inl (hr ▸ ha)
        · rw [hr] at ha
          rcases List.mem_append.mp ha with ha | ha
          · exact .inl ha
          · obtain rfl := List.mem_singleton.mp ha
            simp only [Invocation.deed, if_true, Deed.resolve.injEq] at hd
            exact .inr hd.2.1.symm
      refine h.keep fun x hx hf => ?_
      obtain ⟨serial, data, handler⟩ := job
      cases handler with
      | caller =>
        have hlt := (List.getElem?_eq_some_iff.mp hx).1
        obtain ⟨r, hend⟩ : ∃ r,
          (w.invoke p (.resolve d ⟨serial, data, .caller⟩ error)).1.endpoints =
            w.endpoints.modify p.id (·.putReply serial (.delivered r)) := ⟨_, rfl⟩
        refine ⟨x.putReply serial (.delivered r), by simp [hend, hx], hf.putReply rfl,
          List.subset_append_left _ _, fun d' a ha => (hnew d' a ha).imp_right fun hj _ => ?_⟩
        exact ⟨(serial, .delivered r), by simp [Endpoint.putReply], by rw [hj]⟩
      | callbacks =>
        refine ⟨x, hx, hf, fun _ h => h, fun d' a ha => (hnew d' a ha).imp_right fun hj hc => ?_⟩
        rw [hj] at hc
        cases hc
    · refine h.same (fun x hx hf => ⟨x, ?_, hf, fun _ h => h⟩) fun d' => ?_
      · simp only [World.invoke, resolve]
        split
        · simp [modifyEndpoint, note, record, List.getElem?_modify_ne _ _ hp, hx]
        · exact hx
      · refine (hdeed.resolved d').resolve_right ?_
        rintro ⟨job, error, hd, -⟩
        simp only [Invocation.deed, if_neg hp] at hd
        cases hd

theorem abandon_replies (t : ThreadId) (th : Thread) (x : Endpoint)
    (hx : w.endpoints[e]? = some x) (hf : x.Frank) :
    ∃ y, (w.panic t th).endpoints[e]? = some y ∧ y.Frank ∧ x.replies ⊆ y.replies := by
  have hput : ∀ (jobs : List Job) (x : Endpoint), x.Frank →
      (jobs.foldl (fun (x : Endpoint) job => x.putReply job.serial .abandoned) x).Frank ∧
      x.replies ⊆
        (jobs.foldl (fun (x : Endpoint) job => x.putReply job.serial .abandoned) x).replies := by
    intro jobs
    induction jobs with
    | nil => exact fun _ h => ⟨h, fun _ h => h⟩
    | cons job jobs ih =>
      intro x h
      obtain ⟨hfrank, hsub⟩ := ih (x.putReply job.serial .abandoned) (h.putReply rfl)
      exact ⟨hfrank, List.Subset.trans (List.subset_append_left _ _) hsub⟩
  unfold World.panic
  split
  · exact ⟨x, hx, hf, fun _ h => h⟩
  · rename_i e' _
    exact replies_modify (hput th.held) rfl x hx hf

theorem outside_replies {i : Input} (hi : i.outside = true) (ha : w.apply i = some v) (x : Endpoint)
    (hx : w.endpoints[e]? = some x) (hf : x.Frank) :
    ∃ y, v.endpoints[e]? = some y ∧ y.Frank ∧ x.replies ⊆ y.replies := by
  cases outside_of_apply hi ha with
  | make =>
    refine ⟨x, ?_, hf, fun _ h => h⟩
    rw [List.getElem?_append_left (List.getElem?_eq_some_iff.mp hx).1]
    exact hx
  | operate =>
    refine replies_modify (f := fun x => { x with owners := x.owners + 1 }) ?_ rfl x hx hf
    exact fun x h => ⟨h, fun _ h => h⟩
  | @register e' _ _ _ _ hz =>
    by_cases he : e' = e
    · subst he
      obtain rfl := Option.some.inj (hx.symm.trans hz)
      exact ⟨_, List.getElem?_set_self (List.getElem?_eq_some_iff.mp hx).1, hf, fun _ h => h⟩
    · exact ⟨x, by simp [putEndpoint, List.getElem?_set_ne he, hx], hf, fun _ h => h⟩
  | request | drop | release => exact ⟨x, hx, hf, fun _ h => h⟩

theorem Replied.atom {allowed : Input → Prop} (hk : w.Keeps e) (h : w.Replied e)
    (ha : Atom allowed w v) : v.Replied e := by
  cases ha with
  | @act t th α p next u a ht hn hans =>
    obtain ⟨q, hleads⟩ := (hk.shaped th (List.mem_of_getElem? ht)).leads
    rw [hn] at hleads
    refine h.same (fun x hx hf => hans.replies hx hf) fun d => ?_
    refine ((hans.deed hleads.1 e).resolved d).resolve_right ?_
    rintro ⟨job, error, hd, -⟩
    exact p.deed_ne_resolve e a d job error hd
  | @invoke t th p i => exact h.invoke p i
  | @panic t th =>
    exact h.same (abandon_replies t th) fun d =>
      congrArg (fun s => (s.shelf d).resolved) (abandon_stores th)
  | outside _ hi ha =>
    obtain ⟨x, hx, -⟩ := id h
    exact h.same (outside_replies hi ha) fun d => congrArg (fun s => (s.shelf d).resolved)
      (outside_stores (fun _ _ => Nat.ne_of_lt (List.getElem?_eq_some_iff.mp hx).1) hi ha)
  | settle ha =>
    refine h.same (fun x hx hf => ⟨x, ha.endpoints ▸ hx, hf, fun _ h => h⟩) fun d => ?_
    simp only [stores, goods, ha.endpoints, ha.history]

theorem Replied.answered {x : Endpoint} {p : Party} {d : Direction} {data : Buffer} {n : Nat}
    {dl : Option Instant} {o : Option EndpointId} (h : w.Replied e)
    (hk : ((w.stores e).shelf d).Kept true d (w.hands e))
    (hj : ∀ k, w.hands e (.jobs d k) = 0) (hx : w.endpoints[e]? = some x)
    (hp : (x.queue d).pending = .empty) (hm : th ∈ w.threads) (hc : th.callbacks = [])
    (he : p.id = e) (ht : th.task = .call o (.waiting p d data (.awaiting n dl))) :
    (x.reply n).isMissing = false := by
  have hwait : 1 ≤ w.hands e (.wait d n) := by
    have hle := le_tally (f := (holding e (.wait d n)).thread) hm
    have hone : (holding e (.wait d n)).thread th = 1 := by
      simp [Holding.thread, hc, ht, he, Holding.task, holding, Call.waits, Waiting.waits]
    exact hone ▸ hle
  have hitems : ((w.stores e).shelf d).queue.items = [] := by
    rw [shelf_queue hx]
    exact WorkQueue.items_nil hp
  obtain ⟨a, ha, rfl, hcaller⟩ := hk.answered rfl hwait (hj _) hitems
  obtain ⟨y, hy, hfrank, hall⟩ := h
  obtain rfl := Option.some.inj (hx.symm.trans hy)
  exact hfrank.reply (hall d a ha hcaller)

theorem Replied.run {allowed : Input → Prop} (h : w.Replied e) (hk : w.Keeps e) (hq : w.Queued)
    (hr : Run allowed w v) : v.Replied e :=
  (hr.induction (m := fun u => u.Keeps e ∧ u.Replied e) hq ⟨hk, h⟩ fun h ha =>
    ⟨h.1.atom ha, h.2.atom h.1 ha⟩).1.2

theorem Replied.depth {allowed : Input → Prop} (h : w.Replied e) (hk : w.Keeps e) (hq : w.Queued)
    (hr : Run allowed w v) (d : Direction) :
    ((v.stores e).shelf d).queue.depth = ((w.stores e).shelf d).queue.depth :=
  (hr.induction (m := fun u => u.Keeps e ∧ u.Replied e ∧
      ((u.stores e).shelf d).queue.depth = ((w.stores e).shelf d).queue.depth) hq ⟨hk, h, rfl⟩
    fun {u _} hu ha => by
      obtain ⟨hkeeps, hreplied, hdepth⟩ := hu
      obtain ⟨x, hx, -⟩ := id hreplied
      obtain ⟨act, hdoes, -⟩ := hkeeps.deed (List.getElem?_eq_some_iff.mp hx).1 ha
      exact ⟨hkeeps.atom ha, hreplied.atom hkeeps ha, (hdoes.depth d).trans hdepth⟩).1.2.2

end World

end QueuePair
