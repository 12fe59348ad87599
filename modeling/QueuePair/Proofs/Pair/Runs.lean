import QueuePair.Proofs.Pair.Lasting

namespace QueuePair

open World

namespace Pair

open Kernel (Extends Shifts)

variable {P : Pair} {w v : World} {t : ThreadId} {th th' : Thread} {r : Role} {x x' : Endpoint}

theorem Law.modified {f : Endpoint → Endpoint} (h : P.Law w)
    (hx : w.endpoints[P.id r]? = some x) (hf : Light x (f x))
    (hq : ∀ d, (f x).queue d = x.queue d) : P.Law (w.modifyEndpoint (P.id r) f) := by
  have he : (w.modifyEndpoint (P.id r) f).endpoints = w.endpoints.set (P.id r) (f x) :=
    modify_of_getElem? hx
  refine h.of_same (g := .gate) rfl (shifts_refl _ _) (by simp [he]) fun r' y hy => ?_
  by_cases hr : r' = r
  · subst hr
    obtain rfl := Option.some.inj (hx.symm.trans hy)
    exact ⟨f x, by simp [ends_set hx he], hf, fun d job hj => .inl (hq d ▸ hj)⟩
  · exact ⟨y, by simp [ends_set hx he, hr, hy], ⟨rfl, rfl, rfl, rfl, rfl, rfl⟩,
      fun d job hj => .inl hj⟩

theorem Law.of_eq (h : P.Law w) (hv : v.threads = w.threads) (hk : v.kernel = w.kernel)
    (he : v.endpoints = w.endpoints) : P.Law v :=
  h.of_same (g := .gate) hv (hk ▸ shifts_refl _ _) (by rw [he]) fun r x hx =>
    ⟨x, he ▸ hx, ⟨rfl, rfl, rfl, rfl, rfl, rfl⟩, fun d job hj => .inl hj⟩

theorem resolve_caller (p : Party) (d : Direction) (serial : Nat) (data : Buffer)
    (e : Option Error) : ∃ a, w.resolve p d ⟨serial, data, .caller⟩ e =
      ((w.note p.id (.resolved d ⟨serial, data, .caller⟩ e)).modifyEndpoint p.id
        (·.putReply serial a), none) :=
  ⟨_, rfl⟩

theorem resolve_callbacks (p : Party) (d : Direction) (serial : Nat) (data : Buffer)
    (id : String) (onDone onError : Script) (e : Option Error) :
    w.resolve p d ⟨serial, data, .callbacks id onDone onError⟩ e =
      (w.note p.id (.resolved d ⟨serial, data, .callbacks id onDone onError⟩ e),
        Callback.start p (.work d) id data.payload (if e.isSome then onError else onDone)) :=
  rfl

theorem Law.resolved {d : Direction} {job : Job} {e : Option Error} (h : P.Law w)
    (hj : job.handler.peaceful = true) :
    P.Law (w.resolve (P.party r) d job e).1 ∧
      ∀ c, (w.resolve (P.party r) d job e).2 = some c → P.CallbackFit r c := by
  have hnote : P.Law (w.note (P.id r) (.resolved d job e)) := h.of_eq rfl rfl rfl
  obtain ⟨serial, data, handler⟩ := job
  cases handler with
  | caller =>
    obtain ⟨x, hx, -⟩ := hnote.ends r
    obtain ⟨a, ha⟩ := resolve_caller (w := w) (P.party r) d serial data e
    have hq : ∀ d, (x.putReply serial a).queue d = x.queue d := fun d => by cases d <;> rfl
    rw [ha]
    refine ⟨hnote.modified (f := (·.putReply serial a)) hx ⟨rfl, rfl, rfl, rfl, rfl, rfl⟩ hq,
      fun c hc => ?_⟩
    cases hc
  | callbacks id onDone onError =>
    have hj' : Script.peaceful onDone = true ∧ Script.peaceful onError = true := by
      simpa [Handler.peaceful] using hj
    rw [resolve_callbacks]
    refine ⟨hnote, fun c hc => ?_⟩
    obtain ⟨s, hs, rfl⟩ := Option.map_eq_some_iff.mp hc
    refine ⟨rfl, ofScript_fit ?_ hs⟩
    split
    · exact hj'.2
    · exact hj'.1

theorem resolve_same (p : Party) (d : Direction) (job : Job) (e : Option Error) :
    (w.resolve p d job e).1.threads = w.threads ∧ (w.resolve p d job e).1.kernel = w.kernel := by
  simp only [resolve]
  split <;> exact ⟨rfl, rfl⟩

theorem Law.invokes {p : Party} {i : Invocation} {after : Thread} (h : P.Law w)
    (ht : w.threads[t]? = some th) (hr : P.Returns w.kernel th p i after) :
    P.Law ((w.invoke p i).1.putThread t (after.push (w.invoke p i).2)) := by
  -- handing back changes neither threads nor system, so the worker's step is a still one
  have hstep : ∀ {r : Role} {d : Direction} {job : Job} {e : Option Error} {th' : Thread},
      job.handler.peaceful = true → P.Fit w.kernel th' → th'.task.locks = none →
      th.task.locks = none → (∀ a, P.due th' a = P.due th a) →
      P.Law ((w.resolve (P.party r) d job e).1.putThread t th') := by
    intro r d job e th' hj hf hl hl' hb
    obtain ⟨hv, hk⟩ := resolve_same (w := w) (P.party r) d job e
    refine (h.resolved hj).1.of_still (by rw [hv]; exact ht) rfl rfl (.refl _ _) rfl
      (by rw [hk]; exact hf) (hl.trans hl'.symm) (fun r ho => ?_) hb
    rw [opens_locks ho] at hl
    cases hl
  cases hr with
  | @sent r l slot job hl hj =>
    have hc := (h.resolved (r := r) (d := .send) (e := none) hj).2
    refine hstep hj (.sender hl rfl (fun c hc' => ?_) fun _ => ⟨slot, rfl⟩) rfl rfl fun a => ?_
    · rcases List.mem_append.mp hc' with hc' | hc'
      · exact hc c (Option.mem_toList.mp hc')
      · cases hc'
    · simp only [due_sender, Thread.push]
      cases a <;> rfl
  | @received r l slot job hl hj =>
    have hc := (h.resolved (r := r) (d := .receive) (e := none) hj).2
    refine hstep hj (.receiver hl rfl (fun c hc' => ?_) fun _ => ⟨slot, rfl⟩) rfl rfl fun a => ?_
    · rcases List.mem_append.mp hc' with hc' | hc'
      · exact hc c (Option.mem_toList.mp hc')
      · cases hc'
    · simp only [due_receiver, Thread.push]
      cases a <;> rfl
  | @refused r l slot job e hl hj =>
    have hc := (h.resolved (r := r) (d := .receive) (e := some e) hj).2
    refine hstep hj (.receiver hl rfl (fun c hc' => ?_) fun _ => ⟨slot, rfl⟩) rfl rfl fun a => ?_
    · rcases List.mem_append.mp hc' with hc' | hc'
      · exact hc c (Option.mem_toList.mp hc')
      · cases hc'
    · simp only [due_receiver, Thread.push]
      cases a <;> rfl

theorem Law.panics (h : P.Law w) (ht : w.threads[t]? = some th) (hp : P.Panics w.kernel th) :
    P.Law (w.putThread t th.unwound) := by
  obtain ⟨r, ho⟩ := hp.owner
  have hl : th.unwound.task.locks = none := by simp [Thread.unwound, ho, Task.finish, Task.locks]
  refine h.of_still ht rfl rfl (.refl _ _) rfl hp.fit (hl.trans hp.locks.symm) (fun r ho' => ?_)
    hp.due
  rw [opens_locks ho'] at hl
  cases hl

/-- An operation starts in a thread of its own. -/
theorem Law.spawned {n : Thread} (h : P.Law w) (hx : w.endpoints[P.id r]? = some x)
    (hv : v.threads = w.threads ++ [n]) (hk : v.kernel = w.kernel)
    (he : v.endpoints = w.endpoints.set (P.id r) { x with owners := x.owners + 1 })
    (hf : P.Fit w.kernel n) (hl : n.task.locks = none)
    (hd : ∀ d, P.due n d = if d = .owner r then 1 else 0) : P.Law v := by
  have hend := ends_set hx he
  have hends : ∀ {r' y'}, v.endpoints[P.id r']? = some y' → ∃ y, w.endpoints[P.id r']? = some y ∧
      y'.state = y.state ∧ y'.linkHolder = y.linkHolder := by
    intro r' y' hy'
    rw [hend] at hy'
    by_cases hr : r' = r
    · subst hr
      rw [if_pos rfl, Option.some.injEq] at hy'
      subst hy'
      exact ⟨x, hx, rfl, rfl⟩
    · rw [if_neg hr] at hy'
      exact ⟨y', hy', rfl, rfl⟩
  have hthread : ∀ {t : ThreadId} {th : Thread}, v.threads[t]? = some th →
      w.threads[t]? = some th ∨ th = n := by
    intro t th ht
    rw [hv] at ht
    by_cases hlt : t < w.threads.length
    · rw [List.getElem?_append_left hlt] at ht
      exact .inl ht
    · rw [List.getElem?_append_right (Nat.le_of_not_lt hlt)] at ht
      exact .inr (List.mem_singleton.mp (List.mem_of_getElem? ht))
  have hold : ∀ {t : ThreadId} {th : Thread}, w.threads[t]? = some th →
      v.threads[t]? = some th := by
    intro t th ht
    rw [hv, List.getElem?_append_left (List.getElem?_eq_some_iff.mp ht).1, ht]
  refine ⟨hk ▸ h.wide, by simp [he, h.pair], fun r' => ?_, fun ht => ?_, fun d => ?_,
    fun hy' t => ?_, fun hy' ht ho => ?_⟩
  · obtain ⟨y, hy, hfit⟩ := h.ends r'
    rw [hend, hk]
    by_cases hr : r' = r
    · subst hr
      obtain rfl := Option.some.inj (hx.symm.trans hy)
      exact ⟨_, if_pos rfl, hfit.settings, hfit.stopped, hfit.open_, hfit.link, hfit.jobs⟩
    · exact ⟨y, by rw [if_neg hr, hy], hfit⟩
  · rw [hk]
    rcases hthread ht with ht | rfl
    · exact h.fit ht
    · exact hf
  · have hc : ∀ r', P.connected v r' = P.connected w r' ∧
        P.owners v r' = P.owners w r' + if r' = r then 1 else 0 := by
      intro r'
      by_cases hr : r' = r
      · subst hr
        simp [Pair.connected, Pair.owners, hend, hx]
      · simp [Pair.connected, Pair.owners, hend, hr]
    have htotal : P.total v d = P.total w d + if d = .owner r then 1 else 0 := by
      cases d <;> simp [total, hc, hk]
    rw [hk, hv, tally_append, hd, htotal, ← h.ledger d]
    omega
  · obtain ⟨y, hy, -, hh⟩ := hends hy'
    rw [hh, h.holder hy]
    constructor
    · rintro ⟨th, ht, hlock⟩
      exact ⟨th, hold ht, hlock⟩
    · rintro ⟨th, ht, hlock⟩
      rcases hthread ht with ht | rfl
      · exact ⟨th, ht, hlock⟩
      · rw [hl] at hlock
        cases hlock
  · obtain ⟨y, hy, hs, -⟩ := hends hy'
    rw [hs]
    rcases hthread ht with ht | rfl
    · exact h.opens hy ht ho
    · rw [opens_locks ho] at hl
      cases hl

def operation (P : Pair) (r : Role) (op : Operation) : Thread :=
  .ofTask (.ofStarted (some (P.id r)) (Call.ofOperation (P.party r) op))

theorem operation_facts {k : Kernel} {op : Operation} (hp : op.peaceful = true) :
    P.Fit k (P.operation r op) ∧ (P.operation r op).task.locks = none ∧
      ∀ d, P.due (P.operation r op) d = if d = .owner r then 1 else 0 := by
  have hleave : ∀ e : Result, P.Fit k (.ofTask (.leaving (P.id r) .release (.returned e))) ∧
      (Thread.ofTask (.leaving (P.id r) .release (.returned e))).task.locks = none ∧
      ∀ d, P.due (.ofTask (.leaving (P.id r) .release (.returned e))) d =
        if d = .owner r then 1 else 0 := by
    refine fun e => ⟨.leaving, rfl, fun d => ?_⟩
    rw [Thread.ofTask, due_leaving rfl]
    cases d <;> simp [Task.works, eq_comm]
  have hcall : ∀ c, P.Serving r c → P.Fit k (.ofTask (.call (some (P.id r)) c)) ∧
      (Thread.ofTask (.call (some (P.id r)) c)).task.locks = none ∧
      ∀ d, P.due (.ofTask (.call (some (P.id r)) c)) d = if d = .owner r then 1 else 0 := by
    intro c hc
    have ho : (Task.call (some (P.id r)) c).finalizes = none := by
      cases c with
      | posting | waiting | readingState | holding => rfl
      | _ => exact hc.elim
    refine ⟨.call ho hc, serving_locks hc, fun d => ?_⟩
    rw [Thread.ofTask, due_serving hc]
    cases d <;> simp [Task.works, eq_comm]
  simp only [operation]
  by_cases hs : op.serves = true
  · cases hop : Call.ofOperation (P.party r) op with
    | more c => exact hcall c (ofOperation_serving hp hs hop)
    | done e => exact hleave e
  · cases op with
    | destroy => cases hp
    | connect | accept =>
      simp only [Call.ofOperation, Call.requireRole]
      split
      · refine ⟨.connecting trivial, rfl, fun d => ?_⟩
        simp only [Task.ofStarted, Thread.ofTask, due_connecting]
        cases d <;> simp [Connecting.token, Connecting.gate, Connecting.attached,
          Connecting.worker, eq_comm]
      · exact hleave _
    | finalizeConnect | finalizeAccept =>
      simp only [Call.ofOperation, Call.requireRole]
      split
      · refine ⟨.finalizing trivial, rfl, fun d => ?_⟩
        simp only [Task.ofStarted, Thread.ofTask, due_finalizing]
        cases d <;> simp [Finalizing.gate, eq_comm]
      · exact hleave _
    | _ => exact absurd rfl hs

theorem Law.id_of (h : P.Law w) {e : EndpointId} (hx : w.endpoints[e]? = some x) :
    ∃ r, e = P.id r := by
  have hlt := (List.getElem?_eq_some_iff.mp hx).1
  rw [h.pair] at hlt
  have he : e = 0 ∨ e = 1 := by
    match e, hlt with
    | 0, _ => exact .inl rfl
    | 1, _ => exact .inr rfl
  rcases he with rfl | rfl
  · exact ⟨P.first, by simp [id]⟩
  · exact ⟨P.first.peer, by cases hf : P.first <;> simp [id, hf, Role.peer]⟩

/-- The smallest changes of a pair that nobody tears down. -/
inductive Acts (P : Pair) (w : World) : World → Prop
  | move {t : ThreadId} {th th' : Thread} {v : World} : w.threads[t]? = some th →
      P.Moves w t th v th' → Acts P w (v.putThread t th')
  | back {t : ThreadId} {th : Thread} {p : Party} {i : Invocation} {after : Thread} :
      w.threads[t]? = some th → P.Returns w.kernel th p i after →
      Acts P w ((w.invoke p i).1.putThread t (after.push (w.invoke p i).2))
  | panic {t : ThreadId} {th : Thread} : w.threads[t]? = some th → P.Panics w.kernel th →
      Acts P w (w.putThread t th.unwound)
  | operate {r : Role} {x : Endpoint} {op : Operation} : w.endpoints[P.id r]? = some x →
      op.peaceful = true → Acts P w
        { w.putEndpoint (P.id r) { x with owners := x.owners + 1 } with
          threads := w.threads ++ [P.operation r op] }
  | register {r : Role} {x : Endpoint} {key : UInt32} : w.endpoints[P.id r]? = some x →
      Acts P w (w.putEndpoint (P.id r) { x with nextKey := key })
  | release {id : String} : Acts P w (w.release id)
  | settle {v : World} : w.Alike v → Acts P w v

theorem Law.outside {i : Input} (h : P.Law w) (hi : i.Peaceful) (ho : i.outside = true)
    (ha : w.apply i = some v) : P.Acts w v := by
  cases outside_of_apply ho ha with
  | make | request | drop => exact hi.elim
  | @operate _ x _ hx =>
    obtain ⟨r, rfl⟩ := h.id_of hx
    have hparty : (⟨P.id r, x.settings⟩ : Party) = P.party r := by
      rw [(h.end_ hx).settings]
      rfl
    simp only [hparty, spawn, modifyEndpoint, modify_of_getElem? hx]
    exact .operate hx hi
  | @register _ _ _ _ _ hx =>
    obtain ⟨r, rfl⟩ := h.id_of hx
    exact .register hx
  | release => exact .release

theorem Law.panic_eq (h : P.Law w) (hp : P.Panics w.kernel th) :
    w.panic t th = w.putThread t th.unwound := by
  obtain ⟨r, ho⟩ := hp.owner
  obtain ⟨x, hx, -⟩ := h.ends r
  have hsame : w.abandon th = w := by
    simp only [abandon, ho, hp.held, List.foldl_nil, modifyEndpoint, modify_of_getElem? hx]
    rw [set_of_getElem? hx]
  rw [World.panic_eq, hsame]

theorem Law.acts (h : P.Law w) (ha : w.Atom Input.Peaceful v) : P.Acts w v := by
  cases ha with
  | @act t th α p next u a ht hn hans =>
    have hafter : w.After t th.next u (next a) := by
      rw [hn]
      exact ⟨a, hans.answered, rfl⟩
    refine .move ht (moves_of_after h.intact (fun r x hx => h.end_ hx) (fun r x hx ho => ?_)
      (h.fit ht) hafter)
    have htwo := h.two_le_owners ht hx ho
    omega
  | invoke ht hn => exact .back ht (returns_of_next (h.fit ht) hn)
  | panic ht hn =>
    have hp := panics_of_next (h.fit ht) hn
    rw [h.panic_eq hp]
    exact .panic ht hp
  | outside hi ho ha => exact h.outside hi ho ha
  | settle ha => exact .settle ha

theorem Law.of_acts (h : P.Law w) (ha : P.Acts w v) : P.Law v := by
  cases ha with
  | move ht hm => exact h.moves ht hm
  | back ht hr => exact h.invokes ht hr
  | panic ht hp => exact h.panics ht hp
  | @operate r x op hx hp =>
    obtain ⟨hf, hl, hd⟩ := operation_facts (P := P) (r := r) (k := w.kernel) hp
    exact h.spawned hx rfl rfl rfl hf hl hd
  | @register r x key hx =>
    have hput : w.putEndpoint (P.id r) { x with nextKey := key } =
        w.modifyEndpoint (P.id r) fun x => { x with nextKey := key } := by
      simp only [modifyEndpoint, modify_of_getElem? hx]
      rfl
    rw [hput]
    exact h.modified hx ⟨rfl, rfl, rfl, rfl, rfl, rfl⟩ fun d => by cases d <;> rfl
  | release => exact h.of_eq rfl rfl rfl
  | settle ha =>
    exact h.of_same (g := .gate) ha.threads (Kernel.shifts_of_waiters ha.files ha.limits ha.sets)
      (by rw [ha.endpoints]) fun r x hx =>
        ⟨x, ha.endpoints ▸ hx, ⟨rfl, rfl, rfl, rfl, rfl, rfl⟩, fun d job hj => .inl hj⟩

theorem Begins.law (h : P.Begins w) : P.Law w := by
  choose f hend using h.ends
  have hgauge : ∀ g : Gauge, w.kernel.setOf? (g.key P.keys) = none := by
    intro g
    cases g with
    | signal r => exact h.signal r
    | gate | vacancy | attached => exact h.mailbox
  have hzero : ∀ g, w.kernel.gauge P.keys g = 0 := fun g => by simp [Kernel.gauge, hgauge]
  have hnone : ∀ {t : ThreadId} {th : Thread}, w.threads[t]? ≠ some th := by
    simp [h.threads]
  obtain ⟨g, hg⟩ := h.endpoints
  refine ⟨fun g set hs => ?_, by simp [hg], fun r => ⟨_, hend r, rfl, rfl, fun hc => ?_,
    fun l hl => ?_, fun d job hj => ?_⟩, fun ht => absurd ht hnone, fun d => ?_,
    fun hx t => ?_, fun hx ht => absurd ht hnone⟩
  · cases (hgauge g).symm.trans hs
  · cases hc
  · cases hl
  · have hnot : ∀ d, ¬ ((Endpoint.ofSettings (P.settings r) (f r)).queue d).Keeps job := by
      intro d
      cases d <;> exact WorkQueue.not_keeps_ofDepth _
    exact absurd hj (hnot d)
  · cases d <;> simp [stock, total, h.threads, hzero, Pair.connected, Pair.owners, hend,
      Endpoint.ofSettings, h.mailbox]
  · obtain rfl := Option.some.inj ((hend _).symm.trans hx)
    simp [Endpoint.ofSettings, h.threads]

theorem Begins.induction {motive : World → Prop} (h : P.Begins w) (hr : Run Input.Peaceful w v)
    (base : motive w)
    (step : ∀ {u v : World}, P.Law u → P.Acts u v → motive u → motive v) :
    P.Law v ∧ v.Queued ∧ motive v := by
  have hkeep := hr.induction (m := fun u => P.Law u ∧ motive u) h.queued ⟨h.law, base⟩
    fun hu ha => ⟨hu.1.of_acts (hu.1.acts ha), step hu.1 (hu.1.acts ha) hu.2⟩
  exact ⟨hkeep.1.1, hkeep.2, hkeep.1.2⟩

theorem Begins.run (h : P.Begins w) (hr : Run Input.Peaceful w v) : P.Law v ∧ v.Queued :=
  let ⟨hl, hq, _⟩ := h.induction (motive := fun _ => True) hr trivial fun _ _ _ => trivial
  ⟨hl, hq⟩

end Pair

end QueuePair
