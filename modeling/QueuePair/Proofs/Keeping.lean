import QueuePair.Proofs.Decomposition
import QueuePair.Proofs.Sections

namespace QueuePair

open World

def Event.Idle (e : EndpointId) (ev : Event) : Prop :=
  ∀ d, ev.accepted? e d = none ∧ ev.withdrawn? e d = none ∧ ev.resolved? e d = none

/-- Whether a thread panicked. -/
def Task.panicked : Task → Bool
  | .leaving _ _ .panicked | .ended .panicked => true
  | _ => false

theorem Thread.unwound_panicked (th : Thread) : th.unwound.task.panicked = true := by
  cases ho : th.task.owner? <;> simp [Thread.unwound, ho, Task.finish, Task.panicked]

/-- Whether a task works for an endpoint or destroys it. -/
def Task.attends (e : EndpointId) : Task → Bool
  | .sender p _ _ | .receiver p _ _ | .call _ (.destroying p _) => p.id = e
  | _ => false

namespace World

def goods (w : World) (e : EndpointId) : (Direction → WorkQueue Job) × Nat :=
  (w.endpoints[e]?.map fun x => (x.queue, x.nextSerial)).getD (fun _ => .ofDepth 0, 1)

def stores (w : World) (e : EndpointId) : Stores :=
  .ofRecord (w.goods e).1 (w.goods e).2 e w.history

def hands (w : World) (e : EndpointId) : Hands :=
  fun a => tally (holding e a).thread w.threads

def Harmed (w : World) (e : EndpointId) : Prop :=
  ∃ th ∈ w.threads, th.origin.attends e = true ∧ th.task.panicked = true

theorem not_harmed {w : World} (h : ∀ th ∈ w.threads, th.task.panicked = false) (e : EndpointId) :
    ¬ w.Harmed e := by
  rintro ⟨th, hm, -, hp⟩
  rw [h th hm] at hp
  cases hp

theorem silent_of_isEmpty {w : World} (h : ∀ th ∈ w.threads, th.callbacks.isEmpty = true) :
    ∀ th ∈ w.threads, th.callbacks = [] :=
  fun th hm => List.isEmpty_iff.mp (h th hm)

end World

section

variable {e e' : EndpointId} {ev : Event} {h : List Event} {n : Note}
  {queue : Direction → WorkQueue Job} {serial : Nat}

theorem idle_elsewhere (hne : e' ≠ e) : (Event.noted e' n).Idle e := by
  intro d
  cases n <;> simp [Event.accepted?, Event.withdrawn?, Event.resolved?, hne]

theorem idle_acted (ha : n.acts = true) : (Event.noted e' n).Idle e := by
  cases n with
  | acted => exact fun _ => ⟨rfl, rfl, rfl⟩
  | _ => cases ha

theorem Event.Idle.record (hev : ev.Idle e) :
    Stores.ofRecord queue serial e (ev :: h) = Stores.ofRecord queue serial e h := by
  simp [Stores.ofRecord, fun d => (hev d).1, fun d => (hev d).2.1, fun d => (hev d).2.2]

end

namespace World

variable {w v : World} {e e' : EndpointId} {t : ThreadId} {th : Thread} {x y : Endpoint}

theorem goods_eq (hx : w.endpoints[e]? = some x) : w.goods e = (x.queue, x.nextSerial) := by
  simp [goods, hx]

theorem shelf_queue (hx : w.endpoints[e]? = some x) (d : Direction) :
    ((w.stores e).shelf d).queue = x.queue d := by
  rw [World.stores, goods_eq hx]
  rfl

theorem goods_put (hx : w.endpoints[e']? = some x) :
    (w.putEndpoint e' y).goods e = if e' = e then (y.queue, y.nextSerial) else w.goods e := by
  by_cases he : e' = e
  · subst he
    have hlt := (List.getElem?_eq_some_iff.mp hx).1
    simp [goods, putEndpoint, hlt]
  · simp [goods, putEndpoint, he]

theorem goods_modify {f : Endpoint → Endpoint} (hq : ∀ x, (f x).queue = x.queue)
    (hn : ∀ x, (f x).nextSerial = x.nextSerial) :
    (w.modifyEndpoint e' f).goods e = w.goods e := by
  by_cases he : e' = e
  · subst he
    cases hx : w.endpoints[e']? <;> simp [goods, modifyEndpoint, hx, hq, hn]
  · simp [goods, modifyEndpoint, List.getElem?_modify_ne _ _ he]

theorem notes_stores (w : World) (e : EndpointId) (ns : List Note) :
    (ns.foldl (·.note e ·) w).stores e =
      .ofRecord (w.goods e).1 (w.goods e).2 e
        (ns.foldl (fun h n => .noted e n :: h) w.history) := by
  induction ns generalizing w with
  | nil => rfl
  | cons n ns ih => exact ih (w.note e n)

theorem notes_elsewhere (hne : e' ≠ e) (w : World) (ns : List Note) :
    (ns.foldl (·.note e' ·) w).stores e = w.stores e := by
  induction ns generalizing w with
  | nil => rfl
  | cons n ns ih => exact (ih (w.note e' n)).trans (idle_elsewhere hne).record

theorem observe_stores {α : Type} {a : Option α} {c : SystemCall α} :
    (w.observe t a c).stores e = w.stores e := by
  cases c with
  | storeRecord => exact Event.Idle.record fun _ => ⟨rfl, rfl, rfl⟩
  | loadRecord =>
    cases a with
    | none => rfl
    | some r => exact Event.Idle.record fun _ => ⟨rfl, rfl, rfl⟩
  | _ => rfl

theorem modify_stores {f : Endpoint → Endpoint} (hq : ∀ x, (f x).queue = x.queue)
    (hn : ∀ x, (f x).nextSerial = x.nextSerial) :
    (w.modifyEndpoint e' f).stores e = w.stores e := by
  rw [stores, goods_modify hq hn]
  rfl

theorem spawn_stores {p : Party} {l : Link} {d : Direction} :
    (w.spawnWorker p l d).stores e = w.stores e :=
  modify_stores (w := (w.spawn (.ofTask (worker p l d))).1) (fun _ => rfl) fun _ => rfl

theorem Answers.deed {α : Type} {p : Primitive α} {a : α} (h : w.Answers t p v a)
    (hc : p.candid = true) (e : EndpointId) : (w.stores e).Does (p.deed e a) (v.stores e) := by
  have hsame : v.stores e = w.stores e → p.deed e a = .rest →
      (w.stores e).Does (p.deed e a) (v.stores e) := fun hv hp => by
    rw [hv, hp]
    exact .still _
  cases h with
  | system => exact hsame observe_stores rfl
  | @access α e' x c s hx hcall =>
    by_cases he : e' = e
    · subst he
      rw [notes_stores, goods_put hx, if_pos rfl, stores, goods_eq hx]
      simp only [Primitive.deed, if_true]
      exact call_deed e' w.history hcall
    · refine hsame ?_ (if_neg he)
      rw [notes_elsewhere he, stores, goods_put hx, if_neg he]
      rfl
  | spawn => exact hsame spawn_stores rfl
  | note => exact hsame (Event.Idle.record (idle_acted hc)) rfl
  | grant | overflow | gone | late | clock | notified | timedOut | join | hold =>
    exact hsame rfl rfl
  | unanswered =>
    refine hsame rfl ?_
    simp only [Primitive.deed]
    split <;> rfl

/-- What giving something back does with the jobs of an endpoint. -/
theorem invoke_deed (w : World) (p : Party) (i : Invocation) (e : EndpointId) :
    (w.stores e).Does (i.deed e p) ((w.invoke p i).1.stores e) := by
  cases i with
  | resolve d job error =>
    have hnote : ((w.invoke p (.resolve d job error)).1).stores e =
        (w.note p.id (.resolved d job error)).stores e := by
      simp only [invoke, resolve]
      split
      · exact modify_stores (fun _ => rfl) fun _ => rfl
      · rfl
    rw [hnote]
    by_cases he : p.id = e
    · subst he
      simp only [Invocation.deed, if_true]
      refine Stores.Does.of_record (d := d) (q := (w.goods p.id).1 d)
        (Function.update_eq_self d _).symm ?_ fun d' hd => ?_
      · simp only [note, record, replay_cons, Event.accepted?, Event.withdrawn?, Event.resolved?,
          and_self, if_true, Option.toList_some, Option.toList_none, List.append_nil]
        exact .resolve
      · simp [note, record, Event.accepted?, Event.withdrawn?, Event.resolved?, Ne.symm hd]
    · simp only [Invocation.deed, if_neg he]
      rw [show (w.note p.id (.resolved d job error)).stores e = w.stores e from
        (idle_elsewhere he).record]
      exact .still _
  | disconnect script =>
    have hidle : (Event.noted p.id (.disconnected ((w.endpoints[p.id]?.map (·.state)).getD
      .closed))).Idle e := fun _ => ⟨rfl, rfl, rfl⟩
    have hnote : ((w.invoke p (.disconnect script)).1).stores e = w.stores e := hidle.record
    rw [hnote]
    exact .still _

theorem abandon_stores (th : Thread) : (w.abandon th).stores e = w.stores e := by
  have hput : ∀ (jobs : List Job) (x : Endpoint),
      (jobs.foldl (fun (x : Endpoint) job => x.putReply job.serial .abandoned) x).queue = x.queue ∧
      (jobs.foldl (fun (x : Endpoint) job => x.putReply job.serial .abandoned) x).nextSerial =
        x.nextSerial := by
    intro jobs
    induction jobs with
    | nil => exact fun _ => ⟨rfl, rfl⟩
    | cons job jobs ih => exact fun x => ih (x.putReply job.serial .abandoned)
  unfold abandon
  split
  · rfl
  · exact modify_stores (fun x => (hput _ x).1) fun x => (hput _ x).2

end World

namespace Thread

variable {e : EndpointId} {a : Asset} {p : Party} {th : Thread}

theorem next_into (th : Thread) : th.next.Into fun th' =>
    th'.origin = th.origin ∧ (th.task.panicked = true → th'.task.panicked = true) := by
  obtain ⟨o, task, cs⟩ := th
  cases cs with
  | cons c cs =>
    simp only [next, Move.into_map]
    exact Move.into_of_forall fun _ => ⟨trivial, id⟩
  | nil =>
    simp only [next, Move.into_map]
    cases task with
    | leaving e s out =>
      refine Move.into_map.mpr (Move.into_of_forall fun f => ⟨trivial, fun h => ?_⟩)
      cases out with
      | returned => cases h
      | panicked => cases f <;> rfl
    | ended => trivial
    | sender | receiver | call => exact Move.into_of_forall fun _ => ⟨trivial, by rintro ⟨⟩⟩

theorem callback_aloof {c : Callback} (hc : c.OfParty p) (hp : p.id ≠ e) (ha : a.exact = true) :
    (holding e a).callback c = 0 := by
  obtain ⟨q, lane, id, payload, index, state⟩ := c
  obtain ⟨rfl, hs⟩ := hc
  cases state with
  | ended | panicking => rfl
  | running command c rest =>
    cases a with
    | slot => rfl
    | number | wait => cases ha
    | jobs d k =>
      cases c with
      | destroying q s =>
        obtain rfl : q = _ := hs.2
        simp [Holding.callback, holding, Call.jobs, hp]
      | _ => rfl

theorem callbacks_aloof {cs : List Callback} (hcs : ∀ c ∈ cs, c.OfParty p) (hp : p.id ≠ e)
    (ha : a.exact = true) : (cs.map (holding e a).callback).sum = 0 := by
  induction cs with
  | nil => rfl
  | cons c cs ih =>
    rw [List.map_cons, List.sum_cons, callback_aloof (hcs c List.mem_cons_self) hp ha,
      ih fun c hc => hcs c (List.mem_cons_of_mem _ hc)]

/-- A thread that neither works for an endpoint nor destroys it has none of its jobs. -/
theorem Shaped.aloof (h : th.Shaped) (ho : th.origin.attends e = false) (ha : a.exact = true) :
    (holding e a).thread th = 0 := by
  cases h with
  | @sender p l s cs hcs =>
    have hp : p.id ≠ e := of_decide_eq_false ho
    have hzero : (holding e a).sender p s = 0 := by cases a <;> simp [holding, hp]
    simp only [Holding.thread, Holding.task, hzero, callbacks_aloof hcs hp ha]
  | @receiver p l s cs hcs =>
    have hp : p.id ≠ e := of_decide_eq_false ho
    have hzero : (holding e a).receiver p s = 0 := by cases a <;> simp [holding, hp]
    simp only [Holding.thread, Holding.task, hzero, callbacks_aloof hcs hp ha]
  | @destroying o p s cs hcs =>
    have hp : p.id ≠ e := of_decide_eq_false ho
    have hzero : (holding e a).call (.destroying p s) = 0 := by
      cases a <;> simp [holding, Call.jobs, Call.numbers, Call.waits, hp]
    simp only [Holding.thread, Holding.task, hzero, callbacks_aloof hcs hp ha]
  | @call origin o c _ hd hc =>
    have hzero : (holding e a).call c = 0 := by
      cases a with
      | slot => rfl
      | number | wait => cases ha
      | jobs d k => cases c <;> first | rfl | cases hd
    exact hzero
  | leaving | ended => rfl
  | @departing origin p out cs hw hcs =>
    have hp : p.id ≠ e := by
      obtain ⟨l, rfl | rfl⟩ := hw <;> exact of_decide_eq_false ho
    simp only [Holding.thread, Holding.task, callbacks_aloof hcs hp ha]

theorem started_shaped (owner : Option EndpointId) {s : Call.Started}
    (hs : ∀ c, s = .more c → c.Proper ∧ ∀ p d, c = .destroying p d → d = .begin) :
    (ofTask (.ofStarted owner s)).Shaped := by
  cases s with
  | done r => exact finish_shaped _ _ _
  | more c =>
    obtain ⟨hc, hb⟩ := hs c rfl
    cases hd : c.destroys with
    | false => exact .call (by simp [Task.ofStarted, Task.plain, hd]) hd hc
    | true =>
      cases c with
      | destroying p d =>
        obtain rfl := hb p d rfl
        exact .destroying (by simp)
      | _ => cases hd

end Thread

namespace World

variable {w v : World} {e : EndpointId} {t : ThreadId} {th th' : Thread} {exact : Bool}

structure Keeps (w : World) (e : EndpointId) : Prop where
  shaped : ∀ th ∈ w.threads, th.Shaped
  custody : ∀ exact, (exact = true → ¬ w.Harmed e) → Custody exact (w.stores e) (w.hands e)

theorem Keeps.tidy (hk : w.Keeps e) (hx : w.endpoints[e]? = some x) (d : Direction) :
    (x.queue d).Tidy :=
  shelf_queue hx d ▸ ((hk.custody false (by simp)).kept d).tidy

structure Goes (th th' : Thread) : Prop where
  origin : th'.origin = th.origin
  panicked : th.task.panicked = true → th'.task.panicked = true

theorem mem_set {ths : List Thread} {b : Thread} (hb : b ∈ ths) (t : ThreadId) (th' : Thread) :
    b ∈ ths.set t th' ∨ ths[t]? = some b := by
  obtain ⟨u, hu⟩ := List.mem_iff_getElem?.mp hb
  by_cases ht : t = u
  · exact .inr (ht ▸ hu)
  · exact .inl (List.mem_of_getElem? ((List.getElem?_set_ne ht).trans hu))

theorem Harmed.set (h : w.Harmed e) (ht : w.threads[t]? = some th)
    (hv : v.threads = w.threads.set t th')
    (hg : Goes th th') : v.Harmed e := by
  obtain ⟨b, hb, ho, hp⟩ := h
  rcases mem_set hb t th' with hm | hm
  · exact ⟨b, hv ▸ hm, ho, hp⟩
  · obtain rfl := Option.some.inj (ht.symm.trans hm)
    have hlt := (List.getElem?_eq_some_iff.mp ht).1
    refine ⟨th', hv ▸ List.mem_of_getElem? (List.getElem?_set_self hlt), ?_, hg.panicked hp⟩
    rw [hg.origin]
    exact ho

theorem hands_set {act : Deed} (ht : w.threads[t]? = some th) (hv : v.threads = w.threads.set t th')
    (ha : ∀ a : Asset, Within a.exact ((holding e a).thread th' + act.costs a)
      ((holding e a).thread th + act.brings a)) : (w.hands e).After act (v.hands e) := by
  intro a
  have hset := tally_set (f := (holding e a).thread) ht th'
  refine (ha a).shift ?_
  simp only [hands, hv]
  omega

theorem Keeps.go {act : Deed} (h : Keeps w e) (ht : w.threads[t]? = some th)
    (hv : v.threads = w.threads.set t th') (hs : th'.Shaped) (hg : Goes th th')
    (hd : (w.stores e).Does act (v.stores e))
    (ha : ∀ a : Asset, Within a.exact ((holding e a).thread th' + act.costs a)
      ((holding e a).thread th + act.brings a)) : Keeps v e := by
  refine ⟨fun b hb => ?_, fun exact hharm => ?_⟩
  · rw [hv] at hb
    rcases List.mem_or_eq_of_mem_set hb with hb | rfl
    · exact h.shaped b hb
    · exact hs
  · have hold := h.custody exact fun he hw => hharm he (hw.set ht hv hg)
    exact hold.preserved hd (hands_set ht hv ha)

theorem Keeps.begin (h : Keeps w e) (hs : th.Shaped) (ha : ∀ a, (holding e a).thread th = 0)
    (hv : v.threads = w.threads ++ [th]) (hst : v.stores e = w.stores e) : Keeps v e := by
  refine ⟨fun b hb => ?_, fun exact hharm => ?_⟩
  · rw [hv] at hb
    rcases List.mem_append.mp hb with hb | hb
    · exact h.shaped b hb
    · obtain rfl := List.mem_singleton.mp hb
      exact hs
  · have hhands : v.hands e = w.hands e := by
      funext a
      simp [hands, hv, ha]
    rw [hhands, hst]
    refine h.custody exact fun he hw => hharm he ?_
    obtain ⟨b, hb, ho, hp⟩ := hw
    exact ⟨b, hv ▸ List.mem_append_left _ hb, ho, hp⟩

theorem Keeps.congr (h : Keeps w e) (hv : v.threads = w.threads)
    (hst : v.stores e = w.stores e) : Keeps v e := by
  have hhands : v.hands e = w.hands e := by
    funext a
    simp only [hands, hv]
  refine ⟨fun b hb => h.shaped b (hv ▸ hb), fun exact hharm => ?_⟩
  rw [hhands, hst]
  refine h.custody exact fun he hw => hharm he ?_
  obtain ⟨b, hb, ho, hp⟩ := hw
  exact ⟨b, hv.symm ▸ hb, ho, hp⟩

theorem Answers.threads_cases {α : Type} {p : Primitive α} {a : α} (h : w.Answers t p v a) :
    v.threads = w.threads ∨ ∃ q l d, v.threads = w.threads ++ [.ofTask (worker q l d)] := by
  cases h with
  | system => exact .inl (observe_threads _ _)
  | @access α e x c s => exact .inl (notes_same s.notes _).1
  | spawn => exact .inr ⟨_, _, _, rfl⟩
  | _ => exact .inl rfl

theorem worker_new (p : Party) (l : Link) (d : Direction) :
    (Thread.ofTask (worker p l d)).Shaped ∧
      ∀ a, (holding e a).thread (.ofTask (worker p l d)) = 0 := by
  cases d with
  | send => exact ⟨.sender (by simp), fun a => (holding_obeys e a).fetch p⟩
  | receive => exact ⟨.receiver (by simp), fun a => (holding_obeys e a).await p⟩

theorem Keeps.answered {α : Type} {p : Primitive α} {a : α} (h : Keeps w e)
    (ht : w.threads[t]? = some th) (ha : w.Answers t p v a) :
    Keeps { w with threads := v.threads } e ∧ v.threads[t]? = some th ∧
      v.hands e = w.hands e := by
  rcases ha.threads_cases with he | ⟨q, l, d, he⟩
  · refine ⟨h.congr he rfl, he ▸ ht, ?_⟩
    funext a
    simp only [hands, he]
  · obtain ⟨hshape, hnew⟩ := worker_new (e := e) q l d
    refine ⟨h.begin hshape hnew he rfl, ?_, ?_⟩
    · rw [he, List.getElem?_append_left (List.getElem?_eq_some_iff.mp ht).1]
      exact ht
    · funext a
      simp [hands, he, hnew]

theorem operation_new {p : Party} (owner : Option EndpointId) (op : Operation) :
    (Thread.ofTask (.ofStarted owner (Call.ofOperation p op))).Shaped ∧
      ∀ a, (holding e a).thread (.ofTask (.ofStarted owner (Call.ofOperation p op))) = 0 := by
  refine ⟨Thread.started_shaped owner fun c hc => ⟨ofOperation_proper hc, ?_⟩, fun a => ?_⟩
  · rintro q d rfl
    cases op with
    | destroy =>
      cases hc
      rfl
    | connect | accept | finalizeConnect | finalizeAccept =>
      simp only [Call.ofOperation, Call.requireRole] at hc
      split at hc <;> cases hc
    | postSend | waitSend =>
      simp only [Call.ofOperation, Call.sendFits] at hc
      split at hc <;> cases hc
    | postReceive | waitReceive | readState => cases hc
  · cases hop : Call.ofOperation p op with
    | more c => exact (holding_obeys e a).operation hop
    | done r => exact Holding.task_finish _ _

theorem request_new (op : ObjectOperation) :
    (Thread.ofTask (.ofStarted none (Call.ofObject op))).Shaped ∧
      ∀ a, (holding e a).thread (.ofTask (.ofStarted none (Call.ofObject op))) = 0 := by
  refine ⟨Thread.started_shaped none fun c hc => ⟨(ofObject_proper hc).1, ?_⟩, fun a => ?_⟩
  · rintro q d rfl
    exact absurd (ofObject_proper hc).2 (by simp [Call.destroys])
  · cases hop : Call.ofObject op with
    | more c => exact (holding_obeys e a).object hop
    | done r => rfl

theorem make_stores (x : Endpoint) (he : e ≠ w.endpoints.length) :
    World.stores { w with endpoints := w.endpoints ++ [x] } e = w.stores e := by
  have hend : (w.endpoints ++ [x])[e]? = w.endpoints[e]? := by
    rcases Nat.lt_or_gt_of_ne he with hlt | hgt
    · exact List.getElem?_append_left hlt
    · rw [List.getElem?_eq_none (Nat.le_of_lt hgt), List.getElem?_eq_none]
      simp only [List.length_append, List.length_cons, List.length_nil]
      omega
  simp only [World.stores, goods, hend]

theorem register_stores {addr length : UInt64} {access : Access} {x : Endpoint}
    (hx : w.endpoints[e']? = some x) :
    (w.putEndpoint e' (x.register addr length access).1).stores e = w.stores e := by
  have hput := goods_put (e := e) (y := (x.register addr length access).1) hx
  have hsame : (w.putEndpoint e' (x.register addr length access).1).goods e = w.goods e := by
    rw [hput]
    split
    · rename_i he
      subst he
      exact (goods_eq hx).symm
    · rfl
  exact congrArg (fun g => Stores.ofRecord g.1 g.2 e w.history) hsame

theorem outside_stores {i : Input} (he : ∀ a, i = .make a → e ≠ w.endpoints.length)
    (hi : i.outside = true)
    (ha : w.apply i = some v) : v.stores e = w.stores e := by
  cases outside_of_apply hi ha with
  | @make a _ _ => exact make_stores _ (he a rfl)
  | operate => exact modify_stores (w := w) (fun _ => rfl) fun _ => rfl
  | register _ _ _ hx => exact register_stores hx
  | request | drop | release => rfl

/-- A new endpoint has empty queues, and nobody has anything of it. -/
theorem Keeps.make {a : Attributes} {s : Settings} (h : Keeps w e) :
    Keeps { w with endpoints := w.endpoints ++ [.ofSettings s a.onDisconnect] } e := by
  refine ⟨h.shaped, fun exact hharm => ?_⟩
  have hold := h.custody exact hharm
  -- before it is made, an endpoint counts as one with queues of depth zero
  by_cases he : e = w.endpoints.length
  · subst he
    have hgoods : w.goods w.endpoints.length = (fun _ => .ofDepth 0, 1) := by simp [goods]
    have hnew : World.goods { w with endpoints := w.endpoints ++
        [.ofSettings s a.onDisconnect] } w.endpoints.length =
        ((Endpoint.ofSettings s a.onDisconnect).queue, 1) := goods_eq (by simp)
    refine ⟨fun d => ?_, fun d n => ?_⟩
    · have hk := hold.kept d
      simp only [World.stores, hgoods] at hk
      simp only [World.stores, hnew]
      have hempty : ∀ depth, (Endpoint.ofSettings s a.onDisconnect).queue d = .ofDepth depth →
          (Shelf.mk ((Endpoint.ofSettings s a.onDisconnect).queue d) _ _ _).Kept exact d _ :=
        fun depth hd => hk.requeue (hd ▸ WorkQueue.tidy_ofDepth depth) (by rw [hd]; rfl)
          fun i => by rw [hd, Stores.ofRecord]; simp only [WorkQueue.reserves_ofDepth]
      cases d with
      | send => exact hempty s.sendDepth rfl
      | receive => exact hempty s.receiveDepth rfl
    · have hn := hold.numbers d n
      simp only [World.stores, hgoods] at hn
      simp only [World.stores, hnew]
      exact hn
  · rw [make_stores _ he]
    exact hold

theorem Keeps.outside {i : Input} (h : Keeps w e) (hi : i.outside = true)
    (ha : w.apply i = some v) : Keeps v e := by
  cases outside_of_apply hi ha with
  | make => exact h.make
  | @operate e' x op _ =>
    obtain ⟨hs, hn⟩ := operation_new (e := e) (p := ⟨e', x.settings⟩) (some e') op
    refine h.begin hs hn rfl ?_
    exact modify_stores (w := w) (fun _ => rfl) fun _ => rfl
  | request op =>
    obtain ⟨hs, hn⟩ := request_new (e := e) op
    exact h.begin hs hn rfl rfl
  | drop e' =>
    have hs : (Thread.ofTask (.leaving e' .release (.returned (.ok .unit)))).Shaped := .leaving
    exact h.begin hs (fun _ => rfl) rfl rfl
  | register _ _ _ hx => exact h.congr rfl (register_stores hx)
  | release => exact h.congr rfl rfl

theorem panic_tally (m : Holding) (ht : w.threads[t]? = some th) :
    tally m.thread (w.panic t th).threads + m.thread th = tally m.thread w.threads := by
  have hset := tally_set (f := m.thread) ht th.unwound
  have hnone : m.thread th.unwound = 0 := Holding.task_finish _ _
  rwa [hnone, Nat.add_zero, ← panic_threads t th] at hset

theorem Keeps.panic (h : Keeps w e) (ht : w.threads[t]? = some th) :
    Keeps (w.panic t th) e := by
  have hm := List.mem_of_getElem? ht
  have hlt := (List.getElem?_eq_some_iff.mp ht).1
  have hv := panic_threads (w := w) t th
  have hg : Goes th th.unwound := ⟨rfl, fun _ => th.unwound_panicked⟩
  have hnone : ∀ a, (holding e a).thread th.unwound = 0 := fun a => Holding.task_finish _ _
  have hst : (w.panic t th).stores e = w.stores e := abandon_stores th
  refine ⟨fun b hb => ?_, fun exact hharm => ?_⟩
  · rw [hv] at hb
    rcases List.mem_or_eq_of_mem_set hb with hb | rfl
    · exact h.shaped b hb
    · exact Thread.finish_shaped _ _ _
  · have hold := h.custody exact fun he hw => hharm he (hw.set ht hv hg)
    rw [hst]
    cases exact with
    | false => exact hold.lose fun a => Nat.le.intro (panic_tally (holding e a) ht)
    | true =>
      have ho : th.origin.attends e = false := by
        rw [← Bool.not_eq_true]
        intro ho
        exact hharm rfl ⟨th.unwound, hv ▸ List.mem_of_getElem? (List.getElem?_set_self hlt), ho,
          th.unwound_panicked⟩
      refine hold.preserved (.still _) (hands_set ht hv fun a => ?_)
      rw [hnone]
      cases hx : a.exact with
      | false => exact Nat.zero_le _
      | true =>
        rw [(h.shaped th hm).aloof ho hx]
        exact within_refl _

theorem invoke_starts {p : Party} {i : Invocation} {c : Callback}
    (h : (w.invoke p i).2 = some c) :
    ∃ lane id payload script, Callback.start p lane id payload script = some c := by
  cases i with
  | resolve d job error =>
    simp only [invoke, resolve] at h
    split at h
    · cases h
    · exact ⟨_, _, _, _, h⟩
  | disconnect script => exact ⟨_, _, _, _, h⟩

theorem invoke_start {p : Party} {i : Invocation} {c : Callback}
    (h : (w.invoke p i).2 = some c) : c.OfParty p ∧ ∀ a, (holding e a).callback c = 0 := by
  obtain ⟨lane, id, payload, script, hs⟩ := invoke_starts h
  exact ⟨start_ofParty hs, fun a => (holding_obeys e a).start hs⟩

theorem invoke_push {m : Holding} {T : Tariff} (h : m.Obeys exact T) {p : Party} {i : Invocation}
    (after : Thread) : m.thread (after.push (w.invoke p i).2) = m.thread after := by
  cases hc : (w.invoke p i).2 with
  | none => rfl
  | some c =>
    obtain ⟨_, _, _, _, hs⟩ := invoke_starts hc
    simp [Holding.thread, Thread.push, h.start hs]

theorem invoke_within {p : Party} {i : Invocation} {after : Thread} (hs : th.Shaped)
    (hn : th.next = .invoke p i after) (a : Asset) : Within a.exact
      ((holding e a).thread (after.push (w.invoke p i).2) + (i.deed e p).costs a)
      ((holding e a).thread th + (i.deed e p).brings a) := by
  have hacc := (holding_obeys e a).thread hs
  rw [hn] at hacc
  have hbrings : (i.deed e p).brings a = 0 := by
    cases i with
    | disconnect => rfl
    | resolve =>
      simp only [Invocation.deed]
      split <;> rfl
  rw [invoke_push (holding_obeys e a), hbrings]
  exact hacc

theorem Keeps.atom {allowed : Input → Prop} (h : Keeps w e) (ha : Atom allowed w v) :
    Keeps v e := by
  cases ha with
  | @act t th α p next u a ht hn hans =>
    have hs := h.shaped th (List.mem_of_getElem? ht)
    obtain ⟨q, hleads⟩ := hs.leads
    have hinto := th.next_into
    rw [hn] at hleads hinto
    obtain ⟨hmid, hthere, -⟩ := h.answered ht hans
    refine hmid.go hthere rfl (hleads.2 a) ⟨(hinto a).1, (hinto a).2⟩
      (hans.deed hleads.1 e) fun b => ?_
    have hacc := (holding_obeys e b).thread hs
    rw [hn] at hacc
    exact hacc a
  | @invoke t th p i after ht hn =>
    have hs := h.shaped th (List.mem_of_getElem? ht)
    obtain ⟨q, hleads⟩ := hs.leads
    have hinto := th.next_into
    rw [hn] at hleads hinto
    obtain ⟨rfl, hready⟩ := hleads
    have hnew : ∀ c ∈ (w.invoke p i).2, c.OfParty p := fun c hc => (invoke_start (e := e) hc).1
    refine h.go ht ?_ (hready _ hnew) ⟨hinto.1, hinto.2⟩ (invoke_deed w p i e)
      fun b => ?_
    · simp only [putThread, invoke_threads]
    · exact invoke_within hs hn b
  | panic ht _ => exact h.panic ht
  | outside _ hi ha => exact h.outside hi ha
  | settle ha =>
    refine h.congr ha.threads ?_
    simp only [stores, goods, ha.endpoints, ha.history]

theorem outside_tally {m : Holding} {exact : Bool} {T : Tariff} {i : Input} (h : m.Obeys exact T)
    (hi : i.outside = true) (ha : w.apply i = some v) :
    tally m.thread v.threads = tally m.thread w.threads := by
  have hbegin : ∀ th, v.threads = w.threads ++ [th] → m.thread th = 0 →
      tally m.thread v.threads = tally m.thread w.threads := fun th hv hn => by
    rw [hv, tally_append, hn, Nat.add_zero]
  cases outside_of_apply hi ha with
  | make => rfl
  | @operate e' x op _ =>
    refine hbegin _ rfl ?_
    cases hop : Call.ofOperation ⟨e', x.settings⟩ op with
    | more c => exact h.operation hop
    | done r => exact Holding.task_finish (m := m) (some e') (.returned r)
  | request op =>
    refine hbegin _ rfl ?_
    cases hop : Call.ofObject op with
    | more c => exact h.object hop
    | done r => rfl
  | drop => exact hbegin _ rfl rfl
  | register => rfl
  | release => rfl

theorem outside_hands {i : Input} (hi : i.outside = true) (ha : w.apply i = some v) :
    v.hands e = w.hands e :=
  funext fun a => outside_tally (holding_obeys e a) hi ha

/-- What happens in the world is one deed for the queues of an endpoint, and panicking threads lose
what they have; unless somebody acts from outside. -/
theorem Keeps.deed_or_outside {allowed : Input → Prop} (h : Keeps w e) (ha : Atom allowed w v) :
    (∃ act, (w.stores e).Does act (v.stores e) ∧
      ∀ a, v.hands e a + act.costs a ≤ w.hands e a + act.brings a) ∨
    ∃ i, i.outside = true ∧ w.apply i = some v := by
  have hrest : v.stores e = w.stores e → (∀ a, v.hands e a ≤ w.hands e a) →
      ∃ act, (w.stores e).Does act (v.stores e) ∧
        ∀ a, v.hands e a + act.costs a ≤ w.hands e a + act.brings a :=
    fun hs hh => ⟨.rest, hs ▸ .still _, hh⟩
  cases ha with
  | @act t th α p next u a ht hn hans =>
    have hs := h.shaped th (List.mem_of_getElem? ht)
    obtain ⟨q, hleads⟩ := hs.leads
    rw [hn] at hleads
    obtain ⟨-, hthere, hhands⟩ := h.answered ht hans
    refine .inl ⟨_, hans.deed hleads.1 e, fun b => ?_⟩
    rw [← hhands]
    refine (hands_set hthere rfl (fun b => ?_) b).le
    have hacc := (holding_obeys e b).thread hs
    rw [hn] at hacc
    exact hacc a
  | @invoke t th p i after ht hn =>
    have hthreads : ((w.invoke p i).1.putThread t (after.push (w.invoke p i).2)).threads =
        w.threads.set t (after.push (w.invoke p i).2) :=
      congrArg (List.set · t _) (invoke_threads p i)
    refine .inl ⟨_, invoke_deed w p i e, fun b => (hands_set ht hthreads (fun b => ?_) b).le⟩
    exact invoke_within (h.shaped th (List.mem_of_getElem? ht)) hn b
  | @panic t th ht =>
    exact .inl (hrest (abandon_stores th)
      fun b => Nat.le.intro (panic_tally (holding e b) ht))
  | outside _ hi ha => exact .inr ⟨_, hi, ha⟩
  | settle ha =>
    refine .inl (hrest ?_ fun b => ?_)
    · simp only [stores, goods, ha.endpoints, ha.history]
    · simp only [hands, ha.threads, Nat.le_refl]

theorem Keeps.deed {allowed : Input → Prop} (h : Keeps w e) (he : e < w.endpoints.length)
    (ha : Atom allowed w v) : ∃ act, (w.stores e).Does act (v.stores e) ∧
      ∀ a, v.hands e a + act.costs a ≤ w.hands e a + act.brings a := by
  rcases h.deed_or_outside ha with hdeed | ⟨i, hi, happly⟩
  · exact hdeed
  · refine ⟨.rest, ?_, fun a => Nat.le_of_eq (congrFun (outside_hands hi happly) a)⟩
    rw [outside_stores (fun _ _ => Nat.ne_of_lt he) hi happly]
    exact .still _

theorem Keeps.run {allowed : Input → Prop} (h : Keeps w e) (hq : w.Queued)
    (hr : Run allowed w v) : Keeps v e :=
  (hr.induction (m := fun u => Keeps u e) hq h fun h ha => h.atom ha).1

theorem keeps_of_new (ht : w.threads = []) (hh : w.history = [])
    (hx : ∀ x, w.endpoints[e]? = some x → ∃ s f, x = .ofSettings s f) : Keeps w e := by
  refine ⟨by simp [ht], fun exact _ => .of_empty (fun d => ?_) fun a => by simp [hands, ht]⟩
  cases he : w.endpoints[e]? with
  | none => exact ⟨0, by simp [World.stores, Stores.ofRecord, goods, he, hh]⟩
  | some x =>
    obtain ⟨s, f, rfl⟩ := hx x he
    cases d with
    | send => exact ⟨s.sendDepth, by simp [World.stores, Stores.ofRecord, goods_eq he, hh]; rfl⟩
    | receive =>
      exact ⟨s.receiveDepth, by simp [World.stores, Stores.ofRecord, goods_eq he, hh]; rfl⟩

theorem empty_keeps (e : EndpointId) : Keeps empty e :=
  keeps_of_new rfl rfl fun x hx => by cases hx

end World

end QueuePair
