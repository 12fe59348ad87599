import QueuePair.Proofs.Lifespan
import QueuePair.Proofs.Stopping

namespace QueuePair

open Relation (ReflTransGen)

def Primitive.worker? {α : Type} : Primitive α → Option (Party × Link × Direction)
  | .spawn q l d => some (q, l, d)
  | _ => none

theorem Primitive.expired_still {α : Type} {p : Primitive α} {a : α} (h : p.expired? = some a) :
    p.still = true ∧ ∀ e, p.closes e = false := by
  cases p with
  | endpoint e c => cases c <;> first | exact ⟨rfl, fun _ => rfl⟩ | cases h
  | note => cases h
  | _ => exact ⟨rfl, fun _ => rfl⟩

namespace Thread

variable {e : EndpointId} {d : Direction} {th b : Thread}

def Drifts (th b : Thread) : Prop :=
  ∃ (α : Type) (p : Primitive α) (next : α → Thread) (a : α), th.next = .perform p next ∧
    (p.still = true ∧ ∀ e, p.closes e = false) ∧ next a = b

theorem complete_drifts (th : Thread) (r : Except Error Unit) :
    ReflTransGen Drifts th (th.complete r) := by
  unfold complete
  split
  · rename_i next hn
    exact .single ⟨_, _, next, _, hn, ⟨rfl, fun _ => rfl⟩, rfl⟩
  · exact .refl

theorem wake_drifts (th : Thread) (e : EndpointId) : ReflTransGen Drifts th (th.wake e) := by
  unfold wake
  split
  · rename_i e' limit next hn
    split
    · exact .single ⟨_, _, next, _, hn, ⟨rfl, fun _ => rfl⟩, rfl⟩
    · exact .refl
  · exact .refl

theorem Drifts.work {x : Nat × Nat} (h : Drifts th b) (hb : b.task.work? e d = some x) :
    th.task.work? e d = some x := by
  obtain ⟨α, p, next, a, hn, hp, rfl⟩ := h
  have hminds := th.tracksJob (e := e) (d := d)
  rw [hn] at hminds
  rcases (hminds a).2.2.2 with hnone | hnow | ⟨j, job, hd, -⟩
  · cases hnone.symm.trans hb
  · exact hnow.symm.trans hb
  · cases (p.deed_still e a hp.1).symm.trans hd

theorem Drifts.given {j : Nat} (h : Drifts th b) (hb : b.task.given? e d = some j) :
    th.task.given? e d = some j := by
  obtain ⟨α, p, next, a, hn, hp, rfl⟩ := h
  have hminds := th.tracksJob (e := e) (d := d)
  rw [hn] at hminds
  rcases (hminds a).2.2.1 with hnone | hstill
  · cases hnone.symm.trans hb
  · exact hstill.symm.trans hb

theorem work_of_drifts {x : Nat × Nat} (h : ReflTransGen Drifts th b)
    (hb : b.task.work? e d = some x) : th.task.work? e d = some x := by
  induction h with
  | refl => exact hb
  | tail _ h ih => exact ih (h.work hb)

theorem given_of_drifts {j : Nat} (h : ReflTransGen Drifts th b)
    (hb : b.task.given? e d = some j) : th.task.given? e d = some j := by
  induction h with
  | refl => exact hb
  | tail _ h ih => exact ih (h.given hb)

end Thread

theorem Task.Begins.idle {e : EndpointId} {d : Direction} {task : Task} (h : task.Begins) :
    task.work? e d = none ∧ task.given? e d = none := by
  cases h with
  | @started owner s hs =>
    cases s with
    | more c => exact ⟨rfl, rfl⟩
    | done r => exact ⟨Task.work?_finish _ _ _ _, Task.given?_finish _ _ _ _⟩
  | leaving => exact ⟨rfl, rfl⟩

/-- A thread as it begins. -/
inductive Thread.Fresh : Thread → Prop
  | begins {task : Task} : task.Begins → Fresh (.ofTask task)
  | worker {p : Party} {l : Link} {d : Direction} : Fresh (.ofTask (World.worker p l d))

theorem Thread.Fresh.idle {e : EndpointId} {d : Direction} {b : Thread} (h : b.Fresh) :
    b.task.work? e d = none ∧ b.task.given? e d = none := by
  cases h with
  | begins h => exact h.idle
  | @worker p l d' =>
    cases d' <;> simp [ofTask, World.worker, Task.work?, Task.given?, Sender.work?, Sender.given?,
      Receiver.work?, Receiver.given?]

namespace World

variable {w v u : World} {e : EndpointId} {d : Direction} {t : ThreadId} {th b : Thread}
  {x : Endpoint}

section

variable {k : ThreadId}

theorem foldl_complete_drifts {ends : List Completion} {ths : List Thread}
    (hb : (ends.foldl (fun ths c => ths.modify c.thread (·.complete c.result)) ths)[k]? = some b) :
    ∃ th, ths[k]? = some th ∧ ReflTransGen Thread.Drifts th b := by
  induction ends generalizing ths with
  | nil => exact ⟨b, hb, .refl⟩
  | cons c ends ih =>
    obtain ⟨th, hth, hdrift⟩ := ih hb
    rw [List.getElem?_modify] at hth
    obtain ⟨th', hth', rfl⟩ := Option.map_eq_some_iff.mp hth
    refine ⟨th', hth', .trans ?_ hdrift⟩
    split
    · exact th'.complete_drifts _
    · exact .refl

theorem wake_drift (hb : (w.wake e).threads[k]? = some b) :
    ∃ th, w.threads[k]? = some th ∧ ReflTransGen Thread.Drifts th b := by
  rw [World.wake, List.getElem?_map] at hb
  obtain ⟨th, hth, rfl⟩ := Option.map_eq_some_iff.mp hb
  exact ⟨th, hth, th.wake_drifts e⟩

/-- What an action of a thread does to the threads: some drift, and a worker begins if the action
starts one. -/
theorem perform_drifts {α : Type} {p : Primitive α}
    (hp : w.perform t p = .queued u ∨ ∃ a, w.perform t p = .done u a)
    (hb : u.threads[k]? = some b) :
    (∃ th, w.threads[k]? = some th ∧ ReflTransGen Thread.Drifts th b) ∨
      ∃ q l d, p.worker? = some (q, l, d) ∧ b = .ofTask (worker q l d) := by
  cases p with
  | system c =>
    have hu : u.threads = (({ w with kernel := (w.kernel.call t c).kernel }.complete
        (w.kernel.call t c).ends).observe t (w.kernel.call t c).answer c).threads := by
      simp only [perform] at hp
      split at hp <;> rcases hp with hp | ⟨a, hp⟩ <;> cases hp <;> rfl
    rw [hu, observe_threads] at hb
    exact .inl (foldl_complete_drifts hb)
  | endpoint e c =>
    cases hcall : w.endpoints[e]?.bind (·.call t c) with
    | none => rcases hp with hp | ⟨a, hp⟩ <;> simp [perform, hcall] at hp
    | some s =>
      have hsame := (notes_same (e := e) s.notes (w.putEndpoint e s.endpoint)).1
      have hu : u = if s.wakes then (s.notes.foldl (·.note e ·) (w.putEndpoint e s.endpoint)).wake e
          else s.notes.foldl (·.note e ·) (w.putEndpoint e s.endpoint) := by
        rcases hp with hp | ⟨a, hp⟩ <;> simp only [perform, hcall] at hp <;> cases hp
        rfl
      rw [hu] at hb
      split at hb
      · obtain ⟨th, hth, hdrift⟩ := wake_drift hb
        rw [hsame] at hth
        exact .inl ⟨th, hth, hdrift⟩
      · rw [hsame] at hb
        exact .inl ⟨b, hb, .refl⟩
  | spawn q l d =>
    rcases hp with hp | ⟨a, hp⟩ <;> cases hp
    have hmem : (w.threads ++ [Thread.ofTask (worker q l d)])[k]? = some b := hb
    rcases Nat.lt_or_ge k w.threads.length with hlt | hle
    · rw [List.getElem?_append_left hlt] at hmem
      exact .inl ⟨b, hmem, .refl⟩
    · rw [List.getElem?_append_right hle, List.getElem?_singleton] at hmem
      split at hmem <;> cases hmem
      exact .inr ⟨q, l, d, rfl, rfl⟩
  | clock | note =>
    rcases hp with hp | ⟨a, hp⟩ <;> cases hp
    exact .inl ⟨b, hb, .refl⟩
  | park => rcases hp with hp | ⟨a, hp⟩ <;> cases hp
  | join j =>
    simp only [perform] at hp
    split at hp
    · rcases hp with hp | ⟨a, hp⟩ <;> cases hp
      exact .inl ⟨b, hb, .refl⟩
    · split at hp <;> rcases hp with hp | ⟨a, hp⟩ <;> cases hp
      exact .inl ⟨b, hb, .refl⟩
  | hold id =>
    simp only [perform] at hp
    split at hp <;> rcases hp with hp | ⟨a, hp⟩ <;> cases hp
    exact .inl ⟨b, hb, .refl⟩

inductive Proceeds (w : World) (t : ThreadId) (th : Thread) : Thread → Prop
  | answer {α : Type} {p : Primitive α} {next : α → Thread} {u : World} {a : α} :
      th.next = .perform p next → w.perform t p = .done u a → Proceeds w t th (next a)
  | invoke {p : Party} {i : Invocation} {after : Thread} : th.next = .invoke p i after →
      Proceeds w t th (after.push (w.invoke p i).2)
  | panic : Proceeds w t th th.unwound

/-- What becomes of the threads with an input. -/
theorem apply_thread {i : Input} (ha : w.apply i = some v) (hb : v.threads[k]? = some b) :
    (∃ th, w.threads[k]? = some th ∧
      (ReflTransGen Thread.Drifts th b ∨ i = .run k ∧ w.Proceeds k th b)) ∨ b.Fresh := by
  -- of a thread list where one was replaced
  have hset : ∀ {ths : List Thread} {t : ThreadId} {th' : Thread},
      (ths.set t th')[k]? = some b → t = k ∧ b = th' ∨ t ≠ k ∧ ths[k]? = some b := by
    intro ths t th' h
    rw [List.getElem?_set] at h
    split at h
    · split at h <;> cases h
      exact .inl ⟨‹_›, rfl⟩
    · exact .inr ⟨‹_›, h⟩
  have hdrift : ∀ {α : Type} {p : Primitive α} {u : World} {t : ThreadId},
      w.perform t p = .queued u ∨ (∃ a, w.perform t p = .done u a) → u.threads[k]? = some b →
      (∃ th, w.threads[k]? = some th ∧
        (ReflTransGen Thread.Drifts th b ∨ i = .run k ∧ w.Proceeds k th b)) ∨ b.Fresh := by
    intro α p u t hp hu
    obtain ⟨th, hth, h⟩ | ⟨q, l, d, -, rfl⟩ := perform_drifts hp hu
    · exact .inl ⟨th, hth, .inl h⟩
    · exact .inr .worker
  cases i with
  | run t =>
    obtain ⟨th, ht, -, ⟨α, p, next, hn, hp⟩ | ⟨p, i, after, hn, rfl⟩ | ⟨hn, rfl⟩⟩ := step_cases ha
    · rcases hp with hp | ⟨u, a, hp, rfl⟩
      · exact hdrift (.inl hp) hb
      · rcases hset hb with ⟨rfl, rfl⟩ | ⟨-, hb⟩
        · exact .inl ⟨th, ht, .inr ⟨rfl, .answer hn hp⟩⟩
        · exact hdrift (.inr ⟨a, hp⟩) hb
    · rcases hset hb with ⟨rfl, rfl⟩ | ⟨-, hb⟩
      · exact .inl ⟨th, ht, .inr ⟨rfl, .invoke hn⟩⟩
      · rw [invoke_threads] at hb
        exact .inl ⟨b, hb, .inl .refl⟩
    · rw [panic_threads] at hb
      rcases hset hb with ⟨rfl, rfl⟩ | ⟨-, hb⟩
      · exact .inl ⟨th, ht, .inr ⟨rfl, .panic⟩⟩
      · exact .inl ⟨b, hb, .inl .refl⟩
  | expire t =>
    simp only [apply, World.expire] at ha
    split at ha
    · rename_i deadline th' hd hth'
      cases ha
      obtain ⟨th, hth, hx⟩ := Option.bind_eq_some_iff.mp hth'
      rcases hset hb with ⟨rfl, rfl⟩ | ⟨-, hb⟩
      · refine .inl ⟨th, hth, .inl (.single ?_)⟩
        unfold Thread.expire? at hx
        split at hx
        · rename_i α p next hn
          obtain ⟨a, hp, rfl⟩ := Option.map_eq_some_iff.mp hx
          exact ⟨α, p, next, a, hn, Primitive.expired_still hp, rfl⟩
        · cases hx
      · exact .inl ⟨b, hb, .inl .refl⟩
    · cases ha
  | _ =>
    obtain ⟨news, hv, hnews⟩ := outside_threads rfl ha
    rw [hv] at hb
    rcases Nat.lt_or_ge k w.threads.length with hlt | hle
    · rw [List.getElem?_append_left hlt] at hb
      exact .inl ⟨b, hb, .inl .refl⟩
    · rw [List.getElem?_append_right hle] at hb
      obtain ⟨task, rfl, hbegins⟩ := hnews b (List.mem_of_getElem? hb)
      exact .inr (.begins hbegins)

end

/-- What becomes of an entry of a queue when something happens. -/
inductive Turn (w v : World) (i : Input) (e : EndpointId) (d : Direction) (j : Nat) :
    Slot Job → Slot Job → Prop
  | stay (s : Slot Job) : Turn w v i e d j s s
  -- jobs are queued in free entries, as long as the queues go on
  | post {x : Endpoint} {job : Job} : w.endpoints[e]? = some x → x.stopped = false →
      Turn w v i e d j .free (.posted job)
  -- the worker that takes a job works on it then
  | take {t : ThreadId} {th : Thread} {job : Job} : i = .run t → v.threads[t]? = some th →
      th.task.work? e d = some (j, job.serial) → Turn w v i e d j (.posted job) .inFlight
  -- jobs of waiting callers, for which no callback is to run, can be taken back
  | withdraw {t : ThreadId} {th : Thread} {job : Job} {next : Bool → Thread} : i = .run t →
      w.threads[t]? = some th → th.next = .perform (.endpoint e (.cancel d job.serial)) next →
      job.handler = .caller → Turn w v i e d j (.posted job) .free
  | drain {t : ThreadId} {th : Thread} {job : Job} {next : List Job → Thread} : i = .run t →
      w.threads[t]? = some th → th.next = .perform (.endpoint e (.drain d)) next →
      Turn w v i e d j (.posted job) .free
  -- the worker has given the job back, and no callback runs on it any more
  | recycle {t : ThreadId} {th : Thread} : i = .run t → w.threads[t]? = some th →
      th.callbacks = [] → th.task.given? e d = some j → Turn w v i e d j .inFlight .free

theorem Keeps.reserved (hk : w.Keeps e) (hx : w.endpoints[e]? = some x) (hm : th ∈ w.threads)
    {j : Nat} (hj : (∃ n, th.task.work? e d = some (j, n)) ∨ th.task.given? e d = some j) :
    (x.queue d).Reserved j := by
  have hkept := (hk.custody false (by simp)).kept d
  rw [← shelf_queue hx]
  refine hkept.reserved (Nat.le_trans ?_ (le_tally hm))
  refine Nat.le_trans ?_ (Nat.le_add_right _ _)
  have hsender : ∀ s : Sender, (∃ n, s.work? = some (j, n)) ∨ s.given? = some j →
      some j = s.slot? := fun s hs => by
    cases s <;> simp_all [Sender.work?, Sender.given?, Sender.slot?]
  have hreceiver : ∀ s : Receiver, (∃ n, s.work? = some (j, n)) ∨ s.given? = some j →
      some j = s.slot? := fun s hs => by
    cases s <;> simp_all [Receiver.work?, Receiver.given?, Receiver.slot?]
  cases htask : th.task with
  | sender p l s =>
    by_cases hp : p.id = e ∧ d = .send
    · have hslot := hsender s (by simpa [htask, Task.work?, Task.given?, hp] using hj)
      simp [Holding.task, holding, hp, hslot]
    · simp [htask, Task.work?, Task.given?, hp] at hj
  | receiver p l s =>
    by_cases hp : p.id = e ∧ d = .receive
    · have hslot := hreceiver s (by simpa [htask, Task.work?, Task.given?, hp] using hj)
      simp [Holding.task, holding, hp, hslot]
    · simp [htask, Task.work?, Task.given?, hp] at hj
  | call | leaving | ended => simp [htask, Task.work?, Task.given?] at hj

theorem Keeps.caller_of_cancel {next : Bool → Thread} {j : Nat} {job : Job} (hk : w.Keeps e)
    (hx : w.endpoints[e]? = some x) (ht : w.threads[t]? = some th)
    (hn : th.next = .perform (.endpoint e (.cancel d job.serial)) next)
    (hj : (x.queue d).slab.slots[j]? = some (.posted job)) : job.handler = .caller := by
  have hcustody := hk.custody false (by simp)
  have huses := hcustody.numbers d job.serial
  unfold Stores.uses at huses
  refine (hcustody.kept d).caller_of_wait (by omega) (hk.cancels ht hn) ?_
  rw [shelf_queue hx]
  exact List.mem_filterMap.mpr
    ⟨j, ((hk.tidy hx d).posted j).mpr ⟨job, hj⟩, Slab.get?_eq_some.mpr hj⟩

theorem call_accepts {α : Type} {c : EndpointCall α} {s : Section α} {job : Job}
    (hc : x.call t c = some s) (hd : c.deed s.answer = .accept d job) : x.stopped = false := by
  cases c with
  | post d' job' =>
    simp only [Endpoint.call, Option.some.injEq] at hc
    cases hs : x.stopped with
    | false => rfl
    | true =>
      simp only [Endpoint.post, hs, if_true] at hc
      subst hc
      cases hd
  | nextSend =>
    cases ha : s.answer <;> simp [EndpointCall.deed, Supply.deed, ha] at hd
  | nextReceive =>
    cases ha : s.answer <;> simp [EndpointCall.deed, ha] at hd
  | cancel =>
    cases ha : s.answer <;> simp [EndpointCall.deed, ha] at hd
  | _ => cases hd

theorem withdraw_access {α σ : Type} {c : EndpointCall α} {a : α} {n : Nat} {next : α → σ}
    {mv : Move σ} (hn : mv = .perform (.endpoint e c) next) (hd : c.deed a = .withdraw d n) :
    ∃ next : Bool → σ, mv = .perform (.endpoint e (.cancel d n)) next := by
  cases c with
  | cancel d' n' =>
    cases ha : a <;> simp only [EndpointCall.deed, ha, if_true, Bool.false_eq_true, if_false,
      reduceCtorEq, Deed.withdraw.injEq] at hd
    obtain ⟨rfl, rfl⟩ := hd
    exact ⟨next, hn⟩
  | post | nextSend | nextReceive =>
    cases ha : a <;> simp [EndpointCall.deed, Posted.deed, Supply.deed, ha] at hd
  | _ => cases hd

theorem drain_access {α σ : Type} {c : EndpointCall α} {a : α} {jobs : List Job} {next : α → σ}
    {mv : Move σ} (hn : mv = .perform (.endpoint e c) next) (hd : c.deed a = .drain d jobs) :
    ∃ next : List Job → σ, mv = .perform (.endpoint e (.drain d)) next := by
  cases c with
  | drain d' =>
    obtain ⟨rfl, rfl⟩ := Deed.drain.inj hd
    exact ⟨next, hn⟩
  | post | nextSend | nextReceive | cancel =>
    cases ha : a <;> simp [EndpointCall.deed, Posted.deed, Supply.deed, ha] at hd
  | _ => cases hd

/-- A thread accesses the queues of an endpoint, and its entries turn. -/
theorem Keeps.access_turn {α : Type} {c : EndpointCall α} {next : α → Thread} {s : Section α}
    (hk : w.Keeps e) (hx : w.endpoints[e]? = some x) (ht : w.threads[t]? = some th)
    (hn : th.next = .perform (.endpoint e c) next) (hc : x.call t c = some s)
    (hv : v.threads[t]? = some (next s.answer)) {j : Nat} {old : Slot Job}
    (hj : (x.queue d).slab.slots[j]? = some old) :
    ∃ new, (s.endpoint.queue d).slab.slots[j]? = some new ∧ Turn w v (.run t) e d j old new := by
  have hminds := th.tracksJob (e := e) (d := d)
  rw [hn] at hminds
  have hdeed : (Primitive.endpoint e c).deed e s.answer = c.deed s.answer := by
    simp [Primitive.deed]
  obtain ⟨htake, hgive, -⟩ := hminds s.answer
  rw [hdeed] at htake hgive
  obtain ⟨new, hnew, hturn⟩ := (call_deed 0 [] hc).turns (d := d) (hk.tidy hx d)
    (fun i hi => hk.reserved hx (List.mem_of_getElem? ht) (.inr (hgive i hi))) hj
  refine ⟨new, hnew, ?_⟩
  generalize hact : c.deed s.answer = act at hturn htake hgive
  cases hturn with
  | stay => exact .stay _
  | accept => exact .post hx (call_accepts hc hact)
  | take => exact .take rfl hv (htake _ _ rfl)
  | complete =>
    exact .recycle rfl ht (th.callbacks_over hn (hdeed.trans hact)) (hgive j rfl)
  | withdraw =>
    obtain ⟨next', hn'⟩ := withdraw_access hn hact
    exact .withdraw rfl ht hn' (hk.caller_of_cancel hx ht hn' hj)
  | drain =>
    obtain ⟨next', hn'⟩ := drain_access hn hact
    exact .drain rfl ht hn'

theorem Keeps.turn {i : Input} (hk : w.Keeps e) (hx : w.endpoints[e]? = some x)
    (ha : w.apply i = some v) : ∃ y, v.endpoints[e]? = some y ∧ ∀ d j old,
      (x.queue d).slab.slots[j]? = some old →
      ∃ new, (y.queue d).slab.slots[j]? = some new ∧ Turn w v i e d j old new := by
  rcases apply_akin_or_access ha e with hv | ⟨t, th, α, c, next, rfl, ht, hn⟩
  · obtain ⟨y, hy, hxy⟩ := hv.ends hx
    exact ⟨y, hy, fun d j old hj => ⟨old, by rw [hxy.queue, hj], .stay old⟩⟩
  · obtain ⟨u, z, s, hz, hc, -, hv, -, -, hends⟩ := step_access ht hn ha
    obtain rfl := Option.some.inj (hx.symm.trans hz)
    refine ⟨s.endpoint, ?_, fun d j old hj => hk.access_turn hx ht hn hc hv hj⟩
    rw [hends]
    exact List.getElem?_set_self (List.getElem?_eq_some_iff.mp hx).1

def Resolves (w v : World) (e : EndpointId) (d : Direction) (t : ThreadId) (n : Nat) : Prop :=
  ∃ (u : World) (th after : Thread) (p : Party) (job : Job) (error : Option Error),
    Run (fun _ => True) w u ∧ Run (fun _ => True) u v ∧ u.threads[t]? = some th ∧
    th.next = .invoke p (.resolve d job error) after ∧ p.id = e ∧ job.serial = n

/-- On the way, a thread gives the job of a number back, and comes back from the callback for it,
with nothing left to do about the job but to give its entry back. -/
def Returns (w v : World) (e : EndpointId) (d : Direction) (t : ThreadId) (j n : Nat) : Prop :=
  ∃ (u : World) (th : Thread), Resolves w u e d t n ∧ Run (fun _ => True) u v ∧
    u.threads[t]? = some th ∧ th.callbacks = [] ∧ th.task.given? e d = some j

theorem Resolves.mono {n : Nat} (h : Resolves w v e d t n) (hr : Run (fun _ => True) v u) :
    Resolves w u e d t n := by
  obtain ⟨a, th, after, p, job, error, hwa, hav, rest⟩ := h
  exact ⟨a, th, after, p, job, error, hwa, hav.trans hr, rest⟩

theorem Returns.mono {j n : Nat} (h : Returns w v e d t j n) (hr : Run (fun _ => True) v u) :
    Returns w u e d t j n := by
  obtain ⟨a, th, hres, hav, rest⟩ := h
  exact ⟨a, th, hres, hav.trans hr, rest⟩

/-- An entry is in use, and nobody has it but one worker, which works on the job of one number or
has given that job back. -/
structure Serves (w v : World) (e : EndpointId) (d : Direction) (t : ThreadId) (j n : Nat) :
    Prop where
  slot : ∃ y, v.endpoints[e]? = some y ∧ (y.queue d).slab.slots[j]? = some .inFlight
  work : ∀ {k : ThreadId} {b : Thread} {m : Nat}, v.threads[k]? = some b →
    b.task.work? e d = some (j, m) → k = t ∧ m = n
  given : ∀ {k : ThreadId} {b : Thread}, v.threads[k]? = some b →
    b.task.given? e d = some j → k = t ∧ Resolves w v e d t n

theorem Keeps.posted_of_take {α : Type} {p : Primitive α} {a : α} {j : Nat} {job : Job}
    (hk : w.Keeps e) (hx : w.endpoints[e]? = some x) (hp : w.perform t p = .done u a)
    (hd : p.deed e a = .take d j job) : (x.queue d).slab.slots[j]? = some (.posted job) := by
  cases p with
  | endpoint e' c =>
    simp only [Primitive.deed] at hd
    split at hd
    · rename_i he
      subst he
      simp only [perform, hx, Option.bind_some] at hp
      cases hcall : x.call t c with
      | none => simp [hcall] at hp
      | some s =>
        simp only [hcall, Effect.done.injEq] at hp
        obtain ⟨-, rfl⟩ := hp
        have hdoes := call_deed 0 [] hcall
        rw [hd] at hdoes
        exact hdoes.posted_of_take (hk.tidy hx d)
    · cases hd
  | _ => cases hd

theorem Keeps.work_of_apply {i : Input} {k : ThreadId} {j n : Nat} (hk : w.Keeps e)
    (hx : w.endpoints[e]? = some x) (ha : w.apply i = some v) (hb : v.threads[k]? = some b)
    (hwork : b.task.work? e d = some (j, n)) :
    (∃ th, w.threads[k]? = some th ∧ th.task.work? e d = some (j, n)) ∨
      ∃ job, (x.queue d).slab.slots[j]? = some (.posted job) := by
  obtain ⟨th, hth, hdrift | ⟨-, hgo⟩⟩ | hidle := apply_thread ha hb
  · exact .inl ⟨th, hth, Thread.work_of_drifts hdrift hwork⟩
  · have hminds := th.tracksJob (e := e) (d := d)
    cases hgo with
    | @answer α p next u' a hn hp =>
      rw [hn] at hminds
      rcases (hminds a).2.2.2 with hnone | hnow | ⟨i, job, hd, htake⟩
      · cases hnone.symm.trans hwork
      · exact .inl ⟨th, hth, hnow.symm.trans hwork⟩
      · obtain ⟨rfl, -⟩ := Prod.mk.inj (Option.some.inj (htake.symm.trans hwork))
        exact .inr ⟨job, hk.posted_of_take hx hp hd⟩
    | invoke hn =>
      rw [hn] at hminds
      rcases hminds.1 with hnone | hnow
      · cases hnone.symm.trans hwork
      · exact .inl ⟨th, hth, hnow.symm.trans hwork⟩
    | panic => cases (Task.work?_finish _ _ _ _).symm.trans hwork
  · cases hidle.idle.1.symm.trans hwork

theorem given_of_apply {i : Input} {k : ThreadId} {j : Nat} (ha : w.apply i = some v)
    (hb : v.threads[k]? = some b) (hgiven : b.task.given? e d = some j) :
    ∃ th, w.threads[k]? = some th ∧ (th.task.given? e d = some j ∨
      ∃ p job error after, th.next = .invoke p (.resolve d job error) after ∧ p.id = e ∧
        th.task.work? e d = some (j, job.serial)) := by
  obtain ⟨th, hth, hdrift | ⟨-, hgo⟩⟩ | hidle := apply_thread ha hb
  · exact ⟨th, hth, .inl (Thread.given_of_drifts hdrift hgiven)⟩
  · have hminds := th.tracksJob (e := e) (d := d)
    cases hgo with
    | @answer α p next u' a hn hp =>
      rw [hn] at hminds
      rcases (hminds a).2.2.1 with hnone | hstill
      · cases hnone.symm.trans hgiven
      · exact ⟨th, hth, .inl (hstill.symm.trans hgiven)⟩
    | @invoke p i after hn =>
      rw [hn] at hminds
      rcases hminds.2 with hnone | hstill | ⟨i, job, error, hnow, hp, rfl, hafter⟩
      · cases hnone.symm.trans hgiven
      · exact ⟨th, hth, .inl (hstill.symm.trans hgiven)⟩
      · obtain rfl := Option.some.inj (hafter.symm.trans hgiven)
        exact ⟨th, hth, .inr ⟨p, job, error, after, hn, hp, hnow⟩⟩
    | panic => cases (Task.given?_finish _ _ _ _).symm.trans hgiven
  · cases hidle.idle.2.symm.trans hgiven

theorem Serves.step {i : Input} {j n : Nat} (h : Serves w v e d t j n) (hk : v.Keeps e)
    (hr : Run (fun _ => True) w v) (ha : v.apply i = some u) :
    Serves w u e d t j n ∨ Returns w u e d t j n := by
  have hone : Run (fun _ => True) v u := .step i .refl trivial ha
  obtain ⟨x, hx, hslot⟩ := h.slot
  obtain ⟨y, hy, hturns⟩ := hk.turn hx ha
  obtain ⟨new, hnew, hturn⟩ := hturns d j _ hslot
  cases hturn with
  | recycle hi ht hcalls hgiven =>
    obtain ⟨rfl, hres⟩ := h.given ht hgiven
    exact .inr ⟨v, _, hres, hone, ht, hcalls, hgiven⟩
  | stay =>
    refine .inl ⟨⟨y, hy, hnew⟩, fun hb hwork => ?_, fun hb hgiven => ?_⟩
    · obtain ⟨th, hth, hold⟩ | ⟨job, hjob⟩ := hk.work_of_apply hx ha hb hwork
      · exact h.work hth hold
      · cases hslot.symm.trans hjob
    · obtain ⟨th, hth, hold | ⟨p, job, error, after, hn, hp, hold⟩⟩ := given_of_apply ha hb hgiven
      · exact (h.given hth hold).imp_right (·.mono hone)
      · obtain ⟨rfl, rfl⟩ := h.work hth hold
        exact ⟨rfl, v, th, after, p, job, error, hr, hone, hth, hn, hp, rfl⟩

theorem Serves.run {j n : Nat} (h : Serves w w e d t j n) (hk : w.Keeps e) (hq : w.Queued)
    (hr : Run (fun _ => True) w v) : Serves w v e d t j n ∨ Returns w v e d t j n := by
  induction hr with
  | refl => exact .inl h
  | @step u v i hr _ ha ih =>
    rcases ih with hserves | hreturns
    · exact hserves.step (hk.run hq hr) hr ha
    · exact .inr (hreturns.mono (.step i .refl trivial ha))

/-- The worker that takes an entry serves it. -/
theorem Keeps.serves {i : Input} {j : Nat} {job : Job} {y : Endpoint} (hk : w.Keeps e)
    (hx : w.endpoints[e]? = some x) (hj : (x.queue d).slab.slots[j]? = some (.posted job))
    (ha : w.apply i = some v) (hy : v.endpoints[e]? = some y)
    (hj' : (y.queue d).slab.slots[j]? = some .inFlight) :
    ∃ t, i = .run t ∧ Serves v v e d t j job.serial := by
  obtain ⟨z, hz, hturns⟩ := hk.turn hx ha
  obtain rfl := Option.some.inj (hy.symm.trans hz)
  obtain ⟨new, hnew, hturn⟩ := hturns d j _ hj
  obtain rfl := Option.some.inj (hj'.symm.trans hnew)
  cases hturn with
  | @take t th _ hi ht hwork =>
    -- nobody else has the entry, since it was queued
    have hothers : ∀ {k : ThreadId} {b : Thread}, v.threads[k]? = some b →
        (∃ n, b.task.work? e d = some (j, n)) ∨ b.task.given? e d = some j → k = t := by
      intro k b hb hhas
      obtain ⟨th', hth', hdrift | ⟨hrun, -⟩⟩ | hidle := apply_thread ha hb
      · have hres := hk.reserved hx (List.mem_of_getElem? hth') <| hhas.imp
          (fun h => h.imp fun _ => Thread.work_of_drifts hdrift) (Thread.given_of_drifts hdrift)
        cases hj.symm.trans hres
      · exact Input.run.inj (hrun.symm.trans hi)
      · simp [hidle.idle] at hhas
    refine ⟨t, hi, ⟨y, hy, hj'⟩, fun {k b m} hb h => ?_, fun {k b} hb h => ?_⟩
    · obtain rfl := hothers hb (.inl ⟨m, h⟩)
      obtain rfl := Option.some.inj (ht.symm.trans hb)
      exact ⟨rfl, congrArg (·.2) (Option.some.inj (h.symm.trans hwork))⟩
    · obtain rfl := hothers hb (.inr h)
      obtain rfl := Option.some.inj (ht.symm.trans hb)
      cases (Task.given?_of_work? hwork).symm.trans h

end World

end QueuePair
