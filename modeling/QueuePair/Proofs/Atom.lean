import Mathlib.Logic.Relation
import QueuePair.Proofs.Service
import QueuePair.Run

namespace QueuePair

def SystemCall.waits {α : Type} : SystemCall α → Bool
  | .change .. => true
  | _ => false

def Input.outside : Input → Bool
  | .run _ | .expire _ => false
  | _ => true

namespace World

/-- What an input from outside makes of the world. -/
inductive Outside (w : World) : Input → World → Prop
  | make {a : Attributes} {s : Settings} : a.resolve = .ok s →
      Outside w (.make a) { w with endpoints := w.endpoints ++ [.ofSettings s a.onDisconnect] }
  | operate {e : EndpointId} {x : Endpoint} (op : Operation) : w.endpoints[e]? = some x →
      Outside w (.operate e op)
        ((w.modifyEndpoint e fun x => { x with owners := x.owners + 1 }).spawn
          (.ofTask (.ofStarted (some e) (Call.ofOperation ⟨e, x.settings⟩ op)))).1
  | request (op : ObjectOperation) : Outside w (.request op) (w.request op).1
  | drop (e : EndpointId) : Outside w (.drop e) (w.drop e).1
  | register {e : EndpointId} {x : Endpoint} (addr length : UInt64) (access : Access) :
      w.endpoints[e]? = some x → Outside w (.register e addr length access)
        (w.putEndpoint e (x.register addr length access).1)
  | release (id : String) : Outside w (.release id) (w.release id)

theorem outside_of_apply {w v : World} {i : Input} (hi : i.outside = true)
    (ha : w.apply i = some v) : w.Outside i v := by
  cases i with
  | run | expire => cases hi
  | make a =>
    simp only [apply, World.make] at ha
    cases hr : a.resolve with
    | error => simp [hr, Except.map, Except.toOption] at ha
    | ok s =>
      simp only [hr, Except.map, Except.toOption, Option.map_some, Option.some.injEq] at ha
      exact ha ▸ .make hr
  | operate e op =>
    simp only [apply, World.operate, party?, Option.map_map, Option.map_eq_some_iff] at ha
    obtain ⟨x, hx, rfl⟩ := ha
    exact .operate op hx
  | request op => exact Option.some.inj ha ▸ .request op
  | drop e => exact Option.some.inj ha ▸ .drop e
  | register e addr length access =>
    simp only [apply, World.register, Option.map_map, Option.map_eq_some_iff] at ha
    obtain ⟨x, hx, rfl⟩ := ha
    exact .register addr length access hx
  | release id => exact Option.some.inj ha ▸ .release id

/-- The answers that an action of a thread may get, each with the world in which it is given. Other
threads are not moved, and nobody in a queue is served. -/
inductive Answers (w : World) (t : ThreadId) :
    {α : Type} → Primitive α → World → α → Prop
  | system {α : Type} {c : SystemCall α} {k : Kernel} {ends : List Completion} {a : α} :
      c.waits = false → w.kernel.call t c = ⟨k, ends, some a⟩ →
      Answers w t (.system c) ({ w with kernel := k }.observe t (some a) c) a
  | grant {set : SetId} {s : SemaphoreSet} {changes : List Change} {d : Option Instant}
      {values : List Nat} : w.kernel.live? set = some s → attempt s.values changes = .done values →
      Answers w t (.system (.change set changes d))
        { w with kernel := w.kernel.putSet set { s with values } } (.ok ())
  | overflow {set : SetId} {s : SemaphoreSet} {changes : List Change} {d : Option Instant} :
      w.kernel.live? set = some s → attempt s.values changes = .overflows →
      Answers w t (.system (.change set changes d)) w (.error (.ofSystem .outOfRange))
  | gone {set : SetId} {changes : List Change} {d : Option Instant} :
      w.kernel.live? set = none →
      Answers w t (.system (.change set changes d)) w (.error .connectionClosed)
  | late {set : SetId} {changes : List Change} {d : Instant} :
      Answers w t (.system (.change set changes (some d))) w (.error .timeout)
  | access {α : Type} {e : EndpointId} {x : Endpoint} {c : EndpointCall α} {s : Section α} :
      w.endpoints[e]? = some x → x.call t c = some s →
      Answers w t (.endpoint e c) (s.notes.foldl (·.note e ·) (w.putEndpoint e s.endpoint))
        s.answer
  | unanswered {e : EndpointId} {serial : Nat} {d : Instant} :
      Answers w t (.endpoint e (.awaitReply serial (some d))) w .missing
  | clock {span : Span} : Answers w t (.clock span) w (w.deadline? span)
  | notified {e : EndpointId} {d : Option Instant} : Answers w t (.park e d) w .notified
  | timedOut {e : EndpointId} {d : Instant} : Answers w t (.park e (some d)) w .timedOut
  | spawn {p : Party} {link : Link} {d : Direction} :
      Answers w t (.spawn p link d) (w.spawnWorker p link d) ()
  | join {u : ThreadId} : (∀ th, w.threads[u]? = some th → th.isEnded = true) →
      Answers w t (.join u) w ()
  | hold {id : String} : w.released.contains id = true → Answers w t (.hold id) w ()
  | note {e : EndpointId} {n : Note} : Answers w t (.note e n) (w.note e n) ()

/-- The same but for the queues of the semaphore sets and the time. -/
structure Alike (w v : World) : Prop where
  sets : v.kernel.sets.map (fun s => { s with waiters := [] }) =
    w.kernel.sets.map (fun s => { s with waiters := [] })
  files : v.kernel.files = w.kernel.files
  limits : v.kernel.limits = w.kernel.limits
  endpoints : v.endpoints = w.endpoints
  threads : v.threads = w.threads
  released : v.released = w.released
  history : v.history = w.history

/-- The smallest changes that runs are made of. One step of the world may move several threads on:
whoever raises a semaphore also completes the changes that waited for it, and some accesses wake
everyone who is parked. In an atom one thread gets one answer, and a law that every atom keeps is a
law of every run. -/
inductive Atom (allowed : Input → Prop) (w : World) : World → Prop
  | act {t : ThreadId} {th : Thread} {α : Type} {p : Primitive α} {next : α → Thread} {v : World}
      {a : α} : w.threads[t]? = some th → th.next = .perform p next → w.Answers t p v a →
      Atom allowed w (v.putThread t (next a))
  | invoke {t : ThreadId} {th : Thread} {p : Party} {i : Invocation} {after : Thread} :
      w.threads[t]? = some th → th.next = .invoke p i after →
      Atom allowed w ((w.invoke p i).1.putThread t (after.push (w.invoke p i).2))
  | panic {t : ThreadId} {th : Thread} : w.threads[t]? = some th → th.next = .panic →
      Atom allowed w (w.panic t th)
  | outside {i : Input} {v : World} : allowed i → i.outside = true → w.apply i = some v →
      Atom allowed w v
  | settle {v : World} : w.Alike v → Atom allowed w v

/-- Everyone in the queue of a set stands at the change that the queue keeps for it, waits nowhere
else, and has to wait. -/
structure Queued (w : World) : Prop where
  waits : ∀ {set : SetId} {s : SemaphoreSet} {q : Waiter}, w.kernel.sets[set]? = some s →
    q ∈ s.waiters → ∃ th d next, w.threads[q.thread]? = some th ∧
      th.next = .perform (.system (.change set q.changes d)) next
  nodup : ∀ {set : SetId} {s : SemaphoreSet}, w.kernel.sets[set]? = some s →
    (s.waiters.map (·.thread)).Nodup
  blocks : ∀ {set : SetId} {s : SemaphoreSet} {q : Waiter}, w.kernel.sets[set]? = some s →
    q ∈ s.waiters → attempt s.values q.changes = .blocks
  gone : ∀ {set : SetId} {s : SemaphoreSet}, w.kernel.sets[set]? = some s → s.removed = true →
    s.waiters = []

theorem holds_iff {k : Kernel} {t : ThreadId} : k.holds t = true ↔
    ∃ (set : SetId) (s : SemaphoreSet) (q : Waiter),
      k.sets[set]? = some s ∧ q ∈ s.waiters ∧ q.thread = t := by
  simp only [Kernel.holds, SemaphoreSet.holds, List.any_eq_true, decide_eq_true_eq]
  constructor
  · rintro ⟨s, hs, q, hq, rfl⟩
    obtain ⟨set, hset⟩ := List.mem_iff_getElem?.mp hs
    exact ⟨set, s, q, hset, hq, rfl⟩
  · rintro ⟨set, s, q, hset, hq, rfl⟩
    exact ⟨s, List.mem_of_getElem? hset, q, hq, rfl⟩

end World

end QueuePair
