import QueuePair.Proofs.Fate
import QueuePair.Proofs.Pair.Composure

namespace QueuePair

open World

namespace Departing

def bears : Departing → Nat
  | .disconnect _ => 1
  | _ => 0

end Departing

namespace Sender

def bears : Sender → Nat
  | .depart s => s.bears
  | _ => 0

end Sender

namespace Receiver

def bears : Receiver → Nat
  | .depart s => s.bears
  | _ => 0

end Receiver

namespace Task

def bears (e : EndpointId) : Task → Nat
  | .sender p _ s => if p.id = e then s.bears else 0
  | .receiver p _ s => if p.id = e then s.bears else 0
  | _ => 0

@[simp] theorem bears_finish (e : EndpointId) (owner : Option EndpointId) (out : Outcome) :
    (finish owner out).bears e = 0 := by
  cases owner <;> rfl

end Task

namespace Thread

def bears (e : EndpointId) (th : Thread) : Nat :=
  th.task.bears e

end Thread

def Primitive.takes (e : EndpointId) : {α : Type} → Primitive α → α → Nat
  | _, .endpoint e' .takeDisconnect, script => if e' = e ∧ script.isSome = true then 1 else 0
  | _, _, _ => 0

def Invocation.starts (e : EndpointId) (p : Party) : Invocation → Nat
  | .disconnect _ => if p.id = e then 1 else 0
  | .resolve .. => 0

namespace Move

variable {σ ρ τ : Type} {e : EndpointId} {f : σ → Nat} {n : Nat} {mv : Move σ}

/-- A move starts the disconnect callback only out of somebody's hands, and it comes into these only
by being taken. -/
def Bears (e : EndpointId) (f : σ → Nat) (n : Nat) : Move σ → Prop
  | .perform p next => ∀ a, f (next a) ≤ n + p.takes e a
  | .invoke p i after => f after + i.starts e p ≤ n
  | .panic | .halt => True

@[simp] theorem bears_map {g : τ → σ} {mv : Move τ} :
    (mv.map g).Bears e f n ↔ mv.Bears e (fun s => f (g s)) n := by
  cases mv <;> exact Iff.rfl

theorem Bears.congr {g : σ → Nat} (h : mv.Bears e f n) (he : ∀ s, g s = f s) :
    mv.Bears e g n := by
  obtain rfl : g = f := funext he
  exact h

theorem bears_perform {α : Type} {p : Primitive α} {next : α → σ} (hf : ∀ a, f (next a) ≤ n) :
    (Move.perform p next).Bears e f n :=
  fun a => Nat.le_trans (hf a) (Nat.le_add_right ..)

theorem Still.bears (h : mv.Still) (hf : ∀ s, f s ≤ n) : mv.Bears e f n := by
  cases mv with
  | perform p next => exact bears_perform fun a => hf _
  | invoke => exact h.elim
  | panic | halt => trivial

end Move

section

variable {e : EndpointId} {p : Party} {d : Direction} {l : Link} {n : Nat}

theorem failPending_bears {f : Flow FailPending Unit → Nat} (hf : ∀ s, f s ≤ n) (s : FailPending) :
    (s.next p d).Bears e f n := by
  cases s with
  | fail => exact hf _
  | _ => exact Move.bears_perform fun a => hf _

theorem posting_bears {data : Buffer} {handler : Handler}
    {f : Flow Posting (Except Error Nat) → Nat}
    (hf : ∀ s, f s ≤ n) (s : Posting) : (s.next p d data handler).Bears e f n := by
  cases s with
  | overflowed => trivial
  | _ => exact Move.bears_perform fun a => hf _

theorem waiting_bears {data : Buffer} {f : Flow Waiting (Except Error Buffer) → Nat}
    (hf : ∀ s, f s ≤ n) (s : Waiting) : (s.next p d data).Bears e f n := by
  cases s with
  | posting s => exact Move.bears_map.mpr (posting_bears (fun _ => hf _) s)
  | _ => exact Move.bears_perform fun a => hf _

theorem destroying_bears {f : Flow Destroying (Except Error Unit) → Nat} (hf : ∀ s, f s ≤ n)
    (s : Destroying) : (s.next p).Bears e f n := by
  cases s with
  | remove l s => exact Move.bears_map.mpr (Move.Still.bears (by simp) fun _ => hf _)
  | fail r d s => exact Move.bears_map.mpr (failPending_bears (fun _ => hf _) s)
  | _ => exact Move.bears_perform fun a => hf _

theorem call_bears {f : Flow Call Result → Nat} (hf : ∀ s, f s ≤ n) (c : Call) :
    c.next.Bears e f n := by
  cases hd : c.destroys with
  | true =>
    cases c with
    | destroying p s => exact Move.bears_map.mpr (destroying_bears (fun _ => hf _) s)
    | _ => cases hd
  | false =>
    cases hp : c.posts with
    | false => exact (call_still hd hp).bears hf
    | true =>
      cases c with
      | posting p d data handler s => exact Move.bears_map.mpr (posting_bears (fun _ => hf _) s)
      | waiting p d data s => exact Move.bears_map.mpr (waiting_bears (fun _ => hf _) s)
      | _ => cases hp

theorem callback_bears {f : Option Callback → Nat} (hf : ∀ s, f s ≤ n) (c : Callback) :
    c.next.Bears e f n := by
  obtain ⟨q, lane, id, payload, index, state⟩ := c
  cases state with
  | running command call rest => exact Move.bears_map.mpr (call_bears (fun _ => hf _) call)
  | ended => exact Move.bears_perform fun a => hf _
  | panicking => trivial

theorem departing_bears (s : Departing) : (s.next p d).Bears e
    (Flow.elim (fun s => if p.id = e then s.bears else 0) fun _ => 0)
    (if p.id = e then s.bears else 0) := by
  have hzero : ∀ {α : Type} {a : Primitive α} {next : α → Flow Departing Unit},
      (∀ r, (next r).elim (fun s => if p.id = e then s.bears else 0) (fun _ => 0) = 0) →
      (Move.perform a next).Bears e (Flow.elim (fun s => if p.id = e then s.bears else 0)
        fun _ => 0) (if p.id = e then s.bears else 0) := fun hnext =>
    Move.bears_perform fun r => Nat.le_trans (Nat.le_of_eq (hnext r)) (Nat.zero_le _)
  cases s with
  | readStopping | close => exact hzero fun _ => ite_self 0
  | fail localEnd s =>
    refine Move.bears_map.mpr (failPending_bears (fun f => Nat.le_of_eq ?_) s)
    cases f <;> cases localEnd <;> simp [Flow.elim, Departing.bears]
  | takeDisconnect =>
    intro script
    cases script <;> by_cases hp : p.id = e <;>
      simp [Primitive.takes, Flow.elim, Departing.bears, hp]
  | disconnect => simp [Departing.next, Move.Bears, Invocation.starts, Flow.elim, Departing.bears]

theorem none_borne {σ : Type} {g : σ → Nat} {f : Flow σ Unit} (hf : ∀ s, f = .more s → g s = 0) :
    f.elim (fun s => if p.id = e then g s else 0) (fun _ => 0) ≤ n := by
  cases f with
  | more s => simp [Flow.elim, hf s rfl]
  | done => exact Nat.zero_le _

theorem sender_bears (s : Sender) : (s.next p l).Bears e
    (Flow.elim (fun s => if p.id = e then s.bears else 0) fun _ => 0)
    (if p.id = e then s.bears else 0) := by
  cases s with
  | depart s =>
    refine Move.bears_map.mpr ((departing_bears s).congr fun f => ?_)
    cases f <;> rfl
  | complete | fail => simp [Sender.next, Move.Bears, Invocation.starts, Flow.elim, Sender.bears]
  | publish slot job s =>
    refine Move.bears_map.mpr (Move.Still.bears (by simp) fun f => none_borne fun s' hs => ?_)
    cases f with
    | more =>
      cases hs
      rfl
    | done r =>
      cases r <;> cases hs <;> rfl
  | fetch =>
    refine Move.bears_perform fun r => none_borne fun s' hs => ?_
    cases r with
    | stopped | empty =>
      cases hs
      rfl
    | job slot job =>
      cases hs
      simp only [Sender.ofJob]
      split <;> rfl
  | parked =>
    refine Move.bears_perform fun r => none_borne fun s' hs => ?_
    cases hs
    rfl
  | signal slot job =>
    refine Move.bears_perform fun r => none_borne fun s' hs => ?_
    cases r <;> cases hs <;> rfl
  | recycle slot goOn =>
    refine Move.bears_perform fun r => none_borne fun s' hs => ?_
    cases goOn <;> cases hs <;> rfl

theorem receiver_bears (s : Receiver) : (s.next p l).Bears e
    (Flow.elim (fun s => if p.id = e then s.bears else 0) fun _ => 0)
    (if p.id = e then s.bears else 0) := by
  cases s with
  | depart s =>
    refine Move.bears_map.mpr ((departing_bears s).congr fun f => ?_)
    cases f <;> rfl
  | complete | fail =>
    simp [Receiver.next, Move.Bears, Invocation.starts, Flow.elim, Receiver.bears]
  | discard s =>
    refine Move.bears_map.mpr (Move.Still.bears (by simp) fun f => none_borne fun s' hs => ?_)
    cases f with
    | more =>
      cases hs
      rfl
    | done c =>
      cases hs
      simp only [Receiver.discarded]
      split
      · rfl
      · split <;> rfl
  | collect slot job s =>
    refine Move.bears_map.mpr (Move.Still.bears (by simp) fun f => none_borne fun s' hs => ?_)
    cases f with
    | more =>
      cases hs
      rfl
    | done c =>
      cases hs
      simp only [Receiver.collected]
      split <;> rfl
  | await =>
    refine Move.bears_perform fun r => none_borne fun s' hs => ?_
    cases r <;> cases hs <;> rfl
  | fetch =>
    refine Move.bears_perform fun r => none_borne fun s' hs => ?_
    cases r <;> cases hs <;> rfl
  | recycle slot goOn =>
    refine Move.bears_perform fun r => none_borne fun s' hs => ?_
    cases goOn <;> cases hs <;> rfl

theorem task_bears (a : Task) : a.next.Bears e (Task.bears e) (a.bears e) := by
  cases a with
  | sender p l s =>
    refine Move.bears_map.mpr ((sender_bears s).congr fun f => ?_)
    cases f with
    | more => rfl
    | done => simp [Flow.elim]
  | receiver p l s =>
    refine Move.bears_map.mpr ((receiver_bears s).congr fun f => ?_)
    cases f with
    | more => rfl
    | done => simp [Flow.elim]
  | call o c =>
    refine Move.bears_map.mpr (call_bears (fun f => Nat.le_of_eq ?_) c)
    cases f with
    | more => rfl
    | done => exact Task.bears_finish ..
  | leaving e' s out =>
    refine Move.bears_map.mpr (Move.Still.bears (by simp) fun f => Nat.le_of_eq ?_)
    cases f <;> rfl
  | ended => trivial

theorem Thread.next_bears (th : Thread) : th.next.Bears e (Thread.bears e) (th.bears e) := by
  obtain ⟨o, task, cs⟩ := th
  cases cs with
  | nil =>
    simp only [Thread.next, Move.bears_map]
    exact task_bears task
  | cons c cs =>
    simp only [Thread.next, Move.bears_map]
    refine callback_bears (fun _ => ?_) c
    exact Nat.le_refl _

/-- Only taking the disconnect callback out changes it. -/
theorem call_script {α : Type} {x : Endpoint} {t : ThreadId} {c : EndpointCall α} {s : Section α}
    (hc : x.call t c = some s) (e' : EndpointId) :
    (s.endpoint.onDisconnect = x.onDisconnect ∧ (Primitive.endpoint e' c).takes e s.answer = 0) ∨
      s.endpoint.onDisconnect = none ∧ (Primitive.endpoint e' c).takes e s.answer ≤
        if x.onDisconnect.isSome then 1 else 0 := by
  cases c with
  | takeDisconnect =>
    cases hc
    refine .inr ⟨rfl, ?_⟩
    simp only [Primitive.takes]
    split <;> simp_all
  | post d job =>
    cases hc
    simp only [Endpoint.post]
    split
    · exact .inl ⟨rfl, rfl⟩
    · split
      · exact .inl ⟨rfl, rfl⟩
      · cases d <;> exact .inl ⟨rfl, rfl⟩
  | nextSend =>
    cases hc
    simp only [Endpoint.nextSend]
    split
    · exact .inl ⟨rfl, rfl⟩
    · split <;> exact .inl ⟨rfl, rfl⟩
  | nextReceive =>
    cases hc
    simp only [Endpoint.nextReceive]
    split <;> exact .inl ⟨rfl, rfl⟩
  | cancel d serial =>
    cases hc
    simp only [Endpoint.cancel]
    split <;> cases d <;> exact .inl ⟨rfl, rfl⟩
  | complete d | drain d =>
    cases hc
    cases d <;> exact .inl ⟨rfl, rfl⟩
  | lockLink | readLink | takeLink =>
    simp only [Endpoint.call, Endpoint.underLink] at hc
    split at hc <;> cases hc
    exact .inl ⟨rfl, rfl⟩
  | awaitReply =>
    simp only [Endpoint.call] at hc
    split at hc <;> cases hc
    exact .inl ⟨rfl, rfl⟩
  | release =>
    simp only [Endpoint.call] at hc
    split at hc <;> cases hc <;> exact .inl ⟨rfl, rfl⟩
  | readState | writeState | takeSerial | notify | close | setStopped | beginStopping | readStopping
  | writeStopping | takeWorkers | unlockLink | pollReply =>
    cases hc
    exact .inl ⟨rfl, rfl⟩

/-- Accesses write nothing about disconnect callbacks into the record. -/
theorem call_unparted {α : Type} {x : Endpoint} {t : ThreadId} {c : EndpointCall α}
    {s : Section α} {e' : EndpointId} (hc : x.call t c = some s) :
    ∀ n ∈ s.notes, (Event.noted e' n).parts e = false := by
  cases c with
  | post d job =>
    cases hc
    unfold Endpoint.post
    split
    · simp
    · split <;> simp [Event.parts]
  | nextSend =>
    cases hc
    unfold Endpoint.nextSend
    split
    · simp
    · split <;> simp [Event.parts]
  | nextReceive =>
    cases hc
    unfold Endpoint.nextReceive
    split <;> simp [Event.parts]
  | cancel d serial =>
    cases hc
    unfold Endpoint.cancel
    split <;> simp [Event.parts]
  | lockLink | readLink | takeLink =>
    simp only [Endpoint.call, Endpoint.underLink] at hc
    split at hc <;> cases hc
    simp
  | awaitReply =>
    simp only [Endpoint.call] at hc
    split at hc <;> cases hc
    simp
  | release =>
    simp only [Endpoint.call] at hc
    split at hc <;> cases hc <;> simp
  | setStopped | drain =>
    cases hc
    simp [Endpoint.drain]
  | complete | readState | writeState | takeSerial | notify | close | beginStopping | readStopping
  | writeStopping | takeDisconnect | takeWorkers | unlockLink | pollReply =>
    cases hc
    simp

end

namespace World

variable {w v u : World} {e : EndpointId} {t : ThreadId} {th : Thread} {x : Endpoint}
  {allowed : Input → Prop}

def script (w : World) (e : EndpointId) : Nat :=
  match w.endpoints[e]? with
  | none => 1
  | some x => if x.onDisconnect.isSome then 1 else 0

/-- How often the disconnect callback of an endpoint has started or still may. It is with the
endpoint until somebody takes it out, then in the hands of the worker that took it, and then it has
started; a teardown drops it. -/
def sendoffs (w : World) (e : EndpointId) : Nat :=
  w.partings e + tally (Thread.bears e) w.threads + w.script e

theorem script_le (h : ∀ {x : Endpoint}, w.endpoints[e]? = some x →
    ∃ y, v.endpoints[e]? = some y ∧ y.onDisconnect = x.onDisconnect) : v.script e ≤ w.script e := by
  cases hx : w.endpoints[e]? with
  | none =>
    simp only [script, hx]
    split
    · exact Nat.le_refl 1
    · split <;> simp
  | some x =>
    obtain ⟨y, hy, he⟩ := h hx
    simp [script, hx, hy, he]

theorem notes_partings {e' : EndpointId} (ns : List Note)
    (h : ∀ n ∈ ns, (Event.noted e' n).parts e = false) (w : World) :
    (ns.foldl (·.note e' ·) w).partings e = w.partings e := by
  induction ns generalizing w with
  | nil => rfl
  | cons n ns ih =>
    refine (ih (fun n hn => h n (List.mem_cons_of_mem _ hn)) _).trans ?_
    exact Pair.partings_record (h n List.mem_cons_self) w

/-- An answer starts no callback, and what it takes is no longer with the endpoint. -/
theorem Answers.sendoffs {α : Type} {p : Primitive α} {a : α} (h : w.Answers t p v a)
    (hc : p.candid = true) :
    v.partings e = w.partings e ∧ v.script e + p.takes e a ≤ w.script e := by
  have hsame : v.partings e = w.partings e → v.endpoints = w.endpoints → p.takes e a = 0 →
      v.partings e = w.partings e ∧ v.script e + p.takes e a ≤ w.script e := fun hh he hp =>
    ⟨hh, by simp [script, he, hp]⟩
  cases h with
  | @system α c k ends a hs hk =>
    refine hsame ?_ (observe_endpoints _ _) rfl
    cases c with
    | storeRecord => exact Pair.partings_record rfl _
    | loadRecord => cases a <;> exact Pair.partings_record rfl _
    | _ => rfl
  | @access α e' x c s hx hcall =>
    refine ⟨notes_partings s.notes (call_unparted hcall) _, ?_⟩
    have hends : (s.notes.foldl (·.note e' ·) (w.putEndpoint e' s.endpoint)).endpoints =
      w.endpoints.set e' s.endpoint := (notes_same _ _).2
    by_cases he : e' = e
    · subst he
      simp only [script, hends, hx, List.getElem?_set_self (List.getElem?_eq_some_iff.mp hx).1]
      obtain ⟨hsame, htaken⟩ | ⟨hnone, htaken⟩ := call_script (e := e') hcall e'
      · simp [hsame, htaken]
      · simpa [hnone] using htaken
    · have htaken : (Primitive.endpoint e' c).takes e s.answer = 0 := by
        cases c <;> simp [Primitive.takes, he]
      rw [htaken, script, hends, List.getElem?_set_ne he]
      exact Nat.le_refl _
  | @spawn q l d =>
    refine ⟨rfl, Nat.le_trans (Nat.le_of_eq (Nat.add_zero _)) (script_le fun {x} hx => ?_)⟩
    have hends : (w.spawnWorker q l d).endpoints = w.endpoints.modify q.id fun x =>
        { x with workers := x.workers ++ [w.threads.length], owners := x.owners + 1 } := rfl
    simp only [hends, List.getElem?_modify, hx]
    split <;> exact ⟨_, rfl, rfl⟩
  | @note e' n =>
    refine hsame (Pair.partings_record ?_ w) rfl rfl
    cases n <;> first | rfl | cases hc
  | grant | overflow | gone | late | clock | notified | timedOut | join | hold =>
    exact hsame rfl rfl rfl
  | @unanswered e' serial d => exact hsame rfl rfl rfl

theorem invoke_sendoffs (w : World) (p : Party) (i : Invocation) (e : EndpointId) :
    (w.invoke p i).1.partings e = w.partings e + i.starts e p ∧
      (w.invoke p i).1.script e ≤ w.script e := by
  cases i with
  | disconnect f =>
    refine ⟨?_, Nat.le_refl _⟩
    simp only [invoke, note, record, World.partings, List.countP_cons, Event.parts,
      Invocation.starts, decide_eq_true_eq]
  | resolve d job error =>
    have hnote : (w.note p.id (.resolved d job error)).partings e = w.partings e :=
      Pair.partings_record rfl w
    simp only [invoke, resolve]
    split
    · refine ⟨hnote, script_le fun {x} hx => ?_⟩
      simp only [modifyEndpoint, note, record, List.getElem?_modify, hx]
      split <;> exact ⟨_, rfl, rfl⟩
    · exact ⟨hnote, Nat.le_refl _⟩

theorem abandon_sendoffs (th : Thread) :
    (w.abandon th).partings e = w.partings e ∧ (w.abandon th).script e ≤ w.script e := by
  have hput : ∀ (jobs : List Job) (x : Endpoint),
      (jobs.foldl (fun (x : Endpoint) job => x.putReply job.serial .abandoned) x).onDisconnect =
        x.onDisconnect := by
    intro jobs
    induction jobs with
    | nil => exact fun _ => rfl
    | cons job jobs ih => exact fun x => ih (x.putReply job.serial .abandoned)
  unfold abandon
  split
  · exact ⟨rfl, Nat.le_refl _⟩
  · refine ⟨rfl, script_le fun {x} hx => ?_⟩
    simp only [modifyEndpoint, List.getElem?_modify, hx]
    split
    · exact ⟨_, rfl, hput _ _⟩
    · exact ⟨x, rfl, rfl⟩

theorem outside_script {i : Input} (hi : i.outside = true) (ha : w.apply i = some v) :
    v.history = w.history ∧ ∀ {x : Endpoint}, w.endpoints[e]? = some x →
      ∃ y, v.endpoints[e]? = some y ∧ y.onDisconnect = x.onDisconnect := by
  cases outside_of_apply hi ha with
  | make =>
    refine ⟨rfl, fun {x} hx => ⟨x, ?_, rfl⟩⟩
    rw [List.getElem?_append_left (List.getElem?_eq_some_iff.mp hx).1, hx]
  | operate =>
    refine ⟨rfl, fun {x} hx => ?_⟩
    simp only [spawn, modifyEndpoint, List.getElem?_modify, hx]
    split <;> exact ⟨_, rfl, rfl⟩
  | @register e' _ _ _ _ hz =>
    refine ⟨rfl, fun {x} hx => ?_⟩
    by_cases he : e' = e
    · subst he
      obtain rfl := Option.some.inj (hx.symm.trans hz)
      exact ⟨_, List.getElem?_set_self (List.getElem?_eq_some_iff.mp hx).1, rfl⟩
    · exact ⟨x, (List.getElem?_set_ne he).trans hx, rfl⟩
  | request | drop | release => exact ⟨rfl, fun {x} hx => ⟨x, hx, rfl⟩⟩

theorem outside_sendoffs {i : Input} (hi : i.outside = true) (ha : w.apply i = some v) :
    v.sendoffs e ≤ w.sendoffs e := by
  obtain ⟨hhistory, hends⟩ := outside_script (e := e) hi ha
  obtain ⟨news, hv, hnews⟩ := outside_threads hi ha
  have hnone : tally (Thread.bears e) news = 0 := tally_eq_zero fun b hb => by
    obtain ⟨task, rfl, hbegins⟩ := hnews b hb
    cases hbegins with
    | leaving => rfl
    | @started owner s =>
      cases s with
      | more => rfl
      | done r => exact Task.bears_finish ..
  have hsame : tally (Thread.bears e) v.threads = tally (Thread.bears e) w.threads := by
    rw [hv, tally, List.map_append, List.sum_append]
    exact congrArg _ hnone
  have hscript := script_le (w := w) (v := v) (e := e) hends
  simp only [sendoffs, World.partings, hhistory, hsame]
  exact Nat.add_le_add_left hscript _

/-- Nothing that happens makes a disconnect callback start once more. -/
theorem sendoffs_le (hk : w.Keeps e) (ha : Atom allowed w v) : v.sendoffs e ≤ w.sendoffs e := by
  cases ha with
  | @act t th α p next u a ht hn hans =>
    have hs := hk.shaped th (List.mem_of_getElem? ht)
    obtain ⟨q, hleads⟩ := hs.leads
    have hbears := th.next_bears (e := e)
    rw [hn] at hleads hbears
    obtain ⟨hpartings, hscript⟩ := hans.sendoffs (e := e) hleads.1
    have hthreads : u.threads[t]? = some th := (hk.answered ht hans).2.1
    have hset := tally_set (f := Thread.bears e) hthreads (next a)
    have hsame : tally (Thread.bears e) u.threads = tally (Thread.bears e) w.threads := by
      rcases hans.threads_cases with he | ⟨q, l, d, he⟩
      · rw [he]
      · rw [he, tally_append]
        cases d <;> simp [Thread.bears, Thread.ofTask, worker, Task.bears, Sender.bears,
          Receiver.bears]
    have hnext := hbears a
    change u.partings e + tally (Thread.bears e) (u.threads.set t (next a)) + u.script e ≤ _
    simp only [sendoffs]
    omega
  | @invoke t th p i after ht hn =>
    have hbears := th.next_bears (e := e)
    rw [hn] at hbears
    obtain ⟨hpartings, hscript⟩ := invoke_sendoffs w p i e
    have hset := tally_set (f := Thread.bears e) ht (after.push (w.invoke p i).2)
    have hpush : (after.push (w.invoke p i).2).bears e = after.bears e := by
      cases (w.invoke p i).2 <;> rfl
    have hnext : after.bears e + i.starts e p ≤ th.bears e := hbears
    change (w.invoke p i).1.partings e +
      tally (Thread.bears e) ((w.invoke p i).1.threads.set t _) + (w.invoke p i).1.script e ≤ _
    rw [invoke_threads]
    simp only [sendoffs]
    omega
  | @panic t th ht =>
    obtain ⟨hpartings, hscript⟩ := abandon_sendoffs (w := w) (e := e) th
    have hset := tally_set (f := Thread.bears e) ht th.unwound
    have hnone : th.unwound.bears e = 0 := Task.bears_finish ..
    have hthreads := panic_threads (w := w) t th
    change (w.abandon th).partings e + tally (Thread.bears e) (w.panic t th).threads +
      (w.abandon th).script e ≤ _
    rw [hthreads]
    simp only [sendoffs]
    omega
  | outside _ hi ha => exact outside_sendoffs hi ha
  | settle ha =>
    refine Nat.le_of_eq ?_
    simp only [sendoffs, World.partings, script, ha.threads, ha.history, ha.endpoints]

theorem partings_mono (hk : w.Keeps e) (ha : Atom allowed w v) : w.partings e ≤ v.partings e := by
  cases ha with
  | @act t th α p next u a ht hn hans =>
    obtain ⟨q, hleads⟩ := (hk.shaped th (List.mem_of_getElem? ht)).leads
    rw [hn] at hleads
    exact Nat.le_of_eq (hans.sendoffs (e := e) hleads.1).1.symm
  | @invoke t th p i after =>
    exact Nat.le_trans (Nat.le_add_right _ _) (Nat.le_of_eq (invoke_sendoffs w p i e).1.symm)
  | @panic t th => exact Nat.le_of_eq (abandon_sendoffs th).1.symm
  | outside _ hi ha =>
    exact Nat.le_of_eq (by rw [World.partings, World.partings, (outside_script (e := e) hi ha).1])
  | settle ha => exact Nat.le_of_eq (by rw [World.partings, World.partings, ha.history])

/-- In every run the disconnect callback of an endpoint starts at most once. -/
theorem Run.partings_le (hr : Run allowed empty w) (e : EndpointId) : w.partings e ≤ 1 := by
  have hle := (hr.induction (m := fun u => u.sendoffs e ≤ 1 ∧ u.Keeps e) (queued_of_new rfl)
    ⟨Nat.le_of_eq rfl, empty_keeps e⟩
    fun h ha => ⟨Nat.le_trans (sendoffs_le h.2 ha) h.1, h.2.atom ha⟩).1.1
  unfold sendoffs at hle
  omega

end World

end QueuePair
