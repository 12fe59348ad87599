import QueuePair.Proofs.Fate
import QueuePair.Proofs.Withdrawal

namespace QueuePair

namespace Destroying

def begun : Destroying → List Destroying
  | .begin => []
  | s => [s]

def going : Flow Destroying (Except Error Unit) → List Destroying
  | .more s => s.begun
  | .done _ => []

end Destroying

namespace Call

def destroying? (e : EndpointId) : Call → Option Destroying
  | .destroying p s => if p.id = e then some s else none
  | _ => none

def tears (e : EndpointId) (c : Call) : List Destroying :=
  (c.destroying? e).elim [] Destroying.begun

end Call

namespace Callback

def tears (e : EndpointId) (c : Callback) : List Destroying :=
  c.call?.elim [] (Call.tears e)

end Callback

namespace Task

def tears (e : EndpointId) (a : Task) : List Destroying :=
  a.call?.elim [] (Call.tears e)

/-- Whether a task is a worker of an endpoint. -/
def staffs (e : EndpointId) : Task → Bool
  | .sender p _ _ | .receiver p _ _ => p.id = e
  | _ => false

@[simp] theorem tears_finish (e : EndpointId) (owner : Option EndpointId) (out : Outcome) :
    (finish owner out).tears e = [] := by
  cases owner <;> rfl

@[simp] theorem staffs_finish (e : EndpointId) (owner : Option EndpointId) (out : Outcome) :
    (finish owner out).staffs e = false := by
  cases owner <;> rfl

end Task

namespace Thread

def tears (e : EndpointId) (th : Thread) : List Destroying :=
  th.callbacks.flatMap (Callback.tears e) ++ th.task.tears e

def below (e : EndpointId) (th : Thread) : List Destroying :=
  match th.callbacks with
  | [] => []
  | _ :: cs => cs.flatMap (Callback.tears e) ++ th.task.tears e

def parting (e : EndpointId) (th : Thread) : Bool :=
  match th.callbacks, th.task with
  | [], .leaving e' .release _ => e' = e
  | _, _ => false

end Thread

namespace EndpointCall

def strips {α : Type} : EndpointCall α → Bool
  | .beginStopping | .takeLink | .takeWorkers | .release => true
  | _ => false

end EndpointCall

namespace Primitive

def strips (e : EndpointId) {α : Type} : Primitive α → Bool
  | .endpoint e' c => e' = e && c.strips
  | _ => false

theorem strips_of_outward {e : EndpointId} {α : Type} {p : Primitive α} (h : p.outward = true) :
    p.strips e = false := by
  cases p <;> first | rfl | cases h

end Primitive

namespace Move

variable {σ ρ τ : Type} {e : EndpointId} {f : σ → List Destroying} {ts : List Destroying}
  {mv : Move σ}

/-- A move on a level on which an endpoint is not torn down: it leaves the teardown alone, and the
levels below as they are. -/
def Bypasses (e : EndpointId) (f : σ → List Destroying) (ts : List Destroying) : Move σ → Prop
  | .perform p next => p.strips e = false ∧ ∀ a, f (next a) = ts
  | .invoke _ _ after => f after = ts
  | .panic | .halt => True

@[simp] theorem bypasses_map {g : τ → σ} {mv : Move τ} :
    (mv.map g).Bypasses e f ts ↔ mv.Bypasses e (fun s => f (g s)) ts := by
  cases mv <;> exact Iff.rfl

theorem Bypasses.congr {g : σ → List Destroying} (h : mv.Bypasses e f ts) (he : ∀ s, g s = f s) :
    mv.Bypasses e g ts := by
  obtain rfl : g = f := funext he
  exact h

theorem Bypasses.of_eq {us : List Destroying} (h : mv.Bypasses e f ts) {g : σ → List Destroying}
    (he : ∀ s, f s = ts → g s = us) : mv.Bypasses e g us := by
  cases mv with
  | perform p next => exact ⟨h.1, fun a => he _ (h.2 a)⟩
  | invoke p i after => exact he _ h
  | panic | halt => trivial

theorem Outward.bypasses (h : mv.Outward) (hf : ∀ s, f s = ts) : mv.Bypasses e f ts := by
  cases mv with
  | perform p next => exact ⟨Primitive.strips_of_outward h, fun _ => hf _⟩
  | invoke => exact h.elim
  | panic | halt => trivial

end Move

section

variable {e : EndpointId} {p : Party} {d : Direction} {l : Link}

theorem access_bypasses {α σ : Type} {c : EndpointCall α} {next : α → σ} {f : σ → List Destroying}
    (hc : c.strips = false ∨ p.id ≠ e) (hf : ∀ s, f s = []) :
    (Move.access p c next).Bypasses e f [] := by
  refine ⟨?_, fun _ => hf _⟩
  rcases hc with hc | hp
  · simp [Primitive.strips, hc]
  · simp [Primitive.strips, hp]

theorem finalizing_bypasses {f : Flow Finalizing (Except Error Unit) → List Destroying}
    (hf : ∀ s, f s = []) (s : Finalizing) : (s.next p).Bypasses e f [] := by
  cases s with
  | rendezvous =>
    exact Move.bypasses_map.mpr ((rendezvous_confined ..).outward.bypasses fun _ => hf _)
  | _ => exact access_bypasses (.inl rfl) hf

theorem posting_bypasses {data : Buffer} {handler : Handler}
    {f : Flow Posting (Except Error Nat) → List Destroying} (hf : ∀ s, f s = []) (s : Posting) :
    (s.next p d data handler).Bypasses e f [] := by
  cases s with
  | clock | parked => exact ⟨rfl, fun _ => hf _⟩
  | overflowed => trivial
  | _ => exact access_bypasses (.inl rfl) hf

theorem waiting_bypasses {data : Buffer} {f : Flow Waiting (Except Error Buffer) → List Destroying}
    (hf : ∀ s, f s = []) (s : Waiting) : (s.next p d data).Bypasses e f [] := by
  cases s with
  | posting s => exact Move.bypasses_map.mpr (posting_bypasses (fun _ => hf _) s)
  | clock => exact ⟨rfl, fun _ => hf _⟩
  | _ => exact access_bypasses (.inl rfl) hf

theorem failPending_bypasses {f : Flow FailPending Unit → List Destroying} (hf : ∀ s, f s = [])
    (s : FailPending) : (s.next p d).Bypasses e f [] := by
  cases s with
  | fail => exact hf _
  | _ => exact access_bypasses (.inl rfl) hf

theorem departing_bypasses {f : Flow Departing Unit → List Destroying} (hf : ∀ s, f s = [])
    (s : Departing) : (s.next p d).Bypasses e f [] := by
  cases s with
  | fail localEnd s => exact Move.bypasses_map.mpr (failPending_bypasses (fun _ => hf _) s)
  | disconnect => exact hf _
  | _ => exact access_bypasses (.inl rfl) hf

theorem sender_bypasses {f : Flow Sender Unit → List Destroying} (hf : ∀ s, f s = [])
    (s : Sender) : (s.next p l).Bypasses e f [] := by
  cases s with
  | parked | signal => exact ⟨rfl, fun _ => hf _⟩
  | publish slot job s =>
    exact Move.bypasses_map.mpr ((publishing_confined _ _ s).outward.bypasses fun _ => hf _)
  | complete | fail => exact hf _
  | depart s => exact Move.bypasses_map.mpr (departing_bypasses (fun _ => hf _) s)
  | _ => exact access_bypasses (.inl rfl) hf

theorem receiver_bypasses {f : Flow Receiver Unit → List Destroying} (hf : ∀ s, f s = [])
    (s : Receiver) : (s.next p l).Bypasses e f [] := by
  cases s with
  | await => exact ⟨rfl, fun _ => hf _⟩
  | discard s =>
    exact Move.bypasses_map.mpr ((collecting_confined _ _ s).outward.bypasses fun _ => hf _)
  | collect slot job s =>
    exact Move.bypasses_map.mpr ((collecting_confined _ _ s).outward.bypasses fun _ => hf _)
  | complete | fail => exact hf _
  | depart s => exact Move.bypasses_map.mpr (departing_bypasses (fun _ => hf _) s)
  | _ => exact access_bypasses (.inl rfl) hf

theorem destroying_bypasses {f : Flow Destroying (Except Error Unit) → List Destroying}
    (hp : p.id ≠ e) (hf : ∀ s, f s = []) (s : Destroying) : (s.next p).Bypasses e f [] := by
  cases s with
  | remove l s =>
    exact Move.bypasses_map.mpr ((removal_confined l s).1.outward.bypasses fun _ => hf _)
  | join => exact ⟨rfl, fun _ => hf _⟩
  | fail r d s => exact Move.bypasses_map.mpr (failPending_bypasses (fun _ => hf _) s)
  | _ => exact access_bypasses (.inr hp) hf

theorem connecting_bypasses {f : Flow Connecting (Except Error Unit) → List Destroying}
    (hp : p.id ≠ e) (hf : ∀ s, f s = []) (s : Connecting) : (s.next p).Bypasses e f [] := by
  cases s with
  | mailbox | signals | removeMailbox | attach | removeLink =>
    exact Move.bypasses_map.mpr (Move.Outward.bypasses (by simp) fun _ => hf _)
  | spawnSender | spawnReceiver | join => exact ⟨rfl, fun _ => hf _⟩
  | _ => exact access_bypasses (.inr hp) hf

theorem leaving_bypasses {e' : EndpointId} {f : Flow Leaving Unit → List Destroying} (s : Leaving)
    (hs : s = .release → e' ≠ e) (hf : ∀ s, f s = []) : (s.next e').Bypasses e f [] := by
  cases s with
  | release => exact ⟨by simp [Primitive.strips, hs rfl], fun _ => hf _⟩
  | remove l s =>
    exact Move.bypasses_map.mpr ((removal_confined l s).1.outward.bypasses fun _ => hf _)

theorem call_bypasses {o : Option EndpointId} {c : Call} (hd : c.destroying? e = none)
    (hc : (Task.call o c).connecting? e = none) :
    c.next.Bypasses e (Flow.elim (Call.tears e) fun _ => []) [] := by
  cases c with
  | connecting p s =>
    have hp : p.id ≠ e := fun hp => by simp [Task.connecting?, hp] at hc
    refine Move.bypasses_map.mpr (connecting_bypasses hp (fun f => ?_) s)
    cases f with
    | more => rfl
    | done r =>
      cases r with
      | error => rfl
      | ok => cases hr : p.settings.role.isServer <;> simp [Flow.elim, Call.tears, Call.destroying?]
  | destroying p s =>
    have hp : p.id ≠ e := fun hp => by simp [Call.destroying?, hp] at hd
    refine Move.bypasses_map.mpr (destroying_bypasses hp (fun f => ?_) s)
    cases f <;> simp [Flow.elim, Call.tears, Call.destroying?, hp]
  | finalizing p s =>
    exact Move.bypasses_map.mpr (finalizing_bypasses (fun f => by cases f <;> rfl) s)
  | posting p d data handler s =>
    exact Move.bypasses_map.mpr (posting_bypasses (fun f => by cases f <;> rfl) s)
  | waiting p d data s =>
    exact Move.bypasses_map.mpr (waiting_bypasses (fun f => by cases f <;> rfl) s)
  | readingState => exact ⟨by simp [Primitive.strips, EndpointCall.strips], fun _ => rfl⟩
  | holding | changing | removingSet | unlinking => exact ⟨rfl, fun _ => rfl⟩
  | _ =>
    exact Move.bypasses_map.mpr (Move.Outward.bypasses (by simp) fun f => by cases f <;> rfl)

theorem task_bypasses {a : Task} (hd : ∀ c, a.call? = some c → c.destroying? e = none)
    (hc : a.connecting? e = none) (hl : ∀ e' o, a = .leaving e' .release o → e' ≠ e) :
    a.next.Bypasses e (Task.tears e) [] := by
  cases a with
  | sender p l s => exact Move.bypasses_map.mpr (sender_bypasses (fun f => by cases f <;> rfl) s)
  | receiver p l s =>
    exact Move.bypasses_map.mpr (receiver_bypasses (fun f => by cases f <;> rfl) s)
  | call o c =>
    refine Move.bypasses_map.mpr ((call_bypasses (hd c rfl) hc).congr fun f => ?_)
    cases f with
    | more c => rfl
    | done r => exact Task.tears_finish ..
  | leaving e' s o =>
    refine Move.bypasses_map.mpr (leaving_bypasses s (fun hs => hl e' o (hs ▸ rfl)) fun f => ?_)
    cases f <;> rfl
  | ended => trivial

theorem ofOperation_tears {op : Operation} {c : Call} (h : Call.ofOperation p op = .more c) :
    c.tears e = [] := by
  cases op with
  | connect | accept | finalizeConnect | finalizeAccept =>
    simp only [Call.ofOperation, Call.requireRole] at h
    split at h <;> cases h
    rfl
  | postSend | waitSend =>
    simp only [Call.ofOperation, Call.sendFits] at h
    split at h <;> cases h
    rfl
  | postReceive | waitReceive | readState =>
    cases h
    rfl
  | destroy =>
    cases h
    simp only [Call.tears, Call.destroying?]
    split <;> rfl

theorem ofObject_tears {op : ObjectOperation} {c : Call} (h : Call.ofObject op = .more c) :
    c.tears e = [] := by
  cases c with
  | destroying => cases (ofObject_proper h).2
  | _ => rfl

theorem ofScript_tears {id : String} {payload : Bytes} {script : Script} {c : Callback}
    (h : CallbackState.ofScript p id payload script = some c.state) : c.tears e = [] := by
  obtain ⟨q, lane, cid, bytes, index, state⟩ := c
  obtain he | ⟨command, r, rest, he⟩ | ⟨command, call, rest, he, hc⟩ := ofScript_cases h
  · cases he
    rfl
  · cases he
    rfl
  · cases he
    obtain rfl | ⟨op, hop, -⟩ := hc
    · rfl
    · exact ofOperation_tears hop

theorem start_tears {lane : Lane} {id : String} {payload : Bytes} {script : Script} {c : Callback}
    (h : Callback.start p lane id payload script = some c) : c.tears e = [] := by
  simp only [Callback.start, Option.map_eq_some_iff] at h
  obtain ⟨s, hs, rfl⟩ := h
  exact ofScript_tears hs

theorem callback_bypasses {c : Callback} (h : c.OfParty p)
    (hd : ∀ call, c.call? = some call → call.destroying? e = none) :
    c.next.Bypasses e (fun o => o.toList.flatMap (Callback.tears e)) [] := by
  obtain ⟨q, lane, id, payload, index, state⟩ := c
  cases state with
  | running command call rest =>
    have hc : (Task.call none call).connecting? e = none := by
      cases call with
      | connecting => exact h.state.2.elim
      | _ => rfl
    refine Move.bypasses_map.mpr ((call_bypasses (hd call rfl) hc).of_eq fun f hf => ?_)
    cases f with
    | more call' => simpa [Flow.elim, Callback.tears, Callback.call?] using hf
    | done r => rfl
  | ended command r rest =>
    refine ⟨rfl, fun _ => ?_⟩
    cases hs : CallbackState.ofScript q id payload rest with
    | none => rfl
    | some s =>
      have hnone := ofScript_tears (e := e) (c := ⟨q, lane, id, payload, index + 1, s⟩) hs
      simp [hnone]
  | panicking => trivial

end

namespace Thread

variable {e : EndpointId} {th : Thread}

theorem tears_push {c : Option Callback} (hc : ∀ b ∈ c, b.tears e = []) :
    (th.push c).tears e = th.tears e := by
  cases c with
  | none => rfl
  | some c => simp [push, tears, hc c rfl]

theorem tears_eq {c : Call} (h : th.call? = some c) : th.tears e = c.tears e ++ th.below e := by
  obtain ⟨o, task, cs⟩ := th
  cases cs with
  | nil =>
    have hc : task.call? = some c := h
    simp [tears, below, Task.tears, hc]
  | cons b cs =>
    have hc : b.call? = some c := h
    simp [tears, below, Callback.tears, hc]

theorem Shaped.bypasses (hs : th.Shaped) (hd : ∀ c, th.call? = some c → c.destroying? e = none)
    (hc : th.connecting? e = none) (hp : th.parting e = false) :
    th.next.Bypasses e (tears e) (th.tears e) := by
  obtain ⟨o, task, cs⟩ := th
  cases cs with
  | nil =>
    simp only [next, Move.bypasses_map]
    have hnone : task.tears e = [] := by
      cases hcall : task.call? with
      | none => simp [Task.tears, hcall]
      | some c => simp [Task.tears, hcall, Call.tears, hd c hcall]
    refine (task_bypasses hd hc fun e' out he => ?_).of_eq fun a ha => ?_
    · subst he
      simpa [parting] using hp
    · simp [tears, ha, hnone]
  | cons c cs =>
    obtain ⟨p, hparty⟩ := hs.callbacks List.mem_cons_self
    simp only [next, Move.bypasses_map]
    have hnone : c.tears e = [] := by
      cases hcall : c.call? with
      | none => simp [Callback.tears, hcall]
      | some call => simp [Callback.tears, hcall, Call.tears, hd call hcall]
    refine (callback_bypasses hparty hd).of_eq fun f hf => ?_
    simp [tears, List.flatMap_append, hf, hnone]

/-- The innermost operation of a thread destroys an endpoint. -/
theorem next_destroying {p : Party} {s : Destroying} (h : th.call? = some (.destroying p s)) :
    ∃ f : Flow Destroying (Except Error Unit) → Thread, th.next = (s.next p).map f ∧
      (∀ x, (f x).tears p.id = Destroying.going x ++ th.below p.id) ∧
      ∀ e x, (f x).task.staffs e = true → th.task.staffs e = true := by
  obtain ⟨f, hf⟩ : ∃ f, th.next = (Call.next (.destroying p s)).map f ∧
      (∀ c, (f (.more c)).tears p.id = c.tears p.id ++ th.below p.id) ∧
      (∀ r, (f (.done r)).tears p.id = th.below p.id) ∧
      ∀ e x, (f x).task.staffs e = true → th.task.staffs e = true := by
    obtain ⟨o, task, cs⟩ := th
    cases cs with
    | nil =>
      cases task with
      | call owner c =>
        obtain rfl := Option.some.inj h
        refine ⟨fun s => ⟨o, s.elim (.call owner) fun r => .finish owner (.returned r), []⟩, ?_,
          fun c => ?_, fun r => ?_, fun e x hx => ?_⟩
        · simp only [next, Task.next, Move.through]
          cases (Call.destroying p s).next <;> rfl
        · simp [tears, below, Flow.elim, Task.tears, Task.call?]
        · simp [tears, below, Flow.elim]
        · cases x with
          | more => cases hx
          | done => simp [Flow.elim] at hx
      | _ => cases h
    | cons b cs =>
      obtain ⟨q, lane, id, payload, index, state⟩ := b
      cases state with
      | running command c rest =>
        obtain rfl := Option.some.inj h
        refine ⟨fun s => ⟨o, task, (s.elim (fun c => ⟨q, lane, id, payload, index,
          .running command c rest⟩) fun r => ⟨q, lane, id, payload, index, .ended command r rest⟩)
            ::
            cs⟩, ?_, fun c => ?_, fun r => ?_, fun e x hx => hx⟩
        · simp only [next, Callback.next, Move.through]
          cases (Call.destroying p s).next with
          | perform p next =>
            simp only [Move.map]
            congr 1
            funext a
            cases next a <;> rfl
          | invoke p i after => cases after <;> rfl
          | panic | halt => rfl
        · simp [tears, below, Flow.elim, Callback.tears, Callback.call?]
        · simp [tears, below, Flow.elim, Callback.tears, Callback.call?]
      | _ => cases h
  refine ⟨fun x => f (x.elim (fun s => .more (.destroying p s)) fun r => .done (Call.unit r)), ?_,
    fun x => ?_, fun e x => hf.2.2.2 e _⟩
  · rw [hf.1]
    simp only [Call.next, Move.through]
    cases s.next p <;> rfl
  · cases x with
    | more s =>
      refine (hf.2.1 _).trans ?_
      simp [Call.tears, Call.destroying?, Destroying.going]
    | done r => exact hf.2.2.1 _

theorem next_staffs (th : Thread) :
    th.next.Into fun b => b.task.staffs e = true → th.task.staffs e = true := by
  obtain ⟨o, task, cs⟩ := th
  cases cs with
  | cons c cs =>
    simp only [next, Move.into_map]
    exact Move.into_of_forall fun _ => id
  | nil =>
    simp only [next, Move.into_map]
    cases task with
    | ended => trivial
    | leaving =>
      refine Move.into_map.mpr (Move.into_of_forall fun f hf => ?_)
      cases f <;> cases hf
    | sender | receiver | call =>
      refine Move.into_map.mpr (Move.into_of_forall fun f hf => ?_)
      cases f with
      | more s => exact hf
      | done r => exact absurd hf (by simp [Flow.elim])

end Thread

namespace World

variable {w v : World} {e : EndpointId} {t : ThreadId} {b : Thread} {i : Input}

theorem Starts.tears (h : w.Starts b) : b.tears e = [] := by
  have hstart : ∀ owner s, (∀ c, s = .more c → c.tears e = []) →
      (Thread.ofTask (.ofStarted owner s)).tears e = [] := fun owner s hs => by
    cases s with
    | more c =>
      simpa [Thread.tears, Thread.ofTask, Task.ofStarted, Task.tears, Task.call?] using hs c rfl
    | done r => simp [Thread.tears, Thread.ofTask, Task.ofStarted]
  cases h with
  | @worker _ _ _ _ _ q l d => cases d <;> rfl
  | operation => exact hstart _ _ fun c hc => ofOperation_tears hc
  | request => exact hstart _ _ fun c hc => ofObject_tears hc
  | leaving => rfl

end World

end QueuePair
