import QueuePair.Proofs.Keeping

namespace QueuePair

/-- How far a worker is with leaving its queue. It watches over the queue until it has closed the
endpoint and then drained the queue; nothing else ends its watch. -/
inductive Watch
  | awake
  -- the endpoint is closed, and the queue is still to be drained
  | draining
  | over
deriving DecidableEq

namespace Departing

def watch : Departing → Watch
  | .readStopping | .close _ => .awake
  | .fail _ .drain => .draining
  | _ => .over

end Departing

namespace Sender

def watch : Sender → Watch
  | .depart s => s.watch
  | _ => .awake

end Sender

namespace Receiver

def watch : Receiver → Watch
  | .depart s => s.watch
  | _ => .awake

end Receiver

namespace Task

def watch (e : EndpointId) (d : Direction) : Task → Watch
  | .sender p _ s => if p.id = e ∧ d = .send then s.watch else .over
  | .receiver p _ s => if p.id = e ∧ d = .receive then s.watch else .over
  | _ => .over

theorem watch_finish (e : EndpointId) (d : Direction) (owner : Option EndpointId)
    (out : Outcome) : (finish owner out).watch e d = .over := by
  cases owner <;> rfl

end Task

namespace Primitive

def closes (e : EndpointId) {α : Type} : Primitive α → Bool
  | .endpoint e' .close => e' = e
  | _ => false

def drains (e : EndpointId) (d : Direction) {α : Type} : Primitive α → Bool
  | .endpoint e' (.drain d') => e' = e && d' = d
  | _ => false

inductive Turns (e : EndpointId) (d : Direction) {α : Type} (p : Primitive α) :
    Watch → Watch → Prop
  | stay (s : Watch) : Turns e d p s s
  | close : p.closes e = true → Turns e d p .awake .draining
  | drain : p.drains e d = true → Turns e d p .draining .over

end Primitive

namespace Move

variable {σ ρ τ : Type} {e : EndpointId} {d : Direction} {f : σ → Watch} {s : Watch} {mv : Move σ}

def Watches (e : EndpointId) (d : Direction) (f : σ → Watch) (s : Watch) : Move σ → Prop
  | .perform p next => ∀ a, p.Turns e d s (f (next a))
  | .invoke _ _ after => f after = s
  | .panic | .halt => True

@[simp] theorem watches_map {g : τ → σ} {mv : Move τ} :
    (mv.map g).Watches e d f s ↔ mv.Watches e d (fun x => f (g x)) s := by
  cases mv <;> exact Iff.rfl

theorem watches_of_forall (h : ∀ x, f x = s) : mv.Watches e d f s := by
  cases mv with
  | perform p next =>
    intro a
    rw [h]
    exact .stay s
  | invoke p i after => exact h after
  | panic | halt => trivial

theorem Watches.through {more : σ → τ} {done : ρ → τ} {f : τ → Watch} {mv : Move (Flow σ ρ)}
    {g : Flow σ ρ → Watch} (h : mv.Watches e d g s) (hmore : ∀ x, f (more x) = g (.more x))
    (hdone : ∀ r, f (done r) = g (.done r)) : (mv.through more done).Watches e d f s := by
  have hf : (fun x : Flow σ ρ => f (x.elim more done)) = g := by
    funext x
    cases x with
    | more x => exact hmore x
    | done r => exact hdone r
  refine watches_map.mpr ?_
  rw [hf]
  exact h

end Move

section

variable {e : EndpointId} {p : Party} {l : Link} {d : Direction}

theorem departing_watches (hp : p.id = e) (s : Departing) :
    (s.next p d).Watches e d (Flow.elim Departing.watch fun _ => .over) s.watch := by
  subst hp
  cases s with
  | readStopping => exact fun _ => .stay _
  | close => exact fun _ => .close (by simp [Primitive.closes])
  | fail localEnd s =>
    cases s with
    | drain =>
      intro jobs
      have hd : (Primitive.endpoint p.id (.drain d)).drains p.id d = true := by
        simp [Primitive.drains]
      cases jobs with
      | nil => cases localEnd <;> exact .drain hd
      | cons => exact .drain hd
    | notify => exact fun _ => .stay _
    | fail job rest =>
      cases rest with
      | nil => cases localEnd <;> rfl
      | cons => rfl
  | takeDisconnect =>
    intro script
    cases script <;> exact .stay _
  | disconnect => rfl

theorem sender_watches (hp : p.id = e) (s : Sender) :
    (s.next p l).Watches e .send (Flow.elim Sender.watch fun _ => .over) s.watch := by
  cases s with
  | fetch =>
    intro r
    cases r with
    | stopped | empty => exact .stay _
    | job slot job =>
      simp only [Flow.elim, Sender.ofJob, Mailbox.Publishing.start]
      split <;> exact .stay _
  | parked => exact fun _ => .stay _
  | publish slot job s =>
    refine Move.watches_map.mpr (Move.watches_of_forall fun f => ?_)
    cases f with
    | more => rfl
    | done r => cases r <;> rfl
  | signal =>
    intro r
    cases r <;> exact .stay _
  | complete | fail => rfl
  | recycle slot goOn =>
    intro a
    cases goOn <;> exact .stay _
  | depart s => exact (departing_watches hp s).through (fun _ => rfl) fun _ => rfl

theorem receiver_watches (hp : p.id = e) (s : Receiver) :
    (s.next p l).Watches e .receive (Flow.elim Receiver.watch fun _ => .over) s.watch := by
  cases s with
  | await =>
    intro r
    cases r <;> exact .stay _
  | fetch =>
    intro r
    cases r <;> exact .stay _
  | discard s =>
    refine Move.watches_map.mpr (Move.watches_of_forall fun f => ?_)
    cases f with
    | more => rfl
    | done c =>
      simp only [Flow.elim, Receiver.discarded]
      split
      · rfl
      · split <;> rfl
  | collect slot job s =>
    refine Move.watches_map.mpr (Move.watches_of_forall fun f => ?_)
    cases f with
    | more => rfl
    | done c =>
      simp only [Flow.elim, Receiver.collected]
      split <;> rfl
  | complete | fail => rfl
  | recycle slot goOn =>
    intro a
    cases goOn <;> exact .stay _
  | depart s => exact (departing_watches hp s).through (fun _ => rfl) fun _ => rfl

theorem task_watches (e : EndpointId) (d : Direction) (task : Task) :
    task.next.Watches e d (Task.watch e d) (task.watch e d) := by
  have hover : ∀ (o : Option EndpointId) (f : Flow Call Result),
      (f.elim (Task.call o) fun r => .finish o (.returned r)).watch e d = .over := by
    intro o f
    cases f with
    | more => rfl
    | done r => exact Task.watch_finish _ _ _ _
  cases task with
  | sender p l s =>
    by_cases h : p.id = e ∧ d = .send
    · obtain ⟨hp, rfl⟩ := h
      simp only [Task.watch, hp, and_self, if_true]
      refine (sender_watches hp s).through (fun x => ?_) fun _ => ?_
      · simp [Task.watch, hp, Flow.elim]
      · exact Task.watch_finish _ _ _ _
    · refine Move.watches_map.mpr (Move.watches_of_forall fun f => ?_)
      cases f with
      | more => simp [Flow.elim, Task.watch, h]
      | done r => simp [Flow.elim, Task.watch, h, Task.finish]
  | receiver p l s =>
    by_cases h : p.id = e ∧ d = .receive
    · obtain ⟨hp, rfl⟩ := h
      simp only [Task.watch, hp, and_self, if_true]
      refine (receiver_watches hp s).through (fun x => ?_) fun _ => ?_
      · simp [Task.watch, hp, Flow.elim]
      · exact Task.watch_finish _ _ _ _
    · refine Move.watches_map.mpr (Move.watches_of_forall fun f => ?_)
      cases f with
      | more => simp [Flow.elim, Task.watch, h]
      | done r => simp [Flow.elim, Task.watch, h, Task.finish]
  | call o c => exact Move.watches_map.mpr (Move.watches_of_forall (hover o))
  | leaving e' s out =>
    refine Move.watches_map.mpr (Move.watches_of_forall fun f => ?_)
    cases f <;> rfl
  | ended => trivial

end

namespace Thread

variable {e : EndpointId} {d : Direction} {th : Thread}

def watch (e : EndpointId) (d : Direction) (th : Thread) : Watch :=
  th.task.watch e d

theorem watches (e : EndpointId) (d : Direction) (th : Thread) :
    th.next.Watches e d (Thread.watch e d) (th.watch e d) := by
  obtain ⟨o, task, cs⟩ := th
  cases cs with
  | nil =>
    simp only [next, Move.watches_map]
    exact task_watches e d task
  | cons c cs =>
    simp only [next, Move.watches_map]
    exact Move.watches_of_forall fun _ => rfl

theorem Shaped.attends_of_watch (h : th.Shaped) (hw : th.watch e d ≠ .over) :
    th.origin.attends e = true := by
  cases h with
  | @sender p l s cs hcs =>
    have hp : p.id = e := by
      by_contra hp
      exact hw (by simp [watch, Task.watch, hp])
    simp [Task.attends, hp]
  | @receiver p l s cs hcs =>
    have hp : p.id = e := by
      by_contra hp
      exact hw (by simp [watch, Task.watch, hp])
    simp [Task.attends, hp]
  | _ => exact absurd rfl hw

end Thread

end QueuePair
