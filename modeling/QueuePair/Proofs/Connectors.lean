import QueuePair.Proofs.Shape

namespace QueuePair

namespace EndpointCall

def founds {α : Type} : EndpointCall α → Bool
  | .writeState _ | .setStopped _ | .writeStopping _ | .lockLink | .unlockLink _ => true
  | _ => false

end EndpointCall

namespace Primitive

def founds (e : EndpointId) {α : Type} : Primitive α → Bool
  | .endpoint e' c => e' = e && c.founds
  | .spawn p _ _ => p.id = e
  | _ => false

def common {α : Type} : Primitive α → Bool
  | .system c => !c.opens
  | .endpoint _ c => !c.founds
  | .spawn .. => false
  | _ => true

theorem founds_of_outward {e : EndpointId} {α : Type} {p : Primitive α} (h : p.outward = true) :
    p.founds e = false := by
  cases p <;> first | rfl | cases h

theorem founds_of_common {e : EndpointId} {α : Type} {p : Primitive α} (h : p.common = true) :
    p.founds e = false := by
  cases p with
  | endpoint e' c => simpa [founds, common] using fun _ => h
  | spawn => cases h
  | _ => rfl

theorem common_of_confined {α : Type} {p : Primitive α} (h : p.confined = true) :
    p.common = true := by
  cases p <;> first | exact h | cases h

end Primitive

namespace Connecting

def locks : Connecting → Bool
  | .lock => false
  | _ => true

def alters : Connecting → Bool
  | .lock | .check _ | .unlock none _ => false
  | _ => true

end Connecting

namespace Task

/-- Where a task is that connects an endpoint. -/
def connecting? (e : EndpointId) : Task → Option Connecting
  | .call _ (.connecting p s) => if p.id = e then some s else none
  | _ => none

theorem connecting?_finish (e : EndpointId) (owner : Option EndpointId) (out : Outcome) :
    (finish owner out).connecting? e = none := by
  cases owner <;> rfl

end Task

namespace Move

variable {σ ρ τ : Type} {e : EndpointId} {mv : Move σ}

def NotFounding (e : EndpointId) : Move σ → Prop
  | .perform p _ => p.founds e = false
  | .invoke .. | .panic | .halt => True

@[simp] theorem notFounding_map {f : τ → σ} {mv : Move τ} : (mv.map f).NotFounding e ↔
    mv.NotFounding e := by
  cases mv <;> exact Iff.rfl

@[simp] theorem notFounding_through {more : σ → τ} {done : ρ → τ} {mv : Move (Flow σ ρ)} :
    (mv.through more done).NotFounding e ↔ mv.NotFounding e :=
  notFounding_map

theorem Outward.notFounding (h : mv.Outward) : mv.NotFounding e := by
  cases mv with
  | perform p next => exact Primitive.founds_of_outward h
  | invoke => exact h.elim
  | panic | halt => trivial

theorem Into.mono {Q R : σ → Prop} (h : mv.Into Q) (hq : ∀ s, Q s → R s) : mv.Into R := by
  cases mv with
  | perform p next => exact fun a => hq _ (h a)
  | invoke p i after => exact hq _ h
  | panic | halt => trivial

def Common : Move σ → Prop
  | .perform p _ => p.common = true
  | .invoke .. | .panic | .halt => True

@[simp] theorem common_map {f : τ → σ} {mv : Move τ} : (mv.map f).Common ↔ mv.Common := by
  cases mv <;> exact Iff.rfl

@[simp] theorem common_through {more : σ → τ} {done : ρ → τ} {mv : Move (Flow σ ρ)} :
    (mv.through more done).Common ↔ mv.Common :=
  common_map

theorem Confined.common (h : mv.Confined) : mv.Common := by
  cases mv with
  | perform p next => exact Primitive.common_of_confined h
  | invoke => exact h.elim
  | panic | halt => trivial

theorem Common.notFounding (h : mv.Common) : mv.NotFounding e := by
  cases mv with
  | perform p next => exact Primitive.founds_of_common h
  | invoke | panic | halt => trivial

end Move

section

variable {e : EndpointId}

theorem connecting_acts (p : Party) (s : Connecting) : (s.next p).Acts := by
  cases s with
  | mailbox | signals | removeMailbox | attach | removeLink => simp [Connecting.next]
  | _ => trivial

theorem connecting_notFounding {p : Party} (hp : p.id ≠ e) (s : Connecting) :
    (s.next p).NotFounding e := by
  cases s with
  | mailbox | signals | removeMailbox | attach | removeLink =>
    simp [Connecting.next, Move.Outward.notFounding]
  | join => exact rfl
  | _ => simp [Connecting.next, Move.access, Move.NotFounding, Primitive.founds, hp]

theorem access_common {α σ : Type} {p : Party} {c : EndpointCall α} {next : α → σ}
    (hc : c.founds = false) : (Move.access p c next).Common := by
  simp [Move.access, Move.Common, Primitive.common, hc]

theorem finalizing_common (p : Party) (s : Finalizing) : (s.next p).Common := by
  cases s with
  | rendezvous => simp [Finalizing.next, Move.Confined.common]
  | _ => exact access_common rfl

theorem posting_common (p : Party) (d : Direction) (data : Buffer) (handler : Handler)
    (s : Posting) : (s.next p d data handler).Common := by
  cases s with
  | clock | parked => exact rfl
  | overflowed => trivial
  | _ => exact access_common rfl

theorem waiting_common (p : Party) (d : Direction) (data : Buffer) (s : Waiting) :
    (s.next p d data).Common := by
  cases s with
  | posting s => exact Move.common_through.mpr (posting_common p d data .caller s)
  | clock => exact rfl
  | _ => exact access_common rfl

theorem failPending_common (p : Party) (d : Direction) (s : FailPending) :
    (s.next p d).Common := by
  cases s with
  | fail => trivial
  | _ => exact access_common rfl

theorem departing_common (p : Party) (d : Direction) (s : Departing) : (s.next p d).Common := by
  cases s with
  | fail localEnd s => exact Move.common_through.mpr (failPending_common p d s)
  | disconnect => trivial
  | _ => exact access_common rfl

theorem destroying_common (p : Party) (s : Destroying) : (s.next p).Common := by
  cases s with
  | remove l s => exact Move.common_through.mpr (removal_confined l s).1.common
  | join => exact rfl
  | fail r d s => exact Move.common_through.mpr (failPending_common p d s)
  | _ => exact access_common rfl

theorem sender_common (p : Party) (l : Link) (s : Sender) : (s.next p l).Common := by
  cases s with
  | parked | signal => exact rfl
  | publish slot job s => exact Move.common_through.mpr (publishing_confined _ _ s).common
  | complete | fail => trivial
  | depart s => exact Move.common_through.mpr (departing_common p .send s)
  | _ => exact access_common rfl

theorem receiver_common (p : Party) (l : Link) (s : Receiver) : (s.next p l).Common := by
  cases s with
  | await => exact rfl
  | discard s => exact Move.common_through.mpr (collecting_confined _ _ s).common
  | collect slot job s => exact Move.common_through.mpr (collecting_confined _ _ s).common
  | complete | fail => trivial
  | depart s => exact Move.common_through.mpr (departing_common p .receive s)
  | _ => exact access_common rfl

theorem leaving_common (e : EndpointId) (s : Leaving) : (s.next e).Common := by
  cases s with
  | release => exact rfl
  | remove l s => exact Move.common_through.mpr (removal_confined l s).1.common

theorem callback_common {p : Party} {c : Callback} (h : c.OfParty p) : c.next.Common := by
  obtain ⟨q, lane, id, payload, index, state⟩ := c
  cases state with
  | running command call rest =>
    refine Move.common_through.mpr ?_
    have hcall := h.state.2
    cases call with
    | posting q d data handler s =>
      exact Move.common_through.mpr (posting_common q d data handler s)
    | waiting q d data s => exact Move.common_through.mpr (waiting_common q d data s)
    | destroying q s => exact Move.common_through.mpr (destroying_common q s)
    | readingState => exact access_common rfl
    | holding => exact rfl
    | _ => exact hcall.elim
  | ended | panicking => trivial

theorem call_notFounding {o : Option EndpointId} {c : Call}
    (h : (Task.call o c).connecting? e = none) :
    c.next.NotFounding e := by
  cases c with
  | connecting p s =>
    have hp : p.id ≠ e := fun hp => by simp [Task.connecting?, hp] at h
    exact Move.notFounding_through.mpr (connecting_notFounding hp s)
  | finalizing p s => exact Move.notFounding_through.mpr (finalizing_common p s).notFounding
  | posting p d data handler s =>
    exact Move.notFounding_through.mpr (posting_common p d data handler s).notFounding
  | waiting p d data s => exact Move.notFounding_through.mpr (waiting_common p d data s).notFounding
  | destroying p s => exact Move.notFounding_through.mpr (destroying_common p s).notFounding
  | readingState => exact (access_common rfl).notFounding
  | holding | changing | removingSet | unlinking => exact rfl
  | _ => exact Move.Outward.notFounding (by simp [Call.next])

theorem task_notFounding {task : Task} (h : task.connecting? e = none) :
    task.next.NotFounding e := by
  cases task with
  | sender p l s => exact Move.notFounding_through.mpr (sender_common p l s).notFounding
  | receiver p l s => exact Move.notFounding_through.mpr (receiver_common p l s).notFounding
  | call o c => exact Move.notFounding_through.mpr (call_notFounding h)
  | leaving e' s out => exact Move.notFounding_through.mpr (leaving_common e' s).notFounding
  | ended => trivial

theorem call_into {o : Option EndpointId} {c : Call} (h : (Task.call o c).connecting? e = none) :
    c.next.Into (Flow.elim (fun c => (Task.call o c).connecting? e = none) fun _ => True) := by
  cases c with
  | connecting p s =>
    have hp : p.id ≠ e := fun hp => by simp [Task.connecting?, hp] at h
    refine Move.into_map.mpr (Move.into_of_forall fun f => ?_)
    cases f with
    | more s => simp [Flow.elim, Task.connecting?, hp]
    | done r =>
      cases r with
      | error => trivial
      | ok => cases hr : p.settings.role.isServer <;> simp [Flow.elim, Task.connecting?]
  | readingState | holding | changing | removingSet | unlinking => exact fun _ => trivial
  | _ =>
    refine Move.into_map.mpr (Move.into_of_forall fun f => ?_)
    cases f <;> first | rfl | trivial

theorem task_into {task : Task} (h : task.connecting? e = none) :
    task.next.Into fun task => task.connecting? e = none := by
  cases task with
  | call o c =>
    refine Move.into_map.mpr ((call_into h).mono fun f hf => ?_)
    cases f with
    | more c => exact hf
    | done r => exact Task.connecting?_finish _ _ _
  | ended => trivial
  | _ =>
    refine Move.into_map.mpr (Move.into_of_forall fun f => ?_)
    cases f with
    | more s => rfl
    | done r => rfl

end

namespace Thread

variable {e : EndpointId} {th : Thread}

def connecting? (e : EndpointId) (th : Thread) : Option Connecting :=
  th.task.connecting? e

theorem Shaped.notFounding (h : th.Shaped) (hc : th.connecting? e = none) :
    th.next.NotFounding e := by
  obtain ⟨o, task, cs⟩ := th
  cases cs with
  | nil =>
    simp only [next, Move.notFounding_map]
    exact task_notFounding hc
  | cons c cs =>
    obtain ⟨p, hp⟩ := h.callbacks List.mem_cons_self
    simp only [next, Move.notFounding_map]
    exact (callback_common hp).notFounding

theorem next_not_connecting (hc : th.connecting? e = none) :
    th.next.Into fun th' => th'.connecting? e = none := by
  obtain ⟨o, task, cs⟩ := th
  cases cs with
  | nil =>
    simp only [next, Move.into_map]
    exact task_into hc
  | cons c cs =>
    simp only [next, Move.into_map]
    exact Move.into_of_forall fun _ => hc

theorem Shaped.connecting_cases {s : Connecting} (h : th.Shaped) (hc : th.connecting? e = some s) :
    ∃ origin o p, p.id = e ∧ th = ⟨origin, .call o (.connecting p s), []⟩ := by
  cases h with
  | @call origin o c _ _ _ =>
    cases c with
    | connecting p s' =>
      simp only [connecting?, Task.connecting?] at hc
      split at hc
      · rename_i hp
        obtain rfl := Option.some.inj hc
        exact ⟨origin, o, p, hp, rfl⟩
      · cases hc
    | _ => cases hc
  | _ => cases hc

end Thread

end QueuePair
