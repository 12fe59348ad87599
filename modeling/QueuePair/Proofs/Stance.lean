import QueuePair.Proofs.Shape

namespace QueuePair

inductive Want
  | job
  | room (d : Direction)

inductive Stance
  | free
  | parked (e : EndpointId) (want : Want)
  | notifying (e : EndpointId)

namespace Primitive

def stance : {α : Type} → Primitive α → α → Stance
  | _, .endpoint e .nextSend, .empty => .parked e .job
  | _, .endpoint e (.post d _), .full => .parked e (.room d)
  | _, .endpoint e (.drain _), _ :: _ => .notifying e
  | _, _, _ => .free

theorem stance_still {α : Type} {p : Primitive α} (h : p.still = true) (a : α) :
    p.stance a = .free := by
  cases p with
  | endpoint e c => cases c <;> first | rfl | cases h
  | _ => rfl

end Primitive

namespace FailPending

def stance (p : Party) : FailPending → Stance
  | .notify .. => .notifying p.id
  | .drain | .fail .. => .free

end FailPending

namespace Departing

def stance (p : Party) : Departing → Stance
  | .fail _ s => s.stance p
  | _ => .free

end Departing

namespace Destroying

def stance (p : Party) : Destroying → Stance
  | .fail _ _ s => s.stance p
  | _ => .free

end Destroying

namespace Sender

def stance (p : Party) : Sender → Stance
  | .parked => .parked p.id .job
  | .depart s => s.stance p
  | _ => .free

end Sender

namespace Receiver

def stance (p : Party) : Receiver → Stance
  | .depart s => s.stance p
  | _ => .free

end Receiver

namespace Posting

def stance (p : Party) (d : Direction) : Posting → Stance
  | .parked .. => .parked p.id (.room d)
  | _ => .free

end Posting

namespace Waiting

def stance (p : Party) (d : Direction) : Waiting → Stance
  | .posting s => s.stance p d
  | _ => .free

end Waiting

namespace Call

def stance : Call → Stance
  | .posting p d _ _ s => s.stance p d
  | .waiting p d _ s => s.stance p d
  | .destroying p s => s.stance p
  | _ => .free

end Call

namespace Task

def stance : Task → Stance
  | .sender p _ s => s.stance p
  | .receiver p _ s => s.stance p
  | .call _ c => c.stance
  | .leaving .. | .ended _ => .free

end Task

namespace Callback

def stance (c : Callback) : Stance :=
  match c.state with
  | .running _ call _ => call.stance
  | .ended .. | .panicking => .free

end Callback

namespace Thread

def stance (th : Thread) : Stance :=
  match th.callbacks with
  | [] => th.task.stance
  | c :: _ => c.stance

def Seated (th : Thread) : Prop :=
  (th.callbacks ≠ [] → th.task.stance = .free) ∧ ∀ c ∈ th.callbacks.tail, c.stance = .free

end Thread

namespace Move

variable {σ ρ τ : Type} {f : σ → Stance} {mv : Move σ}

def Stances (f : σ → Stance) : Move σ → Prop
  | .perform p next => ∀ a, f (next a) = p.stance a
  | .invoke _ _ after => f after = .free
  | .panic | .halt => True

@[simp] theorem stances_map {g : τ → σ} {mv : Move τ} :
    (mv.map g).Stances f ↔ mv.Stances fun s => f (g s) := by
  cases mv <;> exact Iff.rfl

theorem Stances.congr {g : σ → Stance} (h : mv.Stances f) (he : ∀ s, g s = f s) :
    mv.Stances g := by
  obtain rfl : g = f := funext he
  exact h

theorem Stances.through {more : σ → τ} {done : ρ → τ} {f : τ → Stance} {mv : Move (Flow σ ρ)}
    {g : Flow σ ρ → Stance} (h : mv.Stances g) (hmore : ∀ s, f (more s) = g (.more s))
    (hdone : ∀ r, f (done r) = g (.done r)) : (mv.through more done).Stances f := by
  refine stances_map.mpr (h.congr fun s => ?_)
  cases s with
  | more s => exact hmore s
  | done r => exact hdone r

theorem Still.stances (h : mv.Still) (hf : ∀ s, f s = .free) : mv.Stances f := by
  cases mv with
  | perform p next =>
    intro a
    rw [hf, Primitive.stance_still h]
  | invoke => exact h.elim
  | panic | halt => trivial

end Move

section

variable {p : Party} {l : Link} {d : Direction}

theorem failPending_stances (s : FailPending) :
    (s.next p d).Stances (Flow.elim (·.stance p) fun _ => .free) := by
  cases s with
  | drain =>
    intro jobs
    cases jobs <;> rfl
  | notify => exact fun _ => rfl
  | fail job rest => cases rest <;> rfl

theorem departing_stances (s : Departing) :
    (s.next p d).Stances (Flow.elim (·.stance p) fun _ => .free) := by
  cases s with
  | fail localEnd s =>
    refine (failPending_stances s).through (fun _ => rfl) fun _ => ?_
    cases localEnd <;> rfl
  | readStopping | close => exact fun _ => rfl
  | takeDisconnect =>
    intro script
    cases script <;> rfl
  | disconnect => rfl

theorem destroying_stances (s : Destroying) :
    (s.next p).Stances (Flow.elim (·.stance p) fun _ => .free) := by
  cases s with
  | begin =>
    intro begun
    cases begun <;> rfl
  | takeLink =>
    intro link
    cases link <;> rfl
  | remove l s =>
    exact ((removal_confined l s).1.outward.still.stances fun _ => rfl).through
      (fun _ => rfl) fun _ => rfl
  | takeWorkers r =>
    intro ts
    cases ts <;> rfl
  | join r t rest =>
    intro a
    cases rest <;> rfl
  | fail r d s =>
    refine (failPending_stances s).through (fun _ => rfl) fun _ => ?_
    cases d <;> rfl
  | close | dropDisconnect => exact fun _ => rfl

theorem sender_stances (s : Sender) :
    (s.next p l).Stances (Flow.elim (·.stance p) fun _ => .free) := by
  cases s with
  | fetch =>
    intro r
    cases r with
    | stopped | empty => rfl
    | job slot job =>
      simp only [Flow.elim, Sender.ofJob, Mailbox.Publishing.start]
      split <;> rfl
  | parked => exact fun _ => rfl
  | signal =>
    intro r
    cases r <;> rfl
  | publish slot job s =>
    refine ((publishing_confined _ _ s).outward.still.stances fun _ => rfl).through
      (fun _ => rfl) fun r => ?_
    cases r <;> rfl
  | complete | fail => rfl
  | recycle slot goOn =>
    intro a
    cases goOn <;> rfl
  | depart s => exact (departing_stances s).through (fun _ => rfl) fun _ => rfl

theorem receiver_stances (s : Receiver) :
    (s.next p l).Stances (Flow.elim (·.stance p) fun _ => .free) := by
  cases s with
  | await =>
    intro r
    cases r <;> rfl
  | fetch =>
    intro r
    cases r <;> rfl
  | discard s =>
    refine ((collecting_confined _ _ s).outward.still.stances fun _ => rfl).through
      (fun _ => rfl) fun c => ?_
    simp only [Flow.elim, Receiver.discarded]
    split
    · rfl
    · split <;> rfl
  | collect slot job s =>
    refine ((collecting_confined _ _ s).outward.still.stances fun _ => rfl).through
      (fun _ => rfl) fun c => ?_
    simp only [Flow.elim, Receiver.collected]
    split <;> rfl
  | complete | fail => rfl
  | recycle slot goOn =>
    intro a
    cases goOn <;> rfl
  | depart s => exact (departing_stances s).through (fun _ => rfl) fun _ => rfl

theorem posting_stances {data : Buffer} {handler : Handler} (s : Posting) :
    (s.next p d data handler).Stances (Flow.elim (·.stance p d) fun _ => .free) := by
  cases s with
  | overflowed => trivial
  | number => exact fun _ => rfl
  | check | clock | enqueue | parked =>
    intro r
    cases r <;> rfl

theorem waiting_stances {data : Buffer} (s : Waiting) :
    (s.next p d data).Stances (Flow.elim (·.stance p d) fun _ => .free) := by
  cases s with
  | posting s =>
    refine (posting_stances s).through (fun _ => rfl) fun r => ?_
    cases r <;> rfl
  | clock => exact fun _ => rfl
  | awaiting | cancel | poll =>
    intro r
    cases r <;> rfl

theorem call_stances (c : Call) : c.next.Stances (Flow.elim (·.stance) fun _ => .free) := by
  cases c with
  | posting p d data handler s => exact (posting_stances s).through (fun _ => rfl) fun _ => rfl
  | waiting p d data s => exact (waiting_stances s).through (fun _ => rfl) fun _ => rfl
  | destroying p s => exact (destroying_stances s).through (fun _ => rfl) fun _ => rfl
  | connecting p s =>
    refine ((connecting_still p s).stances fun _ => rfl).through (fun _ => rfl) fun r => ?_
    cases r with
    | error => rfl
    | ok => cases hr : p.settings.role.isServer <;> simp [Flow.elim, Call.stance]
  | readingState | holding | changing | removingSet | unlinking => exact fun _ => rfl
  | finalizing | openingSet | timedChanging | mapping | openingMailbox | attaching | publishing
  | collecting | rendezvous | removingMailbox | openingSignals | removingSignals =>
    refine Move.stances_map.mpr (Move.Still.stances (by simp) fun f => ?_)
    cases f <;> rfl

theorem ofOperation_stance {op : Operation} {c : Call} (h : Call.ofOperation p op = .more c) :
    c.stance = .free := by
  cases op with
  | connect | accept | finalizeConnect | finalizeAccept =>
    simp only [Call.ofOperation, Call.requireRole] at h
    split at h <;> cases h
    rfl
  | postSend | waitSend =>
    simp only [Call.ofOperation, Call.sendFits] at h
    split at h <;> cases h
    rfl
  | postReceive | waitReceive | readState | destroy =>
    cases h
    rfl

theorem ofObject_stance {op : ObjectOperation} {c : Call} (h : Call.ofObject op = .more c) :
    c.stance = .free := by
  cases op with
  | add =>
    simp only [Call.ofObject] at h
    split at h <;> cases h
    rfl
  | change handle changes span =>
    simp only [Call.ofObject, TimedChange.start] at h
    split at h <;> cases h
    rfl
  | publish m payload =>
    simp only [Call.ofObject, Mailbox.Publishing.start] at h
    split at h <;> cases h
    rfl
  | _ =>
    cases h
    rfl

theorem ofScript_stance {id : String} {payload : Bytes} {script : Script} {c : Callback}
    (h : CallbackState.ofScript p id payload script = some c.state) : c.stance = .free := by
  obtain he | ⟨command, r, rest, he⟩ | ⟨command, call, rest, he, hc⟩ := ofScript_cases h
  · simp [Callback.stance, he]
  · simp [Callback.stance, he]
  · obtain rfl | ⟨op, hop, -⟩ := hc
    · simp [Callback.stance, he, Call.stance]
    · simp [Callback.stance, he, ofOperation_stance hop]

theorem start_stance {lane : Lane} {id : String} {payload : Bytes} {script : Script}
    {c : Callback} (h : Callback.start p lane id payload script = some c) : c.stance = .free := by
  simp only [Callback.start, Option.map_eq_some_iff] at h
  obtain ⟨s, hs, rfl⟩ := h
  exact ofScript_stance hs

theorem callback_stances (c : Callback) :
    c.next.Stances fun o => (o.map Callback.stance).getD .free := by
  obtain ⟨q, lane, id, payload, index, state⟩ := c
  cases state with
  | running command call rest =>
    refine Move.stances_map.mpr ((call_stances call).congr fun f => ?_)
    cases f <;> rfl
  | ended command r rest =>
    intro a
    cases hs : CallbackState.ofScript q id payload rest with
    | none => rfl
    | some s => exact ofScript_stance (c := ⟨q, lane, id, payload, index + 1, s⟩) hs
  | panicking => trivial

theorem task_stances (task : Task) : task.next.Stances Task.stance := by
  cases task with
  | sender p l s => exact (sender_stances s).through (fun _ => rfl) fun _ => rfl
  | receiver p l s => exact (receiver_stances s).through (fun _ => rfl) fun _ => rfl
  | call o c => 
    refine (call_stances c).through (fun _ => rfl) fun _ => ?_
    cases o <;> rfl
  | leaving e s out =>
    exact ((leaving_still e s).stances fun _ => rfl).through (fun _ => rfl) fun _ => rfl
  | ended => trivial

end

namespace Thread

variable {th : Thread}

theorem seated_nil (o task : Task) : Seated ⟨o, task, []⟩ :=
  ⟨fun h => absurd rfl h, by simp⟩

theorem Seated.push (h : th.Seated) (hf : th.stance = .free) {c : Option Callback}
    (hc : ∀ b ∈ c, b.stance = .free) : (th.push c).Seated ∧ (th.push c).stance = .free := by
  obtain ⟨o, task, cs⟩ := th
  have hfree : task.stance = .free ∧ ∀ b ∈ cs, b.stance = .free := by
    cases cs with
    | nil => exact ⟨hf, by simp⟩
    | cons b cs => exact ⟨h.1 (by simp), by simpa using ⟨hf, h.2⟩⟩
  cases c with
  | none => exact ⟨h, hf⟩
  | some c => exact ⟨⟨fun _ => hfree.1, hfree.2⟩, hc c rfl⟩

theorem Seated.moves (h : th.Seated) : th.next.Into Seated ∧ th.next.Stances Thread.stance := by
  obtain ⟨o, task, cs⟩ := th
  cases cs with
  | nil =>
    simp only [next, Move.into_map, Move.stances_map]
    exact ⟨Move.into_of_forall fun task' => seated_nil o task', task_stances task⟩
  | cons c cs =>
    simp only [next, Move.into_map, Move.stances_map]
    have htask : task.stance = .free := h.1 (by simp)
    refine ⟨Move.into_of_forall fun f => ⟨fun _ => htask, fun b hb => ?_⟩,
      (callback_stances c).congr fun f => ?_⟩
    · cases f with
      | none => exact h.2 b (List.mem_of_mem_tail hb)
      | some c' => exact h.2 b hb
    · cases f with
      | some c' => rfl
      | none =>
        cases cs with
        | nil => exact htask
        | cons b cs => exact h.2 b (by simp)

end Thread

namespace Stance

variable {σ τ : Type} {p : Party} {l : Link} {d : Direction} {mv : Move σ}

def Tells (mv : Move σ) : Stance → Prop
  | .free => True
  | .parked e _ => ∃ deadline next, mv = .perform (.park e deadline) next
  | .notifying e => ∃ next, mv = .perform (.endpoint e .notify) next

theorem Tells.map {s : Stance} (h : s.Tells mv) (f : σ → τ) : s.Tells (mv.map f) := by
  cases s with
  | free => trivial
  | parked e want =>
    obtain ⟨deadline, next, rfl⟩ := h
    exact ⟨_, _, rfl⟩
  | notifying e =>
    obtain ⟨next, rfl⟩ := h
    exact ⟨_, rfl⟩

theorem tells_failPending (s : FailPending) : (s.stance p).Tells (s.next p d) := by
  cases s with
  | notify => exact ⟨_, rfl⟩
  | drain | fail => trivial

theorem tells_departing (s : Departing) : (s.stance p).Tells (s.next p d) := by
  cases s with
  | fail localEnd s => exact (tells_failPending s).map _
  | _ => trivial

theorem tells_call (c : Call) : c.stance.Tells c.next := by
  have hpost : ∀ {p : Party} {d : Direction} {data : Buffer} {handler : Handler} (s : Posting),
      (s.stance p d).Tells (s.next p d data handler) := fun s => by
    cases s with
    | parked => exact ⟨_, _, rfl⟩
    | _ => trivial
  cases c with
  | posting p d data handler s => exact (hpost s).map _
  | waiting p d data s =>
    cases s with
    | posting s => exact ((hpost s).map _).map _
    | _ => trivial
  | destroying p s =>
    cases s with
    | fail r d s => exact ((tells_failPending s).map _).map _
    | _ => trivial
  | _ => trivial

theorem tells_task (task : Task) : task.stance.Tells task.next := by
  cases task with
  | sender p l s =>
    cases s with
    | parked => exact ⟨_, _, rfl⟩
    | depart s => exact ((tells_departing s).map _).map _
    | _ => trivial
  | receiver p l s =>
    cases s with
    | depart s => exact ((tells_departing s).map _).map _
    | _ => trivial
  | call o c => exact (tells_call c).map _
  | leaving | ended => trivial

end Stance

namespace Thread

variable {th : Thread}

theorem stance_tells (th : Thread) : th.stance.Tells th.next := by
  obtain ⟨o, task, cs⟩ := th
  cases cs with
  | nil =>
    simp only [next]
    exact (Stance.tells_task task).map _
  | cons c cs =>
    obtain ⟨q, lane, id, payload, index, state⟩ := c
    cases state with
    | running command call rest =>
      simp only [next, Callback.next]
      exact ((Stance.tells_call call).map _).map _
    | ended | panicking => trivial

end Thread

end QueuePair
