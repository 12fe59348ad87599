import QueuePair.Endpoint

namespace QueuePair

/-- An endpoint with what never changes about it. -/
structure Party where
  id : EndpointId
  settings : Settings

namespace Party

def keys (p : Party) : Keys := p.settings.keys

end Party

inductive Waking
  | notified
  | timedOut
deriving DecidableEq, Repr

/-- The indivisible actions, by the type of their answer. -/
inductive Primitive : Type → Type 1
  | system {α : Type} (c : SystemCall α) : Primitive α
  | endpoint {α : Type} (e : EndpointId) (c : EndpointCall α) : Primitive α
  -- reads the clock for a deadline; nothing if it lies beyond the clock's range
  | clock (span : Span) : Primitive (Option Instant)
  -- stays parked on an endpoint until it wakes its parked threads
  | park (e : EndpointId) (deadline : Option Instant) : Primitive Waking
  -- starts the worker of a direction
  | spawn (p : Party) (link : Link) (d : Direction) : Primitive Unit
  -- waits for the end of a thread
  | join (t : ThreadId) : Primitive Unit
  -- waits until an id is released
  | hold (id : String) : Primitive Unit
  | note (e : EndpointId) (note : Note) : Primitive Unit

namespace Primitive

def deadline? {α : Type} : Primitive α → Option Instant
  | .system (.change _ _ deadline) => deadline
  | .endpoint _ (.awaitReply _ deadline) => deadline
  | .park _ deadline => deadline
  | _ => none

def expired? {α : Type} : Primitive α → Option α
  | .system (.change _ _ (some _)) => some (.error .timeout)
  | .endpoint _ (.awaitReply _ (some _)) => some .missing
  | .park _ (some _) => some .timedOut
  | _ => none

end Primitive

inductive Invocation
  | resolve (d : Direction) (job : Job) (error : Option Error)
  | disconnect (script : Script)

/-- What a thread does next. A routine is a type of places and a function that gives for every place
the one indivisible action that is due there and the place that each answer of it leads to; routines
are built from smaller ones by `Move.through`. -/
inductive Move (σ : Type) : Type 1
  | perform {α : Type} (p : Primitive α) (next : α → σ)
  -- runs a callback, or answers a waiting caller, before going on
  | invoke (p : Party) (i : Invocation) (after : σ)
  | panic
  | halt

inductive Flow (σ ρ : Type)
  | more (s : σ)
  | done (r : ρ)

namespace Flow

variable {σ ρ τ : Type}

def elim (more : σ → τ) (done : ρ → τ) : Flow σ ρ → τ
  | .more s => more s
  | .done r => done r

end Flow

namespace Move

variable {σ ρ τ : Type}

def map (f : σ → τ) : Move σ → Move τ
  | .perform p next => .perform p fun a => f (next a)
  | .invoke p i after => .invoke p i (f after)
  | .panic => .panic
  | .halt => .halt

def through (m : Move (Flow σ ρ)) (more : σ → τ) (done : ρ → τ) : Move τ :=
  m.map (Flow.elim more done)

def call {α : Type} (c : SystemCall α) (next : α → σ) : Move σ :=
  .perform (.system c) next

def access {α : Type} (p : Party) (c : EndpointCall α) (next : α → σ) : Move σ :=
  .perform (.endpoint p.id c) next

def add (h : SemaphoreHandle) (index : Nat) (delta : Int) (next : Except Error Unit → σ) :
    Move σ :=
  .perform (.system (.change h.set [⟨index, delta⟩] none)) next

end Move

end QueuePair
