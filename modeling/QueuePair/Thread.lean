import QueuePair.Thread.Callback

namespace QueuePair

inductive Leaving
  | release
  | remove (link : Link) (s : Link.Removal)

namespace Leaving

def next (e : EndpointId) : Leaving → Move (Flow Leaving Unit)
  | .release => .perform (.endpoint e .release) fun
    | none => .done ()
    | some link => .more (.remove link .start)
  | .remove link s => (s.next link).through (fun s => .more (.remove link s)) fun _ => .done ()

end Leaving

/-- What a thread is for. -/
inductive Task
  | sender (p : Party) (link : Link) (s : Sender)
  | receiver (p : Party) (link : Link) (s : Receiver)
  -- an operation, for the owner of an endpoint or for nobody
  | call (owner : Option EndpointId) (c : Call)
  | leaving (e : EndpointId) (s : Leaving) (o : Outcome)
  | ended (o : Outcome)

namespace Task

def finish (owner : Option EndpointId) (o : Outcome) : Task :=
  match owner with
  | some e => .leaving e .release o
  | none => .ended o

def ofStarted (owner : Option EndpointId) : Call.Started → Task
  | .more c => .call owner c
  | .done r => finish owner (.returned r)

/-- The endpoint that a task keeps alive. -/
def owner? : Task → Option EndpointId
  | .sender p _ _ | .receiver p _ _ => some p.id
  | .call owner _ => owner
  | .leaving e _ _ => some e
  | .ended _ => none

def next : Task → Move Task
  | .sender p link s => (s.next p link).through (.sender p link) fun () =>
    finish (some p.id) (.returned (.ok .unit))
  | .receiver p link s => (s.next p link).through (.receiver p link) fun () =>
    finish (some p.id) (.returned (.ok .unit))
  | .call owner c => c.next.through (.call owner) fun r => finish owner (.returned r)
  | .leaving e s o => (s.next e).through (fun s => .leaving e s o) fun () => .ended o
  | .ended _ => .halt

def held : Task → List Job
  | .sender _ _ s => s.held
  | .receiver _ _ s => s.held
  | .call _ c => c.held
  | _ => []

end Task

/-- A thread: the task it was started with, how far the task is, and the running callbacks with the
innermost first. -/
structure Thread where
  origin : Task
  task : Task
  callbacks : List Callback

namespace Thread

def ofTask (task : Task) : Thread := ⟨task, task, []⟩

/-- The next action of a thread: the innermost callback's, if there is one. -/
def next (th : Thread) : Move Thread :=
  match th.callbacks with
  | [] => th.task.next.map fun task => { th with task }
  | c :: rest => c.next.map fun c => { th with callbacks := c.toList ++ rest }

def outcome? (th : Thread) : Option Outcome :=
  match th.task, th.callbacks with
  | .ended o, [] => some o
  | _, _ => none

def isEnded (th : Thread) : Bool :=
  th.outcome?.isSome

def push (th : Thread) (c : Option Callback) : Thread :=
  { th with callbacks := c.toList ++ th.callbacks }

def held (th : Thread) : List Job :=
  th.callbacks.flatMap Callback.held ++ th.task.held

def unwound (th : Thread) : Thread :=
  ⟨th.origin, .finish th.task.owner? .panicked, []⟩

def complete (th : Thread) (r : Except Error Unit) : Thread :=
  match th.next with
  | .perform (.system (.change _ _ _)) next => next r
  | _ => th

def wake (th : Thread) (e : EndpointId) : Thread :=
  match th.next with
  | .perform (.park e' _) next => if e' = e then next .notified else th
  | _ => th

def deadline? (th : Thread) : Option Instant :=
  match th.next with
  | .perform p _ => p.deadline?
  | _ => none

def expire? (th : Thread) : Option Thread :=
  match th.next with
  | .perform p next => p.expired?.map next
  | _ => none

end Thread

end QueuePair
