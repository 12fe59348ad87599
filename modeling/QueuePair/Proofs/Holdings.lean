import Mathlib.Algebra.GroupWithZero.Nat
import QueuePair.World

namespace QueuePair

/-- Whether a thread came back well. -/
def Outcome.isOk : Outcome → Bool
  | .returned (.ok _) => true
  | _ => false

/-- The operation that a task is at. -/
def Task.call? : Task → Option Call
  | .call _ c => some c
  | _ => none

namespace Mailbox

def Publishing.token : Publishing → Nat
  | .takeVacancy => 0
  | _ => 1

/-- Whether a publishing thread holds the gate. -/
def Publishing.gate : Publishing → Nat
  | .copy | .giveGate => 1
  | _ => 0

/-- Whether a collecting thread holds the gate. -/
def Collecting.gate : Collecting → Nat
  | .copy | .giveGate _ => 1
  | _ => 0

/-- Whether a thread in the rendezvous holds the gate. -/
def Rendezvous.gate : Rendezvous → Nat
  | .awaitZero _ | .giveBack | .undo _ => 1
  | _ => 0

end Mailbox

namespace Posting

def numbers (n : Nat) : Posting → Nat
  | .clock job | .enqueue job _ | .parked job _ => if n = job.serial then 1 else 0
  | _ => 0

end Posting

namespace Waiting

def numbers (n : Nat) : Waiting → Nat
  | .posting s => s.numbers n
  | _ => 0

end Waiting

namespace Call

def numbers (e : EndpointId) (d : Direction) (n : Nat) : Call → Nat
  | .posting p d' _ _ s => if p.id = e ∧ d = d' then s.numbers n else 0
  | .waiting p d' _ s => if p.id = e ∧ d = d' then s.numbers n else 0
  | _ => 0

end Call

namespace CallbackState

def numbers (e : EndpointId) (d : Direction) (n : Nat) : CallbackState → Nat
  | .running _ call _ => call.numbers e d n
  | _ => 0

end CallbackState

namespace Task

def numbers (e : EndpointId) (d : Direction) (n : Nat) : Task → Nat
  | .call _ c => c.numbers e d n
  | _ => 0

end Task

namespace Thread

def numbers (e : EndpointId) (d : Direction) (n : Nat) (th : Thread) : Nat :=
  th.task.numbers e d n + (th.callbacks.map (·.state.numbers e d n)).sum

end Thread

namespace Sender

def slot? : Sender → Option Nat
  | .publish slot .. | .signal slot _ | .complete slot _ | .fail slot .. | .recycle slot _ =>
    some slot
  | _ => none

end Sender

namespace Receiver

def slot? : Receiver → Option Nat
  | .collect slot .. | .complete slot _ | .fail slot .. | .recycle slot _ => some slot
  | _ => none

end Receiver

end QueuePair
