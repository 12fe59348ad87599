import QueuePair.Proofs.Holdings
import QueuePair.Proofs.Pair.Fit
import QueuePair.Proofs.Tally

namespace QueuePair

/-- What is kept account of: the right to use the buffer, the raises of the gate and of the count of
attached sides, the workers of each side, and the owners of each endpoint. Whatever a thread takes
from a counter it owes until it has put it back or handed it on. -/
inductive Due
  | token
  | gate
  | attached
  | worker (d : Direction) (r : Role)
  | owner (r : Role)
deriving DecidableEq, Repr

def Gauge.due : Gauge → Due
  | .vacancy | .signal _ => .token
  | .gate => .gate
  | .attached => .attached

def Sender.token : Sender → Nat
  | .publish _ _ s => s.token
  | .signal .. => 1
  | _ => 0

def Sender.gate : Sender → Nat
  | .publish _ _ s => s.gate
  | _ => 0

def Receiver.token : Receiver → Nat
  | .fetch | .discard _ | .collect .. => 1
  | _ => 0

def Receiver.gate : Receiver → Nat
  | .discard s | .collect _ _ s => s.gate
  | _ => 0

theorem Sender.gate_le (s : Sender) : s.gate ≤ 1 := by
  cases s with
  | publish _ _ p => cases p <;> exact of_decide_eq_true rfl
  | _ => exact of_decide_eq_true rfl

theorem Receiver.gate_le (s : Receiver) : s.gate ≤ 1 := by
  cases s with
  | discard c | collect _ _ c => cases c <;> exact of_decide_eq_true rfl
  | _ => exact of_decide_eq_true rfl

def Connecting.token : Connecting → Nat
  | .mailbox (.markVacant _) => 1
  | _ => 0

/-- A side that has stored the connected state owes its raise of the gate. -/
def Connecting.gate : Connecting → Nat
  | .spawnSender _ | .spawnReceiver _ | .attach _ .raiseGate => 1
  | _ => 0

def Connecting.attached : Connecting → Nat
  | .spawnSender _ | .spawnReceiver _ | .attach .. => 1
  | _ => 0

def Connecting.worker : Direction → Connecting → Nat
  | _, .spawnSender _ => 1
  | .receive, .spawnReceiver _ => 1
  | _, _ => 0

def Finalizing.gate : Finalizing → Nat
  | .rendezvous _ s => s.gate
  | _ => 0

namespace Task

def token : Task → Nat
  | .sender _ _ s => s.token
  | .receiver _ _ s => s.token
  | .call _ (.connecting _ s) => s.token
  | _ => 0

def gate : Task → Nat
  | .sender _ _ s => s.gate
  | .receiver _ _ s => s.gate
  | .call _ (.connecting _ s) => s.gate
  | .call _ (.finalizing _ s) => s.gate
  | _ => 0

def attached : Task → Nat
  | .call _ (.connecting _ s) => s.attached
  | _ => 0

def owes (d : Direction) (r : Role) : Task → Nat
  | .call _ (.connecting p s) => if p.settings.role = r then s.worker d else 0
  | _ => 0

def works (d : Direction) (r : Role) : Task → Nat
  | .sender p _ _ => if d = .send ∧ p.settings.role = r then 1 else 0
  | .receiver p _ _ => if d = .receive ∧ p.settings.role = r then 1 else 0
  | _ => 0

/-- Whether a worker is between taking the gate and giving it back. -/
def copies : Task → Bool
  | .sender _ _ s => s.gate = 1
  | .receiver _ _ s => s.gate = 1
  | _ => false

def outcome? : Task → Option Outcome
  | .leaving _ _ o | .ended o => some o
  | _ => none

def locks : Task → Option Role
  | .call _ (.connecting _ .lock) => none
  | .call _ (.connecting p _) => some p.settings.role
  | _ => none

def opens : Task → Option Role
  | .call _ (.connecting p (.mailbox _)) | .call _ (.connecting p (.signals ..))
  | .call _ (.connecting p (.storeConnected _)) => some p.settings.role
  | _ => none

end Task

def Thread.passed (th : Thread) : Nat :=
  if th.origin.finalizes = some .client ∧ th.task.outcome?.any Outcome.isOk then 1 else 0

namespace Pair

variable (P : Pair)

def due (th : Thread) : Due → Nat
  | .token => th.task.token
  | .gate => th.task.gate + th.passed
  | .attached => th.task.attached
  | .worker d r => th.origin.works d r + th.task.owes d r
  | .owner r => if th.task.owner? = some (P.id r) then 1 else 0

def stock (k : Kernel) : Due → Nat
  | .token => k.gauge P.keys .vacancy + k.gauge P.keys (.signal .server) +
      k.gauge P.keys (.signal .client)
  | .gate => k.gauge P.keys .gate
  | .attached => k.gauge P.keys .attached
  | .worker .. => 0
  | .owner _ => 1

def connected (w : World) (r : Role) : Nat :=
  ((w.endpoints[P.id r]?).map fun x => if x.state = .connected then 1 else 0).getD 0

def owners (w : World) (r : Role) : Nat :=
  ((w.endpoints[P.id r]?).map (·.owners)).getD 0

def total (w : World) : Due → Nat
  | .token => if (w.kernel.setOf? P.keys.mailbox).isSome then 1 else 0
  | .gate | .attached => P.connected w .server + P.connected w .client
  | .worker _ r => P.connected w r
  | .owner r => P.owners w r

end Pair

end QueuePair
