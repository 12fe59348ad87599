import QueuePair.Endpoint.Teardown
import QueuePair.Mailbox.Transfer

namespace QueuePair

/-- A worker whose link is gone closes the endpoint, fails the queue of its direction and, unless
teardown began on this side, runs the disconnect callback, which only one of the two workers
gets. -/
inductive Departing
  | readStopping
  | close (localEnd : Bool)
  | fail (localEnd : Bool) (s : FailPending)
  | takeDisconnect
  | disconnect (script : Script)

namespace Departing

def next (p : Party) (d : Direction) : Departing → Move (Flow Departing Unit)
  | .readStopping => .access p .readStopping fun localEnd => .more (.close localEnd)
  | .close localEnd => .access p .close fun () => .more (.fail localEnd .drain)
  | .fail localEnd s => (s.next p d).through (fun s => .more (.fail localEnd s)) fun () =>
    if localEnd then .done () else .more .takeDisconnect
  | .takeDisconnect => .access p .takeDisconnect fun
    | none => .done ()
    | some script => .more (.disconnect script)
  | .disconnect script => .invoke p (.disconnect script) (.done ())

def held : Departing → List Job
  | .fail _ s => s.held
  | _ => []

end Departing

/-- The sender publishes the oldest queued send, raises its signal and hands the buffer back. -/
inductive Sender
  | fetch
  | parked
  | publish (slot : Nat) (job : Job) (s : Mailbox.Publishing)
  | signal (slot : Nat) (job : Job)
  | complete (slot : Nat) (job : Job)
  | fail (slot : Nat) (job : Job) (e : Error)
  | recycle (slot : Nat) (goOn : Bool)
  | depart (s : Departing)

namespace Sender

def ofJob (link : Link) (slot : Nat) (job : Job) : Sender :=
  match Mailbox.Publishing.start link.mailbox job.data.payload with
  | .more s => .publish slot job s
  | .done (.ok ()) => .signal slot job
  | .done (.error e) => .fail slot job e

def next (p : Party) (link : Link) : Sender → Move (Flow Sender Unit)
  | .fetch => .access p .nextSend fun
    | .stopped => .more (.depart .readStopping)
    | .empty => .more .parked
    | .job slot job => .more (ofJob link slot job)
  | .parked => .perform (.park p.id none) fun _ => .more .fetch
  | .publish slot job s =>
    (s.next link.mailbox job.data.payload).through (fun s => .more (.publish slot job s)) fun
      | .ok () => .more (.signal slot job)
      | .error e => .more (.fail slot job e)
  | .signal slot job => .add link.signals.outbound 0 1 fun
    | .ok () => .more (.complete slot job)
    | .error e => .more (.fail slot job e)
  | .complete slot job => .invoke p (.resolve .send job none) (.more (.recycle slot true))
  | .fail slot job e => .invoke p (.resolve .send job (some e)) (.more (.recycle slot false))
  | .recycle slot goOn => .access p (.complete .send slot) fun () =>
    .more (if goOn then .fetch else .depart .readStopping)
  | .depart s => (s.next p .send).through (fun s => .more (.depart s)) .done

def held : Sender → List Job
  | .depart s => s.held
  | _ => []

end Sender

/-- The receiver waits for the peer's signal, takes the oldest queued receive, collects the message
into it and hands it back. Without a queued receive it discards the message. -/
inductive Receiver
  | await
  | fetch
  | discard (s : Mailbox.Collecting)
  | collect (slot : Nat) (job : Job) (s : Mailbox.Collecting)
  | complete (slot : Nat) (job : Job)
  | fail (slot : Nat) (job : Job) (e : Error)
  | recycle (slot : Nat) (goOn : Bool)
  | depart (s : Departing)

namespace Receiver

def discarded (c : Mailbox.Collected) : Receiver :=
  match c.result with
  | .ok _ => .await
  | .error e => if e.isDisconnect then .depart .readStopping else .await

def collected (slot : Nat) (job : Job) (c : Mailbox.Collected) : Receiver :=
  let job := { job with data := c.buffer.getD job.data }
  match c.result with
  | .ok _ => .complete slot job
  | .error e => .fail slot job e

def next (p : Party) (link : Link) : Receiver → Move (Flow Receiver Unit)
  | .await => .add link.signals.inbound 0 (-1) fun
    | .ok () => .more .fetch
    | .error _ => .more (.depart .readStopping)
  | .fetch => .access p .nextReceive fun
    | none => .more (.discard .takeGate)
    | some (slot, job) => .more (.collect slot job .takeGate)
  | .discard s => (s.next link.mailbox none).through (fun s => .more (.discard s)) fun c =>
    .more (discarded c)
  | .collect slot job s =>
    (s.next link.mailbox (some job.data)).through (fun s => .more (.collect slot job s)) fun c =>
      .more (collected slot job c)
  | .complete slot job => .invoke p (.resolve .receive job none) (.more (.recycle slot true))
  | .fail slot job e =>
    .invoke p (.resolve .receive job (some e)) (.more (.recycle slot (!e.isDisconnect)))
  | .recycle slot goOn => .access p (.complete .receive slot) fun () =>
    .more (if goOn then .await else .depart .readStopping)
  | .depart s => (s.next p .receive).through (fun s => .more (.depart s)) .done

def held : Receiver → List Job
  | .depart s => s.held
  | _ => []

end Receiver

end QueuePair
