import QueuePair.Link.Setup

namespace QueuePair

inductive FailPending
  | drain
  | notify (job : Job) (rest : List Job)
  | fail (job : Job) (rest : List Job)

namespace FailPending

def after : List Job → Flow FailPending Unit
  | [] => .done ()
  | job :: rest => .more (.fail job rest)

def next (p : Party) (d : Direction) : FailPending → Move (Flow FailPending Unit)
  | .drain => .access p (.drain d) fun
    | [] => .done ()
    | job :: rest => .more (.notify job rest)
  | .notify job rest => .access p .notify fun () => .more (.fail job rest)
  | .fail job rest => .invoke p (.resolve d job (some .connectionClosed)) (after rest)

def held : FailPending → List Job
  | .drain => []
  | .notify job rest | .fail job rest => job :: rest

end FailPending

/-- Destroying closes the endpoint, removes the shared objects, which ends every wait on them, joins
the workers and fails what is still queued. Only the first call does anything; the result is that of
removing the link. -/
inductive Destroying
  | begin
  | close
  | takeLink
  | remove (link : Link) (s : Link.Removal)
  | takeWorkers (r : Except Error Unit)
  | join (r : Except Error Unit) (t : ThreadId) (rest : List ThreadId)
  | fail (r : Except Error Unit) (d : Direction) (s : FailPending)
  | dropDisconnect (r : Except Error Unit)

namespace Destroying

/-- Goes on with the workers that are left. -/
def joining (r : Except Error Unit) : List ThreadId → Destroying
  | [] => .fail r .send .drain
  | t :: rest => .join r t rest

/-- Sends are failed before receives. -/
def failed (r : Except Error Unit) : Direction → Destroying
  | .send => .fail r .receive .drain
  | .receive => .dropDisconnect r

def next (p : Party) : Destroying → Move (Flow Destroying (Except Error Unit))
  | .begin => .access p .beginStopping fun begun =>
    if begun then .done (.ok ()) else .more .close
  | .close => .access p .close fun () => .more .takeLink
  | .takeLink => .access p .takeLink fun
    | none => .more (.takeWorkers (.ok ()))
    | some link => .more (.remove link .start)
  | .remove link s => (s.next link).through (fun s => .more (.remove link s)) fun r =>
    .more (.takeWorkers r)
  | .takeWorkers r => .access p .takeWorkers fun ts => .more (joining r ts)
  | .join r t rest => .perform (.join t) fun () => .more (joining r rest)
  | .fail r d s => (s.next p d).through (fun s => .more (.fail r d s)) fun () =>
    .more (failed r d)
  | .dropDisconnect r => .access p .takeDisconnect fun _ => .done r

def held : Destroying → List Job
  | .fail _ _ s => s.held
  | _ => []

end Destroying

end QueuePair
