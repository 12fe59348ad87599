import QueuePair.Mailbox.Setup

namespace QueuePair

inductive Signals.Opening
  | outbound (s : OpenSet)
  | inbound (out : SemaphoreHandle) (s : OpenSet)
  | discard (out : SemaphoreHandle) (e : Error)

namespace Signals.Opening

def start : Opening := .outbound .create

def next (keys : Keys) (role : Role) : Opening → Move (Flow Opening (Except Error Signals))
  | .outbound s => (s.next (keys.outbound role) 1).through (fun s => .more (.outbound s)) fun
    | .ok out => .more (.inbound out .create)
    | .error e => .done (.error e)
  | .inbound out s =>
    (s.next (keys.inbound role) 1).through (fun s => .more (.inbound out s)) fun
      | .ok inn => .done (.ok ⟨out, inn⟩)
      | .error e => if out.created then .more (.discard out e) else .done (.error e)
  | .discard out e => .call (.removeSet out.set) fun _ => .done (.error e)

end Signals.Opening

inductive Signals.Removal
  | outbound
  | inbound (first : Except Error Unit)

namespace Signals.Removal

def next (s : Signals) : Removal → Move (Flow Removal (Except Error Unit))
  | .outbound => .call (.removeSet s.outbound.set) fun r =>
    .more (.inbound (Mailbox.Removal.setGone r))
  | .inbound first => .call (.removeSet s.inbound.set) fun r =>
    .done (Mailbox.Removal.both first (Mailbox.Removal.setGone r))

end Signals.Removal

/-- Removing the mailbox and the signals of a link; all of it is tried. Sets are removed by their
number and the mailbox file by its path, each in a step of its own. -/
inductive Link.Removal
  | mailbox (s : Mailbox.Removal)
  | signals (first : Except Error Unit) (s : Signals.Removal)

namespace Link.Removal

def start : Removal := .mailbox .semaphores

def next (link : Link) : Removal → Move (Flow Removal (Except Error Unit))
  | .mailbox s => (s.next link.mailbox).through (fun s => .more (.mailbox s)) fun r =>
    .more (.signals r .outbound)
  | .signals first s => (s.next link.signals).through (fun s => .more (.signals first s)) fun r =>
    .done (Mailbox.Removal.both first r)

end Link.Removal

end QueuePair
