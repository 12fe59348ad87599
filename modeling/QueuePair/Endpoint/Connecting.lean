import QueuePair.Link.Setup

namespace QueuePair

/-- Connecting holds the link lock from beginning to end. It opens mailbox and signals, stores the
connected state, starts the workers and attaches to the mailbox; the link is put in place last. If
attaching fails everything is taken back, and the endpoint is unconnected again. -/
inductive Connecting
  | lock
  | check (busy : Bool)
  | mailbox (s : Mailbox.Opening)
  | signals (m : Mailbox) (s : Signals.Opening)
  -- the signals could not be opened; the mailbox is removed
  | removeMailbox (e : Error) (m : Mailbox) (s : Mailbox.Removal)
  | storeConnected (link : Link)
  | spawnSender (link : Link)
  | spawnReceiver (link : Link)
  | attach (link : Link) (s : Mailbox.Attaching)
  -- attaching failed; the steps from here on take everything back
  | markStopping (e : Error) (link : Link)
  | stop (e : Error) (link : Link)
  | removeLink (e : Error) (link : Link) (s : Link.Removal)
  | takeWorkers (e : Error)
  | join (e : Error) (t : ThreadId) (rest : List ThreadId)
  | resume (e : Error)
  | unmarkStopping (e : Error)
  | storeInit (e : Error)
  | unlock (link : Option Link) (r : Except Error Unit)

namespace Connecting

/-- Goes on with the workers that are left. -/
def joining (e : Error) : List ThreadId → Connecting
  | [] => .resume e
  | t :: rest => .join e t rest

def fail (e : Error) : Connecting := .unlock none (.error e)

def next (p : Party) : Connecting → Move (Flow Connecting (Except Error Unit))
  | .lock => .access p .lockLink fun link => .more (.check link.isSome)
  | .check busy => .access p .readState fun state =>
    if state = .init ∧ busy = false then .more (.mailbox .start)
    else .more (fail (.invalidState .init state))
  | .mailbox s =>
    (s.next p.keys.path p.settings.capacity p.keys.mailbox).through
      (fun s => .more (.mailbox s)) fun
        | .ok m => .more (.signals m .start)
        | .error e => .more (fail e)
  | .signals m s => (s.next p.keys p.settings.role).through (fun s => .more (.signals m s)) fun
    | .ok pair => .more (.storeConnected ⟨m, pair⟩)
    | .error e => .more (.removeMailbox e m .semaphores)
  | .removeMailbox e m s => (s.next m).through (fun s => .more (.removeMailbox e m s)) fun _ =>
    .more (fail e)
  | .storeConnected link => .access p (.writeState .connected) fun () => .more (.spawnSender link)
  | .spawnSender link => .perform (.spawn p link .send) fun () => .more (.spawnReceiver link)
  | .spawnReceiver link => .perform (.spawn p link .receive) fun () =>
    .more (.attach link .raiseGate)
  | .attach link s => (s.next link.mailbox).through (fun s => .more (.attach link s)) fun
    | .ok () => .more (.unlock (some link) (.ok ()))
    | .error e => .more (.markStopping e link)
  | .markStopping e link => .access p (.writeStopping true) fun () => .more (.stop e link)
  | .stop e link => .access p (.setStopped true) fun () => .more (.removeLink e link .start)
  | .removeLink e link s => (s.next link).through (fun s => .more (.removeLink e link s)) fun _ =>
    .more (.takeWorkers e)
  | .takeWorkers e => .access p .takeWorkers fun ts => .more (joining e ts)
  | .join e t rest => .perform (.join t) fun () => .more (joining e rest)
  | .resume e => .access p (.setStopped false) fun () => .more (.unmarkStopping e)
  | .unmarkStopping e => .access p (.writeStopping false) fun () => .more (.storeInit e)
  | .storeInit e => .access p (.writeState .init) fun () => .more (fail e)
  | .unlock link r => .access p (.unlockLink link) fun () => .done r

end Connecting

inductive Finalizing
  | check
  | readLink
  | unlinked
  | rendezvous (link : Link) (s : Mailbox.Rendezvous)

namespace Finalizing

/-- The server restores the gate. -/
def next (p : Party) : Finalizing → Move (Flow Finalizing (Except Error Unit))
  | .check => .access p .readState fun state =>
    if state = .connected then .more .readLink
    else .done (.error (.invalidState .connected state))
  | .readLink => .access p .readLink fun
    | none => .more .unlinked
    | some link => .more (.rendezvous link .clock)
  | .unlinked => .access p .readState fun
    | .closed => .done (.error .connectionClosed)
    | _ => .done (.error .notConnected)
  | .rendezvous link s =>
    (s.next link.mailbox p.settings.role.isServer p.settings.timeout).through
      (fun s => .more (.rendezvous link s)) .done

end Finalizing

end QueuePair
