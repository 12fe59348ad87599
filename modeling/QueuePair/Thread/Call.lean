import QueuePair.Endpoint.Connecting
import QueuePair.Endpoint.Posting
import QueuePair.Endpoint.Workers

namespace QueuePair

/-- An operation on an endpoint. -/
inductive Operation
  | connect
  | accept
  | finalizeConnect
  | finalizeAccept
  | postSend (data : Buffer) (handler : Handler)
  | postReceive (into : Buffer) (handler : Handler)
  | waitSend (data : Buffer)
  | waitReceive (into : Buffer)
  | readState
  | destroy

/-- An operation on a shared object. -/
inductive ObjectOperation
  | openSet (key : Key) (count : Nat)
  -- adds to one semaphore, for as long as it takes
  | add (h : SemaphoreHandle) (index : Nat) (delta : Int)
  -- changes semaphores within a time limit
  | change (h : SemaphoreHandle) (changes : List Change) (span : Span)
  | removeSet (h : SemaphoreHandle)
  | map (path : Path) (size : Nat) (create : Bool)
  | unlink (m : Mapping)
  | openMailbox (path : Path) (capacity : Nat) (key : Key)
  | raiseGate (m : Mailbox)
  | attach (m : Mailbox)
  | publish (m : Mailbox) (payload : Bytes)
  | consume (m : Mailbox) (into : Buffer)
  | discard (m : Mailbox)
  | rendezvous (m : Mailbox) (restore : Bool) (span : Span)
  | removeMailbox (m : Mailbox)
  | openSignals (keys : Keys) (role : Role)
  -- announces a message to the peer
  | raise (s : Signals)
  -- waits for a message of the peer
  | await (s : Signals)
  | removeSignals (s : Signals)

/-- A started operation. -/
inductive Call
  | connecting (p : Party) (s : Connecting)
  | finalizing (p : Party) (s : Finalizing)
  | posting (p : Party) (d : Direction) (data : Buffer) (handler : Handler) (s : Posting)
  | waiting (p : Party) (d : Direction) (data : Buffer) (s : Waiting)
  | readingState (p : Party)
  | destroying (p : Party) (s : Destroying)
  | holding (id : String)
  | openingSet (key : Key) (count : Nat) (s : OpenSet)
  | changing (set : SetId) (changes : List Change)
  | timedChanging (h : SemaphoreHandle) (changes : List Change) (span : Span) (s : TimedChange)
  | removingSet (set : SetId)
  | mapping (path : Path) (size : Nat) (create : Bool) (s : MapFile)
  | unlinking (path : Path)
  | openingMailbox (path : Path) (capacity : Nat) (key : Key) (s : Mailbox.Opening)
  | attaching (m : Mailbox) (s : Mailbox.Attaching)
  | publishing (m : Mailbox) (payload : Bytes) (s : Mailbox.Publishing)
  | collecting (m : Mailbox) (into : Option Buffer) (s : Mailbox.Collecting)
  | rendezvous (m : Mailbox) (restore : Bool) (span : Span) (s : Mailbox.Rendezvous)
  | removingMailbox (m : Mailbox) (s : Mailbox.Removal)
  | openingSignals (keys : Keys) (role : Role) (s : Signals.Opening)
  | removingSignals (s : Signals) (r : Signals.Removal)

namespace Call

abbrev Started := Flow Call Result

def unit (r : Except Error Unit) : Result :=
  r.map fun () => .unit

/-- The result of a collected message, as the caller sees it. -/
def received (c : Mailbox.Collected) : Result :=
  match c.buffer with
  | some b => .ok (.received b c.result)
  | none => c.result.map .size

def next : Call → Move Started
  | .connecting p s => (s.next p).through (fun s => .more (.connecting p s)) fun
    | .ok () => if p.settings.role.isServer then .more (.readingState p) else .done (.ok .unit)
    | .error e => .done (.error e)
  | .finalizing p s => (s.next p).through (fun s => .more (.finalizing p s)) fun r =>
    .done (unit r)
  | .posting p d data handler s =>
    (s.next p d data handler).through (fun s => .more (.posting p d data handler s)) fun r =>
      .done (r.map fun _ => .unit)
  | .waiting p d data s => (s.next p d data).through (fun s => .more (.waiting p d data s)) fun r =>
    .done (r.map .buffer)
  | .readingState p => .access p .readState fun s => .done (.ok (.state s))
  | .destroying p s => (s.next p).through (fun s => .more (.destroying p s)) fun r =>
    .done (unit r)
  | .holding id => .perform (.hold id) fun () => .done (.ok .unit)
  | .openingSet key count s =>
    (s.next key count).through (fun s => .more (.openingSet key count s)) fun r =>
      .done (r.map .semaphores)
  | .changing set changes => .call (.change set changes none) fun r => .done (unit r)
  | .timedChanging h changes span s =>
    (s.next h changes span).through (fun s => .more (.timedChanging h changes span s)) fun r =>
      .done (unit r)
  | .removingSet set => .call (.removeSet set) fun r => .done (unit r)
  | .mapping path size create s =>
    (s.next path size create).through (fun s => .more (.mapping path size create s)) fun r =>
      .done ((r.map .mapping).mapError .ofSystem)
  | .unlinking path => .call (.unlink path) fun r =>
    .done (unit (r.mapError .ofSystem))
  | .openingMailbox path capacity key s =>
    (s.next path capacity key).through (fun s => .more (.openingMailbox path capacity key s))
      fun r => .done (r.map .mailbox)
  | .attaching m s => (s.next m).through (fun s => .more (.attaching m s)) fun r => .done (unit r)
  | .publishing m payload s =>
    (s.next m payload).through (fun s => .more (.publishing m payload s)) fun r => .done (unit r)
  | .collecting m into s => (s.next m into).through (fun s => .more (.collecting m into s)) fun c =>
    .done (received c)
  | .rendezvous m restore span s =>
    (s.next m restore span).through (fun s => .more (.rendezvous m restore span s)) fun r =>
      .done (unit r)
  | .removingMailbox m s => (s.next m).through (fun s => .more (.removingMailbox m s)) fun r =>
    .done (unit r)
  | .openingSignals keys role s =>
    (s.next keys role).through (fun s => .more (.openingSignals keys role s)) fun r =>
      .done (r.map .signals)
  | .removingSignals s r => (r.next s).through (fun r => .more (.removingSignals s r)) fun r =>
    .done (unit r)

def held : Call → List Job
  | .destroying _ s => s.held
  | _ => []

def sendFits (p : Party) (data : Buffer) (s : Started) : Started :=
  if data.size > p.settings.capacity then
    .done (.error (.frameTooLarge data.size p.settings.capacity))
  else s

def requireRole (p : Party) (role : Role) (s : Started) : Started :=
  if p.settings.role = role then s else .done (.error (.wrongRole role))

/-- Starts an operation on an endpoint. -/
def ofOperation (p : Party) : Operation → Started
  | .connect => requireRole p .client (.more (.connecting p .lock))
  | .accept => requireRole p .server (.more (.connecting p .lock))
  | .finalizeConnect => requireRole p .client (.more (.finalizing p .check))
  | .finalizeAccept => requireRole p .server (.more (.finalizing p .check))
  | .postSend data handler => sendFits p data (.more (.posting p .send data handler .check))
  | .postReceive into handler => .more (.posting p .receive into handler .check)
  | .waitSend data => sendFits p data (.more (.waiting p .send data .start))
  | .waitReceive into => .more (.waiting p .receive into .start)
  | .readState => .more (.readingState p)
  | .destroy => .more (.destroying p .begin)

/-- Starts an operation on a shared object. -/
def ofObject : ObjectOperation → Started
  | .openSet key count => .more (.openingSet key count .create)
  | .add h index delta =>
    if index ≥ h.count then .done (.error (.ofSystem .fileTooLarge))
    else .more (.changing h.set [⟨index, delta⟩])
  | .change h changes span =>
    (TimedChange.start h changes).elim (fun s => .more (.timedChanging h changes span s))
      fun r => .done (unit r)
  | .removeSet h => .more (.removingSet h.set)
  | .map path size create => .more (.mapping path size create .openFile)
  | .unlink m => .more (.unlinking m.path)
  | .openMailbox path capacity key => .more (.openingMailbox path capacity key .start)
  | .raiseGate m => .more (.changing m.semaphores.set [⟨Mailbox.gate, 1⟩])
  | .attach m => .more (.attaching m .raiseGate)
  | .publish m payload =>
    (Mailbox.Publishing.start m payload).elim (fun s => .more (.publishing m payload s))
      fun r => .done (unit r)
  | .consume m into => .more (.collecting m (some into) .takeGate)
  | .discard m => .more (.collecting m none .takeGate)
  | .rendezvous m restore span => .more (.rendezvous m restore span .clock)
  | .removeMailbox m => .more (.removingMailbox m .semaphores)
  | .openSignals keys role => .more (.openingSignals keys role .start)
  | .raise s => .more (.changing s.outbound.set [⟨0, 1⟩])
  | .await s => .more (.changing s.inbound.set [⟨0, -1⟩])
  | .removeSignals s => .more (.removingSignals s .outbound)

end Call

end QueuePair
