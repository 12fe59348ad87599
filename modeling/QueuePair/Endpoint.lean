import QueuePair.Attributes
import QueuePair.Outcome
import QueuePair.Queue.Work
import QueuePair.Region

namespace QueuePair

/-- The answer that a waiting caller gets. -/
inductive Reply
  | delivered (r : Except Error Buffer)
  -- the job was dropped without an answer
  | abandoned
  -- there is no answer yet
  | missing

namespace Reply

def isMissing : Reply → Bool
  | .missing => true
  | _ => false

end Reply

/-- The shared state of one side of a pair. -/
structure Endpoint where
  settings : Settings
  state : Lifecycle
  sends : WorkQueue Job
  receives : WorkQueue Job
  -- under the queue lock: posts fail and the sender leaves
  stopped : Bool
  link : Option Link
  -- the thread that holds the link lock
  linkHolder : Option ThreadId
  workers : List ThreadId
  onDisconnect : Option Script
  -- teardown has begun here, so that a lost link is no disconnect
  stopping : Bool
  nextSerial : Nat
  nextKey : UInt32
  -- answers to waiting callers, by the serial number of the job
  replies : List (Nat × Reply)
  -- the handle and the threads that keep the endpoint alive
  owners : Nat

inductive Posted
  | accepted
  | full
  | closed
deriving DecidableEq, Repr

inductive Supply
  | stopped
  | empty
  | job (slot : Nat) (job : Job)

/-- The accesses of threads to an endpoint, by the type of their answer. Each is one load or store,
or one section under a lock. Sections under the queue lock may wake the threads that are parked on
the endpoint; the link lock may be held longer, and whoever needs it waits. -/
inductive EndpointCall : Type → Type
  | readState : EndpointCall Lifecycle
  | writeState (s : Lifecycle) : EndpointCall Unit
  | takeSerial : EndpointCall Nat
  | post (d : Direction) (job : Job) : EndpointCall Posted
  | nextSend : EndpointCall Supply
  | nextReceive : EndpointCall (Option (Nat × Job))
  | complete (d : Direction) (slot : Nat) : EndpointCall Unit
  -- takes a queued job back by its serial number
  | cancel (d : Direction) (serial : Nat) : EndpointCall Bool
  | drain (d : Direction) : EndpointCall (List Job)
  | notify : EndpointCall Unit
  -- stops the queues and stores the closed state
  | close : EndpointCall Unit
  | setStopped (stopped : Bool) : EndpointCall Unit
  -- sets the teardown mark and tells whether it was set before
  | beginStopping : EndpointCall Bool
  | readStopping : EndpointCall Bool
  | writeStopping (stopping : Bool) : EndpointCall Unit
  | takeDisconnect : EndpointCall (Option Script)
  -- forgets the workers and tells which ones other than the caller there were
  | takeWorkers : EndpointCall (List ThreadId)
  -- takes the link lock and keeps it
  | lockLink : EndpointCall (Option Link)
  -- gives the link lock back, after putting a link in place if there is one
  | unlockLink (link : Option Link) : EndpointCall Unit
  | readLink : EndpointCall (Option Link)
  | takeLink : EndpointCall (Option Link)
  -- waits for the answer to a job until the deadline
  | awaitReply (serial : Nat) (deadline : Option Instant) : EndpointCall Reply
  | pollReply (serial : Nat) : EndpointCall Reply
  -- gives up one ownership; the last owner takes the link
  | release : EndpointCall (Option Link)

/-- A finished access. -/
structure Section (α : Type) where
  endpoint : Endpoint
  answer : α
  -- whether parked threads wake
  wakes : Bool
  notes : List Note

namespace Endpoint

/-- An unconnected endpoint with one owner, its handle. -/
def ofSettings (s : Settings) (onDisconnect : Option Script) : Endpoint where
  settings := s
  state := .init
  sends := .ofDepth s.sendDepth
  receives := .ofDepth s.receiveDepth
  stopped := false
  link := none
  linkHolder := none
  workers := []
  onDisconnect := onDisconnect
  stopping := false
  nextSerial := 1
  nextKey := 1
  replies := []
  owners := 1

def queue (e : Endpoint) : Direction → WorkQueue Job
  | .send => e.sends
  | .receive => e.receives

def withQueue (e : Endpoint) (d : Direction) (q : WorkQueue Job) : Endpoint :=
  match d with
  | .send => { e with sends := q }
  | .receive => { e with receives := q }

def reply (e : Endpoint) (serial : Nat) : Reply :=
  match e.replies.find? (·.1 = serial) with
  | some (_, r) => r
  | none => .missing

def putReply (e : Endpoint) (serial : Nat) (r : Reply) : Endpoint :=
  { e with replies := e.replies ++ [(serial, r)] }

def quiet {α : Type} (e : Endpoint) (a : α) : Option (Section α) :=
  some ⟨e, a, false, []⟩

def waking {α : Type} (e : Endpoint) (a : α) : Option (Section α) :=
  some ⟨e, a, true, []⟩

def post (e : Endpoint) (d : Direction) (job : Job) : Section Posted :=
  if e.stopped then ⟨e, .closed, false, []⟩
  else match (e.queue d).post job with
    | none => ⟨e, .full, false, []⟩
    | some q => ⟨e.withQueue d q, .accepted, d = .send, [.accepted d job]⟩

def nextSend (e : Endpoint) : Section Supply :=
  if e.stopped then ⟨e, .stopped, false, []⟩
  else match e.sends.next with
    | (none, q) => ⟨{ e with sends := q }, .empty, false, []⟩
    | (some (slot, job), q) =>
      ⟨{ e with sends := q }, .job slot job, false, [.taken .send job.serial]⟩

def nextReceive (e : Endpoint) : Section (Option (Nat × Job)) :=
  match e.receives.next with
  | (none, q) => ⟨{ e with receives := q }, none, false, [.missed]⟩
  | (some (slot, job), q) =>
    ⟨{ e with receives := q }, some (slot, job), false, [.taken .receive job.serial]⟩

def cancel (e : Endpoint) (d : Direction) (serial : Nat) : Section Bool :=
  match (e.queue d).cancel (·.serial = serial) with
  | (none, q) => ⟨e.withQueue d q, false, true, []⟩
  | (some _, q) => ⟨e.withQueue d q, true, true, [.withdrawn d serial]⟩

def drain (e : Endpoint) (d : Direction) : Section (List Job) :=
  let (jobs, q) := (e.queue d).drain
  ⟨e.withQueue d q, jobs, false, []⟩

def underLink {α : Type} (e : Endpoint) (s : Option (Section α)) : Option (Section α) :=
  if e.linkHolder.isSome then none else s

/-- Carries out an access of a thread; nothing if the thread has to wait. -/
def call {α : Type} (e : Endpoint) (t : ThreadId) : EndpointCall α → Option (Section α)
  | .readState => e.quiet e.state
  | .writeState s => { e with state := s }.quiet ()
  | .takeSerial => { e with nextSerial := e.nextSerial + 1 }.quiet e.nextSerial
  | .post d job => some (e.post d job)
  | .nextSend => some e.nextSend
  | .nextReceive => some e.nextReceive
  | .complete d slot => (e.withQueue d ((e.queue d).complete slot)).waking ()
  | .cancel d serial => some (e.cancel d serial)
  | .drain d => some (e.drain d)
  | .notify => e.waking ()
  | .close => { e with stopped := true, state := .closed }.waking ()
  | .setStopped stopped => some ⟨{ e with stopped }, (), stopped, []⟩
  | .beginStopping => { e with stopping := true }.quiet e.stopping
  | .readStopping => e.quiet e.stopping
  | .writeStopping stopping => { e with stopping }.quiet ()
  | .takeDisconnect => { e with onDisconnect := none }.quiet e.onDisconnect
  | .takeWorkers => { e with workers := [] }.quiet (e.workers.filter (· ≠ t))
  | .lockLink => e.underLink ({ e with linkHolder := some t }.quiet e.link)
  | .unlockLink link =>
    { e with link := link.orElse fun _ => e.link, linkHolder := none }.quiet ()
  | .readLink => e.underLink (e.quiet e.link)
  | .takeLink => e.underLink ({ e with link := none }.quiet e.link)
  | .awaitReply serial _ =>
    let r := e.reply serial
    if r.isMissing then none else e.quiet r
  | .pollReply serial => e.quiet (e.reply serial)
  | .release =>
    if e.owners = 1 then { e with owners := 0, link := none }.quiet e.link
    else { e with owners := e.owners - 1 }.quiet none

def register (e : Endpoint) (addr length : UInt64) (access : Access) : Endpoint × Region :=
  ({ e with nextKey := e.nextKey + 1 }, ⟨addr, length, access, e.nextKey⟩)

def deregister (_ : Endpoint) (_ : Region) : Except Error Unit := .ok ()

def bind (_ : Endpoint) : Except Error Unit := .ok ()

def monitor (_ : Endpoint) : Except Error Unit := .ok ()

def postOneSided (_ : Endpoint) (_ : Buffer) (_ : RemoteLocation) : Except Error Unit := .ok ()

def waitOneSided (_ : Endpoint) (b : Buffer) (_ : RemoteLocation) : Except Error Buffer := .ok b

def text (e : Endpoint) : String :=
  Text.record "Transport" [("role", e.settings.role.name), ("state", e.state.name),
    ("namespace", Text.quoted e.settings.space)]

end Endpoint

end QueuePair
