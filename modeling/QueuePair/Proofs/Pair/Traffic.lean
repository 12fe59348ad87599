import QueuePair.Proofs.Books
import QueuePair.Proofs.Record
import QueuePair.Proofs.Holdings
import QueuePair.Proofs.Pair.Dues

namespace QueuePair

namespace Sender

def hand : Sender → List Job
  | .publish _ job .takeVacancy | .publish _ job .takeGate | .publish _ job .copy => [job]
  | _ => []

def flight : Sender → Nat
  | .publish _ _ .giveGate | .signal .. => 1
  | _ => 0

end Sender

namespace Mailbox.Collecting

def read? : Collecting → Option Collected
  | .giveGate c | .giveVacancy c => some c
  | _ => none

end Mailbox.Collecting

namespace Receiver

def flight : Receiver → Nat
  | .fetch => 1
  | .discard s | .collect _ _ s => if s.read?.isSome then 0 else 1
  | _ => 0

def looking : Receiver → List (Option Job)
  | .discard s => if s.read?.isSome then [] else [none]
  | .collect _ job s => if s.read?.isSome then [] else [some job]
  | _ => []

def handed (job : Job) (c : Mailbox.Collected) : Job × Option Error :=
  ({ job with data := c.buffer.getD job.data },
    match c.result with
    | .ok _ => none
    | .error e => some e)

/-- How the job is handed back whose message has been read. -/
def pending : Receiver → List (Job × Option Error)
  | .collect _ job s => (s.read?.map (handed job)).toList
  | .complete _ job => [(job, none)]
  | .fail _ job e => [(job, some e)]
  | _ => []

end Receiver

/-- How a job meets a message: it is handed back with exactly the bytes of the message, or as it was
if they are too many for it. -/
def deliver (job : Job) (payload : Bytes) : Job × Option Error :=
  if h : payload.length ≤ job.data.limit then
    ({ job with data := ⟨payload, job.data.limit, h⟩ }, none)
  else (job, some (.frameTooLarge payload.length job.data.limit))

def deliver? : Option Job × Except Error Bytes → Option (Job × Option Error)
  | (some job, .ok payload) => some (deliver job payload)
  | (some job, .error e) => some (job, some e)
  | (none, _) => none

theorem handed_ofMessage (job : Job) (r : Except Error Bytes) :
    some (Receiver.handed job (.ofMessage (some job.data) r)) = deliver? (some job, r) := by
  cases r with
  | error e => rfl
  | ok payload =>
    simp only [Mailbox.Collected.ofMessage, Buffer.fill, deliver?, deliver]
    by_cases h : payload.length ≤ job.data.limit <;> simp [h, Receiver.handed]

/-- What the delivery of messages depends on at one side. -/
@[ext]
structure Side where
  queue : Direction → WorkQueue Job
  -- the next serial number
  next : Nat
  -- how many threads are about to post a job with a number
  posting : Direction → Nat → Nat
  sender : Sender
  receiver : Receiver
  -- the messages that the sender has copied into the mailbox
  published : List Bytes
  -- what the receiver has read from the mailbox
  processed : List (Except Error Bytes)

/-- What the delivery of messages depends on. All else that threads, endpoints and the system do is
quiet here. -/
structure Traffic where
  history : List Event
  -- the file of the mailbox
  file : File
  -- the announced messages of a side
  signal : Role → Nat
  side : Role → Side

namespace Traffic

def transit (s : Traffic) (r : Role) : Nat :=
  s.signal r + (s.side r).sender.flight + (s.side r.peer).receiver.flight

def put (s : Traffic) (r : Role) (x : Side) : Traffic :=
  { s with side := Function.update s.side r x }

def record (s : Traffic) (ev : Event) : Traffic :=
  { s with history := ev :: s.history }

end Traffic

structure Sender.Alike (s s' : Sender) : Prop where
  hand : s'.hand = s.hand
  flight : s'.flight = s.flight
  slot : ∀ i, s'.slot? = some i → s.slot? = some i

structure Receiver.Alike (s s' : Receiver) : Prop where
  looking : s'.looking = s.looking
  flight : s'.flight = s.flight
  pending : s'.pending = s.pending
  slot : ∀ i, s'.slot? = some i → s.slot? = some i

theorem Sender.Alike.refl (s : Sender) : s.Alike s :=
  ⟨rfl, rfl, fun _ h => h⟩

theorem Receiver.Alike.refl (s : Receiver) : s.Alike s :=
  ⟨rfl, rfl, rfl, fun _ h => h⟩

/-- A step that one side does not notice. -/
structure Side.Alike (x x' : Side) : Prop where
  queue : x'.queue = x.queue
  next : x'.next = x.next
  posting : ∀ d n, x'.posting d n ≤ x.posting d n
  sender : x.sender.Alike x'.sender
  receiver : x.receiver.Alike x'.receiver
  published : x'.published = x.published
  processed : x'.processed = x.processed

def File.Keeps (capacity : Nat) (f f' : File) : Prop :=
  ∀ payload : Bytes, payload.length ≤ capacity → Record.encode payload <+: f.written →
    Record.encode payload <+: f'.written

theorem File.Keeps.refl (capacity : Nat) (f : File) : File.Keeps capacity f f :=
  fun _ _ h => h

structure Event.Aside (e : EndpointId) (ev : Event) : Prop where
  silent : ev.Silent e
  resolved : ev.resolved? e .receive = none

namespace Pair

/-- What can happen to the traffic of a pair. -/
inductive Deals (P : Pair) (capacity : Nat) (s : Traffic) : Traffic → Prop
  | quiet {s' : Traffic} : (∀ r, Side.Alike (s.side r) (s'.side r)) → s'.signal = s.signal →
      File.Keeps capacity s.file s'.file → (s'.history = s.history ∨
        ∃ ev, s'.history = ev :: s.history ∧ ∀ r, ev.Aside (P.id r)) → Deals P capacity s s'
  | number {r : Role} {posting : Direction → Nat → Nat} :
      (∀ d n, posting d n ≤ (s.side r).posting d n + if n = (s.side r).next then 1 else 0) →
      Deals P capacity s (s.put r { s.side r with next := (s.side r).next + 1, posting })
  | accept {r : Role} {d : Direction} {job : Job} {q : WorkQueue Job}
      {posting : Direction → Nat → Nat} : ((s.side r).queue d).post job = some q →
      (∀ d' n, posting d' n + (if d' = d ∧ n = job.serial then 1 else 0) ≤
        (s.side r).posting d' n) →
      Deals P capacity s ((s.put r { s.side r with
        queue := Function.update (s.side r).queue d q, posting }).record
          (.noted (P.id r) (.accepted d job)))
  | withdraw {r : Role} {d : Direction} {serial : Nat} {job : Job} {q : WorkQueue Job} :
      ((s.side r).queue d).cancel (·.serial = serial) = (some job, q) →
      Deals P capacity s ((s.put r { s.side r with
        queue := Function.update (s.side r).queue d q }).record
          (.noted (P.id r) (.withdrawn d serial)))
  | dry {r : Role} {q : WorkQueue Job} : (s.side r).sender = .fetch →
      ((s.side r).queue .send).next = (none, q) →
      Deals P capacity s (s.put r { s.side r with
        queue := Function.update (s.side r).queue .send q, sender := .parked })
  | take {r : Role} {slot : Nat} {job : Job} {q : WorkQueue Job} : (s.side r).sender = .fetch →
      ((s.side r).queue .send).next = (some (slot, job), q) →
      Deals P capacity s ((s.put r { s.side r with
        queue := Function.update (s.side r).queue .send q,
        sender := .publish slot job .takeVacancy }).record
        (.noted (P.id r) (.taken .send job.serial)))
  | publish {r : Role} {slot : Nat} {job : Job} {t : ThreadId} {f : FileId} :
      (s.side r).sender = .publish slot job .copy → job.data.payload.length ≤ capacity →
      (∀ r, s.transit r = 0) →
      Deals P capacity s { (s.put r { s.side r with
        sender := .publish slot job .giveGate,
        published := (s.side r).published ++ [job.data.payload] }).record
          (.stored t f job.data.payload) with file := Record.store s.file job.data.payload }
  | announce {r : Role} {slot : Nat} {job : Job} : (s.side r).sender = .signal slot job →
      Deals P capacity s { s.put r { s.side r with sender := .complete slot job } with
        signal := Function.update s.signal r (s.signal r + 1) }
  | reuse {r : Role} {slot : Nat} : (s.side r).sender = .recycle slot true →
      Deals P capacity s (s.put r { s.side r with
        queue := Function.update (s.side r).queue .send (((s.side r).queue .send).complete slot),
        sender := .fetch })
  | hear {r : Role} {n : Nat} : (s.side r).receiver = .await → s.signal r.peer = n + 1 →
      Deals P capacity s { s.put r { s.side r with receiver := .fetch } with
        signal := Function.update s.signal r.peer n }
  | miss {r : Role} {q : WorkQueue Job} : (s.side r).receiver = .fetch →
      ((s.side r).queue .receive).next = (none, q) →
      Deals P capacity s ((s.put r { s.side r with
        queue := Function.update (s.side r).queue .receive q,
        receiver := .discard .takeGate }).record (.noted (P.id r) .missed))
  | find {r : Role} {slot : Nat} {job : Job} {q : WorkQueue Job} : (s.side r).receiver = .fetch →
      ((s.side r).queue .receive).next = (some (slot, job), q) →
      Deals P capacity s ((s.put r { s.side r with
        queue := Function.update (s.side r).queue .receive q,
        receiver := .collect slot job .takeGate }).record
          (.noted (P.id r) (.taken .receive job.serial)))
  | discard {r : Role} {t : ThreadId} {f : FileId} :
      (s.side r).receiver = .discard .copy →
      Deals P capacity s ((s.put r { s.side r with
        receiver := .discard (.giveGate (.ofMessage none (Record.load s.file capacity))),
        processed := (s.side r).processed ++ [Record.load s.file capacity] }).record
          (.loaded t f (Record.load s.file capacity)))
  | collect {r : Role} {slot : Nat} {job : Job} {t : ThreadId} {f : FileId} :
      (s.side r).receiver = .collect slot job .copy →
      Deals P capacity s ((s.put r { s.side r with
        receiver := .collect slot job
          (.giveGate (.ofMessage (some job.data) (Record.load s.file capacity))),
        processed := (s.side r).processed ++ [Record.load s.file capacity] }).record
          (.loaded t f (Record.load s.file capacity)))
  | handBack {r : Role} {slot : Nat} {job : Job} {e : Option Error} :
      (s.side r).receiver.pending = [(job, e)] → (s.side r).receiver.flight = 0 →
      (s.side r).receiver.looking = [] → (s.side r).receiver.slot? = some slot →
      Deals P capacity s ((s.put r { s.side r with receiver := .recycle slot true }).record
        (.noted (P.id r) (.resolved .receive job e)))
  | refill {r : Role} {slot : Nat} : (s.side r).receiver = .recycle slot true →
      Deals P capacity s (s.put r { s.side r with
        queue := Function.update (s.side r).queue .receive
          (((s.side r).queue .receive).complete slot),
        receiver := .await })

end Pair

end QueuePair
