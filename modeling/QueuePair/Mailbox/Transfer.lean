import QueuePair.Kernel.Routines

namespace QueuePair.Mailbox

/-- Publishing takes the vacancy and the gate, copies, and gives the gate back. -/
inductive Publishing
  | takeVacancy
  | takeGate
  | copy
  | giveGate
deriving DecidableEq, Repr

namespace Publishing

def start (m : Mailbox) (payload : Bytes) : Flow Publishing (Except Error Unit) :=
  if payload.length > m.capacity then .done (.error (.frameTooLarge payload.length m.capacity))
  else .more .takeVacancy

def next (m : Mailbox) (payload : Bytes) :
    Publishing → Move (Flow Publishing (Except Error Unit))
  | .takeVacancy => .add m.semaphores vacancy (-1) fun
    | .ok () => .more .takeGate
    | .error e => .done (.error e)
  | .takeGate => .add m.semaphores gate (-1) fun
    | .ok () => .more .copy
    | .error e => .done (.error e)
  | .copy => .call (.storeRecord m.file payload) fun () => .more .giveGate
  | .giveGate => .add m.semaphores gate 1 .done

end Publishing

/-- What a collected message did to the buffer, and its size. Nothing is kept of a discarded
message. -/
structure Collected where
  buffer : Option Buffer
  result : Except Error Nat

namespace Collected

/-- Puts a message into a buffer, if there is one. A message that does not fit leaves the buffer as
it was. -/
def ofMessage (into : Option Buffer) : Except Error Bytes → Collected
  | .error e => ⟨into, .error e⟩
  | .ok payload =>
    match into with
    | none => ⟨none, .ok payload.length⟩
    | some b =>
      match b.fill payload with
      | .ok b => ⟨some b, .ok payload.length⟩
      | .error (.bufferTooShort required available) =>
        ⟨some b, .error (.frameTooLarge required available)⟩
      | .error e => ⟨some b, .error (.core e)⟩

def after (c : Collected) : Except Error Unit → Collected
  | .ok () => c
  | .error e => ⟨c.buffer, .error e⟩

end Collected

/-- Collecting a message, into a buffer or to discard it, takes the gate, copies, and gives back the
gate and then the vacancy, also when the message could not be read. -/
inductive Collecting
  | takeGate
  | copy
  | giveGate (c : Collected)
  | giveVacancy (c : Collected)

namespace Collecting

def next (m : Mailbox) (into : Option Buffer) : Collecting → Move (Flow Collecting Collected)
  | .takeGate => .add m.semaphores gate (-1) fun
    | .ok () => .more .copy
    | .error e => .done ⟨into, .error e⟩
  | .copy => .call (.loadRecord m.file m.capacity) fun r =>
    .more (.giveGate (.ofMessage into r))
  | .giveGate c => .add m.semaphores gate 1 fun
    | .ok () => .more (.giveVacancy c)
    | .error e => .done (c.after (.error e))
  | .giveVacancy c => .add m.semaphores vacancy 1 fun r => .done (c.after r)

end Collecting

end QueuePair.Mailbox
