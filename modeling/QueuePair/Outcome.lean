import QueuePair.Job
import QueuePair.Mailbox

namespace QueuePair

/-- What an operation gives back when it succeeds. -/
inductive Value
  | unit
  | state (s : Lifecycle)
  | size (n : Nat)
  | buffer (b : Buffer)
  -- a buffer as it is after a receive, and the size received
  | received (b : Buffer) (r : Except Error Nat)
  | semaphores (h : SemaphoreHandle)
  | mapping (m : Mapping)
  | mailbox (m : Mailbox)
  | signals (s : Signals)

abbrev Result := Except Error Value

/-- How a thread ended. -/
inductive Outcome
  | returned (r : Result)
  | panicked

inductive Lane
  | work (d : Direction)
  | disconnect
deriving DecidableEq, Repr

/-- An entry in the record of an endpoint. -/
inductive Note
  -- a job was queued
  | accepted (d : Direction) (job : Job)
  -- a worker took the oldest job
  | taken (d : Direction) (serial : Nat)
  -- the receiver found no job for a message
  | missed
  -- a waiting caller took its queued job back
  | withdrawn (d : Direction) (serial : Nat)
  -- a job was handed back to its owner, complete or with an error
  | resolved (d : Direction) (job : Job) (error : Option Error)
  -- the disconnect callback started
  | disconnected (state : Lifecycle)
  -- a callback finished a command
  | acted (lane : Lane) (id : String) (index : Nat) (command : String) (result : Result)

abbrev EndpointId := Nat

/-- An entry in the record of everything. -/
inductive Event
  | noted (e : EndpointId) (note : Note)
  -- a thread copied a message into a mailbox file
  | stored (t : ThreadId) (file : FileId) (payload : Bytes)
  -- a thread read a mailbox file
  | loaded (t : ThreadId) (file : FileId) (result : Except Error Bytes)

end QueuePair
