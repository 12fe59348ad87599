import QueuePair.Kernel.Handles

namespace QueuePair

/-- One record in a mapped file, and three semaphores. The gate is held during a copy; the vacancy
is one while no message waits in the record; the last one counts the attached sides. -/
structure Mailbox where
  semaphores : SemaphoreHandle
  file : FileId
  path : Path
  capacity : Nat
deriving DecidableEq, Repr

namespace Mailbox

def gate : Nat := 0

def vacancy : Nat := 1

def attached : Nat := 2

def semaphoreCount : Nat := 3

end Mailbox

structure Signals where
  outbound : SemaphoreHandle
  inbound : SemaphoreHandle
deriving DecidableEq, Repr

/-- Everything that connects two endpoints, as one of them holds it. -/
structure Link where
  mailbox : Mailbox
  signals : Signals
deriving DecidableEq, Repr

end QueuePair
