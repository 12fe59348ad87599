import QueuePair.Kernel.Calls

namespace QueuePair

/-- A set as it was opened: how many of its semaphores may be used, and whether opening made it. -/
structure SemaphoreHandle where
  set : SetId
  count : Nat
  key : Key
  created : Bool
deriving DecidableEq, Repr

namespace SemaphoreHandle

/-- The value of a semaphore. An index beyond the handle's count is refused first. -/
def value? (h : SemaphoreHandle) (k : Kernel) (index : Nat) : Except Error Nat :=
  if index ≥ h.count then .error (.ipc (.semaphoreRange index h.count))
  else k.value? h.set index

end SemaphoreHandle

structure Mapping where
  file : FileId
  size : Nat
  path : Path
deriving DecidableEq, Repr

namespace Mapping

def bytes (m : Mapping) (k : Kernel) : Bytes :=
  ((k.files.file? m.file).getD .empty).read 0 m.size

def read? (m : Mapping) (k : Kernel) (offset count : Nat) : Option Bytes :=
  if offset + count ≤ m.size then
    some (((k.files.file? m.file).getD .empty).read offset count)
  else none

def write? (m : Mapping) (k : Kernel) (offset : Nat) (bytes : Bytes) : Option Kernel :=
  if offset + bytes.length ≤ m.size then
    some { k with files := k.files.modify m.file (·.write offset bytes) }
  else none

def text (m : Mapping) : String :=
  Text.record "SharedMemory"
    [("size", toString m.size), ("path", Text.quoted m.path.text)]

end Mapping

end QueuePair
