import QueuePair.Kernel.Semaphores
import QueuePair.Mailbox.Record
import QueuePair.Span

namespace QueuePair

/-- The largest file and the largest mapping that the system grants. -/
structure Limits where
  file : Nat
  mapping : Nat
deriving DecidableEq, Repr

/-- A 64-bit system: lengths are signed numbers, and addresses of a process have 47 bits. -/
def Limits.standard : Limits := ⟨0x7fffffffffffffff, 0x800000000000⟩

/-- All sets ever made and all files. -/
structure Kernel where
  sets : List SemaphoreSet
  files : FileTree
  limits : Limits

/-- The calls on semaphore sets and files, by the type of their answer. Every call is one
indivisible step, and so is a copy into or out of a mapped file. Only a change of semaphores can
wait. -/
inductive SystemCall : Type → Type
  -- makes a set under a key that has none. The key zero never has one
  | createSet (key : Key) (count : Nat) : SystemCall (Except SystemError SetId)
  -- finds the set of a key, if it has at least as many semaphores
  | joinSet (key : Key) (count : Nat) : SystemCall (Except SystemError SetId)
  -- changes semaphores, waiting until the deadline while that is not possible
  | change (set : SetId) (changes : List Change) (deadline : Option Instant) :
      SystemCall (Except Error Unit)
  | removeSet (set : SetId) : SystemCall (Except Error Unit)
  | openFile (path : Path) (create : Bool) : SystemCall (Except SystemError FileId)
  | fileLength (file : FileId) : SystemCall Nat
  | setFileLength (file : FileId) (length : Nat) : SystemCall (Except SystemError Unit)
  | mapFile (file : FileId) (size : Nat) : SystemCall (Except SystemError Unit)
  | unlink (path : Path) : SystemCall (Except SystemError Unit)
  -- copies a message into a mapped mailbox file
  | storeRecord (file : FileId) (payload : Bytes) : SystemCall Unit
  -- copies the message of a mapped mailbox file
  | loadRecord (file : FileId) (capacity : Nat) : SystemCall (Except Error Bytes)

structure Called (α : Type) where
  kernel : Kernel
  ends : List Completion
  answer : Option α

namespace Kernel

def empty (limits : Limits := .standard) : Kernel := ⟨[], .empty, limits⟩

def setMax : Nat := 32000

def setOf? (k : Kernel) (key : Key) : Option SetId :=
  if key = 0 then none else k.sets.findIdx? fun s => s.key = key && !s.removed

def live? (k : Kernel) (set : SetId) : Option SemaphoreSet :=
  k.sets[set]?.filter (!·.removed)

def putSet (k : Kernel) (set : SetId) (s : SemaphoreSet) : Kernel :=
  { k with sets := k.sets.set set s }

/-- The value of a semaphore. One that the set does not have answers like a removed set. -/
def value? (k : Kernel) (set : SetId) (index : Nat) : Except Error Nat :=
  match (k.live? set).bind (·.values[index]?) with
  | none => .error .connectionClosed
  | some n => .ok n

def createSet (k : Kernel) (key : Key) (count : Nat) : Kernel × Except SystemError SetId :=
  if count > setMax then (k, .error .invalidArgument)
  else if (k.setOf? key).isSome then (k, .error .exists)
  else if count = 0 then (k, .error .invalidArgument)
  else ({ k with sets := k.sets ++ [.create key count] }, .ok k.sets.length)

def joinSet (k : Kernel) (key : Key) (count : Nat) : Except SystemError SetId :=
  match k.setOf? key with
  | none => .error .noEntry
  | some set =>
    if count > ((k.sets[set]?.map (·.values.length)).getD 0) then .error .invalidArgument
    else .ok set

def change (k : Kernel) (t : ThreadId) (set : SetId) (changes : List Change) :
    Called (Except Error Unit) :=
  match k.live? set with
  | none => ⟨k, [], some (.error .connectionClosed)⟩
  | some s =>
    match attempt s.values changes with
    | .done values =>
      let (s, ends) := s.assign values
      ⟨k.putSet set s, ends, some (.ok ())⟩
    | .overflows => ⟨k, [], some (.error (.ofSystem .outOfRange))⟩
    | .blocks => ⟨k.putSet set (s.enqueue t changes), [], none⟩

def removeSet (k : Kernel) (set : SetId) : Called (Except Error Unit) :=
  match k.live? set with
  | none => ⟨k, [], some (.error .connectionClosed)⟩
  | some s =>
    let (s, ends) := s.remove
    ⟨k.putSet set s, ends, some (.ok ())⟩

def withFiles {α : Type} (k : Kernel) (r : FileTree × α) : Called α :=
  ⟨{ k with files := r.1 }, [], some r.2⟩

def mapFile (k : Kernel) (size : Nat) : Except SystemError Unit :=
  if size ≤ k.limits.mapping then .ok () else .error .outOfMemory

/-- Carries out a call of a thread. -/
def call {α : Type} (k : Kernel) (t : ThreadId) : SystemCall α → Called α
  | .createSet key count => let (k, r) := k.createSet key count; ⟨k, [], some r⟩
  | .joinSet key count => ⟨k, [], some (k.joinSet key count)⟩
  | .change set changes _ => k.change t set changes
  | .removeSet set => k.removeSet set
  | .openFile path create => k.withFiles (k.files.openFile path create)
  | .fileLength file => ⟨k, [], some ((k.files.file? file).elim 0 (·.length))⟩
  | .setFileLength file length => k.withFiles (k.files.setLength k.limits.file file length)
  | .mapFile _ size => ⟨k, [], some (k.mapFile size)⟩
  | .unlink path => k.withFiles (k.files.unlink path)
  | .storeRecord file payload => k.withFiles (k.files.modify file (Record.store · payload), ())
  | .loadRecord file capacity =>
    ⟨k, [], some (Record.load ((k.files.file? file).getD .empty) capacity)⟩

def forget (k : Kernel) (t : ThreadId) : Kernel :=
  { k with sets := k.sets.map (·.dequeue t) }

def holds (k : Kernel) (t : ThreadId) : Bool :=
  k.sets.any (·.holds t)

end Kernel

end QueuePair
