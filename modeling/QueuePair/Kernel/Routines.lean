import QueuePair.Move

namespace QueuePair

/-- Opening a set: make it, or join the one that is there. -/
inductive OpenSet
  | create
  | join
deriving DecidableEq, Repr

namespace OpenSet

def failure (e : SystemError) : Error :=
  .io (.during "semget" e)

def next (key : Key) (count : Nat) : OpenSet → Move (Flow OpenSet (Except Error SemaphoreHandle))
  | .create => .call (.createSet key count) fun
    | .ok set => .done (.ok ⟨set, count, key, true⟩)
    | .error .exists => .more .join
    | .error e => .done (.error (failure e))
  | .join => .call (.joinSet key count) fun
    | .ok set => .done (.ok ⟨set, count, key, false⟩)
    | .error e => .done (.error (failure e))

end OpenSet

inductive TimedChange
  | clock
  | overflowed
  | change (deadline : Instant)
deriving DecidableEq, Repr

namespace TimedChange

def changesMax : Nat := 500

def badIndex? (h : SemaphoreHandle) (changes : List Change) : Option Nat :=
  (changes.find? (·.index ≥ h.count)).map (·.index)

def start (h : SemaphoreHandle) (changes : List Change) : Flow TimedChange (Except Error Unit) :=
  match badIndex? h changes with
  | some index => .done (.error (.ipc (.semaphoreRange index h.count)))
  | none => .more .clock

/-- A time limit beyond the clock's range ends the thread. An empty list is taken for a removed
set, and a long one is refused before the set is looked at. -/
def next (h : SemaphoreHandle) (changes : List Change) (span : Span) :
    TimedChange → Move (Flow TimedChange (Except Error Unit))
  | .clock => .perform (.clock span) fun
    | none => .more .overflowed
    | some deadline =>
      if changes.isEmpty then .done (.error .connectionClosed)
      else if changes.length > changesMax then .done (.error (.ofSystem .listTooLong))
      else .more (.change deadline)
  | .overflowed => .panic
  | .change deadline => .call (.change h.set changes (some deadline)) .done

end TimedChange

/-- Mapping the first bytes of a file: open it, look how long it is, set its length if it was too
short, and map it. A longer file is left alone, unless it grew after the look. A file that was made
stays there if its length or the mapping is refused. -/
inductive MapFile
  | openFile
  | measure (file : FileId)
  | extend (file : FileId)
  | map (file : FileId)
deriving DecidableEq, Repr

namespace MapFile

def next (path : Path) (size : Nat) (create : Bool) :
    MapFile → Move (Flow MapFile (Except SystemError Mapping))
  | .openFile => .call (.openFile path create) fun
    | .ok file => .more (.measure file)
    | .error e => .done (.error e)
  | .measure file => .call (.fileLength file) fun length =>
    .more (if length < size then .extend file else .map file)
  | .extend file => .call (.setFileLength file size) fun
    | .ok () => .more (.map file)
    | .error e => .done (.error e)
  | .map file => .call (.mapFile file size) fun r => .done (r.map fun () => ⟨file, size, path⟩)

end MapFile

end QueuePair
