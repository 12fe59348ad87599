import QueuePair.Kernel.Routines

namespace QueuePair.Mailbox

/-- Opening a mailbox: map the file, open the semaphores, and mark a new mailbox vacant, which is up
to whoever made the semaphores. -/
inductive Opening
  | map (s : MapFile)
  | semaphores (m : Mapping) (s : OpenSet)
  -- the semaphores could not be opened; the name of the file is removed
  | unlink (e : Error)
  | markVacant (m : Mailbox)

namespace Opening

def start : Opening := .map .openFile

def next (path : Path) (capacity : Nat) (key : Key) :
    Opening → Move (Flow Opening (Except Error Mailbox))
  | .map s => (s.next path (Record.headerSize + capacity) true).through (fun s => .more (.map s))
    fun
      | .ok m => .more (.semaphores m .create)
      | .error e => .done (.error (.ofSystem e))
  | .semaphores m s => (s.next key semaphoreCount).through (fun s => .more (.semaphores m s)) fun
    | .ok h =>
      let box : Mailbox := ⟨h, m.file, path, capacity⟩
      if h.created then .more (.markVacant box) else .done (.ok box)
    | .error e => .more (.unlink e)
  | .unlink e => .call (.unlink path) fun _ => .done (.error e)
  | .markVacant m => .add m.semaphores vacancy 1 fun r => .done (r.map fun _ => m)

end Opening

inductive Attaching
  | raiseGate
  | raiseCount
deriving DecidableEq, Repr

namespace Attaching

def next (m : Mailbox) : Attaching → Move (Flow Attaching (Except Error Unit))
  | .raiseGate => .add m.semaphores gate 1 fun
    | .ok () => .more .raiseCount
    | .error e => .done (.error e)
  | .raiseCount => .add m.semaphores attached 1 .done

end Attaching

/-- The rendezvous: wait until both sides are attached, then make sure that the gate was seen at
zero. The side that restores takes the gate, waits for zero and gives it back; the other side takes
the last raise in one step. -/
inductive Rendezvous
  | clock
  | overflowed
  | awaitBoth (deadline : Instant)
  | takeGate (deadline : Instant)
  | awaitZero (deadline : Instant)
  | giveBack
  -- the gate did not reach zero; it is given back before the error is reported
  | undo (e : Error)
  | takeLast (deadline : Instant)
deriving DecidableEq, Repr

namespace Rendezvous

/-- Running out of time is a failure to connect. -/
def failure : Error → Error
  | .timeout => .connectTimeout
  | e => e

def next (m : Mailbox) (restore : Bool) (span : Span) :
    Rendezvous → Move (Flow Rendezvous (Except Error Unit))
  | .clock => .perform (.clock span) fun
    | none => .more .overflowed
    | some deadline => .more (.awaitBoth deadline)
  | .overflowed => .panic
  | .awaitBoth deadline =>
    .call (.change m.semaphores.set [⟨attached, -2⟩, ⟨attached, 2⟩] (some deadline)) fun
      | .ok () => .more (if restore then .takeGate deadline else .takeLast deadline)
      | .error e => .done (.error (failure e))
  | .takeGate deadline => .call (.change m.semaphores.set [⟨gate, -1⟩] (some deadline)) fun
    | .ok () => .more (.awaitZero deadline)
    | .error e => .done (.error (failure e))
  | .awaitZero deadline => .call (.change m.semaphores.set [⟨gate, 0⟩] (some deadline)) fun
    | .ok () => .more .giveBack
    | .error e => .more (.undo e)
  | .giveBack => .add m.semaphores gate 1 fun r => .done (r.mapError failure)
  | .undo e => .add m.semaphores gate 1 fun _ => .done (.error (failure e))
  | .takeLast deadline =>
    .call (.change m.semaphores.set [⟨gate, -1⟩, ⟨gate, 0⟩] (some deadline)) fun r =>
      .done (r.mapError failure)

end Rendezvous

inductive Removal
  | semaphores
  | file (first : Except Error Unit)

namespace Removal

def both (a b : Except Error Unit) : Except Error Unit :=
  match a with
  | .ok () => b
  | .error e => .error e

def setGone : Except Error Unit → Except Error Unit
  | .error .connectionClosed => .ok ()
  | r => r

def nameGone : Except SystemError Unit → Except Error Unit
  | .ok () | .error .noEntry => .ok ()
  | .error e => .error (.ofSystem e)

def next (m : Mailbox) : Removal → Move (Flow Removal (Except Error Unit))
  | .semaphores => .call (.removeSet m.semaphores.set) fun r => .more (.file (setGone r))
  | .file first => .call (.unlink m.path) fun r => .done (both first (nameGone r))

end Removal

end QueuePair.Mailbox
