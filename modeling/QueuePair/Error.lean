import QueuePair.Lifecycle
import QueuePair.Role
import QueuePair.SystemError
import QueuePair.Text

namespace QueuePair

/-- An attribute that no endpoint can be made with. -/
inductive AttributeFault
  | namespaceEmpty
  | namespaceCharacter
  | sendDepth (depth limit : Nat)
  | receiveDepth (depth limit : Nat)
  | capacityZero
  | capacityTooLarge (capacity : Nat)
  | other (name message : String)
deriving DecidableEq, Repr

namespace AttributeFault

def name : AttributeFault → String
  | .namespaceEmpty | .namespaceCharacter => "namespace"
  | .sendDepth .. => "sq_depth"
  | .receiveDepth .. => "rq_depth"
  | .capacityZero | .capacityTooLarge _ => "mailbox_capacity"
  | .other name _ => name

def reason : AttributeFault → String
  | .namespaceEmpty => "must not be empty"
  | .namespaceCharacter => "must not contain '/' or NUL"
  | .sendDepth depth limit | .receiveDepth depth limit =>
    toString depth ++ " exceeds " ++ toString limit
  | .capacityZero => "must be non-zero"
  | .capacityTooLarge capacity => toString capacity ++ " does not fit the u32 size field"
  | .other _ message => message

end AttributeFault

inductive CoreError
  | bufferTooShort (required available : Nat)
  | invalidAttribute (fault : AttributeFault)
deriving DecidableEq, Repr

namespace CoreError

def message : CoreError → String
  | .bufferTooShort required available =>
    "buffer too short: required " ++ toString required ++ " bytes, available " ++
      toString available ++ " bytes"
  | .invalidAttribute fault => "invalid attribute " ++ fault.name ++ ": " ++ fault.reason

def text : CoreError → String
  | .bufferTooShort required available =>
    Text.record "BufferTooShort"
      [("required", toString required), ("available", toString available)]
  | .invalidAttribute fault =>
    Text.record "InvalidAttribute"
      [("name", Text.quoted fault.name), ("message", Text.quoted fault.reason)]

end CoreError

inductive IoFault
  | system (e : SystemError)
  | during (call : String) (e : SystemError)
  | other (message : String)
deriving DecidableEq, Repr

namespace IoFault

def message : IoFault → String
  | .system e => e.message
  | .during call e => call ++ ": " ++ e.message
  | .other message => message

end IoFault

inductive IpcFault
  | semaphoreRange (index count : Nat)
  | recordSize (size capacity : Nat)
  | other (message : String)
deriving DecidableEq, Repr

namespace IpcFault

def message : IpcFault → String
  | .semaphoreRange index count =>
    "semaphore " ++ toString index ++ " out of range for set of " ++ toString count
  | .recordSize size capacity =>
    "mailbox size field " ++ toString size ++ " exceeds capacity " ++ toString capacity
  | .other message => message

end IpcFault

/-- Errors of endpoints and of the shared objects under them. -/
inductive Error
  | io (fault : IoFault)
  | core (e : CoreError)
  | connectTimeout
  | timeout
  | connectionClosed
  | notConnected
  | invalidState (expected actual : Lifecycle)
  | wrongRole (expected : Role)
  | frameTooLarge (size max : Nat)
  | ipc (fault : IpcFault)
deriving DecidableEq, Repr

namespace Error

def message : Error → String
  | .io fault => "IO error: " ++ fault.message
  | .core e => e.message
  | .connectTimeout => "connection timeout"
  | .timeout => "operation timed out"
  | .connectionClosed => "connection closed"
  | .notConnected => "transport not connected"
  | .invalidState expected actual =>
    "invalid state: expected " ++ expected.text ++ ", found " ++ actual.text
  | .wrongRole expected => "operation requires the " ++ expected.text ++ " role"
  | .frameTooLarge size max =>
    "frame too large: " ++ toString size ++ " bytes exceeds maximum " ++ toString max ++ " bytes"
  | .ipc fault => "IPC error: " ++ fault.message

/-- The error as a record of its fields; a system failure has no such text. -/
def text? : Error → Option String
  | .io _ => none
  | .core e => some e.text
  | .connectTimeout => some "ConnectTimeout"
  | .timeout => some "Timeout"
  | .connectionClosed => some "ConnectionClosed"
  | .notConnected => some "NotConnected"
  | .invalidState expected actual =>
    some (Text.record "InvalidState" [("expected", expected.name), ("actual", actual.name)])
  | .wrongRole expected => some (Text.record "WrongRole" [("expected", expected.name)])
  | .frameTooLarge size max =>
    some (Text.record "FrameTooLarge" [("size", toString size), ("max", toString max)])
  | .ipc fault => some (Text.record "Ipc" [("message", Text.quoted fault.message)])

def isDisconnect (e : Error) : Bool :=
  e = .connectionClosed

def hasSource : Error → Bool
  | .io _ => true
  | _ => false

def ofSystem (e : SystemError) : Error :=
  .io (.system e)

end Error

end QueuePair
