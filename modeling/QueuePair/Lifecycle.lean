namespace QueuePair

inductive Lifecycle
  | init
  | connected
  | closed
deriving DecidableEq, Repr

namespace Lifecycle

instance : Inhabited Lifecycle := ⟨.init⟩

def code : Lifecycle → Nat
  | .init => 0
  | .connected => 1
  | .closed => 2

def ofCode : Nat → Lifecycle
  | 0 => .init
  | 1 => .connected
  | _ => .closed

def text : Lifecycle → String
  | .init => "INIT"
  | .connected => "CONNECTED"
  | .closed => "CLOSED"

def name : Lifecycle → String
  | .init => "Init"
  | .connected => "Connected"
  | .closed => "Closed"

@[simp] theorem ofCode_code (s : Lifecycle) : ofCode s.code = s := by
  cases s <;> rfl

end Lifecycle

end QueuePair
