import QueuePair.Buffer

namespace QueuePair

/-- One command of a script. A post carries the scripts for its own completion and failure; a send
without data sends what the callback was given. -/
inductive Command
  | hold
  | state
  | postSend (id : String) (data : Option Bytes) (onDone onError : List Command)
  | postReceive (id : String) (into : Buffer) (onDone onError : List Command)
  | waitSend (data : Option Bytes)
  | waitReceive (into : Buffer)
  | destroy
  | panic

abbrev Script := List Command

namespace Command

def name : Command → String
  | .hold => "hold"
  | .state => "state"
  | .postSend .. => "send"
  | .postReceive .. => "recv"
  | .waitSend _ => "wait_send"
  | .waitReceive _ => "wait_receive"
  | .destroy => "destroy"
  | .panic => "panic"

end Command

/-- Who gets a message buffer back: a synchronous call that waits for it, or two callbacks of which
one runs. -/
inductive Handler
  | caller
  | callbacks (id : String) (onDone onError : Script)

/-- The two queues of an endpoint. -/
inductive Direction
  | send
  | receive
deriving DecidableEq, Repr

/-- A posted send or receive. Its serial number is unique on its endpoint. -/
structure Job where
  serial : Nat
  data : Buffer
  handler : Handler

end QueuePair
