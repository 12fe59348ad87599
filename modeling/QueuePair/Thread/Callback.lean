import QueuePair.Thread.Call

namespace QueuePair

inductive CallbackState
  | running (command : String) (c : Call) (rest : Script)
  | ended (command : String) (r : Result) (rest : Script)
  | panicking

/-- A running callback. -/
structure Callback where
  party : Party
  lane : Lane
  id : String
  -- what a send without data of its own sends
  payload : Bytes
  -- how many commands are done
  index : Nat
  state : CallbackState

namespace Command

/-- The operation of a command that posts, waits, looks or destroys. -/
def start (p : Party) (id : String) (payload : Bytes) : Command → Option Call.Started
  | .hold => some (.more (.holding id))
  | .state => some (Call.ofOperation p .readState)
  | .postSend id data onDone onError =>
    some (Call.ofOperation p
      (.postSend (.ofBytes (data.getD payload)) (.callbacks id onDone onError)))
  | .postReceive id into onDone onError =>
    some (Call.ofOperation p (.postReceive into (.callbacks id onDone onError)))
  | .waitSend data => some (Call.ofOperation p (.waitSend (.ofBytes (data.getD payload))))
  | .waitReceive into => some (Call.ofOperation p (.waitReceive into))
  | .destroy => some (Call.ofOperation p .destroy)
  | .panic => none

end Command

namespace CallbackState

def ofScript (p : Party) (id : String) (payload : Bytes) : Script → Option CallbackState
  | [] => none
  | command :: rest =>
    match command.start p id payload with
    | none => some .panicking
    | some (.more c) => some (.running command.name c rest)
    | some (.done r) => some (.ended command.name r rest)

end CallbackState

namespace Callback

def start (p : Party) (lane : Lane) (id : String) (payload : Bytes) (script : Script) :
    Option Callback :=
  (CallbackState.ofScript p id payload script).map fun s => ⟨p, lane, id, payload, 0, s⟩

/-- One action of a callback; nothing is left of it after the last one. -/
def next (c : Callback) : Move (Option Callback) :=
  match c.state with
  | .running command call rest =>
    call.next.through (fun call => some { c with state := .running command call rest })
      fun r => some { c with state := .ended command r rest }
  | .ended command r rest =>
    .perform (.note c.party.id (.acted c.lane c.id c.index command r)) fun () =>
      (CallbackState.ofScript c.party c.id c.payload rest).map fun s =>
        { c with index := c.index + 1, state := s }
  | .panicking => .panic

def held (c : Callback) : List Job :=
  match c.state with
  | .running _ call _ => call.held
  | _ => []

end Callback

end QueuePair
