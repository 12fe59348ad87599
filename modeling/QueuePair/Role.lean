namespace QueuePair

/-- Which side of a pair an endpoint is. -/
inductive Role
  | server
  | client
deriving DecidableEq, Repr

namespace Role

instance : Inhabited Role := ⟨.client⟩

/-- The other side. -/
def peer : Role → Role
  | .server => .client
  | .client => .server

def isServer (r : Role) : Bool :=
  r = .server

def text : Role → String
  | .server => "server"
  | .client => "client"

def name : Role → String
  | .server => "Server"
  | .client => "Client"

@[simp] theorem peer_peer (r : Role) : r.peer.peer = r := by
  cases r <;> rfl

end Role

end QueuePair
