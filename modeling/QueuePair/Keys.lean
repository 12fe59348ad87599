import QueuePair.Path
import QueuePair.Role
import QueuePair.Text

namespace QueuePair

abbrev Key := Int32

def fold32 (bytes : List UInt8) : UInt32 :=
  bytes.foldl (fun h b => (h ^^^ b.toUInt32) * 0x01000193) 0x811c9dc5

/-- What both sides of a pair derive from their namespace and directory alone: three semaphore keys
and the path of the mailbox file. -/
structure Keys where
  base : Key
  path : Path
deriving DecidableEq, Repr

namespace Keys

/-- The first of sixteen consecutive keys: positive, with a clear low nibble. -/
def baseOf (space : String) : Key :=
  let base := (fold32 (Text.utf8 space) &&& 0x7ffffff0).toInt32
  if base = 0 then 0x10 else base

def fileName (space : String) : String :=
  "shmqp-" ++ space ++ ".mbox"

def derive (space : String) (dir : Path) : Keys :=
  ⟨baseOf space, dir.join (fileName space)⟩

def mailbox (k : Keys) : Key :=
  k.base + 0

/-- The key of the set that a side raises after it has published. -/
def outbound (k : Keys) : Role → Key
  | .server => k.base + 1
  | .client => k.base + 2

def inbound (k : Keys) (r : Role) : Key :=
  k.outbound r.peer

def same (a b : Keys) : Bool :=
  a.base = b.base && a.path.same b.path

end Keys

end QueuePair
