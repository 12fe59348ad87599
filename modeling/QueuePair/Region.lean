import QueuePair.Access
import QueuePair.Text

namespace QueuePair

structure RemoteLocation where
  addr : UInt64
  key : UInt32
  size : UInt32
deriving DecidableEq, Repr

/-- A registered region; its one key serves locally and remotely. -/
structure Region where
  addr : UInt64
  length : UInt64
  access : Access
  key : UInt32
deriving DecidableEq, Repr

namespace Region

def addressMax : Nat := 18446744073709551615

/-- The address after the last byte; a region that would reach past the last address stops
there. -/
def stop (r : Region) : Nat :=
  min (r.addr.toNat + r.length.toNat) addressMax

def contains (r : Region) (addr len : UInt64) : Bool :=
  addr.toNat + len.toNat ≤ addressMax && r.addr ≤ addr && addr.toNat + len.toNat ≤ r.stop

def remote (r : Region) (addr : UInt64) (size : UInt32) : RemoteLocation :=
  ⟨addr, r.key, size⟩

def text (r : Region) : String :=
  Text.record "MemoryRegion" [("addr", toString r.addr), ("length", toString r.length),
    ("access", r.access.text), ("lkey", toString r.key), ("rkey", toString r.key)]

end Region

end QueuePair
