import QueuePair.Text

namespace QueuePair

structure Access where
  bits : UInt32
deriving DecidableEq, Repr

namespace Access

def named : List (String × UInt32) :=
  [("LOCAL_WRITE", 1), ("REMOTE_WRITE", 2), ("REMOTE_READ", 4), ("REMOTE_ATOMIC", 8)]

def none : Access := ⟨0⟩

def all : Access := ⟨15⟩

def ofBits? (bits : UInt32) : Option Access :=
  if bits &&& all.bits = bits then some ⟨bits⟩ else Option.none

def truncate (a : Access) : Access := ⟨a.bits &&& all.bits⟩

def isEmpty (a : Access) : Bool := a.bits = 0

def contains (a b : Access) : Bool := a.bits &&& b.bits = b.bits

def intersects (a b : Access) : Bool := a.bits &&& b.bits ≠ 0

def union (a b : Access) : Access := ⟨a.bits ||| b.bits⟩

def inter (a b : Access) : Access := ⟨a.bits &&& b.bits⟩

def diff (a b : Access) : Access := ⟨a.bits &&& ~~~b.bits⟩

def symmDiff (a b : Access) : Access := ⟨a.bits ^^^ b.bits⟩

def complement (a : Access) : Access := truncate ⟨~~~a.bits⟩

def names (a : Access) : List String :=
  (named.filter fun r => a.contains ⟨r.2⟩).map (·.1)

def text (a : Access) : String :=
  let rest := a.diff all
  let parts := a.names ++
    if rest.isEmpty && !a.isEmpty then [] else ["0x" ++ Text.hex rest.bits.toNat]
  "AccessFlags(" ++ " | ".intercalate parts ++ ")"

end Access

end QueuePair
