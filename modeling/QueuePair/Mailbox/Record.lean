import QueuePair.Kernel.Files

namespace QueuePair.Record

def headerSize : Nat := 4

def header (size : UInt32) : Bytes :=
  [size.toUInt8, (size >>> 8).toUInt8, (size >>> 16).toUInt8, (size >>> 24).toUInt8]

def headerValue (bytes : Bytes) : Nat :=
  bytes.foldr (fun b n => b.toNat + 256 * n) 0

def encode (payload : Bytes) : Bytes :=
  header (UInt32.ofNat payload.length) ++ payload

/-- Writes the size of a message in four bytes, the lowest first, and then the message. What stood
behind a longer message before stays where it is. -/
def store (f : File) (payload : Bytes) : File :=
  f.write 0 (encode payload)

/-- The size that a file claims, if it is possible under a capacity. -/
def size (f : File) (capacity : Nat) : Except Error Nat :=
  let n := headerValue (f.read 0 headerSize)
  if n > capacity then .error (.ipc (.recordSize n capacity)) else .ok n

def load (f : File) (capacity : Nat) : Except Error Bytes :=
  (size f capacity).map (f.read headerSize)

end QueuePair.Record
