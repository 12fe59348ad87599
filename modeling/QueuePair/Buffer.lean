import QueuePair.Error

namespace QueuePair

abbrev Bytes := List UInt8

/-- A payload that never outgrows its limit. -/
structure Buffer where
  payload : Bytes
  limit : Nat
  fits : payload.length ≤ limit
deriving DecidableEq

namespace Buffer

def ofLimit (limit : Nat) : Buffer :=
  ⟨[], limit, Nat.zero_le _⟩

def ofBytes (payload : Bytes) : Buffer :=
  ⟨payload, payload.length, Nat.le_refl _⟩

instance : Inhabited Buffer := ⟨ofLimit 0⟩

def size (b : Buffer) : Nat :=
  b.payload.length

def isEmpty (b : Buffer) : Bool :=
  b.payload.isEmpty

def clear (b : Buffer) : Buffer :=
  ⟨[], b.limit, Nat.zero_le _⟩

def fill (b : Buffer) (payload : Bytes) : Except CoreError Buffer :=
  if h : payload.length ≤ b.limit then .ok ⟨payload, b.limit, h⟩
  else .error (.bufferTooShort payload.length b.limit)

@[simp] theorem payload_ofBytes (bytes : Bytes) : (ofBytes bytes).payload = bytes := rfl
end Buffer

end QueuePair
