namespace QueuePair

inductive Slot (α : Type)
  | free
  | posted (a : α)
  | inFlight
deriving DecidableEq, Repr

namespace Slot

variable {α : Type}

def isFree : Slot α → Bool
  | .free => true
  | _ => false

def value? : Slot α → Option α
  | .posted a => some a
  | _ => none

end Slot

structure Slab (α : Type) where
  slots : List (Slot α)
  free : List Nat
deriving DecidableEq, Repr

namespace Slab

variable {α : Type}

def ofDepth (depth : Nat) : Slab α :=
  ⟨List.replicate depth .free, List.range depth⟩

def depth (s : Slab α) : Nat :=
  s.slots.length

def available (s : Slab α) : Nat :=
  s.free.length

def isFull (s : Slab α) : Bool :=
  s.free.isEmpty

def acquire (s : Slab α) (a : α) : Option (Nat × Slab α) :=
  match s.free with
  | [] => none
  | i :: rest => some (i, ⟨s.slots.set i (.posted a), rest⟩)

def get? (s : Slab α) (i : Nat) : Option α :=
  s.slots[i]?.bind Slot.value?

def take (s : Slab α) (i : Nat) : Option (α × Slab α) :=
  (s.get? i).map fun a => (a, { s with slots := s.slots.set i .inFlight })

def release (s : Slab α) (i : Nat) : Bool × Slab α :=
  match s.slots[i]? with
  | some .free | none => (false, s)
  | some _ => (true, ⟨s.slots.set i .free, i :: s.free⟩)

end Slab

end QueuePair
