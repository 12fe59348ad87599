namespace QueuePair

/-- Indices from the head to the tail. An index may occur more than once. -/
structure Fifo where
  indices : List Nat
deriving DecidableEq, Repr

namespace Fifo

def empty : Fifo := ⟨[]⟩

def push (q : Fifo) (i : Nat) : Fifo :=
  ⟨q.indices ++ [i]⟩

def pop (q : Fifo) : Option (Nat × Fifo) :=
  match q.indices with
  | [] => none
  | i :: rest => some (i, ⟨rest⟩)

def peek (q : Fifo) : Option Nat :=
  q.indices.head?

def remove (q : Fifo) (i : Nat) : Bool × Fifo :=
  (q.indices.contains i, ⟨q.indices.erase i⟩)

def length (q : Fifo) : Nat :=
  q.indices.length

def isEmpty (q : Fifo) : Bool :=
  q.indices.isEmpty

end Fifo

end QueuePair
