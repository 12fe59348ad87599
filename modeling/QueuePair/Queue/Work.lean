import QueuePair.Queue.Fifo
import QueuePair.Queue.Slab

namespace QueuePair

/-- A slab whose posted entries are taken in the order of their posting. An entry that was taken
stays reserved until it is completed. -/
structure WorkQueue (α : Type) where
  slab : Slab α
  pending : Fifo
deriving DecidableEq, Repr

namespace WorkQueue

variable {α : Type}

def ofDepth (depth : Nat) : WorkQueue α :=
  ⟨.ofDepth depth, .empty⟩

def depth (q : WorkQueue α) : Nat :=
  q.slab.depth

def isFull (q : WorkQueue α) : Bool :=
  q.slab.isFull

def pendingCount (q : WorkQueue α) : Nat :=
  q.pending.length

def hasPending (q : WorkQueue α) : Bool :=
  !q.pending.isEmpty

def post (q : WorkQueue α) (a : α) : Option (WorkQueue α) :=
  (q.slab.acquire a).map fun (i, slab) => ⟨slab, q.pending.push i⟩

def takeFirst (slab : Slab α) : List Nat → Option (Nat × α) × WorkQueue α
  | [] => (none, ⟨slab, .empty⟩)
  | i :: rest =>
    match slab.take i with
    | some (a, slab) => (some (i, a), ⟨slab, ⟨rest⟩⟩)
    | none => takeFirst slab rest

def next (q : WorkQueue α) : Option (Nat × α) × WorkQueue α :=
  takeFirst q.slab q.pending.indices

/-- Makes a reserved entry free again. Completing an entry that is still queued drops its value and
leaves its index in the order; such an index is skipped, unless its entry has been posted again in
the meantime. -/
def complete (q : WorkQueue α) (i : Nat) : WorkQueue α :=
  { q with slab := (q.slab.release i).2 }

def cancel (q : WorkQueue α) (p : α → Bool) : Option α × WorkQueue α :=
  match q.pending.indices.find? fun i => (q.slab.get? i).any p with
  | none => (none, q)
  | some i =>
    let pending := (q.pending.remove i).2
    match q.slab.take i with
    | none => (none, ⟨(q.slab.release i).2, pending⟩)
    | some (a, slab) => (some a, ⟨(slab.release i).2, pending⟩)

def drainFrom (slab : Slab α) : List Nat → List α × Slab α
  | [] => ([], slab)
  | i :: rest =>
    match slab.take i with
    | some (a, slab) =>
      let (values, slab) := drainFrom (slab.release i).2 rest
      (a :: values, slab)
    | none => drainFrom slab rest

/-- Withdraws all queued values in order. Reserved entries stay reserved. -/
def drain (q : WorkQueue α) : List α × WorkQueue α :=
  let (values, slab) := drainFrom q.slab q.pending.indices
  (values, ⟨slab, .empty⟩)

end WorkQueue

end QueuePair
