import QueuePair.Error
import QueuePair.Keys

namespace QueuePair

abbrev ThreadId := Nat

abbrev SetId := Nat

structure Change where
  index : Nat
  delta : Int
deriving DecidableEq, Repr

inductive Attempt
  | done (values : List Nat)
  | blocks
  | overflows
deriving DecidableEq, Repr

def semaphoreMax : Nat := 32767

/-- Tries the changes in order on the values; the first that blocks or overflows decides. -/
def attempt (values : List Nat) : List Change → Attempt
  | [] => .done values
  | c :: rest =>
    let next : Int := values.getD c.index 0 + c.delta
    if c.delta = 0 then
      if next = 0 then attempt values rest else .blocks
    else if next < 0 then .blocks
    else if next > semaphoreMax then .overflows
    else attempt (values.set c.index next.toNat) rest

def onlyTests (changes : List Change) : Bool :=
  changes.all (·.delta = 0)

structure Waiter where
  thread : ThreadId
  changes : List Change
deriving DecidableEq, Repr

/-- A set: the key it was created under, its values, and the waiting threads in order of arrival. A
removed set keeps its number and answers nothing but that it is gone. -/
structure SemaphoreSet where
  key : Key
  values : List Nat
  waiters : List Waiter
  removed : Bool
deriving DecidableEq, Repr

structure Completion where
  thread : ThreadId
  result : Except Error Unit

namespace SemaphoreSet

def create (key : Key) (count : Nat) : SemaphoreSet :=
  ⟨key, List.replicate count 0, [], false⟩

def firstReady (values : List Nat) : List Waiter → Option (Waiter × Attempt × List Waiter)
  | [] => none
  | w :: rest =>
    match attempt values w.changes with
    | .blocks => (firstReady values rest).map fun (r, a, others) => (r, a, w :: others)
    | a => some (w, a, rest)

/-- The waiter to complete next: a test for zero if one succeeds, else the oldest that is
ready. -/
def nextReady (values : List Nat) (waiters : List Waiter) :
    Option (Waiter × Attempt × List Waiter) :=
  let tests := waiters.find? fun w => onlyTests w.changes && attempt values w.changes ≠ .blocks
  match tests with
  | some w => some (w, attempt values w.changes, waiters.erase w)
  | none => firstReady values waiters

/-- After every change of the values the set first completes the waiting tests for zero, then the
oldest other waiting change that can be made or that overflows, and starts over after each one. -/
def serve : Nat → List Nat → List Waiter → List Nat × List Waiter × List Completion
  | 0, values, waiters => (values, waiters, [])
  | n + 1, values, waiters =>
    match nextReady values waiters with
    | none => (values, waiters, [])
    | some (w, .done values, rest) =>
      let (values, rest, ends) := serve n values rest
      (values, rest, ⟨w.thread, .ok ()⟩ :: ends)
    | some (w, _, rest) =>
      let (values, rest, ends) := serve n values rest
      (values, rest, ⟨w.thread, .error (.ofSystem .outOfRange)⟩ :: ends)

def assign (s : SemaphoreSet) (values : List Nat) : SemaphoreSet × List Completion :=
  let (values, waiters, ends) := serve s.waiters.length values s.waiters
  ({ s with values, waiters }, ends)

def enqueue (s : SemaphoreSet) (thread : ThreadId) (changes : List Change) : SemaphoreSet :=
  { s with waiters := s.waiters ++ [⟨thread, changes⟩] }

def dequeue (s : SemaphoreSet) (thread : ThreadId) : SemaphoreSet :=
  { s with waiters := s.waiters.filter (·.thread ≠ thread) }

def remove (s : SemaphoreSet) : SemaphoreSet × List Completion :=
  ({ s with waiters := [], removed := true },
    s.waiters.map fun w => ⟨w.thread, .error .connectionClosed⟩)

def holds (s : SemaphoreSet) (thread : ThreadId) : Bool :=
  s.waiters.any (·.thread = thread)

end SemaphoreSet

end QueuePair
