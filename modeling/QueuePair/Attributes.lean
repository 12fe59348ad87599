import QueuePair.Keys
import QueuePair.Job
import QueuePair.Span

namespace QueuePair

/-- What an endpoint is made from. A zero timeout or depth asks for the default. -/
structure Attributes where
  role : Role
  timeout : Span
  sendDepth : Nat
  receiveDepth : Nat
  space : String
  dir : Path
  capacity : Nat
  onDisconnect : Option Script

/-- What an endpoint runs with. -/
structure Settings where
  role : Role
  timeout : Span
  sendDepth : Nat
  receiveDepth : Nat
  space : String
  dir : Path
  capacity : Nat
deriving DecidableEq, Repr

namespace Attributes

def defaultTimeout : Span := .ofMillis 3000

def defaultDepth : Nat := 5

def depthMax : Nat := 4096

def capacityMax : Nat := 4294967295

def defaultCapacity : Nat := 100 * 1024 * 1024

def defaultSpace : String := "shmqp"

def defaultDir : Path := ⟨"/dev/shm"⟩

def ofRole (role : Role) : Attributes :=
  ⟨role, ⟨0⟩, 0, 0, defaultSpace, defaultDir, defaultCapacity, none⟩

def fault? (a : Attributes) : Option AttributeFault :=
  if a.space.isEmpty then some .namespaceEmpty
  else if a.space.toList.any fun c => c = '/' || c = '\x00' then some .namespaceCharacter
  else if a.sendDepth > depthMax then some (.sendDepth a.sendDepth depthMax)
  else if a.receiveDepth > depthMax then some (.receiveDepth a.receiveDepth depthMax)
  else if a.capacity = 0 then some .capacityZero
  else if a.capacity > capacityMax then some (.capacityTooLarge a.capacity)
  else none

def validate (a : Attributes) : Except CoreError Unit :=
  match a.fault? with
  | some fault => .error (.invalidAttribute fault)
  | none => .ok ()

def orDefault (depth : Nat) : Nat :=
  if depth = 0 then defaultDepth else depth

def resolve (a : Attributes) : Except CoreError Settings :=
  a.validate.map fun _ =>
    ⟨a.role, if a.timeout.nanos = 0 then defaultTimeout else a.timeout, orDefault a.sendDepth,
      orDefault a.receiveDepth, a.space, a.dir, a.capacity⟩

theorem orDefault_bounds {depth : Nat} (h : depth ≤ depthMax) :
    0 < orDefault depth ∧ orDefault depth ≤ depthMax := by
  unfold orDefault
  split
  · decide
  · omega

theorem resolve_bounds {a : Attributes} {s : Settings} (h : a.resolve = .ok s) :
    (0 < s.sendDepth ∧ s.sendDepth ≤ depthMax) ∧
      (0 < s.receiveDepth ∧ s.receiveDepth ≤ depthMax) ∧
      0 < s.capacity ∧ s.capacity ≤ capacityMax := by
  cases hf : a.fault? with
  | some fault => simp [resolve, validate, hf, Except.map] at h
  | none =>
    have hbounds : a.sendDepth ≤ depthMax ∧ a.receiveDepth ≤ depthMax ∧
        0 < a.capacity ∧ a.capacity ≤ capacityMax := by
      simp only [fault?] at hf
      grind
    simp only [resolve, validate, hf, Except.map, Except.ok.injEq] at h
    subst h
    exact ⟨orDefault_bounds hbounds.1, orDefault_bounds hbounds.2.1, hbounds.2.2⟩

def text (a : Attributes) : String :=
  Text.record "TransportAttributes" [("role", a.role.name), ("timeout", a.timeout.text),
    ("sq_depth", toString a.sendDepth), ("rq_depth", toString a.receiveDepth),
    ("namespace", Text.quoted a.space), ("shm_dir", Text.quoted a.dir.text),
    ("mailbox_capacity", toString a.capacity),
    ("disconnect_callback", Text.bool a.onDisconnect.isSome)]

end Attributes

namespace Settings

def keys (s : Settings) : Keys :=
  .derive s.space s.dir

def text (s : Settings) : String :=
  Text.record "TransportSettings" [("role", s.role.name), ("timeout", s.timeout.text),
    ("sq_depth", toString s.sendDepth), ("rq_depth", toString s.receiveDepth),
    ("namespace", Text.quoted s.space), ("shm_dir", Text.quoted s.dir.text),
    ("mailbox_capacity", toString s.capacity)]

end Settings

end QueuePair
