import QueuePair.World

namespace QueuePair

/-- One thing that happens: a step of a thread, the end of a thread's patience, or something that a
user does. -/
inductive Input
  | run (t : ThreadId)
  | expire (t : ThreadId)
  | make (a : Attributes)
  | operate (e : EndpointId) (op : Operation)
  | request (op : ObjectOperation)
  | drop (e : EndpointId)
  | register (e : EndpointId) (addr length : UInt64) (access : Access)
  | release (id : String)

namespace World

def make (w : World) (a : Attributes) : Except CoreError (World × EndpointId) :=
  a.resolve.map fun s =>
    ({ w with endpoints := w.endpoints ++ [.ofSettings s a.onDisconnect] }, w.endpoints.length)

def party? (w : World) (e : EndpointId) : Option Party :=
  w.endpoints[e]?.map fun x => ⟨e, x.settings⟩

/-- Starts an operation on an endpoint in a thread of its own, which keeps the endpoint alive. -/
def operate (w : World) (e : EndpointId) (op : Operation) : Option (World × ThreadId) :=
  (w.party? e).map fun p =>
    (w.modifyEndpoint e fun x => { x with owners := x.owners + 1 }).spawn
      (.ofTask (.ofStarted (some e) (Call.ofOperation p op)))

def request (w : World) (op : ObjectOperation) : World × ThreadId :=
  w.spawn (.ofTask (.ofStarted none (Call.ofObject op)))

def drop (w : World) (e : EndpointId) : World × ThreadId :=
  w.spawn (.ofTask (.leaving e .release (.returned (.ok .unit))))

def register (w : World) (e : EndpointId) (addr length : UInt64) (access : Access) :
    Option (World × Region) :=
  w.endpoints[e]?.map fun x =>
    let (x, r) := x.register addr length access
    (w.putEndpoint e x, r)

def release (w : World) (id : String) : World :=
  { w with released := id :: w.released }

/-- What becomes of the world, if the input is possible. -/
def apply (w : World) : Input → Option World
  | .run t => w.step t
  | .expire t => w.expire t
  | .make a => (w.make a).toOption.map (·.1)
  | .operate e op => (w.operate e op).map (·.1)
  | .request op => some (w.request op).1
  | .drop e => some (w.drop e).1
  | .register e addr length access => (w.register e addr length access).map (·.1)
  | .release id => some (w.release id)

/-- The worlds that are reached from a world by allowed inputs. -/
inductive Run (allowed : Input → Prop) (w : World) : World → Prop
  | refl : Run allowed w w
  | step {u v : World} (i : Input) : Run allowed w u → allowed i → u.apply i = some v →
      Run allowed w v

def Reachable : World → Prop :=
  Run (fun _ => True) empty

def Idle (w : World) : Prop :=
  ∀ t, w.step t = none

def outcome? (w : World) (t : ThreadId) : Option Outcome :=
  w.threads[t]?.bind (·.outcome?)

def stepFirst (w : World) : Option World :=
  (List.range w.threads.length).findSome? w.step

def nearest (w : World) : Option (ThreadId × Instant) :=
  (List.range w.threads.length).foldl
    (fun best t => match w.waitsUntil t, best with
      | some d, some (u, b) => if d < b then some (t, d) else some (u, b)
      | some d, none => some (t, d)
      | none, best => best)
    none

def expireNearest (w : World) (patience : Span) : Option World :=
  match w.nearest with
  | none => none
  | some (t, d) => if d ≤ w.now + patience.nanos then w.expire t else none

/-- Runs the threads, and lets a near time limit pass whenever none of them can run; at most `n`
times. -/
def settle (patience : Span) : Nat → World → World
  | 0, w => w
  | n + 1, w =>
    match w.stepFirst.orElse fun _ => w.expireNearest patience with
    | none => w
    | some v => settle patience n v

end World

end QueuePair
