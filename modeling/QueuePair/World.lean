import QueuePair.Thread

namespace QueuePair

/-- A state of everything. Threads take indivisible steps; one that has to wait takes none, and one
that waits in the queue of a semaphore set is moved on by the thread that lets it proceed. -/
structure World where
  kernel : Kernel
  endpoints : List Endpoint
  threads : List Thread
  -- the ids whose holds pass
  released : List String
  now : Instant
  -- what happened, the latest first
  history : List Event

inductive Effect (α : Type)
  | refused
  -- the thread is queued and will be moved on by another one
  | queued (w : World)
  | done (w : World) (answer : α)

namespace World

def empty (limits : Limits := .standard) : World := ⟨.empty limits, [], [], [], 0, []⟩

def putThread (w : World) (t : ThreadId) (th : Thread) : World :=
  { w with threads := w.threads.set t th }

def putEndpoint (w : World) (e : EndpointId) (x : Endpoint) : World :=
  { w with endpoints := w.endpoints.set e x }

def modifyEndpoint (w : World) (e : EndpointId) (f : Endpoint → Endpoint) : World :=
  { w with endpoints := w.endpoints.modify e f }

def record (w : World) (e : Event) : World :=
  { w with history := e :: w.history }

def note (w : World) (e : EndpointId) (n : Note) : World :=
  w.record (.noted e n)

def complete (w : World) (ends : List Completion) : World :=
  { w with
    threads := ends.foldl (fun ths c => ths.modify c.thread (·.complete c.result)) w.threads }

def wake (w : World) (e : EndpointId) : World :=
  { w with threads := w.threads.map (·.wake e) }

def observe {α : Type} (w : World) (t : ThreadId) (answer : Option α) : SystemCall α → World
  | .storeRecord file payload => w.record (.stored t file payload)
  | .loadRecord file _ =>
    match answer with
    | some r => w.record (.loaded t file r)
    | none => w
  | _ => w

def lastInstant : Instant := 9223372036854775808 * Span.perSecond - 1

def deadline? (w : World) (span : Span) : Option Instant :=
  let d := w.now + span.nanos
  if d ≤ lastInstant then some d else none

def spawn (w : World) (th : Thread) : World × ThreadId :=
  ({ w with threads := w.threads ++ [th] }, w.threads.length)

def worker (p : Party) (link : Link) : Direction → Task
  | .send => .sender p link .fetch
  | .receive => .receiver p link .await

def spawnWorker (w : World) (p : Party) (link : Link) (d : Direction) : World :=
  let (w, t) := w.spawn (.ofTask (worker p link d))
  w.modifyEndpoint p.id fun x => { x with workers := x.workers ++ [t], owners := x.owners + 1 }

/-- Tries an action of a thread. -/
def perform {α : Type} (w : World) (t : ThreadId) : Primitive α → Effect α
  | .system c =>
    let r := w.kernel.call t c
    let w := ({ w with kernel := r.kernel }.complete r.ends).observe t r.answer c
    match r.answer with
    | none => .queued w
    | some a => .done w a
  | .endpoint e c =>
    match w.endpoints[e]?.bind (·.call t c) with
    | none => .refused
    | some s =>
      let w := s.notes.foldl (·.note e ·) (w.putEndpoint e s.endpoint)
      .done (if s.wakes then w.wake e else w) s.answer
  | .clock span => .done w (w.deadline? span)
  | .park _ _ => .refused
  | .spawn p link d => .done (w.spawnWorker p link d) ()
  | .join u =>
    match w.threads[u]? with
    | none => .done w ()
    | some th => if th.isEnded then .done w () else .refused
  | .hold id => if w.released.contains id then .done w () else .refused
  | .note e n => .done (w.note e n) ()

/-- Gives a job back: the answer to a waiting caller, or the callback to run for it. -/
def resolve (w : World) (p : Party) (d : Direction) (job : Job) (error : Option Error) :
    World × Option Callback :=
  let w := w.note p.id (.resolved d job error)
  match job.handler with
  | .caller =>
    let r := match error with
      | none => .ok job.data
      | some e => .error e
    (w.modifyEndpoint p.id (·.putReply job.serial (.delivered r)), none)
  | .callbacks id onDone onError =>
    let script := if error.isSome then onError else onDone
    (w, Callback.start p (.work d) id job.data.payload script)

def disconnectId : String := "disconnect"

def invoke (w : World) (p : Party) : Invocation → World × Option Callback
  | .resolve d job error => w.resolve p d job error
  | .disconnect script =>
    let state := (w.endpoints[p.id]?.map (·.state)).getD .closed
    (w.note p.id (.disconnected state), Callback.start p .disconnect disconnectId [] script)

/-- Ends a thread that panics. Callers who wait for a job that it held get no answer. -/
def panic (w : World) (t : ThreadId) (th : Thread) : World :=
  let w := match th.task.owner? with
    | none => w
    | some e => w.modifyEndpoint e fun x =>
      th.held.foldl (fun (x : Endpoint) (job : Job) => x.putReply job.serial .abandoned) x
  w.putThread t th.unwound

/-- One step of a thread, if it can take one. -/
def step (w : World) (t : ThreadId) : Option World :=
  match w.threads[t]? with
  | none => none
  | some th =>
    if w.kernel.holds t then none
    else match th.next with
      | .perform p next =>
        match w.perform t p with
        | .refused => none
        | .queued w => some w
        | .done w a => some (w.putThread t (next a))
      | .invoke p i after =>
        let (w, c) := w.invoke p i
        some (w.putThread t (after.push c))
      | .panic => some (w.panic t th)
      | .halt => none

def waitsUntil (w : World) (t : ThreadId) : Option Instant :=
  if (w.step t).isSome then none else w.threads[t]?.bind (·.deadline?)

def expire (w : World) (t : ThreadId) : Option World :=
  match w.waitsUntil t, w.threads[t]?.bind (·.expire?) with
  | some deadline, some th =>
    some { w.putThread t th with kernel := w.kernel.forget t, now := max w.now deadline }
  | _, _ => none

end World

end QueuePair
