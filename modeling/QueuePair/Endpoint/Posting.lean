import QueuePair.Move

namespace QueuePair

/-- Posting a job is refused unless the endpoint is connected, and parks while its queue is full. -/
inductive Posting
  | check
  | number
  | clock (job : Job)
  | overflowed
  | enqueue (job : Job) (deadline : Instant)
  | parked (job : Job) (deadline : Instant)

namespace Posting

def next (p : Party) (d : Direction) (data : Buffer) (handler : Handler) :
    Posting → Move (Flow Posting (Except Error Nat))
  | .check => .access p .readState fun
    | .connected => .more .number
    | .init => .done (.error .notConnected)
    | .closed => .done (.error .connectionClosed)
  | .number => .access p .takeSerial fun serial => .more (.clock ⟨serial, data, handler⟩)
  | .clock job => .perform (.clock p.settings.timeout) fun
    | none => .more .overflowed
    | some deadline => .more (.enqueue job deadline)
  | .overflowed => .panic
  | .enqueue job deadline => .access p (.post d job) fun
    | .accepted => .done (.ok job.serial)
    | .full => .more (.parked job deadline)
    | .closed => .done (.error .connectionClosed)
  | .parked job deadline => .perform (.park p.id (some deadline)) fun
    | .notified => .more (.enqueue job deadline)
    | .timedOut => .done (.error .timeout)

end Posting

/-- Posting a job and waiting for the answer. When its time is up the caller takes the job back,
unless a worker has it already. -/
inductive Waiting
  | posting (s : Posting)
  | clock (serial : Nat)
  | awaiting (serial : Nat) (deadline : Option Instant)
  | cancel (serial : Nat)
  -- a worker has the job; it may just have finished it
  | poll (serial : Nat)

namespace Waiting

def start : Waiting := .posting .check

def next (p : Party) (d : Direction) (data : Buffer) :
    Waiting → Move (Flow Waiting (Except Error Buffer))
  | .posting s => (s.next p d data .caller).through (fun s => .more (.posting s)) fun
    | .ok serial => .more (.clock serial)
    | .error e => .done (.error e)
  | .clock serial => .perform (.clock p.settings.timeout) fun deadline =>
    .more (.awaiting serial deadline)
  | .awaiting serial deadline => .access p (.awaitReply serial deadline) fun
    | .delivered r => .done r
    | .abandoned => .done (.error .connectionClosed)
    | .missing => .more (.cancel serial)
  | .cancel serial => .access p (.cancel d serial) fun cancelled =>
    if cancelled then .done (.error .timeout) else .more (.poll serial)
  | .poll serial => .access p (.pollReply serial) fun
    | .delivered r => .done r
    | _ => .done (.error .timeout)

end Waiting

end QueuePair
