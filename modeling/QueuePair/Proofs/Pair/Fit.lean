import QueuePair.Proofs.Files
import QueuePair.Proofs.Gauge
import QueuePair.Proofs.Pair
import QueuePair.Proofs.Queue

namespace QueuePair

def Task.finalizes : Task → Option Role
  | .call _ (.finalizing p _) => some p.settings.role
  | _ => none

namespace Mailbox

def Collected.Harmless (c : Collected) : Prop :=
  ∀ e, c.result = .error e → e.isDisconnect = false

def Collecting.Fit : Collecting → Prop
  | .takeGate | .copy => True
  | .giveGate c | .giveVacancy c => c.Harmless

end Mailbox

namespace Pair

variable (P : Pair)

structure Box (k : Kernel) (r : Role) (m : Mailbox) : Prop where
  set : k.setOf? P.keys.mailbox = some m.semaphores.set
  file : k.files.lookup P.keys.path = .ok (some (.file m.file))
  capacity : m.capacity = (P.settings r).capacity

structure Bound (k : Kernel) (r : Role) (l : Link) : Prop where
  box : P.Box k r l.mailbox
  outbound : k.setOf? (P.keys.outbound r) = some l.signals.outbound.set
  inbound : k.setOf? (P.keys.outbound r.peer) = some l.signals.inbound.set

structure Accepts (r : Role) (d : Direction) (data : Buffer) (handler : Handler) : Prop where
  peaceful : handler.peaceful = true
  fits : d = .send → data.payload.length ≤ (P.settings r).capacity

def SenderFit (r : Role) : Sender → Prop
  | .fetch | .parked => True
  | .publish _ job _ | .signal _ job | .complete _ job => P.Accepts r .send job.data job.handler
  | .recycle _ goOn => goOn = true
  | .fail .. | .depart _ => False

def ReceiverFit : Receiver → Prop
  | .await | .fetch => True
  | .discard s => s.Fit
  | .collect _ job s => job.handler.peaceful = true ∧ s.Fit
  | .complete _ job => job.handler.peaceful = true
  | .fail _ job e => job.handler.peaceful = true ∧ e.isDisconnect = false
  | .recycle _ goOn => goOn = true
  | .depart _ => False

def OpeningFit (k : Kernel) (r : Role) : Mailbox.Opening → Prop
  | .map .openFile => True
  | .map (.measure file) | .map (.extend file) | .map (.map file) =>
    k.files.lookup P.keys.path = .ok (some (.file file))
  | .semaphores m s => k.files.lookup P.keys.path = .ok (some (.file m.file)) ∧
    (s = .join → ∃ set, k.setOf? P.keys.mailbox = some set)
  | .unlink _ => False
  | .markVacant m => P.Box k r m

def SignalsFit (k : Kernel) (r : Role) : Signals.Opening → Prop
  | .outbound s => s = .join → ∃ set, k.setOf? (P.keys.outbound r) = some set
  | .inbound out s => k.setOf? (P.keys.outbound r) = some out.set ∧
    (s = .join → ∃ set, k.setOf? (P.keys.outbound r.peer) = some set)
  | .discard .. => False

def ConnectingFit (k : Kernel) (r : Role) : Connecting → Prop
  | .lock | .check _ => True
  | .mailbox s => P.OpeningFit k r s
  | .signals m s => P.Box k r m ∧ P.SignalsFit k r s
  | .storeConnected l | .spawnSender l | .spawnReceiver l | .attach l _ => P.Bound k r l
  | .unlock l _ => ∀ l', l = some l' → P.Bound k r l'
  | _ => False

def RendezvousFit : Role → Mailbox.Rendezvous → Prop
  | .client, .takeGate _ | .client, .awaitZero _ | .client, .giveBack | .client, .undo _ => False
  | .server, .takeLast _ => False
  | _, _ => True

def FinalizingFit (k : Kernel) (r : Role) : Finalizing → Prop
  | .rendezvous l s => P.Bound k r l ∧ RendezvousFit r s
  | _ => True

def PostingFit (r : Role) (d : Direction) : Posting → Prop
  | .clock job | .enqueue job _ | .parked job _ => P.Accepts r d job.data job.handler
  | _ => True

def WaitingFit (r : Role) (d : Direction) : Waiting → Prop
  | .posting s => P.PostingFit r d s
  | _ => True

def Serving (r : Role) : Call → Prop
  | .posting p d data handler s =>
    p = P.party r ∧ P.Accepts r d data handler ∧ P.PostingFit r d s
  | .waiting p d data s => p = P.party r ∧ P.Accepts r d data .caller ∧ P.WaitingFit r d s
  | .readingState p => p = P.party r
  | .holding _ => True
  | _ => False

def CallbackStateFit (r : Role) : CallbackState → Prop
  | .running _ c rest => P.Serving r c ∧ Script.peaceful rest = true
  | .ended _ _ rest => Script.peaceful rest = true
  | .panicking => True

structure CallbackFit (r : Role) (c : Callback) : Prop where
  party : c.party = P.party r
  state : P.CallbackStateFit r c.state

/-- The threads of a pair that nobody tears down: no routine is on a way back after a failure, and
every handle leads to the objects that live under the keys of the pair. -/
inductive Fit (k : Kernel) : Thread → Prop
  | sender {r : Role} {l : Link} {s : Sender} {cs : List Callback} : P.Bound k r l →
      P.SenderFit r s → (∀ c ∈ cs, P.CallbackFit r c) → (cs ≠ [] → ∃ slot, s = .recycle slot true) →
      Fit k ⟨.sender (P.party r) l .fetch, .sender (P.party r) l s, cs⟩
  | receiver {r : Role} {l : Link} {s : Receiver} {cs : List Callback} : P.Bound k r l →
      ReceiverFit s → (∀ c ∈ cs, P.CallbackFit r c) → (cs ≠ [] → ∃ slot, s = .recycle slot true) →
      Fit k ⟨.receiver (P.party r) l .await, .receiver (P.party r) l s, cs⟩
  | connecting {r : Role} {s : Connecting} : P.ConnectingFit k r s →
      Fit k ⟨.call (some (P.id r)) (.connecting (P.party r) .lock),
        .call (some (P.id r)) (.connecting (P.party r) s), []⟩
  | finalizing {r : Role} {s : Finalizing} : P.FinalizingFit k r s →
      Fit k ⟨.call (some (P.id r)) (.finalizing (P.party r) .check),
        .call (some (P.id r)) (.finalizing (P.party r) s), []⟩
  | call {origin : Task} {r : Role} {c : Call} : origin.finalizes = none → P.Serving r c →
      Fit k ⟨origin, .call (some (P.id r)) c, []⟩
  | leaving {origin : Task} {r : Role} {o : Outcome} :
      Fit k ⟨origin, .leaving (P.id r) .release o, []⟩
  | ended {origin : Task} {o : Outcome} : Fit k ⟨origin, .ended o, []⟩

structure EndFit (k : Kernel) (r : Role) (x : Endpoint) : Prop where
  settings : x.settings = P.settings r
  stopped : x.stopped = false
  open_ : x.state ≠ .closed
  link : ∀ l, x.link = some l → P.Bound k r l
  jobs : ∀ d job, (x.queue d).Keeps job → P.Accepts r d job.data job.handler

variable {P} {k k' : Kernel} {r : Role}

theorem Box.mono {m : Mailbox} (h : P.Box k r m) (hk : Kernel.Extends P.keys k k') :
    P.Box k' r m :=
  ⟨hk.setOf (g := .gate) h.set, hk.file h.file, h.capacity⟩

theorem Bound.mono {l : Link} (h : P.Bound k r l) (hk : Kernel.Extends P.keys k k') :
    P.Bound k' r l :=
  ⟨h.box.mono hk, hk.setOf (g := .signal r) h.outbound, hk.setOf (g := .signal r.peer) h.inbound⟩

theorem OpeningFit.mono {s : Mailbox.Opening} (h : P.OpeningFit k r s)
    (hk : Kernel.Extends P.keys k k') : P.OpeningFit k' r s := by
  cases s with
  | map s =>
    cases s with
    | openFile => trivial
    | measure | extend | map => exact hk.file h
  | semaphores m s =>
    exact ⟨hk.file h.1, fun hs => (h.2 hs).imp fun _ hset => hk.setOf (g := .gate) hset⟩
  | unlink => exact h
  | markVacant => exact Box.mono h hk

theorem SignalsFit.mono {s : Signals.Opening} (h : P.SignalsFit k r s)
    (hk : Kernel.Extends P.keys k k') : P.SignalsFit k' r s := by
  cases s with
  | outbound s => exact fun hs => (h hs).imp fun _ hset => hk.setOf (g := .signal r) hset
  | inbound out s =>
    exact ⟨hk.setOf (g := .signal r) h.1,
      fun hs => (h.2 hs).imp fun _ hset => hk.setOf (g := .signal r.peer) hset⟩
  | discard => exact h

theorem ConnectingFit.mono {s : Connecting} (h : P.ConnectingFit k r s)
    (hk : Kernel.Extends P.keys k k') : P.ConnectingFit k' r s := by
  cases s with
  | lock | check => trivial
  | mailbox => exact OpeningFit.mono h hk
  | signals => exact ⟨h.1.mono hk, h.2.mono hk⟩
  | storeConnected | spawnSender | spawnReceiver | attach => exact Bound.mono h hk
  | unlock l e => exact fun l' hl => (h l' hl).mono hk
  | _ => exact h

theorem FinalizingFit.mono {s : Finalizing} (h : P.FinalizingFit k r s)
    (hk : Kernel.Extends P.keys k k') : P.FinalizingFit k' r s := by
  cases s with
  | rendezvous l s => exact ⟨h.1.mono hk, h.2⟩
  | _ => trivial

theorem Fit.mono {th : Thread} (h : P.Fit k th) (hk : Kernel.Extends P.keys k k') :
    P.Fit k' th := by
  cases h with
  | sender hl hs hc ht => exact .sender (hl.mono hk) hs hc ht
  | receiver hl hs hc ht => exact .receiver (hl.mono hk) hs hc ht
  | connecting hs => exact .connecting (hs.mono hk)
  | finalizing hs => exact .finalizing (hs.mono hk)
  | call ho hc => exact .call ho hc
  | leaving => exact .leaving
  | ended => exact .ended

theorem EndFit.mono {x : Endpoint} (h : P.EndFit k r x) (hk : Kernel.Extends P.keys k k') :
    P.EndFit k' r x :=
  ⟨h.settings, h.stopped, h.open_, fun l hl => (h.link l hl).mono hk, h.jobs⟩

end Pair

end QueuePair
