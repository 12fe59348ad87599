import QueuePair.Proofs.Pair.Composure
import QueuePair.Proofs.Sharing

namespace QueuePair

def Kernel.WaitsWhileLive (k : Kernel) (t : ThreadId) (set : SetId) : Prop :=
  ∀ s, k.live? set = some s → s.holds t = true

def Kernel.Sheds (k k' : Kernel) : Prop :=
  ∀ set s, k'.live? set = some s → k.live? set = some s

def FailPending.Peaceful (s : FailPending) : Prop :=
  ∀ job ∈ s.held, job.handler.peaceful = true

def Mailbox.Rendezvous.Stuck : Mailbox.Rendezvous → Prop
  | .awaitBoth _ | .takeGate _ | .awaitZero _ | .takeLast _ => True
  | .undo e => e = .connectionClosed
  | _ => False

def Posting.Full : Posting → Prop
  | .parked .. | .enqueue .. => True
  | _ => False

namespace Waiting

/-- A wait that has not lost its patience. -/
def Patient : Waiting → Prop
  | .cancel _ | .poll _ => False
  | _ => True

def serial? : Waiting → Option Nat
  | .posting s => s.job?.map (·.serial)
  | .clock n | .awaiting n _ | .cancel n | .poll n => some n

end Waiting

namespace Call

def Patient : Call → Prop
  | .waiting _ _ _ s => s.Patient
  | _ => True

def Follows : Call → Call → Prop
  | .finalizing .., .finalizing .. | .waiting .., .waiting .. => True
  | .posting p d _ _ s, .posting p' d' _ _ s' => p = p' ∧ d = d' ∧ s.job? = s'.job?
  | _, _ => False

/-- How a blocked call fails: it reports that the connection is closed, or is a post whose job came
into the queue before that was known. -/
def Fails (v : World) (c : Call) (out : Outcome) : Prop :=
  out = .returned (.error .connectionClosed) ∨
    ∃ p d data handler s job, c = .posting p d data handler s ∧ s.job? = some job ∧
      out = .returned (.ok .unit) ∧ .noted p.id (.accepted d job) ∈ v.history

end Call

namespace Task

def takesLink : Task → Bool
  | .call _ (.destroying _ .takeLink) => true
  | _ => false

def leaves : Task → Bool
  | .leaving .. => true
  | _ => false

end Task

/-- Whether a thread may take the link of its endpoint away, and whether it may give the endpoint
up. -/
structure Licence where
  takes : Prop
  leaves : Prop

def Thread.leaves (th : Thread) : Bool :=
  th.task.leaves && th.callbacks.isEmpty

/-- What threads may ask for, what they may be told, what they may give back, and whether they may
panic. -/
structure Contract where
  asks : {α : Type} → Primitive α → Prop
  hears : {α : Type} → Primitive α → α → Prop
  gives : Party → Invocation → Prop
  panics : Prop

namespace Move

variable {σ ρ τ : Type} {T : Contract} {Q : σ → Prop} {mv : Move σ}

def Honours (T : Contract) (Q : σ → Prop) : Move σ → Prop
  | .perform p next => T.asks p ∧ ∀ a, T.hears p a → Q (next a)
  | .invoke p i after => T.gives p i ∧ Q after
  | .panic => T.panics
  | .halt => True

@[simp] theorem honours_map {f : τ → σ} {mv : Move τ} :
    (mv.map f).Honours T Q ↔ mv.Honours T fun s => Q (f s) := by
  cases mv <;> exact Iff.rfl

theorem Honours.imp {Q' : σ → Prop} (h : mv.Honours T Q) (hq : ∀ s, Q s → Q' s) :
    mv.Honours T Q' := by
  cases mv with
  | perform => exact ⟨h.1, fun a ha => hq _ (h.2 a ha)⟩
  | invoke => exact ⟨h.1, hq _ h.2⟩
  | panic | halt => exact h

theorem Honours.through {more : σ → τ} {done : ρ → τ} {Q : τ → Prop} {mv : Move (Flow σ ρ)}
    (h : mv.Honours T (Flow.elim (fun s => Q (more s)) fun r => Q (done r))) :
    (mv.through more done).Honours T Q := by
  refine honours_map.mpr (h.imp fun f hf => ?_)
  cases f <;> exact hf

end Move

/-- The teardown of one side of a pair: the world before it, where nobody can go on, and the thread
that carries it out. -/
structure Teardown where
  pair : Pair
  side : Role
  before : World
  thread : ThreadId
  idle : before.Idle
  queued : before.Queued

namespace Teardown

variable (T : Teardown)

def Cut (v : World) (g : Gauge) : Prop :=
  ∀ set, T.before.kernel.setOf? (g.key T.pair.keys) = some set → v.kernel.live? set = none

def Adrift (v : World) : Prop :=
  ∀ g, T.Cut v g

def Fresh (s : Role) (n : Nat) : Prop :=
  ∀ x, T.before.endpoints[T.pair.id s]? = some x → ∀ a ∈ x.replies, a.1 ≠ n

def call? (t : ThreadId) : Option Call :=
  (T.before.threads[t]?).bind fun th => th.task.call?

def Modest (s : Role) (t : ThreadId) (lc : Licence) : {α : Type} → EndpointCall α → Prop
  | _, .post d job => T.pair.Accepts s d job.data job.handler
  | _, .takeLink => s = T.side ∧ lc.takes
  | _, .release => lc.leaves
  | _, .takeWorkers => t = T.thread
  | _, .nextReceive | _, .cancel .. | _, .writeState _ | _, .setStopped _ | _, .beginStopping
  | _, .writeStopping _ | _, .lockLink | _, .unlockLink _ | _, .readLink | _, .pollReply _ => False
  | _, _ => True

def Asks (s : Role) (t : ThreadId) (v : World) (lc : Licence) : {α : Type} → Primitive α → Prop
  | _, .system (.change set _ _) => v.kernel.WaitsWhileLive t set
  | _, .system (.removeSet set) => s = T.side ∧ t = T.thread ∧
    (T.before.kernel.setOf? T.pair.keys.mailbox = some set ∨ T.Cut v .gate)
  | _, .system (.unlink _) => T.Cut v .gate
  | _, .system _ => False
  | _, .endpoint e c => e = T.pair.id s ∧ T.Modest s t lc c
  | _, .park e _ => e = T.pair.id s
  | _, .join _ => s = T.side ∧ t = T.thread
  | _, .note e n => e = T.pair.id s ∧ n.acts = true
  | _, .clock _ | _, .hold _ => True
  | _, .spawn .. => False

/-- What the answers of actions of one side tell, in the world after the action. -/
def Hears (s : Role) (u : World) : {α : Type} → Primitive α → α → Prop
  | _, .system (.change ..), a => a = .error .connectionClosed
  | _, .system (.removeSet set), _ => u.kernel.live? set = none
  | _, .endpoint _ (.post d job), a =>
    a = .accepted → .noted (T.pair.id s) (.accepted d job) ∈ u.history
  | _, .endpoint _ .nextSend, a => (s = T.side → a = .stopped) ∧ ∀ slot job, a = .job slot job →
    T.pair.Accepts s .send job.data job.handler ∧ T.Cut u .gate
  | _, .endpoint _ (.drain _), a => ∀ job ∈ a, job.handler.peaceful = true
  | _, .endpoint _ .readStopping, a => a = decide (s = T.side)
  | _, .endpoint _ .takeDisconnect, a =>
    s ≠ T.side → ∀ script, a = some script → Script.peaceful script = true
  | _, .endpoint _ .takeLink, a => ∃ l, a = some l ∧ T.pair.Bound T.before.kernel s l
  | _, .endpoint _ .release, a => a = none
  | _, .endpoint _ .takeWorkers, a => T.thread ∉ a
  | _, .endpoint _ (.awaitReply n _), a => a.isMissing = false ∧
    (T.Fresh s n → a = .delivered (.error .connectionClosed))
  | _, .park .., a => a = .notified
  | _, _, _ => True

/-- What threads of one side give back. -/
def Gives (s : Role) (p : Party) : Invocation → Prop
  | .resolve _ job error => p = T.pair.party s ∧ job.handler.peaceful = true ∧
    error = some .connectionClosed
  | .disconnect script => p = T.pair.party s ∧ s ≠ T.side ∧ Script.peaceful script = true

def contract (s : Role) (t : ThreadId) (v u : World) (lc : Licence) (panics : Prop) : Contract where
  asks := T.Asks s t v lc
  hears := T.Hears s u
  gives := T.Gives s
  panics := panics

def DepartingFades (s : Role) : Departing → Prop
  | .readStopping => True
  | .close localEnd => localEnd = decide (s = T.side)
  | .fail localEnd f => localEnd = decide (s = T.side) ∧ f.Peaceful
  | .takeDisconnect => s ≠ T.side
  | .disconnect script => s ≠ T.side ∧ Script.peaceful script = true

def SenderFades (s : Role) (t : ThreadId) (v : World) (l : Link) : Sender → Prop
  | .fetch | .parked => True
  | .publish _ job m => (m = .takeVacancy ∨ m = .takeGate) ∧ job.handler.peaceful = true ∧
    v.kernel.WaitsWhileLive t l.mailbox.semaphores.set
  | .fail _ job e => job.handler.peaceful = true ∧ e = .connectionClosed
  | .recycle _ goOn => goOn = false
  | .depart d => T.DepartingFades s d
  | .signal .. | .complete .. => False

def ReceiverFades (s : Role) (t : ThreadId) (v : World) (l : Link) : Receiver → Prop
  | .await => v.kernel.WaitsWhileLive t l.signals.inbound.set
  | .discard c => c = .takeGate ∧ v.kernel.WaitsWhileLive t l.mailbox.semaphores.set
  | .collect _ job c => c = .takeGate ∧ job.handler.peaceful = true ∧
    v.kernel.WaitsWhileLive t l.mailbox.semaphores.set
  | .fail _ job e => job.handler.peaceful = true ∧ e = .connectionClosed
  | .recycle _ goOn => goOn = false
  | .depart d => T.DepartingFades s d
  | .fetch | .complete .. => False

def RemovalFades (v : World) : Link.Removal → Prop
  | .mailbox .semaphores => True
  | .mailbox (.file _) | .signals _ .outbound => T.Cut v .gate
  | .signals _ (.inbound _) => T.Cut v .gate ∧ T.Cut v (.signal T.side)

def DestroyingFades (v : World) : Destroying → Prop
  | .begin | .close => False
  | .takeLink => True
  | .remove l m => T.pair.Bound T.before.kernel T.side l ∧ T.RemovalFades v m
  | .takeWorkers _ | .dropDisconnect _ => T.Adrift v
  | .join _ t rest => T.Adrift v ∧ T.thread ∉ t :: rest
  | .fail _ _ f => T.Adrift v ∧ f.Peaceful

def CallFades (s : Role) (t : ThreadId) (v : World) : Call → Prop
  | .finalizing p f => p = T.pair.party s ∧ t ≠ T.thread ∧ ∃ l m, f = .rendezvous l m ∧ m.Stuck ∧
    T.pair.Bound T.before.kernel s l ∧ v.kernel.WaitsWhileLive t l.mailbox.semaphores.set
  | .posting p d _ _ f => p = T.pair.party s ∧ t ≠ T.thread ∧ T.pair.PostingFit s d f ∧ f.Full
  | .waiting p d _ f => p = T.pair.party s ∧ t ≠ T.thread ∧ T.pair.WaitingFit s d f ∧
    f.Patient ∧ (∀ f', f = .posting f' → f'.Full) ∧ ∀ n, f.serial? = some n → T.Fresh s n
  | .destroying p f => p = T.pair.party s ∧ s = T.side ∧ t = T.thread ∧ T.DestroyingFades v f
  | _ => False

structure Employed (t : ThreadId) : Prop where
  other : t ≠ T.thread
  call : T.call? t = none

def TaskFades (s : Role) (t : ThreadId) (v : World) : Task → Prop
  | .sender p l a => p = T.pair.party s ∧ T.Employed t ∧ T.pair.Bound T.before.kernel s l ∧
    T.SenderFades s t v l a
  | .receiver p l a => p = T.pair.party s ∧ T.Employed t ∧ T.pair.Bound T.before.kernel s l ∧
    T.ReceiverFades s t v l a
  | .call o c => o = some (T.pair.id s) ∧ T.CallFades s t v c ∧ ∀ c' ∈ T.call? t, c'.Follows c
  | .leaving e a out => e = T.pair.id s ∧ a = .release ∧ (t = T.thread → T.Adrift v) ∧
    ∀ c ∈ T.call? t, c.Fails v out
  | .ended out => (t = T.thread → T.Adrift v) ∧ ∀ c ∈ T.call? t, c.Fails v out

structure CallbackFades (s : Role) (c : Callback) : Prop where
  fit : T.pair.CallbackFit s c
  patient : ∀ command call rest, c.state = .running command call rest → call.Patient

/-- A task below a callback: it was at no blocked call, goes on afterwards, and destroys the
endpoint in the end only. -/
structure Beneath (s : Role) (t : ThreadId) (v : World) (task : Task) : Prop where
  call : T.call? t = none
  drift : t = T.thread → T.Adrift v
  takes : task.takesLink = false
  owner : task.owner? = some (T.pair.id s)

/-- Where a thread is while one side is torn down. A thread that stands at a semaphore set waits
there until the set is removed; nobody takes or raises anything any more, so every answer leads
towards the end of the thread. -/
structure Fades (s : Role) (t : ThreadId) (v : World) (th : Thread) : Prop where
  task : T.TaskFades s t v th.task
  callbacks : ∀ c ∈ th.callbacks, T.CallbackFades s c
  beneath : th.callbacks ≠ [] → T.Beneath s t v th.task

end Teardown

structure World.Recedes (v u : World) : Prop where
  sheds : v.kernel.Sheds u.kernel
  history : ∀ ev ∈ v.history, ev ∈ u.history

namespace Teardown

variable {T : Teardown} {s : Role} {t : ThreadId} {v u : World} {l : Link} {lc : Licence}
  {pn : Prop}

theorem waitsWhileLive_mono {k k' : Kernel} {set : SetId} (h : k.WaitsWhileLive t set)
    (hk : k.Sheds k') :
    k'.WaitsWhileLive t set :=
  fun a ha => h a (hk set a ha)

theorem waitsWhileLive_of_none {k : Kernel} {set : SetId} (h : k.live? set = none) :
    k.WaitsWhileLive t set :=
  fun a ha => by
    rw [h] at ha
    cases ha

theorem Cut.mono {g : Gauge} (h : T.Cut v g) (hu : v.Recedes u) : T.Cut u g := by
  intro set hset
  cases hl : u.kernel.live? set with
  | none => rfl
  | some a =>
    have hold := hu.sheds set a hl
    rw [h set hset] at hold
    cases hold

theorem Adrift.mono (h : T.Adrift v) (hu : v.Recedes u) : T.Adrift u :=
  fun g => (h g).mono hu

theorem SenderFades.mono {a : Sender} (h : T.SenderFades s t v l a) (hu : v.Recedes u) :
    T.SenderFades s t u l a := by
  cases a with
  | publish => exact ⟨h.1, h.2.1, waitsWhileLive_mono h.2.2 hu.sheds⟩
  | _ => exact h

theorem ReceiverFades.mono {a : Receiver} (h : T.ReceiverFades s t v l a) (hu : v.Recedes u) :
    T.ReceiverFades s t u l a := by
  cases a with
  | await => exact waitsWhileLive_mono h hu.sheds
  | discard => exact ⟨h.1, waitsWhileLive_mono h.2 hu.sheds⟩
  | collect => exact ⟨h.1, h.2.1, waitsWhileLive_mono h.2.2 hu.sheds⟩
  | _ => exact h

theorem RemovalFades.mono {m : Link.Removal} (h : T.RemovalFades v m) (hu : v.Recedes u) :
    T.RemovalFades u m := by
  cases m with
  | mailbox m =>
    cases m with
    | semaphores => trivial
    | file => exact Cut.mono h hu
  | signals _ m =>
    cases m with
    | outbound => exact Cut.mono h hu
    | inbound => exact ⟨h.1.mono hu, h.2.mono hu⟩

theorem DestroyingFades.mono {a : Destroying} (h : T.DestroyingFades v a) (hu : v.Recedes u) :
    T.DestroyingFades u a := by
  cases a with
  | begin | close => exact h.elim
  | takeLink => trivial
  | remove => exact ⟨h.1, h.2.mono hu⟩
  | takeWorkers | dropDisconnect => exact Adrift.mono h hu
  | join | fail => exact ⟨h.1.mono hu, h.2⟩

theorem CallFades.mono {c : Call} (h : T.CallFades s t v c) (hu : v.Recedes u) :
    T.CallFades s t u c := by
  cases c with
  | finalizing =>
    obtain ⟨hp, ht, l, m, hf, hm, hl, hmoor⟩ := h
    exact ⟨hp, ht, l, m, hf, hm, hl, waitsWhileLive_mono hmoor hu.sheds⟩
  | posting | waiting => exact h
  | destroying => exact ⟨h.1, h.2.1, h.2.2.1, h.2.2.2.mono hu⟩
  | _ => exact h.elim

theorem fails_mono {c : Call} {out : Outcome} (h : c.Fails v out) (hu : v.Recedes u) :
    c.Fails u out := by
  refine h.imp_right ?_
  rintro ⟨p, d, data, handler, f, job, hc, hj, ho, hev⟩
  exact ⟨p, d, data, handler, f, job, hc, hj, ho, hu.history _ hev⟩

theorem TaskFades.mono {a : Task} (h : T.TaskFades s t v a) (hu : v.Recedes u) :
    T.TaskFades s t u a := by
  cases a with
  | sender | receiver => exact ⟨h.1, h.2.1, h.2.2.1, h.2.2.2.mono hu⟩
  | call => exact ⟨h.1, h.2.1.mono hu, h.2.2⟩
  | leaving => exact ⟨h.1, h.2.1, fun ht => (h.2.2.1 ht).mono hu,
      fun c hc => fails_mono (h.2.2.2 c hc) hu⟩
  | ended => exact ⟨fun ht => (h.1 ht).mono hu, fun c hc => fails_mono (h.2 c hc) hu⟩

theorem Beneath.mono {task : Task} (h : T.Beneath s t v task) (hu : v.Recedes u) :
    T.Beneath s t u task :=
  ⟨h.call, fun ht => (h.drift ht).mono hu, h.takes, h.owner⟩

theorem Fades.mono {th : Thread} (h : T.Fades s t v th) (hu : v.Recedes u) : T.Fades s t u th :=
  ⟨h.task.mono hu, h.callbacks, fun hn => (h.beneath hn).mono hu⟩

theorem failPending_honours {d : Direction} {f : FailPending} (h : f.Peaceful) :
    (f.next (T.pair.party s) d).Honours (T.contract s t v u lc pn)
      (Flow.elim FailPending.Peaceful fun _ => True) := by
  cases f with
  | drain =>
    refine ⟨⟨rfl, trivial⟩, fun a ha => ?_⟩
    cases a with
    | nil => trivial
    | cons job rest => exact ha
  | notify job rest => exact ⟨⟨rfl, trivial⟩, fun _ _ => h⟩
  | fail job rest =>
    refine ⟨⟨rfl, h job List.mem_cons_self, rfl⟩, ?_⟩
    cases rest with
    | nil => trivial
    | cons => exact fun job' hj => h job' (List.mem_cons_of_mem _ hj)

theorem departing_honours {d : Direction} {a : Departing} (h : T.DepartingFades s a) :
    (a.next (T.pair.party s) d).Honours (T.contract s t v u lc pn)
      (Flow.elim (T.DepartingFades s) fun _ => True) := by
  cases a with
  | readStopping => exact ⟨⟨rfl, trivial⟩, fun _ ha => ha⟩
  | close b => exact ⟨⟨rfl, trivial⟩, fun _ _ => ⟨h, nofun⟩⟩
  | fail b f =>
    obtain ⟨rfl, hf⟩ := h
    refine Move.Honours.through ((failPending_honours hf).imp fun g hg => ?_)
    cases g with
    | more g => exact ⟨rfl, hg⟩
    | done =>
      by_cases hs : s = T.side
      · simp only [hs, decide_true, if_true, Flow.elim]
      · simp only [hs, decide_false, Bool.false_eq_true, if_false, Flow.elim]
        exact hs
  | takeDisconnect =>
    refine ⟨⟨rfl, trivial⟩, fun a ha => ?_⟩
    cases a with
    | none => trivial
    | some script => exact ⟨h, ha h script rfl⟩
  | disconnect => exact ⟨⟨rfl, h⟩, trivial⟩

theorem sender_honours {a : Sender} (hl : T.pair.Bound T.before.kernel s l)
    (h : T.SenderFades s t v l a) :
    (a.next (T.pair.party s) l).Honours (T.contract s t v u lc pn)
      (Flow.elim (T.SenderFades s t u l) fun _ => True) := by
  cases a with
  | fetch =>
    refine ⟨⟨rfl, trivial⟩, fun a ha => ?_⟩
    cases a with
    | stopped | empty => trivial
    | job slot job =>
      obtain ⟨hacc, hcut⟩ := ha.2 slot job rfl
      have hfits : ¬ job.data.payload.length > l.mailbox.capacity := by
        rw [hl.box.capacity]
        exact Nat.not_lt.mpr (hacc.fits rfl)
      simp only [Sender.ofJob, Mailbox.Publishing.start, if_neg hfits]
      exact ⟨.inl rfl, hacc.peaceful, waitsWhileLive_of_none (hcut _ hl.box.set)⟩
  | parked => exact ⟨rfl, fun _ _ => trivial⟩
  | publish slot job m =>
    obtain ⟨rfl | rfl, hj, hm⟩ := h
    all_goals
      refine ⟨hm, fun a ha => ?_⟩
      cases ha
      exact ⟨hj, rfl⟩
  | fail slot job e => exact ⟨⟨rfl, h.1, by rw [h.2]⟩, rfl⟩
  | recycle slot goOn =>
    refine ⟨⟨rfl, trivial⟩, fun _ _ => ?_⟩
    cases h
    trivial
  | depart a =>
    refine Move.Honours.through ((departing_honours h).imp fun g hg => ?_)
    cases g <;> exact hg
  | signal | complete => exact h.elim

theorem receiver_honours {a : Receiver} (h : T.ReceiverFades s t v l a) :
    (a.next (T.pair.party s) l).Honours (T.contract s t v u lc pn)
      (Flow.elim (T.ReceiverFades s t u l) fun _ => True) := by
  cases a with
  | await =>
    refine ⟨h, fun a ha => ?_⟩
    cases ha
    trivial
  | discard c =>
    obtain ⟨rfl, hm⟩ := h
    refine ⟨hm, fun a ha => ?_⟩
    cases ha
    trivial
  | collect slot job c =>
    obtain ⟨rfl, hj, hm⟩ := h
    refine ⟨hm, fun a ha => ?_⟩
    cases ha
    exact ⟨hj, rfl⟩
  | fail slot job e => exact ⟨⟨rfl, h.1, by rw [h.2]⟩, by rw [h.2]; rfl⟩
  | recycle slot goOn =>
    refine ⟨⟨rfl, trivial⟩, fun _ _ => ?_⟩
    cases h
    trivial
  | depart a =>
    refine Move.Honours.through ((departing_honours h).imp fun g hg => ?_)
    cases g <;> exact hg
  | fetch | complete => exact h.elim

theorem rendezvous_honours {m : Mailbox} {a : Mailbox.Rendezvous} {restore : Bool} {span : Span}
    (h : a.Stuck) (hm : v.kernel.WaitsWhileLive t m.semaphores.set) :
    (a.next m restore span).Honours (T.contract s t v u lc pn)
      (Flow.elim (·.Stuck) (· = .error .connectionClosed)) := by
  cases a with
  | awaitBoth | takeGate | awaitZero | takeLast =>
    refine ⟨hm, fun a ha => ?_⟩
    cases ha
    rfl
  | undo e =>
    refine ⟨hm, fun _ _ => ?_⟩
    cases h
    rfl
  | _ => exact h.elim

theorem posting_honours {d : Direction} {data : Buffer} {handler : Handler} {a : Posting}
    (h : T.pair.PostingFit s d a) (hf : a.Full) :
    (a.next (T.pair.party s) d data handler).Honours (T.contract s t v u lc pn)
      (Flow.elim (fun b => T.pair.PostingFit s d b ∧ b.Full ∧ b.job? = a.job?) fun e =>
        e = .error .connectionClosed ∨ ∃ job, a.job? = some job ∧ e = .ok job.serial ∧
          .noted (T.pair.id s) (.accepted d job) ∈ u.history) := by
  cases a with
  | enqueue job dl =>
    refine ⟨⟨rfl, h⟩, fun a ha => ?_⟩
    cases a with
    | accepted => exact .inr ⟨job, rfl, rfl, ha rfl⟩
    | full => exact ⟨h, trivial, rfl⟩
    | closed => exact .inl rfl
  | parked job dl =>
    refine ⟨rfl, fun a ha => ?_⟩
    cases ha
    exact ⟨h, trivial, rfl⟩
  | _ => exact hf.elim

/-- Whoever destroys the endpoint does so to the end. -/
theorem removal_honours {m : Link.Removal} (ht : s = T.side ∧ t = T.thread)
    (hl : T.pair.Bound T.before.kernel T.side l) (h : T.RemovalFades v m) (hu : v.Recedes u) :
    (m.next l).Honours (T.contract s t v u lc pn)
      (Flow.elim (T.RemovalFades u) fun _ => T.Adrift u) := by
  have hcut : ∀ {g : Gauge} {set : SetId}, T.before.kernel.setOf? (g.key T.pair.keys) = some set →
      u.kernel.live? set = none → T.Cut u g := by
    intro g set hset hlive set' hset'
    rw [← Option.some.inj (hset.symm.trans hset')]
    exact hlive
  cases m with
  | mailbox m =>
    cases m with
    | semaphores =>
      exact ⟨⟨ht.1, ht.2, .inl hl.box.set⟩, fun _ ha => hcut (g := .gate) hl.box.set ha⟩
    | file => exact ⟨h, fun _ _ => Cut.mono h hu⟩
  | signals first m =>
    cases m with
    | outbound =>
      exact ⟨⟨ht.1, ht.2, .inr h⟩,
        fun _ ha => ⟨Cut.mono h hu, hcut (g := .signal T.side) hl.outbound ha⟩⟩
    | inbound =>
      refine ⟨⟨ht.1, ht.2, .inr h.1⟩, fun _ ha => ?_⟩
      have hgate := h.1.mono hu
      have hside := h.2.mono hu
      have hpeer := hcut (g := .signal T.side.peer) hl.inbound ha
      intro g
      cases g with
      | gate | vacancy | attached => exact hgate
      | signal q =>
        by_cases hq : q = T.side
        · exact hq ▸ hside
        · have hq : q = T.side.peer := by
            cases q <;> cases hs : T.side <;> simp_all [Role.peer]
          exact hq ▸ hpeer

theorem destroying_honours {a : Destroying} (ht : s = T.side ∧ t = T.thread)
    (hk : a = .takeLink → lc.takes)
    (h : T.DestroyingFades v a) (hu : v.Recedes u) :
    (a.next (T.pair.party s)).Honours (T.contract s t v u lc pn)
      (Flow.elim (fun b => T.DestroyingFades u b ∧ b ≠ .takeLink) fun _ => T.Adrift u) := by
  cases a with
  | begin | close => exact h.elim
  | takeLink =>
    refine ⟨⟨rfl, ht.1, hk rfl⟩, fun a ha => ?_⟩
    obtain ⟨l, rfl, hl⟩ := ha
    exact ⟨⟨ht.1 ▸ hl, trivial⟩, nofun⟩
  | remove l m =>
    refine Move.Honours.through ((removal_honours ht h.1 h.2 hu).imp fun g hg => ?_)
    cases g with
    | more => exact ⟨⟨h.1, hg⟩, nofun⟩
    | done => exact ⟨hg, nofun⟩
  | takeWorkers r =>
    refine ⟨⟨rfl, ht.2⟩, fun a ha => ?_⟩
    cases a with
    | nil => exact ⟨⟨Adrift.mono h hu, nofun⟩, nofun⟩
    | cons => exact ⟨⟨Adrift.mono h hu, ha⟩, nofun⟩
  | join r b rest =>
    refine ⟨ht, fun _ _ => ?_⟩
    have hrest : T.thread ∉ rest := fun hm => h.2 (List.mem_cons_of_mem b hm)
    cases rest with
    | nil => exact ⟨⟨h.1.mono hu, nofun⟩, nofun⟩
    | cons => exact ⟨⟨h.1.mono hu, hrest⟩, nofun⟩
  | fail r d f =>
    refine Move.Honours.through ((failPending_honours h.2).imp fun g hg => ?_)
    cases g with
    | more => exact ⟨⟨h.1.mono hu, hg⟩, nofun⟩
    | done =>
      cases d with
      | send => exact ⟨⟨h.1.mono hu, nofun⟩, nofun⟩
      | receive => exact ⟨h.1.mono hu, nofun⟩
  | dropDisconnect r => exact ⟨⟨rfl, trivial⟩, fun _ _ => Adrift.mono h hu⟩

/-- A wait ends when its job fails. -/
theorem waiting_honours {d : Direction} {data : Buffer} {f : Waiting}
    (h : T.pair.WaitingFit s d f) (hp : f.Patient) (hfull : ∀ a, f = .posting a → a.Full)
    (hn : ∀ n, f.serial? = some n → T.Fresh s n) :
    (f.next (T.pair.party s) d data).Honours (T.contract s t v u lc pn)
      (Flow.elim (fun g => T.pair.WaitingFit s d g ∧ g.Patient ∧ (∀ a, g = .posting a → a.Full) ∧
        ∀ n, g.serial? = some n → T.Fresh s n) (· = .error .connectionClosed)) := by
  cases f with
  | posting a =>
    refine Move.Honours.through ((posting_honours h (hfull a rfl)).imp fun g hg => ?_)
    cases g with
    | more b =>
      obtain ⟨hfit, hb, hjob⟩ := hg
      refine ⟨hfit, trivial, fun _ hf => by cases hf; exact hb, fun n hserial => hn n ?_⟩
      rw [← hserial]
      simp only [Waiting.serial?, hjob]
    | done e =>
      rcases hg with rfl | ⟨job, hjob, rfl, -⟩
      · rfl
      · refine ⟨trivial, trivial, nofun, fun n hserial => hn n ?_⟩
        rw [← hserial]
        simp [Waiting.serial?, hjob]
  | clock n => exact ⟨trivial, fun _ _ => ⟨trivial, trivial, nofun, hn⟩⟩
  | awaiting n dl =>
    refine ⟨⟨rfl, trivial⟩, fun a ha => ?_⟩
    rw [ha.2 (hn n rfl)]
    rfl
  | cancel | poll => exact hp.elim

/-- What a call is left with, or how it ends. -/
theorem call_honours {o : Option EndpointId} {c : Call} (h : T.CallFades s t v c)
    (hk : (Task.call o c).takesLink = true → lc.takes) (hu : v.Recedes u) :
    c.next.Honours (T.contract s t v u lc pn) (Flow.elim
      (fun c' => (T.CallFades s t u c' ∧ (Task.call o c').takesLink = false) ∧
        ∀ c₀ : Call, c₀.Follows c → c₀.Follows c') fun r =>
        (t = T.thread → T.Adrift u) ∧ ∀ c₀ : Call, c₀.Follows c → c₀.Fails u (.returned r)) := by
  cases c with
  | finalizing p f =>
    obtain ⟨rfl, ht, l, m, rfl, hm, hl, hmoor⟩ := h
    refine Move.Honours.through ?_
    refine Move.Honours.through ((rendezvous_honours hm hmoor).imp fun g hg => ?_)
    cases g with
    | more m' =>
      refine ⟨⟨⟨rfl, ht, l, m', rfl, hg, hl, waitsWhileLive_mono hmoor hu.sheds⟩, rfl⟩,
        fun c₀ hc => ?_⟩
      cases c₀ with
      | finalizing => trivial
      | _ => exact hc.elim
    | done e =>
      cases hg
      exact ⟨fun h => absurd h ht, fun _ _ => .inl rfl⟩
  | posting p d data handler f =>
    obtain ⟨rfl, ht, hfit, hfull⟩ := h
    refine Move.Honours.through ((posting_honours hfit hfull).imp fun g hg => ?_)
    cases g with
    | more b =>
      obtain ⟨hb, hfull', hjob⟩ := hg
      refine ⟨⟨⟨rfl, ht, hb, hfull'⟩, rfl⟩, fun c₀ hc => ?_⟩
      cases c₀ with
      | posting => exact ⟨hc.1, hc.2.1, hc.2.2.trans hjob.symm⟩
      | _ => exact hc.elim
    | done e =>
      refine ⟨fun h => absurd h ht, fun c₀ hc => ?_⟩
      rcases hg with rfl | ⟨job, hjob, rfl, hev⟩
      · exact .inl rfl
      · cases c₀ with
        | posting =>
          obtain ⟨rfl, rfl, hj⟩ := hc
          exact .inr ⟨_, _, _, _, _, job, rfl, hj.trans hjob, rfl, hev⟩
        | _ => exact hc.elim
  | waiting p d data f =>
    obtain ⟨rfl, ht, hfit, hp, hfull, hn⟩ := h
    refine Move.Honours.through ((waiting_honours hfit hp hfull hn).imp fun g hg => ?_)
    cases g with
    | more b =>
      refine ⟨⟨⟨rfl, ht, hg⟩, rfl⟩, fun c₀ hc => ?_⟩
      cases c₀ with
      | waiting => trivial
      | _ => exact hc.elim
    | done e =>
      cases hg
      exact ⟨fun h => absurd h ht, fun _ _ => .inl rfl⟩
  | destroying p f =>
    obtain ⟨rfl, hs, ht, hf⟩ := h
    refine Move.Honours.through
      ((destroying_honours ⟨hs, ht⟩ (fun ha => hk (by rw [ha]; rfl)) hf hu).imp
      fun g hg => ?_)
    cases g with
    | more b =>
      refine ⟨⟨⟨rfl, hs, ht, hg.1⟩, ?_⟩, fun c₀ hc => by cases c₀ <;> exact hc.elim⟩
      cases b with
      | takeLink => exact absurd rfl hg.2
      | _ => rfl
    | done e => exact ⟨fun _ => hg, fun c₀ hc => by cases c₀ <;> exact hc.elim⟩
  | _ => exact h.elim

theorem finish_fades {out : Outcome} (ht : t = T.thread → T.Adrift u)
    (hc : ∀ c ∈ T.call? t, c.Fails u out) :
    T.TaskFades s t u (.finish (some (T.pair.id s)) out) :=
  ⟨rfl, rfl, ht, hc⟩

theorem Employed.finish (h : T.Employed t) (out : Outcome) :
    T.TaskFades s t u (.finish (some (T.pair.id s)) out) :=
  finish_fades (fun ht => absurd ht h.other) fun c hc => by
    rw [h.call] at hc
    cases hc

/-- Only whoever leaves gives its endpoint up. -/
theorem task_honours {a : Task} (h : T.TaskFades s t v a) (hk : a.takesLink = true → lc.takes)
    (hr : a.leaves = true → lc.leaves) (hu : v.Recedes u) :
    a.next.Honours (T.contract s t v u lc pn) fun b => T.TaskFades s t u b ∧ b.takesLink = false ∧
      b.owner? = if a.leaves then none else a.owner? := by
  cases a with
  | sender p l a =>
    obtain ⟨rfl, he, hl, ha⟩ := h
    refine Move.Honours.through ((sender_honours hl ha).imp fun g hg => ?_)
    cases g with
    | more => exact ⟨⟨rfl, he, hl, hg⟩, rfl, rfl⟩
    | done => exact ⟨he.finish _, rfl, rfl⟩
  | receiver p l a =>
    obtain ⟨rfl, he, hl, ha⟩ := h
    refine Move.Honours.through ((receiver_honours ha).imp fun g hg => ?_)
    cases g with
    | more => exact ⟨⟨rfl, he, hl, hg⟩, rfl, rfl⟩
    | done => exact ⟨he.finish _, rfl, rfl⟩
  | call o c =>
    obtain ⟨rfl, hc, hfollow⟩ := h
    refine Move.Honours.through ((call_honours hc hk hu).imp fun g hg => ?_)
    cases g with
    | more c' =>
      exact ⟨⟨rfl, hg.1.1, fun c₀ h₀ => hg.2 c₀ (hfollow c₀ h₀)⟩, hg.1.2, rfl⟩
    | done r =>
      exact ⟨finish_fades hg.1 fun c₀ h₀ => hg.2 c₀ (hfollow c₀ h₀), rfl, rfl⟩
  | leaving e a out =>
    obtain ⟨rfl, rfl, ht, hc⟩ := h
    refine Move.Honours.through ⟨⟨rfl, hr rfl⟩, fun a ha => ?_⟩
    cases ha
    exact ⟨⟨fun h => (ht h).mono hu, fun c h => fails_mono (hc c h) hu⟩, rfl, rfl⟩
  | ended => trivial

section

variable {d : Direction} {data : Buffer}

theorem posting_serves {handler : Handler} {a : Posting} (ha : T.pair.Accepts s d data handler)
    (h : T.pair.PostingFit s d a) :
    (a.next (T.pair.party s) d data handler).Honours (T.contract s t v u lc True)
      (Flow.elim (T.pair.PostingFit s d) fun _ => True) := by
  cases a with
  | check =>
    refine ⟨⟨rfl, trivial⟩, fun a _ => ?_⟩
    cases a <;> trivial
  | number => exact ⟨⟨rfl, trivial⟩, fun _ _ => ha⟩
  | clock job =>
    refine ⟨trivial, fun a _ => ?_⟩
    cases a with
    | none => trivial
    | some => exact h
  | overflowed => trivial
  | enqueue job dl =>
    refine ⟨⟨rfl, h⟩, fun a _ => ?_⟩
    cases a with
    | full => exact h
    | accepted | closed => trivial
  | parked job dl =>
    refine ⟨rfl, fun a ha => ?_⟩
    cases ha
    exact h

theorem waiting_serves {f : Waiting} (ha : T.pair.Accepts s d data .caller)
    (h : T.pair.WaitingFit s d f) (hp : f.Patient) :
    (f.next (T.pair.party s) d data).Honours (T.contract s t v u lc True)
      (Flow.elim (fun g => T.pair.WaitingFit s d g ∧ g.Patient) fun _ => True) := by
  cases f with
  | posting a =>
    refine Move.Honours.through ((posting_serves ha h).imp fun g hg => ?_)
    cases g with
    | more => exact ⟨hg, trivial⟩
    | done e => cases e <;> trivial
  | clock n => exact ⟨trivial, fun _ _ => ⟨trivial, trivial⟩⟩
  | awaiting n dl =>
    refine ⟨⟨rfl, trivial⟩, fun a ha => ?_⟩
    cases a with
    | missing => cases ha.1
    | delivered | abandoned => trivial
  | cancel | poll => exact hp.elim

end

theorem serving_honours {c : Call} (h : T.pair.Serving s c) (hp : c.Patient) :
    c.next.Honours (T.contract s t v u lc True)
      (Flow.elim (fun c' => T.pair.Serving s c' ∧ c'.Patient) fun _ => True) := by
  cases c with
  | posting p d data handler f =>
    obtain ⟨rfl, ha, hf⟩ := h
    refine Move.Honours.through ((posting_serves ha hf).imp fun g hg => ?_)
    cases g with
    | more => exact ⟨⟨rfl, ha, hg⟩, trivial⟩
    | done => trivial
  | waiting p d data f =>
    obtain ⟨rfl, ha, hf⟩ := h
    refine Move.Honours.through ((waiting_serves ha hf hp).imp fun g hg => ?_)
    cases g with
    | more => exact ⟨⟨rfl, ha, hg.1⟩, hg.2⟩
    | done => trivial
  | readingState p =>
    cases h
    exact ⟨⟨rfl, trivial⟩, fun _ _ => trivial⟩
  | holding => exact ⟨trivial, fun _ _ => trivial⟩
  | _ => exact h.elim

theorem ofOperation_patient {p : Party} {op : Operation} {c : Call}
    (h : Call.ofOperation p op = .more c) : c.Patient := by
  cases op with
  | connect | accept | finalizeConnect | finalizeAccept =>
    simp only [Call.ofOperation, Call.requireRole] at h
    split at h <;> cases h
    trivial
  | postSend | waitSend =>
    simp only [Call.ofOperation, Call.sendFits] at h
    split at h <;> cases h
    trivial
  | postReceive | waitReceive | readState | destroy =>
    cases h
    trivial

theorem callback_fades {c : Callback} {id : String} {payload : Bytes} {script : Script}
    (hp : Script.peaceful script = true) (hc : c.party = T.pair.party s)
    (h : CallbackState.ofScript (T.pair.party s) id payload script = some c.state) :
    T.CallbackFades s c := by
  refine ⟨⟨hc, Pair.ofScript_fit hp h⟩, fun command call rest hs => ?_⟩
  rcases ofScript_cases h with hp | ⟨_, _, _, he⟩ | ⟨_, c', _, hr, hcase⟩
  · rw [hs] at hp
    cases hp
  · rw [hs] at he
    cases he
  · rw [hs] at hr
    cases hr
    rcases hcase with rfl | ⟨op, hop, -⟩
    · trivial
    · exact ofOperation_patient hop

theorem callback_honours {c : Callback} (h : T.CallbackFades s c) :
    c.next.Honours (T.contract s t v u lc True) fun o => ∀ c' ∈ o, T.CallbackFades s c' := by
  obtain ⟨party, lane, id, payload, index, state⟩ := c
  obtain ⟨⟨hparty, hs⟩, hpatient⟩ := h
  cases hparty
  cases state with
  | running command call rest =>
    refine Move.Honours.through ((serving_honours hs.1 (hpatient _ _ _ rfl)).imp fun g hg => ?_)
    cases g with
    | more c' =>
      rintro _ ⟨⟩
      exact ⟨⟨rfl, hg.1, hs.2⟩, fun _ _ _ h => by cases h; exact hg.2⟩
    | done r =>
      rintro _ ⟨⟩
      exact ⟨⟨rfl, hs.2⟩, fun _ _ _ h => by cases h⟩
  | ended command r rest =>
    refine ⟨⟨rfl, rfl⟩, fun _ _ c' hc => ?_⟩
    obtain ⟨a, ha, rfl⟩ := Option.map_eq_some_iff.mp hc
    exact callback_fades hs rfl ha
  | panicking => trivial

theorem honours_panics {σ : Type} {mv : Move σ} {Q : σ → Prop}
    (h : mv.Honours (T.contract s t v u lc True) Q) (hp : pn) : mv.Honours
    (T.contract s t v u lc pn) Q := by
  cases mv with
  | perform | invoke | halt => exact h
  | panic => exact hp

def licence (th : Thread) : Licence where
  takes := th.task.takesLink = true
  leaves := th.leaves = true

structure ThreadStep (s : Role) (t : ThreadId) (u : World) (th th' : Thread) : Prop where
  fades : T.Fades s t u th'
  takes : th'.task.takesLink = false
  owner : th'.task.owner? = if th.leaves then none else th.task.owner?

theorem Fades.honours {th : Thread} (h : T.Fades s t v th) (hu : v.Recedes u) :
    th.next.Honours (T.contract s t v u (licence th) (th.callbacks ≠ []))
    (T.ThreadStep s t u th) := by
  obtain ⟨o, task, cs⟩ := th
  obtain ⟨htask, hcs, hbeneath⟩ := h
  cases cs with
  | nil =>
    rw [Pair.next_task]
    have hnext : task.next.Honours
      (T.contract s t v u (licence ⟨o, task, []⟩) (([] : List Callback) ≠ []))
        fun b => T.TaskFades s t u b ∧ b.takesLink = false ∧
          b.owner? = if task.leaves then none else task.owner? :=
      task_honours htask (fun h => h) (fun h => (Bool.and_true _).trans h) hu
    refine Move.honours_map.mpr (hnext.imp fun a ha => ?_)
    obtain ⟨hfades, htakes, howner⟩ := ha
    exact ⟨⟨hfades, fun _ hc => (by cases hc), fun h => absurd rfl h⟩, htakes,
      howner.trans (by simp [Thread.leaves])⟩
  | cons c cs =>
    have hb := hbeneath (by simp)
    rw [Pair.next_callback]
    refine Move.honours_map.mpr (honours_panics ((callback_honours (hcs c List.mem_cons_self)).imp
      fun o ho => ⟨⟨htask.mono hu, fun c' hc' => ?_, fun _ => hb.mono hu⟩, hb.takes,
        by simp [Thread.leaves]⟩) (by simp))
    rcases List.mem_append.mp hc' with hc' | hc'
    · exact ho c' (Option.mem_toList.mp hc')
    · exact hcs c' (List.mem_cons_of_mem _ hc')

/-- Whoever gives something back was not blocked, and destroys the endpoint in the end only. -/
theorem Fades.invokes {th after : Thread} {p : Party} {i : Invocation} (h : T.Fades s t v th)
    (hn : th.next = .invoke p i after) : T.call? t = none ∧ (t = T.thread → T.Adrift v) := by
  obtain ⟨o, task, cs⟩ := th
  cases cs with
  | cons c cs => exact absurd hn (Pair.callback_next (h.callbacks c List.mem_cons_self).fit)
  | nil =>
    rw [Pair.next_task] at hn
    have htask := h.task
    cases task with
    | sender | receiver => exact ⟨htask.2.1.call, fun ht => absurd ht htask.2.1.other⟩
    | call owner c =>
      obtain ⟨-, hc, hfollow⟩ := htask
      cases c with
      | destroying q a =>
        refine ⟨?_, fun _ => ?_⟩
        · cases hcall : T.call? t with
          | none => rfl
          | some c₀ =>
            have hno := hfollow c₀ hcall
            cases c₀ <;> exact hno.elim
        · cases a with
          | join | fail => exact hc.2.2.2.1
          | takeWorkers | dropDisconnect => exact hc.2.2.2
          | takeLink | begin | close => cases hn
          | remove l m =>
            cases m with
            | mailbox m => cases m <;> cases hn
            | signals _ m => cases m <;> cases hn
      | finalizing q f =>
        obtain ⟨-, -, l, m, rfl, -⟩ := hc
        cases m <;> cases hn
      | posting q d data handler f => cases f <;> cases hn
      | waiting q d data f =>
        cases f with
        | posting a => cases a <;> cases hn
        | _ => cases hn
      | _ => exact hc.elim
    | leaving e a out =>
      obtain ⟨-, rfl, -⟩ := htask
      cases hn
    | ended => cases hn

end Teardown

end QueuePair
