import QueuePair.Proofs.Registration
import QueuePair.Proofs.Slices

namespace QueuePair

def Settings.Accepted (s : Settings) : Prop :=
  ∃ a : Attributes, a.resolve = .ok s

theorem Settings.Accepted.capacity_le {s : Settings} (h : s.Accepted) :
    s.capacity ≤ Attributes.capacityMax := by
  obtain ⟨a, ha⟩ := h
  exact (Attributes.resolve_bounds ha).2.2.2

namespace Primitive

def Within (p : Party) : {α : Type} → Primitive α → Prop
  | _, .system (.setFileLength _ size) | _, .system (.mapFile _ size) =>
    size = Record.headerSize + p.settings.capacity
  | _, .system (.storeRecord _ payload) => payload.length ≤ p.settings.capacity
  | _, .system (.loadRecord _ capacity) => capacity = p.settings.capacity
  | _, .clock span => span = p.settings.timeout
  | _, .spawn q link _ => q = p ∧ link.mailbox.capacity = p.settings.capacity
  | _, _ => True

def Punctual (late : Prop) : {α : Type} → Primitive α → α → Prop
  | _, .clock _, a => a = none → late
  | _, _, _ => True

end Primitive

namespace Move

variable {σ τ : Type} {p : Party} {late : Prop} {Q R : σ → Prop} {mv : Move σ}

def Stays (p : Party) (late : Prop) (Q : σ → Prop) : Move σ → Prop
  | .perform a next => a.Within p ∧ ∀ r, a.Punctual late r → Q (next r)
  | .invoke q _ after => q = p ∧ Q after
  | .panic => late
  | .halt => True

@[simp] theorem stays_map {f : τ → σ} {mv : Move τ} :
    (mv.map f).Stays p late Q ↔ mv.Stays p late fun s => Q (f s) := by
  cases mv <;> exact Iff.rfl

theorem Stays.imp (h : mv.Stays p late Q) (hq : ∀ s, Q s → R s) : mv.Stays p late R := by
  cases mv with
  | perform a next => exact ⟨h.1, fun r hr => hq _ (h.2 r hr)⟩
  | invoke => exact ⟨h.1, hq _ h.2⟩
  | panic => exact h
  | halt => trivial

end Move

namespace Mailbox

def Opening.Fits (capacity : Nat) : Opening → Prop
  | .markVacant m => m.capacity = capacity
  | _ => True

def Rendezvous.Fits (late : Prop) : Rendezvous → Prop
  | .overflowed => late
  | _ => True

end Mailbox

def Connecting.Fits (capacity : Nat) : Connecting → Prop
  | .mailbox s => s.Fits capacity
  | .signals m _ => m.capacity = capacity
  | .storeConnected link | .spawnSender link | .spawnReceiver link =>
    link.mailbox.capacity = capacity
  | _ => True

def Finalizing.Fits (late : Prop) : Finalizing → Prop
  | .rendezvous _ s => s.Fits late
  | _ => True

def Posting.Fits (late : Prop) : Posting → Prop
  | .overflowed => late
  | _ => True

def Waiting.Fits (late : Prop) : Waiting → Prop
  | .posting s => s.Fits late
  | _ => True

def Sender.Fits (capacity : Nat) : Sender → Prop
  | .publish _ job _ => job.data.payload.length ≤ capacity
  | _ => True

def Call.Fits (p : Party) (late : Prop) : Call → Prop
  | .connecting q s => q = p ∧ s.Fits p.settings.capacity
  | .finalizing q s => q = p ∧ s.Fits late
  | .posting q _ _ _ s => q = p ∧ s.Fits late
  | .waiting q _ _ s => q = p ∧ s.Fits late
  | .readingState q | .destroying q _ => q = p
  | .holding _ => True
  | _ => False

def CallbackState.Fits (p : Party) (late : Prop) : CallbackState → Prop
  | .running _ c _ => c.Fits p late
  | _ => True

structure Callback.Fits (p : Party) (late : Prop) (c : Callback) : Prop where
  party : c.party = p
  state : c.state.Fits p late

def Task.Fits (p : Party) (late : Prop) : Task → Prop
  | .sender q link s => q = p ∧ link.mailbox.capacity = p.settings.capacity ∧
    s.Fits p.settings.capacity
  | .receiver q link _ => q = p ∧ link.mailbox.capacity = p.settings.capacity
  | .call owner c => owner = some p.id ∧ c.Fits p late
  | .leaving e _ _ => e = p.id
  | .ended _ => True

structure Thread.Fits (p : Party) (late : Prop) (th : Thread) : Prop where
  task : th.task.Fits p late
  callbacks : ∀ c ∈ th.callbacks, c.Fits p late

def Thread.Scripted (th : Thread) : Prop :=
  ∃ c cs, th.callbacks = c :: cs ∧ c.state = .panicking

theorem Thread.Scripted.next {th : Thread} (h : th.Scripted) : th.next = .panic := by
  obtain ⟨c, cs, hcs, hstate⟩ := h
  simp only [Thread.next, hcs, Callback.next, hstate]
  rfl

section

variable {p : Party} {late : Prop}

theorem openSet_stays (key : Key) (count : Nat) (s : OpenSet) :
    (s.next key count).Stays p late fun _ => True := by
  cases s <;> exact ⟨trivial, fun _ _ => trivial⟩

theorem mapFile_stays (path : Path) (create : Bool) (s : MapFile) :
    (s.next path (Record.headerSize + p.settings.capacity) create).Stays p late fun _ => True := by
  cases s with
  | extend | map => exact ⟨rfl, fun _ _ => trivial⟩
  | openFile | measure => exact ⟨trivial, fun _ _ => trivial⟩

theorem attaching_stays (m : Mailbox) (s : Mailbox.Attaching) :
    (s.next m).Stays p late fun _ => True := by
  cases s <;> exact ⟨trivial, fun _ _ => trivial⟩

theorem removal_stays (l : Link) (s : Link.Removal) : (s.next l).Stays p late fun _ => True := by
  have hmailbox : ∀ s : Mailbox.Removal, (s.next l.mailbox).Stays p late fun _ => True :=
    fun s => by cases s <;> exact ⟨trivial, fun _ _ => trivial⟩
  have hsignals : ∀ s : Signals.Removal, (s.next l.signals).Stays p late fun _ => True :=
    fun s => by cases s <;> exact ⟨trivial, fun _ _ => trivial⟩
  cases s with
  | mailbox s => exact Move.stays_map.mpr (hmailbox s)
  | signals first s => exact Move.stays_map.mpr (hsignals s)

theorem signalsOpening_stays (keys : Keys) (role : Role) (s : Signals.Opening) :
    (s.next keys role).Stays p late fun _ => True := by
  cases s with
  | outbound s | inbound out s =>
    exact Move.stays_map.mpr ((openSet_stays _ _ s).imp fun _ _ => trivial)
  | discard => exact ⟨trivial, fun _ _ => trivial⟩

theorem opening_stays {path : Path} {key : Key} {s : Mailbox.Opening}
    (h : s.Fits p.settings.capacity) :
    (s.next path p.settings.capacity key).Stays p late
      (Flow.elim (Mailbox.Opening.Fits p.settings.capacity) fun r =>
        ∀ m, r = .ok m → m.capacity = p.settings.capacity) := by
  cases s with
  | map s =>
    refine Move.stays_map.mpr ((mapFile_stays path true s).imp fun f _ => ?_)
    cases f with
    | more s => trivial
    | done r =>
      cases r with
      | ok m => trivial
      | error e => exact fun _ h => by cases h
  | semaphores m s =>
    refine Move.stays_map.mpr ((openSet_stays key Mailbox.semaphoreCount s).imp fun f _ => ?_)
    cases f with
    | more s => trivial
    | done r =>
      cases r with
      | error e => trivial
      | ok handle =>
        cases hc : handle.created <;> simp [Flow.elim, hc, Mailbox.Opening.Fits]
  | unlink e => exact ⟨trivial, fun _ _ _ h => by cases h⟩
  | markVacant m =>
    refine ⟨trivial, fun r _ m' hm => ?_⟩
    cases r with
    | error e => cases hm
    | ok => cases hm; exact h

theorem rendezvous_stays {m : Mailbox} {restore : Bool} {s : Mailbox.Rendezvous}
    (h : s.Fits late) :
    (s.next m restore p.settings.timeout).Stays p late
      (Flow.elim (Mailbox.Rendezvous.Fits late) fun _ => True) := by
  cases s with
  | clock =>
    refine ⟨rfl, fun a ha => ?_⟩
    cases a with
    | none => exact ha rfl
    | some deadline => trivial
  | overflowed => exact h
  | awaitBoth deadline =>
    refine ⟨trivial, fun a _ => ?_⟩
    cases a with
    | error e => trivial
    | ok =>
      simp only [Flow.elim]
      split <;> trivial
  | takeGate deadline | awaitZero deadline =>
    refine ⟨trivial, fun a _ => ?_⟩
    cases a <;> trivial
  | giveBack | undo | takeLast => exact ⟨trivial, fun _ _ => trivial⟩

theorem connecting_stays {s : Connecting} (h : s.Fits p.settings.capacity) :
    (s.next p).Stays p late
      (Flow.elim (Connecting.Fits p.settings.capacity) fun _ => True) := by
  cases s with
  | check busy =>
    refine ⟨trivial, fun a _ => ?_⟩
    dsimp only
    split_ifs <;> trivial
  | mailbox s =>
    refine Move.stays_map.mpr ((opening_stays h).imp fun f hf => ?_)
    cases f with
    | more s => exact hf
    | done r =>
      cases r with
      | ok m => exact hf m rfl
      | error e => trivial
  | signals m s =>
    refine Move.stays_map.mpr ((signalsOpening_stays _ _ s).imp fun f _ => ?_)
    cases f with
    | more s => exact h
    | done r =>
      cases r with
      | ok pair => exact h
      | error e => trivial
  | removeMailbox e m s =>
    refine Move.stays_map.mpr (Move.Stays.imp (Q := fun _ => True) ?_ fun f _ => by
      cases f <;> trivial)
    cases s <;> exact ⟨trivial, fun _ _ => trivial⟩
  | storeConnected link => exact ⟨trivial, fun _ _ => h⟩
  | spawnSender link => exact ⟨⟨rfl, h⟩, fun _ _ => h⟩
  | spawnReceiver link => exact ⟨⟨rfl, h⟩, fun _ _ => trivial⟩
  | attach link s =>
    refine Move.stays_map.mpr ((attaching_stays _ s).imp fun f _ => ?_)
    cases f with
    | more s => trivial
    | done r => cases r <;> trivial
  | removeLink e link s =>
    refine Move.stays_map.mpr ((removal_stays link s).imp fun f _ => ?_)
    cases f <;> trivial
  | takeWorkers e =>
    refine ⟨trivial, fun ts _ => ?_⟩
    cases ts <;> trivial
  | join e t rest =>
    refine ⟨trivial, fun _ _ => ?_⟩
    cases rest <;> trivial
  | lock | markStopping | stop | resume | unmarkStopping | storeInit | unlock =>
    exact ⟨trivial, fun _ _ => trivial⟩

theorem finalizing_stays {s : Finalizing} (h : s.Fits late) :
    (s.next p).Stays p late (Flow.elim (Finalizing.Fits late) fun _ => True) := by
  cases s with
  | check =>
    refine ⟨trivial, fun a _ => ?_⟩
    dsimp only
    split_ifs <;> trivial
  | readLink | unlinked =>
    refine ⟨trivial, fun a _ => ?_⟩
    cases a <;> trivial
  | rendezvous link s =>
    refine Move.stays_map.mpr ((rendezvous_stays h).imp fun f hf => ?_)
    cases f with
    | more s => exact hf
    | done r => trivial

theorem posting_stays {d : Direction} {data : Buffer} {handler : Handler} {s : Posting}
    (h : s.Fits late) :
    (s.next p d data handler).Stays p late (Flow.elim (Posting.Fits late) fun _ => True) := by
  cases s with
  | clock job =>
    refine ⟨rfl, fun a ha => ?_⟩
    cases a with
    | none => exact ha rfl
    | some deadline => trivial
  | overflowed => exact h
  | number => exact ⟨trivial, fun _ _ => trivial⟩
  | check | enqueue | parked =>
    refine ⟨trivial, fun a _ => ?_⟩
    cases a <;> trivial

theorem waiting_stays {d : Direction} {data : Buffer} {s : Waiting} (h : s.Fits late) :
    (s.next p d data).Stays p late (Flow.elim (Waiting.Fits late) fun _ => True) := by
  cases s with
  | posting s =>
    refine Move.stays_map.mpr ((posting_stays h).imp fun f hf => ?_)
    cases f with
    | more s => exact hf
    | done r => cases r <;> trivial
  | clock serial => exact ⟨rfl, fun _ _ => trivial⟩
  | awaiting | cancel | poll =>
    refine ⟨trivial, fun a _ => ?_⟩
    cases a <;> trivial

theorem failPending_stays (d : Direction) (s : FailPending) :
    (s.next p d).Stays p late fun _ => True := by
  cases s with
  | fail => exact ⟨rfl, trivial⟩
  | drain | notify => exact ⟨trivial, fun _ _ => trivial⟩

theorem destroying_stays (s : Destroying) : (s.next p).Stays p late fun _ => True := by
  cases s with
  | remove link s => exact Move.stays_map.mpr ((removal_stays link s).imp fun _ _ => trivial)
  | fail r d s => exact Move.stays_map.mpr ((failPending_stays d s).imp fun _ _ => trivial)
  | begin | close | takeLink | takeWorkers | join | dropDisconnect =>
    exact ⟨trivial, fun _ _ => trivial⟩

theorem departing_stays (d : Direction) (s : Departing) :
    (s.next p d).Stays p late fun _ => True := by
  cases s with
  | fail localEnd s => exact Move.stays_map.mpr ((failPending_stays d s).imp fun _ _ => trivial)
  | disconnect => exact ⟨rfl, trivial⟩
  | readStopping | close | takeDisconnect => exact ⟨trivial, fun _ _ => trivial⟩

theorem sender_stays {link : Link} {s : Sender} (hl : link.mailbox.capacity = p.settings.capacity)
    (h : s.Fits p.settings.capacity) :
    (s.next p link).Stays p late (Flow.elim (Sender.Fits p.settings.capacity) fun _ => True) := by
  cases s with
  | fetch =>
    refine ⟨trivial, fun a _ => ?_⟩
    cases a with
    | stopped | empty => trivial
    | job slot job =>
      -- a message that is too large for the mailbox fails before it is published
      simp only [Flow.elim, Sender.ofJob, Mailbox.Publishing.start]
      split
      · rename_i s hs
        split at hs
        · cases hs
        · exact hl ▸ Nat.not_lt.mp ‹_›
      · trivial
      · trivial
  | publish slot job s =>
    refine Move.stays_map.mpr (Move.Stays.imp (Q := fun _ => True) ?_ fun f _ => ?_)
    · cases s with
      | copy => exact ⟨h, fun _ _ => trivial⟩
      | takeVacancy | takeGate | giveGate => exact ⟨trivial, fun _ _ => trivial⟩
    · cases f with
      | more s => exact h
      | done r => cases r <;> trivial
  | signal slot job =>
    refine ⟨trivial, fun a _ => ?_⟩
    cases a <;> trivial
  | recycle slot goOn =>
    refine ⟨trivial, fun _ _ => ?_⟩
    cases goOn <;> trivial
  | depart s =>
    refine Move.stays_map.mpr ((departing_stays .send s).imp fun f _ => ?_)
    cases f <;> trivial
  | parked => exact ⟨trivial, fun _ _ => trivial⟩
  | complete | fail => exact ⟨rfl, trivial⟩

theorem receiver_stays {link : Link} (hl : link.mailbox.capacity = p.settings.capacity)
    (s : Receiver) : (s.next p link).Stays p late fun _ => True := by
  have hcollect : ∀ (into : Option Buffer) (s : Mailbox.Collecting),
      (s.next link.mailbox into).Stays p late fun _ => True := fun into s => by
    cases s with
    | copy => exact ⟨hl, fun _ _ => trivial⟩
    | takeGate | giveGate | giveVacancy => exact ⟨trivial, fun _ _ => trivial⟩
  cases s with
  | discard s => exact Move.stays_map.mpr ((hcollect _ s).imp fun _ _ => trivial)
  | collect slot job s => exact Move.stays_map.mpr ((hcollect _ s).imp fun _ _ => trivial)
  | depart s => exact Move.stays_map.mpr ((departing_stays .receive s).imp fun _ _ => trivial)
  | complete | fail => exact ⟨rfl, trivial⟩
  | await | fetch | recycle => exact ⟨trivial, fun _ _ => trivial⟩

/-- An operation of a party stays one. -/
theorem call_stays {c : Call} (h : c.Fits p late) :
    c.next.Stays p late (Flow.elim (Call.Fits p late) fun _ => True) := by
  cases c with
  | connecting q s =>
    obtain ⟨rfl, hs⟩ := h
    refine Move.stays_map.mpr ((connecting_stays hs).imp fun f hf => ?_)
    cases f with
    | more s => exact ⟨rfl, hf⟩
    | done r =>
      cases r with
      | error e => trivial
      | ok =>
        dsimp only [Flow.elim]
        split_ifs
        · exact rfl
        · trivial
  | finalizing q s =>
    obtain ⟨rfl, hs⟩ := h
    refine Move.stays_map.mpr ((finalizing_stays hs).imp fun f hf => ?_)
    cases f with
    | more s => exact ⟨rfl, hf⟩
    | done r => trivial
  | posting q d data handler s =>
    obtain ⟨rfl, hs⟩ := h
    refine Move.stays_map.mpr ((posting_stays hs).imp fun f hf => ?_)
    cases f with
    | more s => exact ⟨rfl, hf⟩
    | done r => trivial
  | waiting q d data s =>
    obtain ⟨rfl, hs⟩ := h
    refine Move.stays_map.mpr ((waiting_stays hs).imp fun f hf => ?_)
    cases f with
    | more s => exact ⟨rfl, hf⟩
    | done r => trivial
  | destroying q s =>
    obtain rfl : q = p := h
    refine Move.stays_map.mpr ((destroying_stays s).imp fun f _ => ?_)
    cases f with
    | more s => exact rfl
    | done r => trivial
  | readingState | holding => exact ⟨trivial, fun _ _ => trivial⟩
  | _ => exact h.elim

theorem ofOperation_fits {op : Operation} {c : Call} (h : Call.ofOperation p op = .more c) :
    c.Fits p late := by
  cases op with
  | connect | accept | finalizeConnect | finalizeAccept =>
    simp only [Call.ofOperation, Call.requireRole] at h
    split at h <;> cases h
    exact ⟨rfl, trivial⟩
  | postSend | waitSend =>
    simp only [Call.ofOperation, Call.sendFits] at h
    split at h <;> cases h
    exact ⟨rfl, trivial⟩
  | postReceive | waitReceive =>
    cases h
    exact ⟨rfl, trivial⟩
  | readState | destroy =>
    cases h
    exact rfl

theorem ofScript_fits {id : String} {payload : Bytes} {script : Script} {s : CallbackState}
    (h : CallbackState.ofScript p id payload script = some s) : s.Fits p late := by
  obtain rfl | ⟨command, r, rest, rfl⟩ | ⟨command, c, rest, rfl, hc⟩ := ofScript_cases h
  · trivial
  · trivial
  · obtain rfl | ⟨op, hop, -⟩ := hc
    · trivial
    · exact ofOperation_fits hop

theorem start_fits {lane : Lane} {id : String} {payload : Bytes} {script : Script} {c : Callback}
    (h : Callback.start p lane id payload script = some c) : c.Fits p late := by
  simp only [Callback.start, Option.map_eq_some_iff] at h
  obtain ⟨s, hs, rfl⟩ := h
  exact ⟨rfl, ofScript_fits hs⟩

theorem callback_stays {c : Callback} (h : c.Fits p late) :
    c.state = .panicking ∨ c.next.Stays p late fun o => ∀ c ∈ o, c.Fits p late := by
  obtain ⟨q, lane, id, payload, index, state⟩ := c
  obtain ⟨rfl, hs⟩ := h
  cases state with
  | running command call rest =>
    refine .inr (Move.stays_map.mpr ((call_stays hs).imp fun f hf => ?_))
    cases f with
    | more c =>
      rintro _ ⟨⟩
      exact ⟨rfl, hf⟩
    | done r =>
      rintro _ ⟨⟩
      exact ⟨rfl, trivial⟩
  | ended command r rest =>
    refine .inr ⟨trivial, fun _ _ c hc => ?_⟩
    simp only [Option.mem_def, Option.map_eq_some_iff] at hc
    obtain ⟨s, hs', rfl⟩ := hc
    exact ⟨rfl, ofScript_fits hs'⟩
  | panicking => exact .inl rfl

theorem finish_fits {owner : Option EndpointId} (h : owner = some p.id) (out : Outcome) :
    (Task.finish owner out).Fits p late := by
  subst h
  exact rfl

theorem task_stays {task : Task} (h : task.Fits p late) :
    task.next.Stays p late (Task.Fits p late) := by
  cases task with
  | sender q link s =>
    obtain ⟨rfl, hl, hs⟩ := h
    refine Move.stays_map.mpr ((sender_stays hl hs).imp fun f hf => ?_)
    cases f with
    | more s => exact ⟨rfl, hl, hf⟩
    | done r => exact finish_fits rfl _
  | receiver q link s =>
    obtain ⟨rfl, hl⟩ := h
    refine Move.stays_map.mpr ((receiver_stays hl s).imp fun f _ => ?_)
    cases f with
    | more s => exact ⟨rfl, hl⟩
    | done r => exact finish_fits rfl _
  | call owner c =>
    obtain ⟨rfl, hc⟩ := h
    refine Move.stays_map.mpr ((call_stays hc).imp fun f hf => ?_)
    cases f with
    | more c => exact ⟨rfl, hf⟩
    | done r => exact finish_fits rfl _
  | leaving e s out =>
    have hnext : (s.next e).Stays p late fun _ => True := by
      cases s with
      | release => exact ⟨trivial, fun _ _ => trivial⟩
      | remove link s => exact Move.stays_map.mpr ((removal_stays link s).imp fun _ _ => trivial)
    refine Move.stays_map.mpr (hnext.imp fun f _ => ?_)
    cases f with
    | more s => exact h
    | done r => trivial
  | ended out => trivial

theorem thread_stays {th : Thread} (h : th.Fits p late) :
    th.Scripted ∨ th.next.Stays p late (Thread.Fits p late) := by
  obtain ⟨o, task, cs⟩ := th
  cases cs with
  | nil =>
    simp only [Thread.next, Move.stays_map]
    exact .inr ((task_stays h.task).imp fun _ hf => ⟨hf, h.callbacks⟩)
  | cons c cs =>
    simp only [Thread.next, Move.stays_map]
    refine (callback_stays (h.callbacks c List.mem_cons_self)).imp (fun hc => ⟨c, cs, rfl, hc⟩)
      fun hc => hc.imp fun f hf => ⟨h.task, fun b hb => ?_⟩
    rcases List.mem_append.mp hb with hb | hb
    · exact hf b (Option.mem_toList.mp hb)
    · exact h.callbacks b (List.mem_cons_of_mem c hb)

end

section

variable {late late' : Prop} (hl : late → late')

include hl

theorem Posting.Fits.mono {s : Posting} (h : s.Fits late) : s.Fits late' := by
  cases s with
  | overflowed => exact hl h
  | _ => trivial

theorem Call.Fits.mono {p : Party} {c : Call} (h : c.Fits p late) : c.Fits p late' := by
  cases c with
  | finalizing q s =>
    refine ⟨h.1, ?_⟩
    cases s with
    | rendezvous link s =>
      cases s with
      | overflowed => exact hl h.2
      | _ => trivial
    | _ => trivial
  | posting q d data handler s => exact ⟨h.1, h.2.mono hl⟩
  | waiting q d data s =>
    refine ⟨h.1, ?_⟩
    cases s with
    | posting s => exact Posting.Fits.mono hl h.2
    | _ => trivial
  | _ => exact h

theorem Thread.Fits.mono {p : Party} {th : Thread} (h : th.Fits p late) : th.Fits p late' := by
  refine ⟨?_, fun c hc => ⟨(h.callbacks c hc).party, ?_⟩⟩
  · have htask := h.task
    cases hth : th.task with
    | call owner c =>
      rw [hth] at htask
      exact ⟨htask.1, htask.2.mono hl⟩
    | _ =>
      rw [hth] at htask
      exact htask
  · have hstate := (h.callbacks c hc).state
    cases hc : c.state with
    | running command call rest =>
      rw [hc] at hstate
      exact Call.Fits.mono hl hstate
    | _ => trivial

end

theorem Thread.Fits.unwound {p : Party} {late : Prop} {th : Thread} (h : th.Fits p late) :
    th.unwound.Fits p late := by
  refine ⟨?_, fun c hc => by cases hc⟩
  have htask := h.task
  unfold Thread.unwound
  cases hth : th.task with
  | sender q link s | receiver q link s =>
    rw [hth] at htask
    obtain rfl : q = p := htask.1
    exact finish_fits rfl _
  | call owner c =>
    rw [hth] at htask
    exact finish_fits htask.1 _
  | leaving e s out =>
    rw [hth] at htask
    exact htask
  | ended out => trivial

namespace World

variable {w v : World} {e : EndpointId} {x : Endpoint} {i : Input} {t : ThreadId} {th b : Thread}
  {p : Party} {s : Settings} {late : Prop}

theorem Reachable.accepted (hr : Reachable w) (hx : w.endpoints[e]? = some x) :
    x.settings.Accepted := by
  have hkeep : ∀ {u v : World}, (∀ y, u.endpoints[e]? = some y → y.settings.Accepted) →
      Atom (fun _ => True) u v → ∀ y, v.endpoints[e]? = some y → y.settings.Accepted := by
    intro u v h ha y hy
    have halters := ha.alters e
    cases hx : u.endpoints[e]? with
    | none =>
      obtain ⟨a, s, -, hs, rfl⟩ := halters.made hx y hy
      exact ⟨a, hs⟩
    | some x =>
      obtain ⟨y', hy', hxy⟩ := halters.ends x hx
      obtain rfl := Option.some.inj (hy.symm.trans hy')
      exact hxy.settings ▸ h x hx
  exact (Run.induction (m := fun u => ∀ y, u.endpoints[e]? = some y → y.settings.Accepted) hr
    (queued_of_new rfl) (fun y hy => by simp [empty] at hy) hkeep).1 x hx

def Suits (w : World) (e : EndpointId) (s : Settings) : Prop :=
  ∀ x, w.endpoints[e]? = some x → x.settings = s

theorem suits_of_some (hx : w.endpoints[e]? = some x) : w.Suits e x.settings :=
  fun _ hy => congrArg _ (Option.some.inj (hy.symm.trans hx))

theorem exists_suits (w : World) (e : EndpointId) (s : Settings) : ∃ s, w.Suits e s := by
  cases hx : w.endpoints[e]? with
  | none => exact ⟨s, fun y hy => by cases hx.symm.trans hy⟩
  | some x => exact ⟨x.settings, suits_of_some hx⟩

theorem Suits.atom {allowed : Input → Prop} (h : v.Suits e s) (ha : Atom allowed w v) :
    w.Suits e s := fun x hx => by
  obtain ⟨y, hy, hxy⟩ := (ha.alters e).ends x hx
  exact hxy.settings.symm.trans (h y hy)

theorem Suits.before (h : v.Suits e s) (hq : w.Queued) (ha : w.apply i = some v) : w.Suits e s := by
  have hspec : Relation.ReflTransGen (Atom fun _ => True) w v ∧ v.Queued :=
    apply_spec hq trivial ha
  obtain ⟨hchain, -⟩ := hspec
  clear ha
  induction hchain with
  | refl => exact h
  | tail _ hatom ih => exact ih (h.atom hatom)

def Late (w : World) (s : Settings) : Prop :=
  w.deadline? s.timeout = none

theorem Late.mono (h : w.Late s) (ha : w.apply i = some v) : v.Late s := by
  have hlater : lastInstant < v.now + s.timeout.nanos :=
    Nat.lt_of_lt_of_le (deadline?_eq_none h) (Nat.add_le_add_right (now_le ha) _)
  exact if_neg (Nat.not_le.mpr hlater)

theorem invoke_fits {c : Invocation} {cb : Callback} (h : (w.invoke p c).2 = some cb) :
    cb.Fits p late := by
  cases c with
  | resolve d job error =>
    simp only [World.invoke, resolve] at h
    split at h
    · cases h
    · exact start_fits h
  | disconnect script => exact start_fits h

/-- Whatever becomes of a thread of a party, it remains one. -/
theorem Fate.fits (hf : Fate w v i t th b) (h : th.Fits p (w.Late p.settings)) :
    b.Fits p (w.Late p.settings) := by
  obtain hscripted | hstays := thread_stays h
  · obtain rfl | rfl := hf.of_panic hscripted.next
    · exact h
    · exact h.unwound
  cases hf with
  | rest => exact h
  | panicked => exact h.unwound
  | told htold =>
    obtain ⟨_, _, _, _, r, hn, rfl, -⟩ := htold
    rw [hn] at hstays
    exact hstays.2 r trivial
  | woken hn =>
    rw [hn] at hstays
    exact hstays.2 _ trivial
  | @answered α a next _ _ _ hn _ hp =>
    rw [hn] at hstays
    refine hstays.2 _ ?_
    cases a with
    | clock span =>
      obtain rfl : span = p.settings.timeout := hstays.1
      cases hp
      exact id
    | _ => trivial
  | @expired α a next _ _ hn _ hp =>
    rw [hn] at hstays
    refine hstays.2 _ ?_
    cases a with
    | clock span => cases hp
    | _ => trivial
  | @invoked q c after _ hn =>
    rw [hn] at hstays
    obtain ⟨rfl, hafter⟩ := hstays
    refine ⟨hafter.task, fun b hb => ?_⟩
    rcases List.mem_append.mp hb with hb | hb
    · exact invoke_fits (Option.mem_toList.mp hb)
    · exact hafter.callbacks b hb

theorem Fate.free (hf : Fate w v i t th b) (h : th.connecting? e = none) :
    b.connecting? e = none :=
  hf.into (Q := fun b => b.connecting? e = none) h (Thread.next_not_connecting h) (fun _ _ => id)
    (Task.connecting?_finish e _ _)

/-- Threads that were started for an endpoint are threads of it, with its settings. All others
connect no endpoint. -/
structure Fitted (w : World) : Prop where
  fits : ∀ {t : ThreadId} {th : Thread} {e : EndpointId} {s : Settings}, w.threads[t]? = some th →
    th.origin.owner? = some e → w.Suits e s → th.Fits ⟨e, s⟩ (w.Late s)
  free : ∀ {t : ThreadId} {th : Thread}, w.threads[t]? = some th → th.origin.owner? = none →
    ∀ e, th.connecting? e = none

/-- A worker works for the endpoint of the thread that starts it. -/
theorem Fitted.worker {α : Type} {a : Primitive α} {next : α → Thread} {q : Party} {l : Link}
    {d : Direction} (h : w.Fitted) (hs : ∀ th ∈ w.threads, th.Shaped) (ht : w.threads[t]? = some th)
    (hn : th.next = .perform a next) (ha : a.worker? = some (q, l, d)) (hsuits : w.Suits q.id s) :
    q = ⟨q.id, s⟩ ∧ l.mailbox.capacity = s.capacity := by
  cases ho : th.origin.owner? with
  | none =>
    have htame := (hs th (List.mem_of_getElem? ht)).notFounding (h.free ht ho q.id)
    rw [hn] at htame
    cases a with
    | spawn q' l' d' =>
      cases ha
      simp [Move.NotFounding, Primitive.founds] at htame
    | _ => cases ha
  | some e =>
    have hwithin : ∀ s, w.Suits e s → q = ⟨e, s⟩ ∧ l.mailbox.capacity = s.capacity := by
      intro s hsuits
      obtain hscripted | hstays := thread_stays (h.fits ht ho hsuits)
      · cases hn.symm.trans hscripted.next
      · rw [hn] at hstays
        cases a with
        | spawn q' l' d' =>
          cases ha
          exact hstays.1
        | _ => cases ha
    obtain ⟨s', hs'⟩ := w.exists_suits e s
    obtain rfl : q.id = e := congrArg Party.id (hwithin s' hs').1
    exact hwithin s hsuits

theorem Starts.fits (hb : w.Starts b) (h : w.Fitted) (hs : ∀ th ∈ w.threads, th.Shaped)
    (ho : b.origin.owner? = some e) (hsuits : w.Suits e s) : b.Fits ⟨e, s⟩ late := by
  cases hb with
  | @worker u th α a next q l d ht hn ha =>
    refine ⟨?_, by simp [Thread.ofTask]⟩
    cases d with
    | send =>
      cases ho
      obtain ⟨hq, hl⟩ := h.worker hs ht hn ha hsuits
      exact ⟨hq, hl, trivial⟩
    | receive =>
      cases ho
      exact h.worker hs ht hn ha hsuits
  | @operation e' x op hx =>
    refine ⟨?_, by simp [Thread.ofTask]⟩
    cases hop : Call.ofOperation ⟨e', x.settings⟩ op with
    | more c =>
      rw [hop] at ho
      cases ho
      obtain rfl := hsuits x hx
      exact ⟨rfl, ofOperation_fits hop⟩
    | done r =>
      rw [hop] at ho
      cases ho
      exact rfl
  | @request op => cases hop : Call.ofObject op <;> rw [hop] at ho <;> cases ho
  | leaving =>
    cases ho
    exact ⟨rfl, by simp [Thread.ofTask]⟩

theorem Starts.free (hb : w.Starts b) (ho : b.origin.owner? = none) (e : EndpointId) :
    b.connecting? e = none := by
  cases hb with
  | @worker _ _ _ _ _ _ _ d => cases d <;> rfl
  | @operation e' x op =>
    cases hop : Call.ofOperation ⟨e', x.settings⟩ op <;> rw [hop] at ho <;> cases ho
  | @request op => exact request_place e op
  | leaving => rfl

theorem Fitted.apply (h : w.Fitted) (hs : ∀ th ∈ w.threads, th.Shaped) (hq : w.Queued)
    (ha : w.apply i = some v) : v.Fitted := by
  have hold : ∀ {t : ThreadId} {b : Thread}, v.threads[t]? = some b → t < w.threads.length →
      ∃ th, w.threads[t]? = some th ∧ Fate w v i t th b := fun hb hlt => by
    obtain ⟨b', hb', hf⟩ := fate_of_apply hq (List.getElem?_eq_getElem hlt) ha
    obtain rfl := Option.some.inj (hb.symm.trans hb')
    exact ⟨_, List.getElem?_eq_getElem hlt, hf⟩
  refine ⟨fun {t b e s} hb ho hsuits => ?_, fun {t b} hb ho e => ?_⟩
  · rcases Nat.lt_or_ge t w.threads.length with hlt | hle
    · obtain ⟨th, hth, hf⟩ := hold hb hlt
      have hfit := h.fits hth (hf.origin ▸ ho) (hsuits.before hq ha)
      exact (hf.fits (p := ⟨e, s⟩) hfit).mono fun hlate => hlate.mono ha
    · exact (apply_new ha hb hle).fits h hs ho (hsuits.before hq ha)
  · rcases Nat.lt_or_ge t w.threads.length with hlt | hle
    · obtain ⟨th, hth, hf⟩ := hold hb hlt
      exact hf.free (h.free hth (hf.origin ▸ ho) e)
    · exact (apply_new ha hb hle).free ho e

theorem Reachable.fitted (hr : Reachable w) : w.Fitted := by
  induction hr with
  | refl => exact ⟨fun ht => by simp [empty] at ht, fun ht => by simp [empty] at ht⟩
  | step i hr _ ha ih =>
    exact ih.apply ((empty_keeps 0).run (queued_of_new rfl) hr).shaped (Reachable.queued hr) ha

end World

namespace Primitive

/-- The numbers of an action are in range, and what it copies lies in the mapping of a mailbox. -/
def InRange (k : Kernel) (t : ThreadId) (capacity : Nat) : {α : Type} → Primitive α → Prop
  | _, .system (.setFileLength _ length) => length < 2 ^ 64
  | _, .system (.mapFile _ size) => size = Record.headerSize + capacity ∧ size < 2 ^ 64
  | _, .system (.storeRecord file payload) =>
    Record.headerValue (Record.header (UInt32.ofNat payload.length)) = payload.length ∧
      ∀ m : Mailbox, m.file = file → m.capacity = capacity →
        m.copyIn k payload = some (k.call t (.storeRecord file payload)).kernel
  | _, .system (.loadRecord file capacity') => capacity' = capacity ∧
      ∀ m : Mailbox, m.file = file → m.capacity = capacity →
        m.copyOut k = (k.call t (.loadRecord file capacity)).answer
  | _, _ => True

theorem Within.inRange {α : Type} {a : Primitive α} {p : Party} (h : a.Within p)
    (hc : p.settings.capacity ≤ Attributes.capacityMax) (k : Kernel) (t : ThreadId) :
    a.InRange k t p.settings.capacity := by
  have hmax : p.settings.capacity < 4294967296 := Nat.lt_succ_of_le hc
  cases a with
  | system c =>
    cases c with
    | setFileLength file length =>
      obtain rfl : length = Record.headerSize + p.settings.capacity := h
      simp only [InRange, Record.headerSize]
      omega
    | mapFile file size =>
      obtain rfl : size = Record.headerSize + p.settings.capacity := h
      refine ⟨rfl, ?_⟩
      simp only [Record.headerSize]
      omega
    | storeRecord file payload =>
      have hle : payload.length ≤ p.settings.capacity := h
      refine ⟨?_, fun m hfile hcapacity => ?_⟩
      · rw [Record.headerValue_header, UInt32.toNat_ofNat_of_lt' (Nat.lt_of_le_of_lt hle hmax)]
      · subst hfile
        exact Mailbox.copyIn_eq (hcapacity ▸ hle)
    | loadRecord file capacity =>
      refine ⟨h, fun m hfile hcapacity => ?_⟩
      subst hfile
      rw [m.copyOut_eq k, hcapacity]
      rfl
    | _ => trivial
  | _ => trivial

end Primitive

def Outcome.panics : Outcome → Bool
  | .panicked => true
  | .returned _ => false

namespace World

variable {w : World} {e : EndpointId} {x : Endpoint} {t : ThreadId} {th : Thread}

/-- What accepted attributes promise, whatever happens. The size of the mailbox of an endpoint is a
number of the machine. Whatever a thread does that was started for the endpoint, its numbers are in
range: the length that it sets, the size that it maps, the size that it writes into a header, and
every slice of the mapping. If it panics, then because a script says so or because the clock cannot
show the deadline that lies the endpoint's timeout ahead. -/
theorem accepted_in_range (hr : Reachable w) (hx : w.endpoints[e]? = some x)
    (ht : w.threads[t]? = some th) (ho : th.origin.owner? = some e) :
    Record.headerSize + x.settings.capacity < 2 ^ 64 ∧
      (∀ (α : Type) (a : Primitive α) (next : α → Thread), th.next = .perform a next →
        a.InRange w.kernel t x.settings.capacity) ∧
      (th.next = .panic → th.Scripted ∨ w.Late x.settings) := by
  have hc := (hr.accepted hx).capacity_le
  have hstays := thread_stays (hr.fitted.fits ht ho (s := x.settings) fun y hy =>
    congrArg _ (Option.some.inj (hy.symm.trans hx)))
  refine ⟨?_, fun α a next hn => ?_, fun hn => hstays.imp_right fun hlate => ?_⟩
  · simp only [Record.headerSize, Attributes.capacityMax] at hc ⊢
    omega
  · obtain hscripted | hstays := hstays
    · cases hn.symm.trans hscripted.next
    · rw [hn] at hstays
      exact hstays.1.inRange hc _ _
  · rw [hn] at hlate
    exact hlate

def endless : Attributes :=
  { Attributes.ofRole .client with timeout := .max, space := "n", dir := ⟨"/"⟩, capacity := 16 }

def growing : World :=
  empty.play ([.make endless, .operate 0 .connect] ++ List.replicate 4 (.run 0))

theorem file_length_in_range : ∃ x th next, growing.endpoints[0]? = some x ∧
    growing.threads[0]? = some th ∧ th.origin.owner? = some 0 ∧
    th.next = .perform (.system (.setFileLength 0 20)) next ∧ 20 < 2 ^ 64 := by
  have hr : Reachable growing := Run.refl.play fun _ _ => trivial
  refine ⟨_, _, _, rfl, rfl, rfl, rfl, ?_⟩
  exact (accepted_in_range (e := 0) (t := 0) hr rfl rfl rfl).2.1 _ _ _ rfl

/-- A connected endpoint, and somebody who wanted to post a send. -/
def overdue : World :=
  empty.play ([.make endless, .operate 0 .connect] ++ List.replicate 20 (.run 0) ++
    [.operate 0 (.postSend (.ofBytes [104]) (.callbacks "s" [] []))] ++
    List.replicate 5 (.run 3))

/-- A post on an endpoint with accepted attributes panics. -/
theorem accepted_timeout_panics : endless.validate = .ok () ∧ Reachable overdue ∧
    overdue.outcome? 3 = some .panicked := by
  refine ⟨rfl, Run.refl.play fun _ _ => trivial, ?_⟩
  have hany : (overdue.outcome? 3).any Outcome.panics = true := by decide +kernel
  obtain ⟨out, hout, hpanics⟩ := (Option.any_eq_true _ _).mp hany
  cases out with
  | returned r => cases hpanics
  | panicked => exact hout

end World

end QueuePair
