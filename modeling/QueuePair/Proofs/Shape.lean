import QueuePair.Proofs.Still

namespace QueuePair

namespace Posting

def job? : Posting → Option Job
  | .clock job | .enqueue job _ | .parked job _ => some job
  | .check | .number | .overflowed => none

def For (handler : Handler) (s : Posting) : Prop :=
  ∀ job, s.job? = some job → job.handler = handler

end Posting

namespace Waiting

def Proper : Waiting → Prop
  | .posting s => s.For .caller
  | _ => True

end Waiting

namespace Call

def Proper : Call → Prop
  | .posting _ _ _ handler s => s.For handler
  | .waiting _ _ _ s => s.Proper
  | _ => True

def OfParty (p : Party) : Call → Prop
  | .posting q .. | .waiting q .. | .readingState q | .destroying q _ => q = p
  | .holding _ => True
  | _ => False

end Call

namespace Task

def plain : Task → Bool
  | .sender .. | .receiver .. => false
  | .call _ c => !c.destroys
  | .leaving .. | .ended _ => true

def WorksFor (p : Party) (task : Task) : Prop :=
  ∃ l, task = .sender p l .fetch ∨ task = .receiver p l .await

end Task

namespace CallbackState

def OfParty (p : Party) : CallbackState → Prop
  | .running _ c _ => c.Proper ∧ c.OfParty p
  | _ => True

end CallbackState

structure Callback.OfParty (p : Party) (c : Callback) : Prop where
  party : c.party = p
  state : c.state.OfParty p

/-- How threads look. -/
inductive Thread.Shaped : Thread → Prop
  | sender {p : Party} {l : Link} {s : Sender} {cs : List Callback} :
      (∀ c ∈ cs, c.OfParty p) → Shaped ⟨.sender p l .fetch, .sender p l s, cs⟩
  | receiver {p : Party} {l : Link} {s : Receiver} {cs : List Callback} :
      (∀ c ∈ cs, c.OfParty p) → Shaped ⟨.receiver p l .await, .receiver p l s, cs⟩
  | destroying {o : Option EndpointId} {p : Party} {s : Destroying} {cs : List Callback} :
      (∀ c ∈ cs, c.OfParty p) →
      Shaped ⟨.call o (.destroying p .begin), .call o (.destroying p s), cs⟩
  | call {origin : Task} {o : Option EndpointId} {c : Call} : origin.plain = true →
      c.destroys = false → c.Proper → Shaped ⟨origin, .call o c, []⟩
  | leaving {origin : Task} {e : EndpointId} {s : Leaving} {out : Outcome} :
      Shaped ⟨origin, .leaving e s out, []⟩
  | departing {origin : Task} {p : Party} {out : Outcome} {cs : List Callback} :
      origin.WorksFor p → (∀ c ∈ cs, c.OfParty p) → Shaped ⟨origin, .leaving p.id .release out, cs⟩
  | ended {origin : Task} {out : Outcome} : Shaped ⟨origin, .ended out, []⟩

namespace Move

variable {σ ρ τ : Type} {p : Party} {Q I : σ → Prop} {mv : Move σ}

/-- What holds at the places that answers lead to, and at those that are left by giving something
back for a party. -/
def Leads (p : Party) (Q I : σ → Prop) : Move σ → Prop
  | .perform q next => q.candid = true ∧ ∀ a, Q (next a)
  | .invoke q _ after => q = p ∧ I after
  | .panic | .halt => True

@[simp] theorem leads_map {f : τ → σ} {mv : Move τ} :
    (mv.map f).Leads p Q I ↔ mv.Leads p (fun s => Q (f s)) fun s => I (f s) := by
  cases mv <;> exact Iff.rfl

theorem Leads.imp {Q' I' : σ → Prop} (h : mv.Leads p Q I) (hq : ∀ s, Q s → Q' s)
    (hi : ∀ s, I s → I' s) : mv.Leads p Q' I' := by
  cases mv with
  | perform _ next => exact h.imp_right fun h a => hq _ (h a)
  | invoke => exact h.imp_right (hi _)
  | panic | halt => trivial

theorem Still.leads (h : mv.Still) (hq : ∀ s, Q s) : mv.Leads p Q I := by
  cases mv with
  | perform _ next => exact ⟨Primitive.candid_of_still h, fun a => hq _⟩
  | invoke => exact h.elim
  | panic | halt => trivial

end Move

section

variable {p q : Party} {d : Direction} {l : Link}

theorem failPending_leads (s : FailPending) :
    (s.next p d).Leads p (fun _ => True) fun _ => True := by
  cases s with
  | fail => exact ⟨rfl, trivial⟩
  | _ => exact ⟨rfl, fun _ => trivial⟩

theorem departing_leads (s : Departing) :
    (s.next p d).Leads p (fun _ => True) fun _ => True := by
  cases s with
  | fail localEnd s => exact Move.leads_map.mpr (failPending_leads s)
  | disconnect => exact ⟨rfl, trivial⟩
  | _ => exact ⟨rfl, fun _ => trivial⟩

theorem sender_leads (s : Sender) : (s.next p l).Leads p (fun _ => True) fun _ => True := by
  cases s with
  | publish slot job s =>
    exact Move.leads_map.mpr ((publishing_confined _ _ s).outward.still.leads fun _ => trivial)
  | depart s => exact Move.leads_map.mpr (departing_leads s)
  | complete | fail => exact ⟨rfl, trivial⟩
  | _ => exact ⟨rfl, fun _ => trivial⟩

theorem receiver_leads (s : Receiver) : (s.next p l).Leads p (fun _ => True) fun _ => True := by
  cases s with
  | discard s =>
    exact Move.leads_map.mpr ((collecting_confined _ _ s).outward.still.leads fun _ => trivial)
  | collect slot job s =>
    exact Move.leads_map.mpr ((collecting_confined _ _ s).outward.still.leads fun _ => trivial)
  | depart s => exact Move.leads_map.mpr (departing_leads s)
  | complete | fail => exact ⟨rfl, trivial⟩
  | _ => exact ⟨rfl, fun _ => trivial⟩

theorem destroying_leads (s : Destroying) :
    (s.next p).Leads p (fun _ => True) fun f => ∃ s, f = .more s := by
  cases s with
  | remove l s =>
    exact Move.leads_map.mpr ((removal_confined _ s).1.outward.still.leads fun _ => trivial)
  | fail r d s =>
    refine Move.leads_map.mpr ((failPending_leads s).imp (fun _ _ => trivial) fun f _ => ?_)
    cases f <;> exact ⟨_, rfl⟩
  | _ => exact ⟨rfl, fun _ => trivial⟩

theorem posting_leads {data : Buffer} {handler : Handler} {s : Posting} (h : s.For handler) :
    (s.next p d data handler).Leads q (Flow.elim (Posting.For handler) fun _ => True)
      fun _ => False := by
  cases s with
  | check =>
    refine ⟨rfl, fun a => ?_⟩
    cases a with
    | connected => simp [Flow.elim, Posting.For, Posting.job?]
    | init | closed => trivial
  | number =>
    refine ⟨rfl, ?_⟩
    rintro serial job ⟨⟩
    rfl
  | clock job =>
    refine ⟨rfl, fun a => ?_⟩
    cases a with
    | none => simp [Flow.elim, Posting.For, Posting.job?]
    | some dl =>
      rintro job ⟨⟩
      exact h _ rfl
  | overflowed => trivial
  | enqueue job dl =>
    refine ⟨rfl, fun a => ?_⟩
    cases a with
    | full =>
      rintro job ⟨⟩
      exact h _ rfl
    | accepted | closed => trivial
  | parked job dl =>
    refine ⟨rfl, fun a => ?_⟩
    cases a with
    | notified =>
      rintro job ⟨⟩
      exact h _ rfl
    | timedOut => trivial

theorem waiting_leads {data : Buffer} {s : Waiting} (h : s.Proper) :
    (s.next p d data).Leads q (Flow.elim Waiting.Proper fun _ => True) fun _ => False := by
  cases s with
  | posting s =>
    refine Move.leads_map.mpr ((posting_leads h).imp (fun f hf => ?_) fun _ => False.elim)
    cases f with
    | more s => exact hf
    | done r => cases r <;> trivial
  | clock serial => exact ⟨rfl, fun _ => trivial⟩
  | awaiting serial dl =>
    refine ⟨rfl, fun a => ?_⟩
    cases a <;> trivial
  | cancel serial =>
    refine ⟨rfl, fun a => ?_⟩
    cases a <;> trivial
  | poll serial =>
    refine ⟨rfl, fun a => ?_⟩
    cases a <;> trivial

/-- A call that destroys nothing stays proper, and destroys nothing later. -/
theorem call_leads {c : Call} (h : c.Proper) (hd : c.destroys = false) :
    c.next.Leads q (Flow.elim (fun c => c.Proper ∧ c.destroys = false) fun _ => True)
      fun _ => False := by
  cases c with
  | destroying => cases hd
  | posting p d data handler s =>
    refine Move.leads_map.mpr ((posting_leads h).imp (fun f hf => ?_) fun _ => False.elim)
    cases f with
    | more s => exact ⟨hf, rfl⟩
    | done r => trivial
  | waiting p d data s =>
    refine Move.leads_map.mpr ((waiting_leads h).imp (fun f hf => ?_) fun _ => False.elim)
    cases f with
    | more s => exact ⟨hf, rfl⟩
    | done r => trivial
  | connecting p s =>
    refine Move.leads_map.mpr ((connecting_still p s).leads fun f => ?_)
    cases f with
    | more s => exact ⟨trivial, rfl⟩
    | done r =>
      cases r with
      | error e => trivial
      | ok =>
        cases hr : p.settings.role.isServer with
        | false => simp [Flow.elim]
        | true => simp [Flow.elim, Call.Proper, Call.destroys]
  | readingState | holding | changing | removingSet | unlinking => exact ⟨rfl, fun _ => trivial⟩
  | finalizing | openingSet | timedChanging | mapping | openingMailbox | attaching | publishing
  | collecting | rendezvous | removingMailbox | openingSignals | removingSignals =>
    refine Move.leads_map.mpr (Move.Still.leads (by simp) fun f => ?_)
    cases f with
    | more s => exact ⟨trivial, rfl⟩
    | done r => trivial

theorem callback_call_leads {c : Call} (h : c.Proper) (hp : c.OfParty p) :
    c.next.Leads p (Flow.elim (fun c => c.Proper ∧ c.OfParty p) fun _ => True)
      fun f => ∃ c, f = .more c ∧ c.Proper ∧ c.OfParty p := by
  cases c with
  | posting q d data handler s =>
    refine Move.leads_map.mpr ((posting_leads h).imp (fun f hf => ?_) fun _ => False.elim)
    cases f with
    | more s => exact ⟨hf, hp⟩
    | done r => trivial
  | waiting q d data s =>
    refine Move.leads_map.mpr ((waiting_leads h).imp (fun f hf => ?_) fun _ => False.elim)
    cases f with
    | more s => exact ⟨hf, hp⟩
    | done r => trivial
  | destroying q s =>
    obtain rfl : q = p := hp
    refine Move.leads_map.mpr ((destroying_leads s).imp (fun f _ => ?_) fun f hf => ?_)
    · cases f with
      | more s => exact ⟨trivial, rfl⟩
      | done r => trivial
    · obtain ⟨s, rfl⟩ := hf
      exact ⟨_, rfl, trivial, rfl⟩
  | readingState | holding => exact ⟨rfl, fun _ => trivial⟩
  | _ => exact hp.elim

theorem ofOperation_proper {op : Operation} {c : Call} (h : Call.ofOperation p op = .more c) :
    c.Proper := by
  have hcheck : ∀ handler, Posting.check.For handler := fun handler job hj => by cases hj
  cases op with
  | connect | accept | finalizeConnect | finalizeAccept =>
    simp only [Call.ofOperation, Call.requireRole] at h
    split at h <;> cases h
    trivial
  | postSend | waitSend =>
    simp only [Call.ofOperation, Call.sendFits] at h
    split at h <;> cases h
    exact hcheck _
  | postReceive | waitReceive =>
    cases h
    exact hcheck _
  | readState | destroy =>
    cases h
    trivial

theorem ofObject_proper {op : ObjectOperation} {c : Call} (h : Call.ofObject op = .more c) :
    c.Proper ∧ c.destroys = false := by
  cases op with
  | add =>
    simp only [Call.ofObject] at h
    split at h <;> cases h
    exact ⟨trivial, rfl⟩
  | change handle changes span =>
    simp only [Call.ofObject, TimedChange.start] at h
    split at h <;> cases h
    exact ⟨trivial, rfl⟩
  | publish m payload =>
    simp only [Call.ofObject, Mailbox.Publishing.start] at h
    split at h <;> cases h
    exact ⟨trivial, rfl⟩
  | _ =>
    cases h
    exact ⟨trivial, rfl⟩

theorem start_cases {command : Command} {id : String} {payload : Bytes} {c : Call}
    (h : command.start p id payload = some (.more c)) :
    c = .holding id ∨ ∃ op, Call.ofOperation p op = .more c ∧ c.OfParty p := by
  cases command with
  | hold =>
    cases h
    exact .inl rfl
  | panic => cases h
  | postSend | waitSend =>
    have ho := Option.some.inj h
    refine .inr ⟨_, ho, ?_⟩
    simp only [Call.ofOperation, Call.sendFits] at ho
    split at ho <;> cases ho
    rfl
  | state | postReceive | waitReceive | destroy =>
    have ho := Option.some.inj h
    refine .inr ⟨_, ho, ?_⟩
    cases ho
    rfl

theorem ofScript_cases {id : String} {payload : Bytes} {script : Script} {s : CallbackState}
    (h : CallbackState.ofScript p id payload script = some s) :
    s = .panicking ∨ (∃ command r rest, s = .ended command r rest) ∨
      ∃ command c rest, s = .running command c rest ∧
        (c = .holding id ∨ ∃ op, Call.ofOperation p op = .more c ∧ c.OfParty p) := by
  cases script with
  | nil => cases h
  | cons command rest =>
    simp only [CallbackState.ofScript] at h
    split at h
    · cases h
      exact .inl rfl
    · rename_i c hst
      cases h
      exact .inr (.inr ⟨_, _, _, rfl, start_cases hst⟩)
    · cases h
      exact .inr (.inl ⟨_, _, _, rfl⟩)

theorem ofScript_ofParty {id : String} {payload : Bytes} {script : Script} {s : CallbackState}
    (h : CallbackState.ofScript p id payload script = some s) : s.OfParty p := by
  obtain rfl | ⟨command, r, rest, rfl⟩ | ⟨command, c, rest, rfl, hc⟩ := ofScript_cases h
  · trivial
  · trivial
  · obtain rfl | ⟨op, hop, hp⟩ := hc
    · exact ⟨trivial, trivial⟩
    · exact ⟨ofOperation_proper hop, hp⟩

theorem start_ofParty {lane : Lane} {id : String} {payload : Bytes} {script : Script}
    {c : Callback} (h : Callback.start p lane id payload script = some c) : c.OfParty p := by
  simp only [Callback.start, Option.map_eq_some_iff] at h
  obtain ⟨s, hs, rfl⟩ := h
  exact ⟨rfl, ofScript_ofParty hs⟩

theorem callback_leads {c : Callback} (h : c.OfParty p) :
    c.next.Leads p (fun o => ∀ c ∈ o, c.OfParty p) fun o => ∀ c ∈ o, c.OfParty p := by
  obtain ⟨q, lane, id, payload, index, state⟩ := c
  obtain ⟨rfl, hs⟩ := h
  cases state with
  | running command call rest =>
    refine Move.leads_map.mpr ((callback_call_leads hs.1 hs.2).imp (fun f hf => ?_) fun f hf => ?_)
    · cases f with
      | more c =>
        rintro _ ⟨⟩
        exact ⟨rfl, hf⟩
      | done r =>
        rintro _ ⟨⟩
        exact ⟨rfl, trivial⟩
    · obtain ⟨c, rfl, hc⟩ := hf
      rintro _ ⟨⟩
      exact ⟨rfl, hc⟩
  | ended command r rest =>
    refine ⟨rfl, fun a c hc => ?_⟩
    simp only [Option.mem_def, Option.map_eq_some_iff] at hc
    obtain ⟨s, hs', rfl⟩ := hc
    exact ⟨rfl, ofScript_ofParty hs'⟩
  | panicking => trivial

end

namespace Thread

variable {p : Party} {o task : Task} {th : Thread}

def Ready (p : Party) (th : Thread) : Prop :=
  ∀ new : Option Callback, (∀ c ∈ new, c.OfParty p) → (th.push new).Shaped

theorem finish_shaped (o : Task) (owner : Option EndpointId) (out : Outcome) :
    Shaped ⟨o, .finish owner out, []⟩ := by
  cases owner with
  | none => exact .ended
  | some e => exact .leaving

theorem callbacks_lead {c : Callback} {cs : List Callback} (hc : ∀ b ∈ c :: cs, b.OfParty p)
    (h : ∀ cs : List Callback, (∀ b ∈ cs, b.OfParty p) → Shaped ⟨o, task, cs⟩) :
    (Thread.next ⟨o, task, c :: cs⟩).Leads p Shaped (Ready p) := by
  simp only [next, Move.leads_map]
  have hrest : ∀ b ∈ cs, b.OfParty p := fun b hb => hc b (List.mem_cons_of_mem c hb)
  refine (callback_leads (hc c List.mem_cons_self)).imp (fun f hf => ?_) fun f hf new hnew => ?_
  · refine h _ fun b hb => ?_
    simp only [List.mem_append, Option.mem_toList] at hb
    exact hb.elim (hf b) (hrest b)
  · refine h _ fun b hb => ?_
    simp only [List.mem_append, Option.mem_toList] at hb
    exact hb.elim (hnew b) fun hb => hb.elim (hf b) (hrest b)

theorem worker_leads {σ : Type} {mv : Move (Flow σ Unit)} {f : σ → Task} (hw : o.WorksFor p)
    (hm : mv.Leads p (fun _ => True) fun _ => True)
    (h : ∀ s (cs : List Callback), (∀ b ∈ cs, b.OfParty p) → Shaped ⟨o, f s, cs⟩) :
    ((mv.through f fun () => .finish (some p.id) (.returned (.ok .unit))).map
      fun task => ⟨o, task, []⟩).Leads p Shaped (Ready p) := by
  simp only [Move.through, Move.leads_map]
  have hall : ∀ (f' : Flow σ Unit) (cs : List Callback), (∀ b ∈ cs, b.OfParty p) → Shaped
      ⟨o, Flow.elim f (fun () => .finish (some p.id) (.returned (.ok .unit))) f', cs⟩ := by
    intro f' cs hcs
    cases f' with
    | more s => exact h s cs hcs
    | done r => exact .departing hw hcs
  refine hm.imp (fun f' _ => hall f' [] (by simp)) fun f' _ new hnew => ?_
  exact hall f' _ fun b hb => hnew b (by simpa using hb)

instance : Inhabited Party := ⟨⟨0, ⟨.server, .ofMillis 0, 0, 0, "", ⟨""⟩, 0⟩⟩⟩

/-- Threads keep their shape. -/
theorem Shaped.leads (h : th.Shaped) : ∃ p, th.next.Leads p Shaped (Ready p) := by
  cases h with
  | @sender p l s cs hcs =>
    refine ⟨p, ?_⟩
    cases cs with
    | cons c cs => exact callbacks_lead hcs fun _ => .sender
    | nil => exact worker_leads ⟨l, .inl rfl⟩ (sender_leads s) fun _ _ => .sender
  | @receiver p l s cs hcs =>
    refine ⟨p, ?_⟩
    cases cs with
    | cons c cs => exact callbacks_lead hcs fun _ => .receiver
    | nil => exact worker_leads ⟨l, .inr rfl⟩ (receiver_leads s) fun _ _ => .receiver
  | @destroying o p s cs hcs =>
    refine ⟨p, ?_⟩
    cases cs with
    | cons c cs => exact callbacks_lead hcs fun _ => .destroying
    | nil =>
      simp only [next, Task.next, Call.next, Move.through, Move.leads_map]
      refine (destroying_leads s).imp (fun f _ => ?_) fun f hf new hnew => ?_
      · cases f with
        | more s => exact .destroying (by simp)
        | done r => exact finish_shaped _ _ _
      · obtain ⟨s, rfl⟩ := hf
        exact .destroying fun b hb => hnew b (by simpa using hb)
  | @call origin o c ho hd hc =>
    refine ⟨default, ?_⟩
    simp only [next, Task.next, Move.through, Move.leads_map]
    refine (call_leads hc hd).imp (fun f hf => ?_) fun _ => False.elim
    cases f with
    | more c => exact .call ho hf.2 hf.1
    | done r => exact finish_shaped _ _ _
  | @leaving origin e s out =>
    refine ⟨default, ?_⟩
    simp only [next, Task.next, Move.through, Move.leads_map]
    refine (leaving_still e s).leads fun f => ?_
    cases f with
    | more s => exact .leaving
    | done r => exact .ended
  | @departing origin p out cs hw hcs =>
    refine ⟨p, ?_⟩
    cases cs with
    | cons c cs => exact callbacks_lead hcs fun _ => .departing hw
    | nil =>
      simp only [next, Task.next, Move.through, Move.leads_map]
      refine (leaving_still p.id .release).leads fun f => ?_
      cases f with
      | more s => exact .leaving
      | done r => exact .ended
  | ended => exact ⟨default, trivial⟩

theorem Shaped.callbacks {c : Callback} (h : th.Shaped) (hc : c ∈ th.callbacks) :
    ∃ p, c.OfParty p := by
  cases h with
  | sender hcs | receiver hcs | destroying hcs | departing _ hcs => exact ⟨_, hcs c hc⟩
  | _ => cases hc

end Thread

end QueuePair
