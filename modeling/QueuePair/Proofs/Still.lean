import QueuePair.World

namespace QueuePair

namespace EndpointCall

def still {α : Type} : EndpointCall α → Bool
  | .takeSerial | .post .. | .nextSend | .nextReceive | .complete .. | .cancel ..
  | .drain _ => false
  | _ => true

end EndpointCall

def SystemCall.opens {α : Type} : SystemCall α → Bool
  | .createSet .. | .joinSet .. => true
  | _ => false

namespace Note

def acts : Note → Bool
  | .acted .. => true
  | _ => false

end Note

namespace Primitive

/-- Whether an action leaves the queues and serial numbers of all endpoints alone, and the record of
their jobs. -/
def still {α : Type} : Primitive α → Bool
  | .endpoint _ c => c.still
  | .note _ n => n.acts
  | _ => true

def candid {α : Type} : Primitive α → Bool
  | .note _ n => n.acts
  | _ => true

theorem candid_of_still {α : Type} {p : Primitive α} (h : p.still = true) : p.candid = true := by
  cases p with
  | note => exact h
  | _ => rfl

def outward {α : Type} : Primitive α → Bool
  | .system _ | .clock _ => true
  | _ => false

def confined {α : Type} : Primitive α → Bool
  | .system c => !c.opens
  | .clock _ => true
  | _ => false

theorem still_of_outward {α : Type} {p : Primitive α} (h : p.outward = true) : p.still = true := by
  cases p <;> first | rfl | cases h

theorem outward_of_confined {α : Type} {p : Primitive α} (h : p.confined = true) :
    p.outward = true := by
  cases p <;> first | rfl | cases h

end Primitive

namespace Call

def destroys : Call → Bool
  | .destroying .. => true
  | _ => false

def posts : Call → Bool
  | .posting .. | .waiting .. => true
  | _ => false

end Call

namespace Move

variable {σ ρ τ : Type} {Q : σ → Prop} {mv : Move σ}

def Still : Move σ → Prop
  | .perform p _ => p.still = true
  | .invoke .. => False
  | .panic | .halt => True

@[simp] theorem still_map {f : τ → σ} {mv : Move τ} : (mv.map f).Still ↔ mv.Still := by
  cases mv <;> exact Iff.rfl

@[simp] theorem still_through {more : σ → τ} {done : ρ → τ} {mv : Move (Flow σ ρ)} :
    (mv.through more done).Still ↔ mv.Still :=
  still_map

def Outward : Move σ → Prop
  | .perform p _ => p.outward = true
  | .invoke .. => False
  | .panic | .halt => True

@[simp] theorem outward_map {f : τ → σ} {mv : Move τ} : (mv.map f).Outward ↔ mv.Outward := by
  cases mv <;> exact Iff.rfl

@[simp] theorem outward_through {more : σ → τ} {done : ρ → τ} {mv : Move (Flow σ ρ)} :
    (mv.through more done).Outward ↔ mv.Outward :=
  outward_map

@[simp] theorem Outward.still (h : mv.Outward) : mv.Still := by
  cases mv with
  | perform p next => exact Primitive.still_of_outward h
  | invoke => exact h
  | panic | halt => trivial

def Confined : Move σ → Prop
  | .perform p _ => p.confined = true
  | .invoke .. => False
  | .panic | .halt => True

@[simp] theorem confined_map {f : τ → σ} {mv : Move τ} : (mv.map f).Confined ↔ mv.Confined := by
  cases mv <;> exact Iff.rfl

@[simp] theorem confined_through {more : σ → τ} {done : ρ → τ} {mv : Move (Flow σ ρ)} :
    (mv.through more done).Confined ↔ mv.Confined :=
  confined_map

@[simp] theorem Confined.outward (h : mv.Confined) : mv.Outward := by
  cases mv with
  | perform p next => exact Primitive.outward_of_confined h
  | invoke => exact h
  | panic | halt => trivial

def Acts : Move σ → Prop
  | .perform .. => True
  | .invoke .. | .panic | .halt => False

@[simp] theorem acts_map {f : τ → σ} {mv : Move τ} : (mv.map f).Acts ↔ mv.Acts := by
  cases mv <;> exact Iff.rfl

@[simp] theorem acts_through {more : σ → τ} {done : ρ → τ} {mv : Move (Flow σ ρ)} :
    (mv.through more done).Acts ↔ mv.Acts :=
  acts_map

def Into (Q : σ → Prop) : Move σ → Prop
  | .perform _ next => ∀ a, Q (next a)
  | .invoke _ _ after => Q after
  | .panic | .halt => True

@[simp] theorem into_map {f : τ → σ} {mv : Move τ} :
    (mv.map f).Into Q ↔ mv.Into fun s => Q (f s) := by
  cases mv <;> exact Iff.rfl

theorem into_of_forall (h : ∀ s, Q s) : mv.Into Q := by
  cases mv with
  | perform p next => exact fun a => h _
  | invoke p i after => exact h _
  | panic | halt => trivial

end Move

@[simp] theorem openSet_outward (key : Key) (count : Nat) (s : OpenSet) :
    (s.next key count).Outward ∧ (s.next key count).Acts := by
  cases s <;> exact ⟨rfl, trivial⟩

@[simp] theorem timedChange_confined (h : SemaphoreHandle) (changes : List Change) (span : Span)
    (s : TimedChange) : (s.next h changes span).Confined := by
  cases s with
  | overflowed => trivial
  | _ => exact rfl

@[simp] theorem mapFile_confined (path : Path) (size : Nat) (create : Bool) (s : MapFile) :
    (s.next path size create).Confined ∧ (s.next path size create).Acts := by
  cases s <;> exact ⟨rfl, trivial⟩

@[simp] theorem attaching_confined (m : Mailbox) (s : Mailbox.Attaching) :
    (s.next m).Confined ∧ (s.next m).Acts := by
  cases s <;> exact ⟨rfl, trivial⟩

@[simp] theorem rendezvous_confined (m : Mailbox) (restore : Bool) (span : Span)
    (s : Mailbox.Rendezvous) : (s.next m restore span).Confined := by
  cases s with
  | overflowed => trivial
  | _ => exact rfl

@[simp] theorem publishing_confined (m : Mailbox) (payload : Bytes) (s : Mailbox.Publishing) :
    (s.next m payload).Confined := by
  cases s <;> exact rfl

@[simp] theorem collecting_confined (m : Mailbox) (into : Option Buffer) (s : Mailbox.Collecting) :
    (s.next m into).Confined := by
  cases s <;> exact rfl

@[simp] theorem opening_outward (path : Path) (capacity : Nat) (key : Key) (s : Mailbox.Opening) :
    (s.next path capacity key).Outward ∧ (s.next path capacity key).Acts := by
  cases s with
  | map | semaphores => simp [Mailbox.Opening.next]
  | unlink | markVacant => exact ⟨rfl, trivial⟩

@[simp] theorem signalsOpening_outward (keys : Keys) (role : Role) (s : Signals.Opening) :
    (s.next keys role).Outward ∧ (s.next keys role).Acts := by
  cases s with
  | outbound | inbound => simp [Signals.Opening.next]
  | discard => exact ⟨rfl, trivial⟩

@[simp] theorem mailboxRemoval_confined (m : Mailbox) (s : Mailbox.Removal) :
    (s.next m).Confined ∧ (s.next m).Acts := by
  cases s <;> exact ⟨rfl, trivial⟩

@[simp] theorem signalsRemoval_confined (g : Signals) (s : Signals.Removal) :
    (s.next g).Confined ∧ (s.next g).Acts := by
  cases s <;> exact ⟨rfl, trivial⟩

@[simp] theorem removal_confined (l : Link) (s : Link.Removal) :
    (s.next l).Confined ∧ (s.next l).Acts := by
  cases s <;> simp [Link.Removal.next]

@[simp] theorem connecting_still (p : Party) (s : Connecting) : (s.next p).Still := by
  cases s with
  | mailbox | signals | removeMailbox | attach | removeLink => simp [Connecting.next]
  | _ => exact rfl

@[simp] theorem finalizing_still (p : Party) (s : Finalizing) : (s.next p).Still := by
  cases s with
  | rendezvous => simp [Finalizing.next]
  | _ => exact rfl

@[simp] theorem leaving_still (e : EndpointId) (s : Leaving) : (s.next e).Still := by
  cases s with
  | release => exact rfl
  | remove => simp [Leaving.next]

theorem call_still {c : Call} (hd : c.destroys = false) (hp : c.posts = false) :
    c.next.Still := by
  cases c with
  | destroying => cases hd
  | posting | waiting => cases hp
  | readingState | holding | changing | removingSet | unlinking => exact rfl
  | _ => simp [Call.next]

end QueuePair
