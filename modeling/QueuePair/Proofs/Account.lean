import QueuePair.Proofs.Shape
import QueuePair.Proofs.Tally

namespace QueuePair

/-- How much of a thing the actions of a thread bring and cost, and how much is handed over when
something is given back. A routine that keeps to the tariff needs no further look: what the threads
hold changes by what their actions bring and cost. -/
structure Tariff where
  gain : {α : Type} → Primitive α → α → Nat
  spend : {α : Type} → Primitive α → α → Nat
  -- what is handed over by giving something back
  pay : Party → Invocation → Nat
  still : ∀ {α : Type} {p : Primitive α} (a : α), p.still = true → gain p a = 0 ∧ spend p a = 0

def Within (exact : Bool) (a b : Nat) : Prop :=
  if exact then a = b else a ≤ b

section

variable {exact : Bool} {a b : Nat}

theorem Within.le (h : Within exact a b) : a ≤ b := by
  cases exact with
  | false => exact h
  | true => exact Nat.le_of_eq h

theorem within_refl (n : Nat) : Within exact n n := by
  cases exact <;> simp [Within]

theorem Within.add (h : Within exact a b) (k : Nat) : Within exact (a + k) (b + k) := by
  cases exact <;> simpa [Within] using h

theorem Within.shift {m n : Nat} (h : Within exact a b) (he : m + b = a + n) :
    Within exact m n := by
  cases exact <;> simp only [Within, if_true, Bool.false_eq_true, if_false] at h ⊢ <;> omega

end

namespace Move

variable {σ ρ τ : Type} {exact : Bool} {T : Tariff} {m : σ → Nat} {n : Nat} {mv : Move σ}

def Accounts (exact : Bool) (T : Tariff) (m : σ → Nat) (n : Nat) : Move σ → Prop
  | .perform p next => ∀ a, Within exact (m (next a) + T.spend p a) (n + T.gain p a)
  | .invoke p i after => Within exact (m after + T.pay p i) n
  | .panic | .halt => True

@[simp] theorem accounts_map {f : τ → σ} {mv : Move τ} :
    (mv.map f).Accounts exact T m n ↔ mv.Accounts exact T (fun s => m (f s)) n := by
  cases mv <;> exact Iff.rfl

theorem Accounts.congr {m' : σ → Nat} (h : mv.Accounts exact T m n) (he : ∀ s, m' s = m s) :
    mv.Accounts exact T m' n := by
  obtain rfl : m' = m := funext he
  exact h

theorem Accounts.add (h : mv.Accounts exact T m n) (k : Nat) :
    mv.Accounts exact T (fun s => m s + k) (n + k) := by
  cases mv with
  | perform p next =>
    intro a
    rw [Nat.add_right_comm, Nat.add_right_comm n]
    exact (h a).add k
  | invoke p i after =>
    have hk := Within.add h k
    rwa [Nat.add_right_comm] at hk
  | panic | halt => trivial

theorem Accounts.through {more : σ → τ} {done : ρ → τ} {m : τ → Nat} {mv : Move (Flow σ ρ)}
    {m' : Flow σ ρ → Nat} (h : mv.Accounts exact T m' n) (hmore : ∀ s, m (more s) = m' (.more s))
    (hdone : ∀ r, m (done r) = m' (.done r)) : (mv.through more done).Accounts exact T m n := by
  refine accounts_map.mpr (h.congr fun f => ?_)
  cases f with
  | more s => exact hmore s
  | done r => exact hdone r

theorem accounts_of_still {α : Type} {p : Primitive α} {next : α → σ} (h : p.still = true)
    (hm : ∀ r, m (next r) = n) : (Move.perform p next).Accounts exact T m n := by
  intro r
  obtain ⟨hg, hs⟩ := T.still r h
  rw [hm, hg, hs]
  exact within_refl n

theorem accounts_of_still_le {α : Type} {p : Primitive α} {next : α → σ} (h : p.still = true)
    (hm : ∀ r, m (next r) ≤ n) : (Move.perform p next).Accounts false T m n := by
  intro r
  obtain ⟨hg, hs⟩ := T.still r h
  simpa [Within, hg, hs] using hm r

theorem Still.accounts (h : mv.Still) (hm : ∀ s, m s = n) :
    mv.Accounts exact T m n := by
  cases mv with
  | perform p next => exact accounts_of_still h fun r => hm _
  | invoke => exact h.elim
  | panic | halt => trivial

end Move

structure Holding where
  call : Call → Nat
  sender : Party → Sender → Nat
  receiver : Party → Receiver → Nat

namespace Holding

variable (m : Holding)

def task : Task → Nat
  | .sender p _ s => m.sender p s
  | .receiver p _ s => m.receiver p s
  | .call _ c => m.call c
  | .leaving .. | .ended _ => 0

def callback (c : Callback) : Nat :=
  match c.state with
  | .running _ call _ => m.call call
  | .ended .. | .panicking => 0

def thread (th : Thread) : Nat :=
  m.task th.task + (th.callbacks.map m.callback).sum

/-- All routines keep to a tariff and begin with nothing. -/
structure Obeys (exact : Bool) (T : Tariff) : Prop where
  call : ∀ c : Call, c.Proper → c.next.Accounts exact T (Flow.elim m.call fun _ => 0) (m.call c)
  sender : ∀ p l s, (Sender.next p l s).Accounts exact T (Flow.elim (m.sender p) fun _ => 0)
    (m.sender p s)
  receiver : ∀ p l s, (Receiver.next p l s).Accounts exact T (Flow.elim (m.receiver p) fun _ => 0)
    (m.receiver p s)
  operation : ∀ {p op c}, Call.ofOperation p op = .more c → m.call c = 0
  object : ∀ {op c}, Call.ofObject op = .more c → m.call c = 0
  fetch : ∀ p, m.sender p .fetch = 0
  await : ∀ p, m.receiver p .await = 0
  holding : ∀ id, m.call (.holding id) = 0

variable {m} {exact : Bool} {T : Tariff} {p : Party} {th : Thread}

@[simp] theorem thread_nil (o task : Task) : m.thread ⟨o, task, []⟩ = m.task task := rfl

@[simp] theorem task_finish (owner : Option EndpointId) (out : Outcome) :
    m.task (.finish owner out) = 0 := by
  cases owner <;> rfl

theorem Obeys.ofScript (h : m.Obeys exact T) {id : String} {payload : Bytes} {script : Script}
    {c : Callback} (hs : CallbackState.ofScript p id payload script = some c.state) :
    m.callback c = 0 := by
  obtain he | ⟨command, r, rest, he⟩ | ⟨command, call, rest, he, hc⟩ := ofScript_cases hs
  · simp [callback, he]
  · simp [callback, he]
  · obtain rfl | ⟨op, hop, -⟩ := hc
    · simp [callback, he, h.holding]
    · simp [callback, he, h.operation hop]

theorem Obeys.start (h : m.Obeys exact T) {lane : Lane} {id : String} {payload : Bytes}
    {script : Script} {c : Callback} (hs : Callback.start p lane id payload script = some c) :
    m.callback c = 0 := by
  simp only [Callback.start, Option.map_eq_some_iff] at hs
  obtain ⟨s, hs, rfl⟩ := hs
  exact h.ofScript hs

theorem Obeys.callback (h : m.Obeys exact T) {c : Callback} (hc : c.OfParty p) :
    c.next.Accounts exact T (fun o => (o.toList.map m.callback).sum) (m.callback c) := by
  obtain ⟨q, lane, id, payload, index, state⟩ := c
  cases state with
  | running command call rest =>
    refine Move.accounts_map.mpr ((h.call call hc.state.1).congr fun f => ?_)
    cases f <;> simp [Flow.elim, Holding.callback]
  | ended command r rest =>
    intro a
    have hzero : ((((CallbackState.ofScript q id payload rest).map fun s =>
        (⟨q, lane, id, payload, index + 1, s⟩ : Callback)).toList).map m.callback).sum = 0 := by
      cases hs : CallbackState.ofScript q id payload rest with
      | none => rfl
      | some s => simp [h.ofScript (c := ⟨q, lane, id, payload, index + 1, s⟩) hs]
    obtain ⟨hg, hs⟩ := T.still (p := .note q.id (.acted lane id index command r)) a rfl
    simp only [hzero, Holding.callback, hg, hs]
    exact within_refl 0
  | panicking => trivial

theorem Obeys.task (h : m.Obeys exact T) {o task : Task}
    (hs : Thread.Shaped ⟨o, task, []⟩) : task.next.Accounts exact T m.task (m.task task) := by
  have hcall : ∀ (owner : Option EndpointId) (c : Call), c.Proper →
      (Task.next (.call owner c)).Accounts exact T m.task (m.call c) := fun owner c hc =>
    (h.call c hc).through (fun _ => rfl) fun _ => task_finish _ _
  cases hs with
  | sender => exact (h.sender _ _ _).through (fun _ => rfl) fun _ => task_finish _ _
  | receiver => exact (h.receiver _ _ _).through (fun _ => rfl) fun _ => task_finish _ _
  | destroying => exact hcall _ _ trivial
  | call _ _ hc => exact hcall _ _ hc
  | leaving | departing =>
    have hm : ∀ e s, (Leaving.next e s).Accounts exact T (fun _ => 0) 0 := fun e s =>
      (leaving_still e s).accounts fun _ => rfl
    exact (hm _ _).through (fun _ => rfl) fun _ => rfl
  | ended => trivial

theorem sum_callbacks (cs : List Callback) (new : Option Callback) :
    ((new.toList ++ cs).map m.callback).sum =
      (new.toList.map m.callback).sum + (cs.map m.callback).sum := by
  rw [List.map_append, List.sum_append]

theorem Obeys.thread (h : m.Obeys exact T) (hs : th.Shaped) :
    th.next.Accounts exact T m.thread (m.thread th) := by
  obtain ⟨o, task, cs⟩ := th
  cases cs with
  | nil =>
    simp only [Thread.next, Move.accounts_map]
    exact h.task hs
  | cons c cs =>
    obtain ⟨p, hc⟩ := hs.callbacks List.mem_cons_self
    simp only [Thread.next, Move.accounts_map]
    have hadd := ((h.callback hc).add (m.task task + (cs.map m.callback).sum))
    have hsum : m.thread ⟨o, task, c :: cs⟩ =
        m.callback c + (m.task task + (cs.map m.callback).sum) := by
      simp only [Holding.thread, List.map_cons, List.sum_cons]
      omega
    rw [hsum]
    refine hadd.congr fun f => ?_
    simp only [Holding.thread, sum_callbacks]
    omega

end Holding

end QueuePair
