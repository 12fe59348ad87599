import QueuePair.Proofs.Custody
import QueuePair.Proofs.Holdings

namespace QueuePair

def Posted.deed (d : Direction) (job : Job) : Posted → Deed
  | .accepted => .accept d job
  | .full | .closed => .rest

def Supply.deed : Supply → Deed
  | .job slot a => .take .send slot a
  | .stopped | .empty => .rest

namespace EndpointCall

def deed {α : Type} : EndpointCall α → α → Deed
  | .takeSerial => .number
  | .post d job => Posted.deed d job
  | .nextSend => Supply.deed
  | .nextReceive => fun r => r.elim .rest fun a => .take .receive a.1 a.2
  | .complete d slot => fun _ => .complete d slot
  | .cancel d serial => fun r => if r then .withdraw d serial else .rest
  | .drain d => .drain d
  | _ => fun _ => .rest

end EndpointCall

namespace Primitive

def deed (e : EndpointId) : {α : Type} → Primitive α → α → Deed
  | _, .endpoint e' c, a => if e' = e then c.deed a else .rest
  | _, _, _ => .rest

theorem deed_still (e : EndpointId) {α : Type} {p : Primitive α} (a : α) (h : p.still = true) :
    p.deed e a = .rest := by
  cases p with
  | endpoint e' c =>
    simp only [deed]
    split
    · cases c <;> first | rfl | cases h
    · rfl
  | _ => rfl

theorem measure_access {α : Type} {e e' : EndpointId} {c : EndpointCall α} {f : Deed → Nat}
    (hf : f .rest = 0) (a : α) :
    f ((Primitive.endpoint e' c).deed e a) = if e' = e then f (c.deed a) else 0 := by
  rw [← hf]
  exact apply_ite f _ _ _

end Primitive

def Invocation.deed (e : EndpointId) (p : Party) : Invocation → Deed
  | .resolve d job error => if p.id = e then .resolve d job error else .rest
  | .disconnect _ => .rest

def tariff (e : EndpointId) (a : Asset) : Tariff where
  gain p r := (p.deed e r).brings a
  spend p r := (p.deed e r).costs a
  pay p i := (i.deed e p).costs a
  still := fun r h => by
    rw [Primitive.deed_still e r h]
    exact ⟨rfl, rfl⟩

/-- The jobs that a sender has. -/
def Sender.jobs : Sender → List Job
  | .publish _ job _ | .signal _ job | .complete _ job | .fail _ job _ => [job]
  | .depart s => s.held
  | .fetch | .parked | .recycle .. => []

/-- The jobs that a receiver has. -/
def Receiver.jobs : Receiver → List Job
  | .collect _ job _ | .complete _ job | .fail _ job _ => [job]
  | .depart s => s.held
  | .await | .fetch | .discard _ | .recycle .. => []

/-- The jobs of one queue that a destroying thread has. -/
def Destroying.jobs (d : Direction) : Destroying → List Job
  | .fail _ d' s => if d = d' then s.held else []
  | _ => []

def Waiting.waits (n : Nat) : Waiting → Nat
  | .clock serial | .awaiting serial _ | .cancel serial | .poll serial =>
    if n = serial then 1 else 0
  | .posting _ => 0

namespace Call

def jobs (e : EndpointId) (d : Direction) : Call → List Job
  | .destroying p s => if p.id = e then s.jobs d else []
  | _ => []

def waits (e : EndpointId) (d : Direction) (n : Nat) : Call → Nat
  | .waiting p d' _ s => if p.id = e ∧ d = d' then s.waits n else 0
  | _ => 0

end Call

/-- What threads have of an asset, by where they are: a worker has the job and the entry that it
works on, whoever fails queued jobs has those that are left, a post has the number of its job, and a
wait has the job that it queued to wait for. -/
def holding (e : EndpointId) : Asset → Holding
  | .slot d i =>
    { call := fun _ => 0
      sender := fun p s => if p.id = e ∧ d = .send ∧ some i = s.slot? then 1 else 0
      receiver := fun p s => if p.id = e ∧ d = .receive ∧ some i = s.slot? then 1 else 0 }
  | .jobs d k =>
    { call := fun c => load k ((c.jobs e d).map Job.tag)
      sender := fun p s => if p.id = e ∧ d = .send then load k (s.jobs.map Job.tag) else 0
      receiver := fun p s => if p.id = e ∧ d = .receive then load k (s.jobs.map Job.tag) else 0 }
  | .number d n =>
    { call := fun c => c.numbers e d n
      sender := fun _ _ => 0
      receiver := fun _ _ => 0 }
  | .wait d n =>
    { call := fun c => c.waits e d n
      sender := fun _ _ => 0
      receiver := fun _ _ => 0 }

namespace Move

variable {σ ρ τ : Type} {e : EndpointId} {a : Asset} {mv : Move σ}

def Spares (e : EndpointId) (a : Asset) : Move σ → Prop
  | .perform p _ => ∀ r, (p.deed e r).brings a = 0 ∧ (p.deed e r).costs a = 0
  | .invoke p i _ => (i.deed e p).costs a = 0
  | .panic | .halt => True

@[simp] theorem spares_map {f : τ → σ} {mv : Move τ} :
    (mv.map f).Spares e a ↔ mv.Spares e a := by
  cases mv <;> exact Iff.rfl

@[simp] theorem spares_through {more : σ → τ} {done : ρ → τ} {mv : Move (Flow σ ρ)} :
    (mv.through more done).Spares e a ↔ mv.Spares e a :=
  spares_map

theorem spares_access {α : Type} {e' : EndpointId} {c : EndpointCall α} {next : α → σ}
    (h : e' = e → ∀ r, (c.deed r).brings a = 0 ∧ (c.deed r).costs a = 0) :
    (Move.perform (.endpoint e' c) next).Spares e a := by
  intro r
  rw [Primitive.measure_access (f := (Deed.brings · a)) rfl,
    Primitive.measure_access (f := (Deed.costs · a)) rfl]
  exact ⟨ite_eq_right_iff.mpr fun he => (h he r).1, ite_eq_right_iff.mpr fun he => (h he r).2⟩

theorem Still.spares (h : mv.Still) : mv.Spares e a := by
  cases mv with
  | perform p next =>
    intro r
    rw [Primitive.deed_still e r h]
    exact ⟨rfl, rfl⟩
  | invoke => exact h.elim
  | panic | halt => trivial

def Free (e : EndpointId) (a : Asset) : Move σ → Prop
  | .perform p _ => ∀ r, (p.deed e r).costs a = 0
  | .invoke p i _ => (i.deed e p).costs a = 0
  | .panic | .halt => True

theorem free_access {α : Type} {e' : EndpointId} {c : EndpointCall α} {next : α → σ}
    (h : e' = e → ∀ r, (c.deed r).costs a = 0) : (Move.perform (.endpoint e' c) next).Free e a := by
  intro r
  rw [Primitive.measure_access (f := (Deed.costs · a)) rfl]
  exact ite_eq_right_iff.mpr fun he => h he r

theorem Free.accounts {m : σ → Nat} (h : mv.Free e a) (hm : ∀ s, m s = 0) :
    mv.Accounts false (tariff e a) m 0 := by
  cases mv with
  | perform p next =>
    intro r
    simp [hm, tariff, h r, Within]
  | invoke p i after =>
    simp [Accounts, hm, tariff, show (i.deed e p).costs a = 0 from h, Within]
  | panic | halt => trivial

@[simp] theorem free_through {more : σ → τ} {done : ρ → τ} {mv : Move (Flow σ ρ)} :
    (mv.through more done).Free e a ↔ mv.Free e a := by
  cases mv <;> exact Iff.rfl

theorem Spares.free (h : mv.Spares e a) : mv.Free e a := by
  cases mv with
  | perform p next => exact fun r => (h r).2
  | invoke p i after => exact h
  | panic | halt => trivial

theorem Still.free (h : mv.Still) : mv.Free e a :=
  Spares.free (Still.spares h)

theorem Spares.accounts {exact : Bool} {m : σ → Nat} (h : mv.Spares e a) (hm : ∀ s, m s = 0) :
    mv.Accounts exact (tariff e a) m 0 := by
  cases mv with
  | perform p next =>
    intro r
    rw [hm]
    simp only [tariff, (h r).1, (h r).2]
    exact within_refl 0
  | invoke p i after =>
    simp only [Accounts, hm, tariff]
    rw [show (i.deed e p).costs a = 0 from h]
    exact within_refl 0
  | panic | halt => trivial

theorem accounts_access {α : Type} {exact : Bool} {m : σ → Nat} {n : Nat} {e' : EndpointId}
    {c : EndpointCall α} {next : α → σ} :
    (Move.perform (.endpoint e' c) next).Accounts exact (tariff e a) m n ↔
      ∀ r, Within exact (m (next r) + if e' = e then (c.deed r).costs a else 0)
        (n + if e' = e then (c.deed r).brings a else 0) := by
  refine forall_congr' fun r => ?_
  rw [← Primitive.measure_access (f := (Deed.costs · a)) rfl,
    ← Primitive.measure_access (f := (Deed.brings · a)) rfl]
  exact Iff.rfl

end Move

section

variable {e : EndpointId} {p : Party} {l : Link} {d d' : Direction} {k : Tag → Nat} {i n : Nat}

theorem posting_spares {data : Buffer} {handler : Handler} (s : Posting) :
    (s.next p d' data handler).Spares e (.slot d i) ∧
      (s.next p d' data handler).Spares e (.jobs d k) := by
  cases s with
  | overflowed => exact ⟨trivial, trivial⟩
  | enqueue job dl =>
    constructor <;> refine Move.spares_access fun _ r => ?_ <;> cases r <;> exact ⟨rfl, rfl⟩
  | number => constructor <;> exact Move.spares_access fun _ _ => ⟨rfl, rfl⟩
  | check | clock | parked => exact ⟨Move.Still.spares rfl, Move.Still.spares rfl⟩

theorem waiting_spares {data : Buffer} (s : Waiting) :
    (s.next p d' data).Spares e (.slot d i) ∧ (s.next p d' data).Spares e (.jobs d k) := by
  cases s with
  | posting s =>
    simp only [Waiting.next, Move.spares_through]
    exact posting_spares s
  | cancel serial =>
    constructor <;> refine Move.spares_access fun _ r => ?_ <;> cases r <;> exact ⟨rfl, rfl⟩
  | clock | awaiting | poll => exact ⟨Move.Still.spares rfl, Move.Still.spares rfl⟩

theorem failPending_spares (s : FailPending) :
    (s.next p d').Spares e (.slot d i) ∧ (s.next p d').Spares e (.number d n) ∧
      (s.next p d').Spares e (.wait d n) := by
  cases s with
  | drain => refine ⟨?_, ?_, ?_⟩ <;> exact Move.spares_access fun _ _ => ⟨rfl, rfl⟩
  | notify => exact ⟨Move.Still.spares rfl, Move.Still.spares rfl, Move.Still.spares rfl⟩
  | fail job rest =>
    refine ⟨?_, ?_, ?_⟩ <;> simp only [FailPending.next, Move.Spares, Invocation.deed] <;> split <;>
      rfl

theorem departing_spares (s : Departing) :
    (s.next p d').Spares e (.slot d i) ∧ (s.next p d').Spares e (.number d n) ∧
      (s.next p d').Spares e (.wait d n) := by
  cases s with
  | fail localEnd s =>
    simp only [Departing.next, Move.spares_through]
    exact failPending_spares s
  | disconnect => exact ⟨rfl, rfl, rfl⟩
  | readStopping | close | takeDisconnect =>
    exact ⟨Move.Still.spares rfl, Move.Still.spares rfl, Move.Still.spares rfl⟩

theorem destroying_spares (s : Destroying) :
    (s.next p).Spares e (.slot d i) ∧ (s.next p).Spares e (.number d n) ∧
      (s.next p).Spares e (.wait d n) := by
  cases s with
  | remove l s =>
    simp only [Destroying.next, Move.spares_through]
    have hs := (removal_confined l s).1.outward.still
    exact ⟨hs.spares, hs.spares, hs.spares⟩
  | fail r d s =>
    simp only [Destroying.next, Move.spares_through]
    exact failPending_spares s
  | begin | close | takeLink | takeWorkers | join | dropDisconnect =>
    exact ⟨Move.Still.spares rfl, Move.Still.spares rfl, Move.Still.spares rfl⟩

theorem sender_spares (s : Sender) : (s.next p l).Spares e (.number d n) ∧
    (s.next p l).Spares e (.wait d n) := by
  cases s with
  | fetch =>
    constructor <;> refine Move.spares_access fun _ r => ?_ <;> cases r <;> exact ⟨rfl, rfl⟩
  | publish slot job s =>
    simp only [Sender.next, Move.spares_through]
    have hs := (publishing_confined l.mailbox job.data.payload s).outward.still
    exact ⟨hs.spares, hs.spares⟩
  | complete | fail =>
    constructor <;> simp only [Sender.next, Move.Spares, Invocation.deed] <;> split <;> rfl
  | recycle => constructor <;> exact Move.spares_access fun _ _ => ⟨rfl, rfl⟩
  | depart s =>
    simp only [Sender.next, Move.spares_through]
    exact (departing_spares (i := 0) s).2
  | parked | signal => exact ⟨Move.Still.spares rfl, Move.Still.spares rfl⟩

theorem receiver_spares (s : Receiver) : (s.next p l).Spares e (.number d n) ∧
    (s.next p l).Spares e (.wait d n) := by
  cases s with
  | fetch =>
    constructor <;> refine Move.spares_access fun _ r => ?_ <;> cases r <;> exact ⟨rfl, rfl⟩
  | discard s =>
    simp only [Receiver.next, Move.spares_through]
    have hs := (collecting_confined l.mailbox none s).outward.still
    exact ⟨hs.spares, hs.spares⟩
  | collect slot job s =>
    simp only [Receiver.next, Move.spares_through]
    have hs := (collecting_confined l.mailbox (some job.data) s).outward.still
    exact ⟨hs.spares, hs.spares⟩
  | complete | fail =>
    constructor <;> simp only [Receiver.next, Move.Spares, Invocation.deed] <;> split <;> rfl
  | recycle => constructor <;> exact Move.spares_access fun _ _ => ⟨rfl, rfl⟩
  | depart s =>
    simp only [Receiver.next, Move.spares_through]
    exact (departing_spares (i := 0) s).2
  | await => exact ⟨Move.Still.spares rfl, Move.Still.spares rfl⟩

end

section

variable {e : EndpointId} {p : Party} {l : Link} {d d' : Direction} {k : Tag → Nat} {i n : Nat}

/-- Whoever fails queued jobs has what was drained until it is given back. -/
theorem failPending_jobs (s : FailPending) : (s.next p d').Accounts true (tariff e (.jobs d k))
    (Flow.elim (fun s => if p.id = e ∧ d = d' then load k (s.held.map Job.tag) else 0) fun _ => 0)
    (if p.id = e ∧ d = d' then load k (s.held.map Job.tag) else 0) := by
  by_cases h : p.id = e ∧ d = d'
  · obtain ⟨he, hd⟩ := h
    cases s with
    | drain =>
      refine Move.accounts_access.mpr fun r => ?_
      cases r <;> simp [EndpointCall.deed, Deed.brings, Deed.costs, he, hd, Flow.elim,
        FailPending.held, Within]
    | notify job rest => exact Move.accounts_of_still rfl fun r => rfl
    | fail job rest =>
      cases rest <;> simp [FailPending.next, FailPending.after, Move.Accounts, tariff,
        Invocation.deed, Deed.costs, he, hd, Flow.elim, FailPending.held, Within, Nat.add_comm]
  · have hspares : (s.next p d').Spares e (.jobs d k) := by
      cases s with
      | drain =>
        refine Move.spares_access fun he r => ?_
        have hd : d ≠ d' := fun hd => h ⟨he, hd⟩
        simp [EndpointCall.deed, Deed.brings, Deed.costs, hd]
      | notify => exact Move.Still.spares rfl
      | fail job rest =>
        by_cases he : p.id = e
        · have hd : d ≠ d' := fun hd => h ⟨he, hd⟩
          simp [FailPending.next, Move.Spares, Invocation.deed, Deed.costs, he, hd]
        · simp [FailPending.next, Move.Spares, Invocation.deed, Deed.costs, he]
    simp only [h, if_false]
    exact hspares.accounts fun f => by cases f <;> rfl

theorem departing_jobs (s : Departing) : (s.next p d').Accounts true (tariff e (.jobs d k))
    (Flow.elim (fun s => if p.id = e ∧ d = d' then load k (s.held.map Job.tag) else 0) fun _ => 0)
    (if p.id = e ∧ d = d' then load k (s.held.map Job.tag) else 0) := by
  cases s with
  | fail localEnd s =>
    refine (failPending_jobs s).through (fun _ => rfl) fun _ => ?_
    cases localEnd <;> simp [Flow.elim, Departing.held]
  | disconnect =>
    simp [Departing.next, Move.Accounts, Departing.held, tariff, Invocation.deed, Deed.costs,
      Flow.elim, Within]
  | readStopping | close => exact Move.accounts_of_still rfl fun r => rfl
  | takeDisconnect =>
    refine Move.accounts_of_still rfl fun r => ?_
    cases r <;> simp [Flow.elim, Departing.held]

theorem destroying_jobs (s : Destroying) : (s.next p).Accounts true (tariff e (.jobs d k))
    (Flow.elim (fun s => if p.id = e then load k ((s.jobs d).map Job.tag) else 0) fun _ => 0)
    (if p.id = e then load k ((s.jobs d).map Job.tag) else 0) := by
  cases s with
  | remove l s =>
    have hzero : (if p.id = e then load k (((Destroying.remove l s).jobs d).map Job.tag) else 0) =
        0 := by simp [Destroying.jobs]
    rw [hzero]
    refine Move.accounts_map.mpr ((removal_confined l s).1.outward.still.accounts fun f => ?_)
    cases f <;> simp [Flow.elim, Destroying.jobs]
  | fail r d' s =>
    have heq : ∀ s : FailPending, (if p.id = e then
        load k (((Destroying.fail r d' s).jobs d).map Job.tag) else 0) =
        if p.id = e ∧ d = d' then load k (s.held.map Job.tag) else 0 := fun s => by
      by_cases he : p.id = e <;> by_cases hd : d = d' <;>
        simp [Destroying.jobs, he, hd]
    rw [heq]
    refine (failPending_jobs s).through heq fun _ => ?_
    cases d' <;> simp [Flow.elim, Destroying.failed, Destroying.jobs, FailPending.held]
  | begin =>
    refine Move.accounts_of_still rfl fun r => ?_
    cases r <;> simp [Flow.elim, Destroying.jobs]
  | takeLink =>
    refine Move.accounts_of_still rfl fun r => ?_
    cases r <;> simp [Flow.elim, Destroying.jobs]
  | takeWorkers r =>
    refine Move.accounts_of_still rfl fun ts => ?_
    cases ts <;> simp [Flow.elim, Destroying.joining, Destroying.jobs, FailPending.held]
  | join r t rest =>
    refine Move.accounts_of_still rfl fun _ => ?_
    cases rest <;> simp [Flow.elim, Destroying.joining, Destroying.jobs, FailPending.held]
  | close | dropDisconnect =>
    exact Move.accounts_of_still rfl fun r => by simp [Flow.elim, Destroying.jobs]

theorem ofJob_jobs (l : Link) (slot : Nat) (job : Job) : (Sender.ofJob l slot job).jobs = [job] ∧
    (Sender.ofJob l slot job).slot? = some slot := by
  simp only [Sender.ofJob, Mailbox.Publishing.start]
  split
  · exact ⟨rfl, rfl⟩
  · rename_i h
    split at h <;> cases h
  · exact ⟨rfl, rfl⟩

/-- A sender has the job that it took until it hands it back. -/
theorem sender_jobs (s : Sender) : (s.next p l).Accounts true (tariff e (.jobs d k))
    (Flow.elim (fun s => if p.id = e ∧ d = .send then load k (s.jobs.map Job.tag) else 0)
      fun _ => 0)
    (if p.id = e ∧ d = .send then load k (s.jobs.map Job.tag) else 0) := by
  cases s with
  | depart s =>
    exact (departing_jobs s).through (fun _ => rfl) fun _ => rfl
  | fetch =>
    refine Move.accounts_access.mpr fun r => ?_
    cases r with
    | stopped | empty =>
      simp [EndpointCall.deed, Supply.deed, Deed.brings, Deed.costs, Flow.elim, Sender.jobs,
        Departing.held, Within]
    | job slot job =>
      have hnone : Sender.fetch.jobs = [] := rfl
      by_cases he : p.id = e <;> by_cases hd : d = .send <;> simp [EndpointCall.deed, Supply.deed,
        Deed.brings, Deed.costs, Flow.elim, ofJob_jobs, hnone, Within, he, hd]
  | parked => exact Move.accounts_of_still rfl fun r => by simp [Flow.elim, Sender.jobs]
  | publish slot job s =>
    refine Move.accounts_map.mpr ((publishing_confined _ _ s).outward.still.accounts fun f => ?_)
    cases f with
    | more s => rfl
    | done r => cases r <;> rfl
  | signal slot job =>
    refine Move.accounts_of_still rfl fun r => ?_
    cases r <;> rfl
  | complete slot job | fail slot job err =>
    by_cases he : p.id = e <;> by_cases hd : d = .send <;> simp [Sender.next, Move.Accounts, tariff,
      Invocation.deed, Deed.costs, Flow.elim, Sender.jobs, Within, he, hd]
  | recycle slot goOn =>
    refine Move.accounts_access.mpr fun r => ?_
    cases goOn <;> simp [EndpointCall.deed, Deed.brings, Deed.costs, Flow.elim, Sender.jobs,
      Departing.held, Within]

theorem discarded_jobs (c : Mailbox.Collected) : (Receiver.discarded c).jobs = [] ∧
    (Receiver.discarded c).slot? = none := by
  unfold Receiver.discarded
  split
  · exact ⟨rfl, rfl⟩
  · split <;> exact ⟨rfl, rfl⟩

theorem collected_jobs (slot : Nat) (job : Job) (c : Mailbox.Collected) :
    (Receiver.collected slot job c).jobs.map Job.tag = [job.tag] ∧
      (Receiver.collected slot job c).slot? = some slot := by
  unfold Receiver.collected
  split <;> exact ⟨rfl, rfl⟩

/-- A receiver has the job that it took until it hands it back. -/
theorem receiver_jobs (s : Receiver) : (s.next p l).Accounts true (tariff e (.jobs d k))
    (Flow.elim (fun s => if p.id = e ∧ d = .receive then load k (s.jobs.map Job.tag) else 0)
      fun _ => 0)
    (if p.id = e ∧ d = .receive then load k (s.jobs.map Job.tag) else 0) := by
  cases s with
  | depart s =>
    exact (departing_jobs s).through (fun _ => rfl) fun _ => rfl
  | await =>
    refine Move.accounts_of_still rfl fun r => ?_
    cases r <;> simp [Flow.elim, Receiver.jobs, Departing.held]
  | fetch =>
    refine Move.accounts_access.mpr fun r => ?_
    cases r with
    | none =>
      simp [EndpointCall.deed, Deed.brings, Deed.costs, Flow.elim, Receiver.jobs, Within]
    | some a =>
      by_cases he : p.id = e <;> by_cases hd : d = .receive <;> simp [EndpointCall.deed,
        Deed.brings, Deed.costs, Flow.elim, Receiver.jobs, Within, he, hd]
  | discard s =>
    have hzero : (if p.id = e ∧ d = .receive then
        load k (((Receiver.discard s).jobs).map Job.tag) else 0) = 0 := by simp [Receiver.jobs]
    rw [hzero]
    refine Move.accounts_map.mpr ((collecting_confined _ _ s).outward.still.accounts fun f => ?_)
    cases f with
    | more s => simp [Flow.elim, Receiver.jobs]
    | done c => simp [Flow.elim, discarded_jobs]
  | collect slot job s =>
    refine Move.accounts_map.mpr ((collecting_confined _ _ s).outward.still.accounts fun f => ?_)
    cases f with
    | more s => rfl
    | done c =>
      simp only [Flow.elim, collected_jobs]
      rfl
  | complete slot job | fail slot job err =>
    by_cases he : p.id = e <;> by_cases hd : d = .receive <;> simp [Receiver.next, Move.Accounts,
      tariff, Invocation.deed, Deed.costs, Flow.elim, Receiver.jobs, Within, he, hd]
  | recycle slot goOn =>
    refine Move.accounts_access.mpr fun r => ?_
    cases goOn <;> simp [EndpointCall.deed, Deed.brings, Deed.costs, Flow.elim, Receiver.jobs,
      Departing.held, Within]

/-- A sender has the entry of its job until it is recycled. -/
theorem sender_slot (s : Sender) : (s.next p l).Accounts true (tariff e (.slot d i))
    (Flow.elim (fun s => if p.id = e ∧ d = .send ∧ some i = s.slot? then 1 else 0) fun _ => 0)
    (if p.id = e ∧ d = .send ∧ some i = s.slot? then 1 else 0) := by
  cases s with
  | depart s =>
    have hzero : ∀ s, (if p.id = e ∧ d = .send ∧ some i = (Sender.depart s).slot? then 1
        else 0) = 0 := fun s => by simp [Sender.slot?]
    rw [hzero]
    exact (((departing_spares (n := 0) s).1).accounts fun _ => rfl).through hzero fun _ => rfl
  | fetch =>
    refine Move.accounts_access.mpr fun r => ?_
    cases r with
    | stopped | empty =>
      simp [EndpointCall.deed, Supply.deed, Deed.brings, Deed.costs, Flow.elim,
        Sender.slot?, Within]
    | job slot job =>
      have hnone : Sender.fetch.slot? = none := rfl
      by_cases he : p.id = e <;> by_cases hd : d = .send <;> simp [EndpointCall.deed, Supply.deed,
        Deed.brings, Deed.costs, Flow.elim, ofJob_jobs, hnone, Within, he, hd]
  | parked => exact Move.accounts_of_still rfl fun r => by simp [Flow.elim, Sender.slot?]
  | publish slot job s =>
    refine Move.accounts_map.mpr ((publishing_confined _ _ s).outward.still.accounts fun f => ?_)
    cases f with
    | more s => rfl
    | done r => cases r <;> rfl
  | signal slot job =>
    refine Move.accounts_of_still rfl fun r => ?_
    cases r <;> rfl
  | complete slot job | fail slot job err =>
    by_cases he : p.id = e <;> by_cases hd : d = .send <;> simp [Sender.next, Move.Accounts, tariff,
      Invocation.deed, Deed.costs, Flow.elim, Sender.slot?, Within, he, hd]
  | recycle slot goOn =>
    refine Move.accounts_access.mpr fun r => ?_
    by_cases he : p.id = e <;> by_cases hd : d = .send <;> cases goOn <;>
      simp [EndpointCall.deed, Deed.brings, Deed.costs, Flow.elim, Sender.slot?, Within, he, hd]

/-- A receiver has the entry of its job until it is recycled. -/
theorem receiver_slot (s : Receiver) : (s.next p l).Accounts true (tariff e (.slot d i))
    (Flow.elim (fun s => if p.id = e ∧ d = .receive ∧ some i = s.slot? then 1 else 0)
      fun _ => 0)
    (if p.id = e ∧ d = .receive ∧ some i = s.slot? then 1 else 0) := by
  cases s with
  | depart s =>
    have hzero : ∀ s, (if p.id = e ∧ d = .receive ∧ some i = (Receiver.depart s).slot? then 1
        else 0) = 0 := fun s => by simp [Receiver.slot?]
    rw [hzero]
    exact (((departing_spares (n := 0) s).1).accounts fun _ => rfl).through hzero fun _ => rfl
  | await =>
    refine Move.accounts_of_still rfl fun r => ?_
    cases r <;> simp [Flow.elim, Receiver.slot?]
  | fetch =>
    refine Move.accounts_access.mpr fun r => ?_
    cases r with
    | none =>
      simp [EndpointCall.deed, Deed.brings, Deed.costs, Flow.elim, Receiver.slot?, Within]
    | some a =>
      by_cases he : p.id = e <;> by_cases hd : d = .receive <;> simp [EndpointCall.deed,
        Deed.brings, Deed.costs, Flow.elim, Receiver.slot?, Within, he, hd]
  | discard s =>
    have hzero : (if p.id = e ∧ d = .receive ∧ some i = (Receiver.discard s).slot? then 1
        else 0) = 0 := by simp [Receiver.slot?]
    rw [hzero]
    refine Move.accounts_map.mpr ((collecting_confined _ _ s).outward.still.accounts fun f => ?_)
    cases f with
    | more s => simp [Flow.elim, Receiver.slot?]
    | done c => simp [Flow.elim, discarded_jobs]
  | collect slot job s =>
    refine Move.accounts_map.mpr ((collecting_confined _ _ s).outward.still.accounts fun f => ?_)
    cases f with
    | more s => rfl
    | done c =>
      simp only [Flow.elim, collected_jobs]
      rfl
  | complete slot job | fail slot job err =>
    by_cases he : p.id = e <;> by_cases hd : d = .receive <;> simp [Receiver.next, Move.Accounts,
      tariff, Invocation.deed, Deed.costs, Flow.elim, Receiver.slot?, Within, he, hd]
  | recycle slot goOn =>
    refine Move.accounts_access.mpr fun r => ?_
    by_cases he : p.id = e <;> by_cases hd : d = .receive <;> cases goOn <;>
      simp [EndpointCall.deed, Deed.brings, Deed.costs, Flow.elim, Receiver.slot?, Within, he, hd]

theorem posting_free {data : Buffer} {handler : Handler} (h : ¬(p.id = e ∧ d = d')) (s : Posting) :
    (s.next p d' data handler).Free e (.number d n) := by
  cases s with
  | enqueue job dl =>
    refine Move.free_access fun he r => ?_
    have hd : d ≠ d' := fun hd => h ⟨he, hd⟩
    cases r <;> simp [EndpointCall.deed, Posted.deed, Deed.costs, hd]
  | number => exact Move.free_access fun _ _ => rfl
  | overflowed => trivial
  | check | clock | parked => exact Move.Still.free rfl

theorem posting_takes_nothing {data : Buffer} {handler : Handler} (s : Posting) :
    (s.next p d' data handler).Free e (.wait d n) := by
  cases s with
  | enqueue job dl =>
    refine Move.free_access fun _ r => ?_
    cases r <;> rfl
  | number => exact Move.free_access fun _ _ => rfl
  | overflowed => trivial
  | check | clock | parked => exact Move.Still.free rfl

theorem posting_number {data : Buffer} {handler : Handler} (s : Posting) :
    (s.next p d' data handler).Accounts false (tariff e (.number d n))
      (Flow.elim (fun s => if p.id = e ∧ d = d' then s.numbers n else 0) fun _ => 0)
      (if p.id = e ∧ d = d' then s.numbers n else 0) := by
  by_cases h : p.id = e ∧ d = d'
  · obtain ⟨he, hd⟩ := h
    cases s with
    | check | clock | parked =>
      refine Move.accounts_of_still_le rfl fun r => ?_
      cases r <;> simp [Flow.elim, Posting.numbers]
    | number =>
      refine Move.accounts_access.mpr fun serial => ?_
      simp [Flow.elim, Posting.numbers, Within, EndpointCall.deed, Deed.brings, Deed.costs, he, hd]
    | overflowed => trivial
    | enqueue job dl =>
      refine Move.accounts_access.mpr fun r => ?_
      cases r <;> simp [Flow.elim, Posting.numbers, Within, EndpointCall.deed, Posted.deed,
        Deed.brings, Deed.costs, he, hd, numbered, Job.tag, eq_comm]
  · simp only [h, if_false]
    exact (posting_free h s).accounts fun f => by cases f <;> rfl

theorem waiting_number {data : Buffer} (s : Waiting) :
    (s.next p d' data).Accounts false (tariff e (.number d n))
      (Flow.elim (fun s => if p.id = e ∧ d = d' then s.numbers n else 0) fun _ => 0)
      (if p.id = e ∧ d = d' then s.numbers n else 0) := by
  cases s with
  | posting s =>
    refine (posting_number s).through (fun _ => rfl) fun r => ?_
    cases r <;> simp [Flow.elim, Waiting.numbers]
  | clock serial => exact Move.accounts_of_still rfl fun r => rfl
  | awaiting serial dl =>
    refine Move.accounts_of_still rfl fun r => ?_
    cases r <;> simp [Flow.elim, Waiting.numbers]
  | cancel serial =>
    refine Move.accounts_access.mpr fun r => ?_
    cases r <;> simp [Flow.elim, Waiting.numbers, Within, EndpointCall.deed, Deed.brings,
      Deed.costs]
  | poll serial =>
    refine Move.accounts_of_still rfl fun r => ?_
    cases r <;> simp [Flow.elim, Waiting.numbers]

theorem posting_wait {data : Buffer} {s : Posting} (h : s.For .caller) :
    (s.next p d' data .caller).Accounts false (tariff e (.wait d n))
      (Flow.elim (fun _ => 0) fun r : Except Error Nat =>
        if p.id = e ∧ d = d' ∧ r.toOption = some n then 1 else 0) 0 := by
  cases s with
  | enqueue job dl =>
    refine Move.accounts_access.mpr fun r => ?_
    have hcaller : job.handler = .caller := h job rfl
    by_cases he : p.id = e <;> by_cases hd : d = d' <;> cases r <;> simp [Flow.elim, Within,
      EndpointCall.deed, Posted.deed, Deed.brings, Deed.costs, he, hd, awaited, Job.tag, hcaller,
      Handler.isCaller, Except.toOption]
  | number =>
    refine Move.accounts_access.mpr fun r => ?_
    simp [Flow.elim, Within, EndpointCall.deed, Deed.brings, Deed.costs]
  | check | clock | parked =>
    refine Move.accounts_of_still rfl fun r => ?_
    cases r <;> simp [Flow.elim, Except.toOption]
  | overflowed => trivial

theorem waiting_wait {data : Buffer} {s : Waiting} (h : s.Proper) :
    (s.next p d' data).Accounts false (tariff e (.wait d n))
      (Flow.elim (fun s => if p.id = e ∧ d = d' then s.waits n else 0) fun _ => 0)
      (if p.id = e ∧ d = d' then s.waits n else 0) := by
  cases s with
  | posting s =>
    have hzero : ∀ s, (if p.id = e ∧ d = d' then (Waiting.posting s).waits n else 0) = 0 :=
      fun s => by simp [Waiting.waits]
    rw [hzero]
    refine (posting_wait h).through hzero fun r => ?_
    cases r <;> simp [Flow.elim, Waiting.waits, Except.toOption, eq_comm, ite_and]
  | clock serial => exact Move.accounts_of_still rfl fun r => rfl
  | awaiting serial dl =>
    refine Move.accounts_of_still_le rfl fun r => ?_
    cases r with
    | missing => exact Nat.le_refl _
    | delivered | abandoned => exact Nat.zero_le _
  | cancel serial =>
    refine Move.accounts_access.mpr fun r => ?_
    by_cases he : p.id = e <;> by_cases hd : d = d' <;> cases r <;> simp [Flow.elim, Within,
      Waiting.waits, EndpointCall.deed, Deed.brings, Deed.costs, he, hd]
  | poll serial =>
    refine Move.accounts_of_still_le rfl fun r => ?_
    cases r <;> exact Nat.zero_le _

end

section

variable {e : EndpointId} {p : Party} {d : Direction} {i n : Nat} {k : Tag → Nat} {c : Call}

theorem call_spares (c : Call) : c.next.Spares e (.slot d i) ∧
    (c.destroys = false → c.next.Spares e (.jobs d k)) := by
  cases hd : c.destroys with
  | true =>
    cases c with
    | destroying p s =>
      simp only [Call.next, Move.spares_through]
      exact ⟨(destroying_spares (n := 0) s).1, fun h => by cases h⟩
    | _ => cases hd
  | false =>
    cases hp : c.posts with
    | false => exact ⟨(call_still hd hp).spares, fun _ => (call_still hd hp).spares⟩
    | true =>
      cases c with
      | posting p d data handler s =>
        simp only [Call.next, Move.spares_through]
        exact (posting_spares s).imp_right fun h _ => h
      | waiting p d data s =>
        simp only [Call.next, Move.spares_through]
        exact (waiting_spares s).imp_right fun h _ => h
      | _ => cases hp

/-- What only posting, waiting and destroying calls have. -/
theorem quiet_call_accounts {exact : Bool} {T : Tariff} {m : Call → Nat} {c : Call}
    (hm : ∀ c : Call, c.destroys = false → c.posts = false → m c = 0)
    (hd : c.destroys = false) (hp : c.posts = false) :
    c.next.Accounts exact T (Flow.elim m fun _ => 0) (m c) := by
  rw [hm c hd hp]
  cases c with
  | posting | waiting => cases hp
  | destroying => cases hd
  | connecting p s =>
    refine Move.accounts_map.mpr ((connecting_still p s).accounts fun f => ?_)
    cases f with
    | more s => exact hm _ rfl rfl
    | done r =>
      cases r with
      | error e => rfl
      | ok =>
        cases hr : p.settings.role.isServer with
        | false => simp [Flow.elim]
        | true => simpa [Flow.elim] using hm (.readingState p) rfl rfl
  | readingState | holding | changing | removingSet | unlinking =>
    exact Move.accounts_of_still rfl fun _ => rfl
  | finalizing | openingSet | timedChanging | mapping | openingMailbox | attaching | publishing
  | collecting | rendezvous | removingMailbox | openingSignals | removingSignals =>
    refine Move.accounts_map.mpr (Move.Still.accounts (by simp) fun f => ?_)
    cases f with
    | more s => exact hm _ rfl rfl
    | done r => rfl

theorem call_jobs (c : Call) : c.next.Accounts true (tariff e (.jobs d k))
    (Flow.elim (fun c => load k ((c.jobs e d).map Job.tag)) fun _ => 0)
    (load k ((c.jobs e d).map Job.tag)) := by
  cases c with
  | destroying p s =>
    have heq : ∀ s, load k (((Call.destroying p s).jobs e d).map Job.tag) =
        if p.id = e then load k ((s.jobs d).map Job.tag) else 0 := fun s => by
      simp only [Call.jobs]
      split <;> rfl
    rw [heq]
    exact (destroying_jobs s).through heq fun _ => rfl
  | posting p d data handler s =>
    exact ((posting_spares (i := 0) s).2.accounts fun _ => rfl).through (fun _ => rfl) fun _ => rfl
  | waiting p d data s =>
    exact ((waiting_spares (i := 0) s).2.accounts fun _ => rfl).through (fun _ => rfl) fun _ => rfl
  | _ =>
    refine quiet_call_accounts (m := fun c => load k ((c.jobs e d).map Job.tag)) (fun c h _ => ?_)
      rfl rfl
    cases c <;> first | rfl | cases h

theorem call_number (c : Call) : c.next.Accounts false (tariff e (.number d n))
    (Flow.elim (fun c => c.numbers e d n) fun _ => 0) (c.numbers e d n) := by
  cases c with
  | destroying p s =>
    exact ((destroying_spares (i := 0) s).2.1.accounts fun _ => rfl).through (fun _ => rfl)
      fun _ => rfl
  | posting p d data handler s => exact (posting_number s).through (fun _ => rfl) fun _ => rfl
  | waiting p d data s => exact (waiting_number s).through (fun _ => rfl) fun _ => rfl
  | _ =>
    refine quiet_call_accounts (m := fun c => c.numbers e d n) (fun c _ h => ?_) rfl rfl
    cases c <;> first | rfl | cases h

theorem call_wait (h : c.Proper) : c.next.Accounts false (tariff e (.wait d n))
    (Flow.elim (fun c => c.waits e d n) fun _ => 0) (c.waits e d n) := by
  cases c with
  | destroying p s =>
    exact ((destroying_spares (i := 0) s).2.2.accounts fun _ => rfl).through (fun _ => rfl)
      fun _ => rfl
  | posting p d data handler s =>
    exact ((posting_takes_nothing s).accounts fun _ => rfl).through (fun _ => rfl) fun _ => rfl
  | waiting p d data s => exact (waiting_wait h).through (fun _ => rfl) fun _ => rfl
  | _ =>
    refine quiet_call_accounts (m := fun c => c.waits e d n) (fun c _ h => ?_) rfl rfl
    cases c <;> first | rfl | cases h

theorem ofOperation_new {op : Operation} (h : Call.ofOperation p op = .more c) :
    c.jobs e d = [] ∧ c.numbers e d n = 0 ∧ c.waits e d n = 0 := by
  cases op with
  | connect | accept | finalizeConnect | finalizeAccept =>
    simp only [Call.ofOperation, Call.requireRole] at h
    split at h <;> cases h
    exact ⟨rfl, rfl, rfl⟩
  | postSend | waitSend =>
    simp only [Call.ofOperation, Call.sendFits] at h
    split at h <;> cases h
    simp [Call.jobs, Call.numbers, Call.waits, Waiting.start, Waiting.numbers, Waiting.waits,
      Posting.numbers]
  | postReceive | waitReceive | readState | destroy =>
    cases h
    simp [Call.jobs, Call.numbers, Call.waits, Waiting.start, Waiting.numbers, Waiting.waits,
      Posting.numbers, Destroying.jobs]

theorem ofObject_new {op : ObjectOperation} (h : Call.ofObject op = .more c) :
    c.jobs e d = [] ∧ c.numbers e d n = 0 ∧ c.waits e d n = 0 := by
  cases op with
  | add =>
    simp only [Call.ofObject] at h
    split at h <;> cases h
    exact ⟨rfl, rfl, rfl⟩
  | change handle changes span =>
    simp only [Call.ofObject, TimedChange.start] at h
    split at h <;> cases h
    exact ⟨rfl, rfl, rfl⟩
  | publish m payload =>
    simp only [Call.ofObject, Mailbox.Publishing.start] at h
    split at h <;> cases h
    exact ⟨rfl, rfl, rfl⟩
  | _ =>
    cases h
    exact ⟨rfl, rfl, rfl⟩

end

/-- Everybody keeps to the tariff. -/
theorem holding_obeys (e : EndpointId) (a : Asset) :
    (holding e a).Obeys a.exact (tariff e a) := by
  cases a with
  | slot d i =>
    exact {
      call := fun c _ => (call_spares (k := fun _ => 0) c).1.accounts fun f => by cases f <;> rfl
      sender := fun p l s => sender_slot s
      receiver := fun p l s => receiver_slot s
      operation := fun _ => rfl
      object := fun _ => rfl
      fetch := fun p => by simp [holding, Sender.slot?]
      await := fun p => by simp [holding, Receiver.slot?]
      holding := fun _ => rfl }
  | jobs d k =>
    exact {
      call := fun c _ => call_jobs c
      sender := fun p l s => sender_jobs s
      receiver := fun p l s => receiver_jobs s
      operation := fun h => by simp [holding, (ofOperation_new (n := 0) h).1]
      object := fun h => by simp [holding, (ofObject_new (n := 0) h).1]
      fetch := fun p => by simp [holding, Sender.jobs]
      await := fun p => by simp [holding, Receiver.jobs]
      holding := fun _ => rfl }
  | number d n =>
    exact {
      call := fun c _ => call_number c
      sender := fun p l s => (sender_spares s).1.free.accounts fun f => by cases f <;> rfl
      receiver := fun p l s => (receiver_spares s).1.free.accounts fun f => by cases f <;> rfl
      operation := fun h => (ofOperation_new h).2.1
      object := fun h => (ofObject_new h).2.1
      fetch := fun p => rfl
      await := fun p => rfl
      holding := fun _ => rfl }
  | wait d n =>
    exact {
      call := fun c h => call_wait h
      sender := fun p l s => (sender_spares s).2.free.accounts fun f => by cases f <;> rfl
      receiver := fun p l s => (receiver_spares s).2.free.accounts fun f => by cases f <;> rfl
      operation := fun h => (ofOperation_new h).2.2
      object := fun h => (ofObject_new h).2.2
      fetch := fun p => rfl
      await := fun p => rfl
      holding := fun _ => rfl }

end QueuePair
