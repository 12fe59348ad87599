import QueuePair.Proofs.Backlog
import QueuePair.Proofs.Possession

namespace QueuePair

namespace Deed

inductive Turns (d : Direction) (j : Nat) : Deed → Slot Job → Slot Job → Prop
  | stay (act : Deed) (s : Slot Job) : Turns d j act s s
  | accept {job : Job} : Turns d j (.accept d job) .free (.posted job)
  | take {job : Job} : Turns d j (.take d j job) (.posted job) .inFlight
  | complete : Turns d j (.complete d j) .inFlight .free
  | withdraw {job : Job} : Turns d j (.withdraw d job.serial) (.posted job) .free
  | drain {job : Job} {jobs : List Job} : Turns d j (.drain d jobs) (.posted job) .free

end Deed

namespace WorkQueue

variable {α : Type} {q q' : WorkQueue α} {a : α} {i j : Nat} {s : Slot α}

theorem slots_set {slots : List (Slot α)} {x : Slot α} (hi : slots[i]? = some s) (j : Nat) :
    (slots.set i x)[j]? = if j = i then some x else slots[j]? := by
  by_cases hj : j = i
  · subst hj
    rw [if_pos rfl, List.getElem?_set_self (List.getElem?_eq_some_iff.mp hi).1]
  · rw [if_neg hj, List.getElem?_set_ne (Ne.symm hj)]

theorem Tidy.next_slots {r : Option (Nat × α)} (ht : q.Tidy) (h : q.next = (r, q')) :
    (r = none ∧ q'.slab = q.slab) ∨ ∃ i a, r = some (i, a) ∧
      q.slab.slots[i]? = some (.posted a) ∧ q'.slab.slots = q.slab.slots.set i .inFlight := by
  obtain ⟨⟨slots, free⟩, ⟨is⟩⟩ := q
  cases is with
  | nil =>
    obtain ⟨rfl, rfl⟩ := Prod.mk.inj h
    exact .inl ⟨rfl, rfl⟩
  | cons i is =>
    obtain ⟨a, ha⟩ := (ht.posted i).mp (by simp)
    have hget : Slab.get? ⟨slots, free⟩ i = some a := Slab.get?_eq_some.mpr ha
    simp only [WorkQueue.next, takeFirst, Slab.take, hget, Option.map_some] at h
    obtain ⟨rfl, rfl⟩ := Prod.mk.inj h
    exact .inr ⟨i, a, rfl, ha, rfl⟩

theorem Tidy.cancel_slots {p : α → Bool} (ht : q.Tidy) (h : q.cancel p = (some a, q')) :
    ∃ i, q.slab.slots[i]? = some (.posted a) ∧ p a = true ∧
      q'.slab.slots = q.slab.slots.set i .free := by
  simp only [WorkQueue.cancel] at h
  cases hf : q.pending.indices.find? fun i => (q.slab.get? i).any p with
  | none => simp [hf] at h
  | some i =>
    obtain ⟨b, hb⟩ := (ht.posted i).mp (List.mem_of_find?_eq_some hf)
    have hget : q.slab.get? i = some b := Slab.get?_eq_some.mpr hb
    have hself : (q.slab.slots.set i .inFlight)[i]? = some .inFlight :=
      List.getElem?_set_self (List.getElem?_eq_some_iff.mp hb).1
    have hp := List.find?_some hf
    simp only [hget, Option.any_some] at hp
    simp only [hf, Slab.take, hget, Option.map_some, Slab.release, hself, List.set_set] at h
    obtain ⟨hab, rfl⟩ := Prod.mk.inj h
    obtain rfl := Option.some.inj hab
    exact ⟨i, hb, hp, rfl⟩

theorem Tidy.drain_slots {as : List α} (ht : q.Tidy) (h : q.drain = (as, q'))
    (hs : q.slab.slots[j]? = some s) : q'.slab.slots[j]? = some s ∨
      (∃ a, s = .posted a) ∧ q'.slab.slots[j]? = some .free := by
  have hdepth : q'.slab.slots.length = q.slab.slots.length :=
    (congrArg (·.2.depth) h).symm.trans (drain_depth q)
  obtain ⟨ht', -, hempty, hres⟩ := ht.drain h
  obtain ⟨s', hs'⟩ : ∃ s', q'.slab.slots[j]? = some s' :=
    ⟨_, List.getElem?_eq_getElem (hdepth ▸ (List.getElem?_eq_some_iff.mp hs).1)⟩
  have huse : s'.inUse = s.inUse := by simpa [reserves, hs, hs'] using hres j
  have hnot : ∀ a, s' ≠ .posted a := by
    rintro a rfl
    have hm := (ht'.posted j).mpr ⟨a, hs'⟩
    simp [hempty, Fifo.empty] at hm
  rw [hs']
  cases s' with
  | posted a => exact (hnot a rfl).elim
  | free =>
    cases s with
    | free => exact .inl rfl
    | posted a => exact .inr ⟨⟨a, rfl⟩, rfl⟩
    | inFlight => cases huse
  | inFlight =>
    cases s with
    | inFlight => exact .inl rfl
    | free | posted => cases huse

end WorkQueue

/-- What a deed makes of every entry of the queue that it is about. -/
theorem Shelf.Does.turns {x y : Shelf} {d : Direction} {act : Deed} (hx : x.Does d act y)
    (ht : x.queue.Tidy) (hres : ∀ i, act = .complete d i → x.queue.Reserved i) {j : Nat}
    {s : Slot Job} (hs : x.queue.slab.slots[j]? = some s) :
    ∃ s', y.queue.slab.slots[j]? = some s' ∧ Deed.Turns d j act s s' := by
  have hput : ∀ {i : Nat} {old new : Slot Job} {slots : List (Slot Job)},
      x.queue.slab.slots[i]? = some old → slots = x.queue.slab.slots.set i new →
      Deed.Turns d i act old new → ∃ s', slots[j]? = some s' ∧ Deed.Turns d j act s s' := by
    rintro i old new slots hi rfl hturn
    rw [WorkQueue.slots_set hi]
    by_cases hj : j = i
    · subst hj
      obtain rfl := Option.some.inj (hs.symm.trans hi)
      exact ⟨new, if_pos rfl, hturn⟩
    · exact ⟨s, by rw [if_neg hj, hs], .stay act s⟩
  cases hx with
  | rest | resolve => exact ⟨s, hs, .stay _ s⟩
  | accept hq =>
    obtain ⟨i, rest, hf, rfl⟩ := WorkQueue.post_eq hq
    exact hput ((ht.free i).mp (by simp [hf])) rfl .accept
  | take hq =>
    obtain ⟨h, -⟩ | ⟨i, a, hr, hi, hslots⟩ := ht.next_slots hq
    · cases h
    · cases hr
      exact hput hi hslots .take
  | miss hq =>
    obtain ⟨-, hslab⟩ | ⟨i, a, hr, -⟩ := ht.next_slots hq
    · exact ⟨s, hslab ▸ hs, .stay _ s⟩
    · cases hr
  | @complete slot =>
    have hslot := hres slot rfl
    exact hput hslot (by rw [WorkQueue.release_eq hslot]) .complete
  | @withdraw serial job q hq =>
    obtain ⟨i, hi, hp, hslots⟩ := ht.cancel_slots hq
    obtain rfl : job.serial = serial := of_decide_eq_true hp
    exact hput hi hslots .withdraw
  | drain hq =>
    rcases ht.drain_slots hq hs with h | ⟨⟨a, rfl⟩, h⟩
    · exact ⟨s, h, .stay _ s⟩
    · exact ⟨.free, h, .drain⟩

theorem Stores.Does.turns {x y : Stores} {act : Deed} (hx : x.Does act y) {d : Direction}
    (ht : (x.shelf d).queue.Tidy)
    (hres : ∀ i, act = .complete d i → (x.shelf d).queue.Reserved i) {j : Nat} {s : Slot Job}
    (hs : (x.shelf d).queue.slab.slots[j]? = some s) :
    ∃ s', (y.shelf d).queue.slab.slots[j]? = some s' ∧ Deed.Turns d j act s s' := by
  cases hx with
  | number => exact ⟨s, hs, .stay _ s⟩
  | @lane d' _ shelf hx =>
    by_cases hd : d = d'
    · subst hd
      simp only [Function.update_self]
      exact hx.turns ht hres hs
    · simp only [Function.update_of_ne hd]
      exact ⟨s, hs, .stay _ s⟩

theorem Stores.Does.posted_of_take {x y : Stores} {d : Direction} {j : Nat} {job : Job}
    (hx : x.Does (.take d j job) y) (ht : (x.shelf d).queue.Tidy) :
    (x.shelf d).queue.slab.slots[j]? = some (.posted job) := by
  cases hx with
  | lane hx =>
    cases hx with
    | take hq =>
      obtain ⟨h, -⟩ | ⟨i, a, hr, hi, -⟩ := ht.next_slots hq
      · cases h
      · cases hr
        exact hi

namespace Sender

def work? : Sender → Option (Nat × Nat)
  | .publish slot job _ | .signal slot job | .complete slot job | .fail slot job _ =>
    some (slot, job.serial)
  | _ => none

def given? : Sender → Option Nat
  | .recycle slot _ => some slot
  | _ => none

end Sender

namespace Receiver

def work? : Receiver → Option (Nat × Nat)
  | .collect slot job _ | .complete slot job | .fail slot job _ => some (slot, job.serial)
  | _ => none

def given? : Receiver → Option Nat
  | .recycle slot _ => some slot
  | _ => none

end Receiver

namespace Task

def work? (e : EndpointId) (d : Direction) : Task → Option (Nat × Nat)
  | .sender p _ s => if p.id = e ∧ d = .send then s.work? else none
  | .receiver p _ s => if p.id = e ∧ d = .receive then s.work? else none
  | _ => none

def given? (e : EndpointId) (d : Direction) : Task → Option Nat
  | .sender p _ s => if p.id = e ∧ d = .send then s.given? else none
  | .receiver p _ s => if p.id = e ∧ d = .receive then s.given? else none
  | _ => none

theorem given?_of_work? {e : EndpointId} {d : Direction} {task : Task} {x : Nat × Nat}
    (h : task.work? e d = some x) : task.given? e d = none := by
  cases task with
  | sender p l s =>
    simp only [work?] at h
    split at h <;> cases s <;> simp_all [given?, Sender.work?, Sender.given?]
  | receiver p l s =>
    simp only [work?] at h
    split at h <;> cases s <;> simp_all [given?, Receiver.work?, Receiver.given?]
  | call | leaving | ended => rfl

theorem given?_finish (e : EndpointId) (d : Direction) (owner : Option EndpointId)
    (out : Outcome) : (finish owner out).given? e d = none := by
  cases owner <;> rfl

theorem work?_finish (e : EndpointId) (d : Direction) (owner : Option EndpointId)
    (out : Outcome) : (finish owner out).work? e d = none := by
  cases owner <;> rfl

end Task

namespace Move

variable {σ ρ τ : Type} {e : EndpointId} {d : Direction} {work : σ → Option (Nat × Nat)}
  {given : σ → Option Nat} {now : Option (Nat × Nat)} {still : Option Nat} {mv : Move σ}

/-- Whoever takes an entry works on its job then and on no other one, and whoever gives an entry
back has given its job back before, which is the job that it worked on. -/
def TracksJob (e : EndpointId) (d : Direction) (work : σ → Option (Nat × Nat))
    (given : σ → Option Nat) (now : Option (Nat × Nat)) (still : Option Nat) : Move σ → Prop
  | .perform p next => ∀ a,
      (∀ j job, p.deed e a = .take d j job → work (next a) = some (j, job.serial)) ∧
      (∀ j, p.deed e a = .complete d j → still = some j) ∧
      (given (next a) = none ∨ given (next a) = still) ∧
      (work (next a) = none ∨ work (next a) = now ∨
        ∃ j job, p.deed e a = .take d j job ∧ work (next a) = some (j, job.serial))
  | .invoke p i after => (work after = none ∨ work after = now) ∧
      (given after = none ∨ given after = still ∨
        ∃ j job error, now = some (j, job.serial) ∧ p.id = e ∧ i = .resolve d job error ∧
          given after = some j)
  | .panic | .halt => True

@[simp] theorem tracksJob_map {f : τ → σ} {mv : Move τ} :
    (mv.map f).TracksJob e d work given now still ↔
      mv.TracksJob e d (fun s => work (f s)) (fun s => given (f s)) now still := by
  cases mv <;> exact Iff.rfl

theorem TracksJob.congr {work' : σ → Option (Nat × Nat)} {given' : σ → Option Nat}
    (h : mv.TracksJob e d work given now still) (hw : ∀ s, work' s = work s)
    (hg : ∀ s, given' s = given s) : mv.TracksJob e d work' given' now still := by
  obtain rfl : work' = work := funext hw
  obtain rfl : given' = given := funext hg
  exact h

theorem tracksJob_of_spares (h : ∀ j, mv.Spares e (.slot d j))
    (hg : mv.Into fun s => given s = none ∧ (work s = none ∨ work s = now)) :
    mv.TracksJob e d work given now still := by
  cases mv with
  | perform p next =>
    refine fun a => ⟨fun j job hd => ?_, fun j hd => ?_, .inl (hg a).1,
      (hg a).2.imp_right .inl⟩
    · have hbrings := (h j a).1
      simp [hd, Deed.brings] at hbrings
    · have hcosts := (h j a).2
      simp [hd, Deed.costs] at hcosts
  | invoke p i after => exact ⟨hg.2, .inl hg.1⟩
  | panic | halt => trivial

end Move

section

variable {e : EndpointId} {p : Party} {l : Link} {d : Direction}

theorem ofJob_work (l : Link) (slot : Nat) (job : Job) :
    (Sender.ofJob l slot job).work? = some (slot, job.serial) ∧
      (Sender.ofJob l slot job).given? = none := by
  simp only [Sender.ofJob, Mailbox.Publishing.start]
  split <;> exact ⟨rfl, rfl⟩

/-- Of whoever has no entry to give back, and works on what was worked on before if on anything, the
same is to be said for each endpoint and direction. -/
theorem gated_none {σ : Type} {P : Prop} [Decidable P] {given : σ → Option Nat}
    {work : σ → Option (Nat × Nat)} {now : Option (Nat × Nat)} {f : Flow σ Unit}
    (hf : ∀ b, f = .more b → given b = none ∧ (work b = none ∨ work b = now)) :
    f.elim (fun b => if P then given b else none) (fun _ => none) = none ∧
      (f.elim (fun b => if P then work b else none) (fun _ => none) = none ∨
        f.elim (fun b => if P then work b else none) (fun _ => none) =
          if P then now else none) := by
  cases f with
  | more b =>
    obtain ⟨hgiven, hwork⟩ := hf b rfl
    refine ⟨by simp only [Flow.elim, hgiven, ite_self], ?_⟩
    rcases hwork with hwork | hwork
    · exact .inl (by simp only [Flow.elim, hwork, ite_self])
    · exact .inr (by simp only [Flow.elim, hwork])
  | done => exact ⟨rfl, .inl rfl⟩

theorem sender_tracksJob (s : Sender) : (s.next p l).TracksJob e d
    (Flow.elim (fun s => if p.id = e ∧ d = .send then s.work? else none) fun _ => none)
    (Flow.elim (fun s => if p.id = e ∧ d = .send then s.given? else none) fun _ => none)
    (if p.id = e ∧ d = .send then s.work? else none)
    (if p.id = e ∧ d = .send then s.given? else none) := by
  cases s with
  | fetch =>
    intro r
    cases r with
    | stopped | empty =>
      refine ⟨fun j job hd => ?_, fun j hd => ?_, ?_⟩
      · simp only [Primitive.deed, EndpointCall.deed, Supply.deed] at hd
        split at hd <;> cases hd
      · simp only [Primitive.deed, EndpointCall.deed, Supply.deed] at hd
        split at hd <;> cases hd
      · refine (gated_none ?_).imp .inl fun h => h.imp_right .inl
        rintro b ⟨⟩
        exact ⟨rfl, .inl rfl⟩
    | job slot job =>
      obtain ⟨hwork, hgiven⟩ := ofJob_work l slot job
      simp only [Primitive.deed, EndpointCall.deed, Supply.deed, Flow.elim, hwork, hgiven]
      by_cases hp : p.id = e ∧ d = .send
      · obtain ⟨rfl, rfl⟩ := hp
        simp
      · have hd : d = .send → p.id ≠ e := fun hd he => hp ⟨he, hd⟩
        refine ⟨fun j job' h => ?_, fun j h => ?_, .inl (if_neg hp), .inl (if_neg hp)⟩
        · split at h <;> cases h
          exact absurd ‹_› (hd rfl)
        · split at h <;> cases h
  | parked =>
    refine Move.tracksJob_of_spares (fun _ => Move.Still.spares rfl) fun _ => gated_none ?_
    rintro b ⟨⟩
    exact ⟨rfl, .inl rfl⟩
  | publish slot job s =>
    refine Move.tracksJob_of_spares
      (fun _ => (Move.still_through.mpr (publishing_confined _ _ s).outward.still).spares)
      (Move.into_map.mpr (Move.into_of_forall fun f => gated_none ?_))
    cases f with
    | more =>
      rintro b ⟨⟩
      exact ⟨rfl, .inr rfl⟩
    | done r => cases r <;> rintro b ⟨⟩ <;> exact ⟨rfl, .inr rfl⟩
  | signal slot job =>
    refine Move.tracksJob_of_spares (fun _ => Move.Still.spares rfl) fun r => gated_none ?_
    cases r <;> rintro b ⟨⟩ <;> exact ⟨rfl, .inr rfl⟩
  | complete slot job | fail slot job error =>
    by_cases hp : p.id = e ∧ d = .send
    · obtain ⟨hp, rfl⟩ := hp
      exact ⟨.inl (by simp [Flow.elim, Sender.work?]), .inr (.inr ⟨slot, job, _,
        by simp [hp, Sender.work?], hp, rfl, by simp [Flow.elim, hp, Sender.given?]⟩)⟩
    · exact ⟨.inl (by simp [Flow.elim, hp]), .inl (by simp [Flow.elim, hp])⟩
  | recycle slot goOn =>
    refine fun r => ⟨fun j job hd => ?_, fun j hd => ?_, ?_⟩
    · simp only [Primitive.deed, EndpointCall.deed] at hd
      split at hd <;> cases hd
    · simp only [Primitive.deed, EndpointCall.deed] at hd
      split at hd
      · rename_i hp
        cases hd
        simp [hp, Sender.given?]
      · cases hd
    · refine (gated_none ?_).imp .inl fun h => h.imp_right .inl
      rintro b ⟨⟩
      cases goOn <;> exact ⟨rfl, .inl rfl⟩
  | depart s =>
    refine Move.tracksJob_of_spares
      (fun i => Move.spares_through.mpr (departing_spares (n := 0) s).1)
      (Move.into_map.mpr (Move.into_of_forall fun f => gated_none ?_))
    cases f <;> rintro b ⟨⟩
    exact ⟨rfl, .inl rfl⟩

theorem receiver_tracksJob (s : Receiver) : (s.next p l).TracksJob e d
    (Flow.elim (fun s => if p.id = e ∧ d = .receive then s.work? else none) fun _ => none)
    (Flow.elim (fun s => if p.id = e ∧ d = .receive then s.given? else none) fun _ => none)
    (if p.id = e ∧ d = .receive then s.work? else none)
    (if p.id = e ∧ d = .receive then s.given? else none) := by
  cases s with
  | await =>
    refine Move.tracksJob_of_spares (fun _ => Move.Still.spares rfl) fun r => gated_none ?_
    cases r <;> rintro b ⟨⟩ <;> exact ⟨rfl, .inl rfl⟩
  | fetch =>
    intro r
    cases r with
    | none =>
      refine ⟨fun j job hd => ?_, fun j hd => ?_, ?_⟩
      · simp only [Primitive.deed, EndpointCall.deed, Option.elim] at hd
        split at hd <;> cases hd
      · simp only [Primitive.deed, EndpointCall.deed, Option.elim] at hd
        split at hd <;> cases hd
      · refine (gated_none ?_).imp .inl fun h => h.imp_right .inl
        rintro b ⟨⟩
        exact ⟨rfl, .inl rfl⟩
    | some taken =>
      obtain ⟨slot, job⟩ := taken
      simp only [Primitive.deed, EndpointCall.deed, Option.elim, Flow.elim, Receiver.work?,
        Receiver.given?]
      by_cases hp : p.id = e ∧ d = .receive
      · obtain ⟨rfl, rfl⟩ := hp
        simp
      · have hd : d = .receive → p.id ≠ e := fun hd he => hp ⟨he, hd⟩
        refine ⟨fun j job' h => ?_, fun j h => ?_, .inl (if_neg hp), .inl (if_neg hp)⟩
        · split at h <;> cases h
          exact absurd ‹_› (hd rfl)
        · split at h <;> cases h
  | discard s =>
    refine Move.tracksJob_of_spares
      (fun _ => (Move.still_through.mpr (collecting_confined _ _ s).outward.still).spares)
      (Move.into_map.mpr (Move.into_of_forall fun f => gated_none ?_))
    cases f with
    | more =>
      rintro b ⟨⟩
      exact ⟨rfl, .inl rfl⟩
    | done c =>
      rintro b ⟨⟩
      simp only [Receiver.discarded]
      split
      · exact ⟨rfl, .inl rfl⟩
      · split <;> exact ⟨rfl, .inl rfl⟩
  | collect slot job s =>
    refine Move.tracksJob_of_spares
      (fun _ => (Move.still_through.mpr (collecting_confined _ _ s).outward.still).spares)
      (Move.into_map.mpr (Move.into_of_forall fun f => gated_none ?_))
    cases f with
    | more =>
      rintro b ⟨⟩
      exact ⟨rfl, .inr rfl⟩
    | done c =>
      rintro b ⟨⟩
      simp only [Receiver.collected]
      split <;> exact ⟨rfl, .inr rfl⟩
  | complete slot job | fail slot job error =>
    by_cases hp : p.id = e ∧ d = .receive
    · obtain ⟨hp, rfl⟩ := hp
      exact ⟨.inl (by simp [Flow.elim, Receiver.work?]), .inr (.inr ⟨slot, job, _,
        by simp [hp, Receiver.work?], hp, rfl, by simp [Flow.elim, hp, Receiver.given?]⟩)⟩
    · exact ⟨.inl (by simp [Flow.elim, hp]), .inl (by simp [Flow.elim, hp])⟩
  | recycle slot goOn =>
    refine fun r => ⟨fun j job hd => ?_, fun j hd => ?_, ?_⟩
    · simp only [Primitive.deed, EndpointCall.deed] at hd
      split at hd <;> cases hd
    · simp only [Primitive.deed, EndpointCall.deed] at hd
      split at hd
      · rename_i hp
        cases hd
        simp [hp, Receiver.given?]
      · cases hd
    · refine (gated_none ?_).imp .inl fun h => h.imp_right .inl
      rintro b ⟨⟩
      cases goOn <;> exact ⟨rfl, .inl rfl⟩
  | depart s =>
    refine Move.tracksJob_of_spares
      (fun i => Move.spares_through.mpr (departing_spares (n := 0) s).1)
      (Move.into_map.mpr (Move.into_of_forall fun f => gated_none ?_))
    cases f <;> rintro b ⟨⟩
    exact ⟨rfl, .inl rfl⟩

theorem task_tracksJob (task : Task) : task.next.TracksJob e d (Task.work? e d) (Task.given? e d)
    (task.work? e d) (task.given? e d) := by
  cases task with
  | sender p l s =>
    refine Move.tracksJob_map.mpr ((sender_tracksJob s).congr (fun f => ?_) fun f => ?_) <;>
      cases f <;> rfl
  | receiver p l s =>
    refine Move.tracksJob_map.mpr ((receiver_tracksJob s).congr (fun f => ?_) fun f => ?_) <;>
      cases f <;> rfl
  | call owner c =>
    refine Move.tracksJob_of_spares
      (fun i => Move.spares_through.mpr (call_spares (k := fun _ => 0) c).1)
      (Move.into_map.mpr (Move.into_of_forall fun f => ?_))
    cases f with
    | more => exact ⟨rfl, .inl rfl⟩
    | done r => exact ⟨Task.given?_finish _ _ _ _, .inl (Task.work?_finish _ _ _ _)⟩
  | leaving e' s out =>
    refine Move.tracksJob_of_spares
      (fun i => (Move.still_through.mpr (leaving_still e' s)).spares)
      (Move.into_map.mpr (Move.into_of_forall fun f => ?_))
    cases f <;> exact ⟨rfl, .inl rfl⟩
  | ended => trivial

end

namespace Thread

variable {e : EndpointId} {d : Direction} {th : Thread} {j : Nat}

theorem callback_spares (c : Callback) : c.next.Spares e (.slot d j) := by
  obtain ⟨q, lane, id, payload, index, state⟩ := c
  cases state with
  | running command call rest =>
    exact Move.spares_through.mpr (call_spares (k := fun _ => 0) call).1
  | ended => exact fun _ => ⟨rfl, rfl⟩
  | panicking => trivial

theorem tracksJob (th : Thread) : th.next.TracksJob e d (fun th => th.task.work? e d)
    (fun th => th.task.given? e d) (th.task.work? e d) (th.task.given? e d) := by
  obtain ⟨o, task, cs⟩ := th
  cases cs with
  | nil =>
    simp only [next, Move.tracksJob_map]
    exact task_tracksJob task
  | cons c cs =>
    have hspares := fun j => callback_spares (e := e) (d := d) (j := j) c
    simp only [next, Move.tracksJob_map]
    generalize c.next = mv at hspares ⊢
    cases mv with
    | perform p next =>
      refine fun a => ⟨fun j job hd => ?_, fun j hd => ?_, .inr rfl, .inr (.inl rfl)⟩
      · have hbrings := (hspares j a).1
        simp [hd, Deed.brings] at hbrings
      · have hcosts := (hspares j a).2
        simp [hd, Deed.costs] at hcosts
    | invoke p i after => exact ⟨.inr rfl, .inr (.inl rfl)⟩
    | panic | halt => trivial

theorem callbacks_over {α : Type} {p : Primitive α} {next : α → Thread} {a : α}
    (hn : th.next = .perform p next) (hd : p.deed e a = .complete d j) : th.callbacks = [] := by
  obtain ⟨o, task, cs⟩ := th
  cases cs with
  | nil => rfl
  | cons c cs =>
    have hspares : (Thread.next ⟨o, task, c :: cs⟩).Spares e (.slot d j) := by
      simp only [Thread.next, Move.spares_map]
      exact callback_spares c
    rw [hn] at hspares
    have hcosts := (hspares a).2
    simp [hd, Deed.costs] at hcosts

end Thread

end QueuePair
