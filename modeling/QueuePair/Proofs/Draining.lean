import QueuePair.Proofs.Founding
import QueuePair.Proofs.Idle
import QueuePair.Proofs.Parking

namespace QueuePair

namespace EndpointCall

def prompt {α : Type} : EndpointCall α → Bool
  | .lockLink | .readLink | .takeLink | .awaitReply .. => false
  | _ => true

end EndpointCall

def Task.serves (e : EndpointId) (d : Direction) : Task → Bool
  | .sender p _ _ => p.id = e && d = .send
  | .receiver p _ _ => p.id = e && d = .receive
  | _ => false

namespace World

def Awaits {σ : Type} (w : World) : Move σ → Prop
  | .perform (.system (.change set _ _)) _ => (w.kernel.live? set).isSome = true
  | _ => False

def Lingers (w : World) (e : EndpointId) (d : Direction) : Prop :=
  ∃ th ∈ w.threads, th.task.serves e d = true ∧ w.Awaits th.next

variable {w : World} {e : EndpointId} {d : Direction} {t : ThreadId} {th : Thread} {x : Endpoint}

@[simp] theorem awaits_map {σ τ : Type} {m : Move σ} {f : σ → τ} :
    w.Awaits (m.map f) ↔ w.Awaits m := by
  cases m with
  | perform p next =>
    cases p with
    | system c => cases c <;> exact Iff.rfl
    | _ => exact Iff.rfl
  | _ => exact Iff.rfl

theorem awaits_of_outward {σ : Type} {m : Move σ} (hm : m.Outward) (ha : m ≠ .halt)
    (hs : w.Stands t m) : w.Awaits m := by
  cases m with
  | perform p next =>
    cases p with
    | system c =>
      cases c with
      | change set changes deadline =>
        obtain ⟨s, hlive, -⟩ := hs
        exact Option.isSome_iff_exists.mpr ⟨s, hlive⟩
      | _ => exact hs.elim
    | clock => exact hs.elim
    | _ => cases hm
  | invoke => cases hm
  | panic => exact hs.elim
  | halt => exact (ha rfl).elim

theorem call_prompt {α : Type} {c : EndpointCall α} (hc : c.prompt = true) :
    (x.call t c).isSome = true := by
  cases c with
  | release => simp only [Endpoint.call]; split <;> rfl
  | _ => first | rfl | cases hc

theorem access_goes {α σ : Type} {p : Party} {c : EndpointCall α} {next : α → σ}
    (hx : w.endpoints[p.id]? = some x) (hc : c.prompt = true) :
    ¬ w.Stands t (.access p c next) := by
  intro hs
  have hcall := call_prompt (x := x) (t := t) hc
  have hnone : (w.endpoints[p.id]?.bind (·.call t c)) = none := hs
  rw [hx, Option.bind_some] at hnone
  rw [hnone] at hcall
  cases hcall

section

variable {p : Party} {l : Link} (hx : w.endpoints[p.id]? = some x)
include hx

theorem failPending_goes (s : FailPending) : ¬ w.Stands t (s.next p d) := by
  cases s with
  | drain | notify => exact access_goes hx rfl
  | fail => exact id

theorem departing_goes (s : Departing) : ¬ w.Stands t (s.next p d) := by
  cases s with
  | readStopping | close | takeDisconnect => exact access_goes hx rfl
  | fail localEnd s =>
    simp only [Departing.next, Move.through, stands_map]
    exact failPending_goes hx s
  | disconnect => exact id

theorem sender_stands {s : Sender} (hs : w.Stands t (s.next p l)) :
    s = .parked ∨ w.Awaits (s.next p l) := by
  cases s with
  | fetch => exact (access_goes hx rfl hs).elim
  | parked => exact .inl rfl
  | publish slot job s =>
    refine .inr (awaits_of_outward (Move.outward_through.mpr (publishing_confined _ _ s).outward) ?_
      hs)
    cases s <;> exact fun h => by cases h
  | signal slot job => exact .inr (awaits_of_outward rfl (fun h => by cases h) hs)
  | complete | fail => exact hs.elim
  | recycle => exact (access_goes hx rfl hs).elim
  | depart s =>
    simp only [Sender.next, Move.through, stands_map] at hs
    exact (departing_goes hx s hs).elim

theorem receiver_stands {s : Receiver} (hs : w.Stands t (s.next p l)) :
    w.Awaits (s.next p l) := by
  cases s with
  | await => exact awaits_of_outward rfl (fun h => by cases h) hs
  | fetch => exact (access_goes hx rfl hs).elim
  | discard s =>
    refine awaits_of_outward (Move.outward_through.mpr (collecting_confined _ _ s).outward) ?_ hs
    cases s <;> exact fun h => by cases h
  | collect slot job s =>
    refine awaits_of_outward (Move.outward_through.mpr (collecting_confined _ _ s).outward) ?_ hs
    cases s <;> exact fun h => by cases h
  | complete | fail => exact hs.elim
  | recycle => exact (access_goes hx rfl hs).elim
  | depart s =>
    simp only [Receiver.next, Move.through, stands_map] at hs
    exact (departing_goes hx s hs).elim

end

/-- A closed endpoint at which nobody can move, and whose callbacks have all come back. -/
structure Rests (w : World) (e : EndpointId) : Prop where
  idle : w.Idle
  queued : w.Queued
  parked : w.Parked
  keeps : w.Keeps e
  settled : w.Settled e
  closed : ∃ x, w.endpoints[e]? = some x ∧ x.state = .closed
  silent : ∀ th ∈ w.threads, th.origin.attends e = true → th.callbacks = []
  unharmed : ¬ w.Harmed e

theorem stands_task (hs : w.Stands t th.next) (hc : th.callbacks = []) :
    w.Stands t th.task.next := by
  simpa [Thread.next, hc, stands_map] using hs

theorem awaits_task (ha : w.Awaits th.task.next) (hc : th.callbacks = []) :
    w.Awaits th.next := by
  simpa [Thread.next, hc] using ha

theorem attends_of_serves (hs : th.Shaped) (h : th.task.serves e d = true) :
    th.origin.attends e = true := by
  cases hs with
  | sender | receiver =>
    simp only [Task.serves, Bool.and_eq_true, decide_eq_true_eq] at h
    simpa [Task.attends] using h.1
  | _ => cases h

namespace Rests

theorem unparked (h : w.Rests e) (want : Want) (ht : w.threads[t]? = some th) :
    th.stance ≠ .parked e want := by
  intro hs
  obtain ⟨x, hx, hstopped, -⟩ := h.parked.reason ht hs
  obtain ⟨y, hy, hclosed⟩ := h.closed
  obtain ⟨z, hz, hopened⟩ := h.settled.opened
  obtain rfl := Option.some.inj (hx.symm.trans hy)
  obtain rfl := Option.some.inj (hx.symm.trans hz)
  rw [hopened.stopped hclosed] at hstopped
  cases hstopped

theorem lingers (h : w.Rests e) (hm : th ∈ w.threads) (hs : th.task.serves e d = true) :
    w.Lingers e d := by
  obtain ⟨t, ht⟩ := List.mem_iff_getElem?.mp hm
  have hc := h.silent th hm (attends_of_serves (h.keeps.shaped th hm) hs)
  have hstands := stands_task (h.idle.stands h.queued ht) hc
  obtain ⟨x, hx, -⟩ := h.closed
  refine ⟨th, hm, hs, awaits_task ?_ hc⟩
  obtain ⟨o, task, cs⟩ := th
  obtain rfl : cs = [] := hc
  cases task with
  | sender p l s =>
    simp only [Task.serves, Bool.and_eq_true, decide_eq_true_eq] at hs
    obtain ⟨rfl, rfl⟩ := hs
    simp only [Task.next, Move.through, stands_map, awaits_map] at hstands ⊢
    refine (sender_stands hx hstands).resolve_left ?_
    rintro rfl
    exact h.unparked .job ht rfl
  | receiver p l s =>
    simp only [Task.serves, Bool.and_eq_true, decide_eq_true_eq] at hs
    obtain ⟨rfl, rfl⟩ := hs
    simp only [Task.next, Move.through, stands_map, awaits_map] at hstands ⊢
    exact receiver_stands hx hstands
  | _ => cases hs

theorem serves_of_watch {task : Task} (h : task.watch e d ≠ .over) : task.serves e d = true := by
  cases task with
  | sender p l s | receiver p l s =>
    by_cases hp : p.id = e
    · cases d <;> simp_all [Task.watch, Task.serves]
    · simp [Task.watch, hp] at h
  | _ => exact (h rfl).elim

theorem empty (h : w.Rests e) (hl : ¬ w.Lingers e d) (hx : w.endpoints[e]? = some x) :
    (x.queue d).pending = .empty := by
  have hover : ∀ th ∈ w.threads, th.watch e d = .over := fun th hm => by
    by_contra hne
    exact hl (h.lingers hm (serves_of_watch hne))
  rcases h.settled.guarded d with hharm | ⟨th, hm, hw⟩ | ⟨y, hy, -, -, ⟨th, hm, hw⟩ | hp⟩
  · exact (h.unharmed hharm).elim
  · rw [hover th hm] at hw
    cases hw
  · rw [hover th hm] at hw
    cases hw
  · obtain rfl := Option.some.inj (hx.symm.trans hy)
    exact hp

theorem destroying_jobs (h : w.Rests e) {o : Option EndpointId} {p : Party} {s : Destroying}
    (ht : w.threads[t]? = some th) (hc : th.callbacks = []) (hp : p.id = e)
    (htask : th.task = .call o (.destroying p s)) : s.jobs d = [] := by
  obtain ⟨x, hx, -⟩ := h.closed
  cases s with
  | fail r d' s =>
    have hstands := stands_task (h.idle.stands h.queued ht) hc
    rw [htask] at hstands
    simp only [Task.next, Call.next, Destroying.next, Move.through, stands_map] at hstands
    exact (failPending_goes (hp ▸ hx) s hstands).elim
  | _ => rfl

/-- Without a worker nobody has anything of a queue in hand. -/
theorem holding_eq (h : w.Rests e) (hl : ¬ w.Lingers e d) (hm : th ∈ w.threads) :
    (∀ i, (holding e (.slot d i)).thread th = 0) ∧ ∀ k, (holding e (.jobs d k)).thread th = 0 := by
  have hshape := h.keeps.shaped th hm
  cases ha : th.origin.attends e with
  | false => exact ⟨fun _ => hshape.aloof ha rfl, fun _ => hshape.aloof ha rfl⟩
  | true =>
    have hc := h.silent th hm ha
    have hserves : th.task.serves e d = false := by
      by_contra hs
      exact hl (h.lingers hm ((Bool.not_eq_false _).mp hs))
    obtain ⟨t, ht⟩ := List.mem_iff_getElem?.mp hm
    cases hshape with
    | @sender p l s cs | @receiver p l s cs =>
      obtain rfl : cs = [] := hc
      simp only [Task.serves, Bool.and_eq_false_iff, decide_eq_false_iff_not] at hserves
      rcases hserves with hne | hne <;>
        simp [Holding.thread, Holding.task, holding, hne]
    | @destroying o p s cs =>
      obtain rfl : cs = [] := hc
      have hp : p.id = e := of_decide_eq_true ha
      have hjobs := h.destroying_jobs (d := d) ht rfl hp rfl
      simp [Holding.thread, Holding.task, holding, Call.jobs, hp, hjobs]
    | @call origin o c _ hd =>
      refine ⟨fun _ => rfl, fun _ => ?_⟩
      cases c <;> first | rfl | cases hd
    | leaving | ended => exact ⟨fun _ => rfl, fun _ => rfl⟩
    | @departing origin p out cs =>
      obtain rfl : cs = [] := hc
      exact ⟨fun _ => rfl, fun _ => rfl⟩

theorem hands (h : w.Rests e) (hl : ¬ w.Lingers e d) :
    (∀ i, w.hands e (.slot d i) = 0) ∧ ∀ k, w.hands e (.jobs d k) = 0 :=
  ⟨fun i => tally_eq_zero fun _ hm => (h.holding_eq hl hm).1 i,
    fun k => tally_eq_zero fun _ hm => (h.holding_eq hl hm).2 k⟩

theorem kept (h : w.Rests e) (d : Direction) :
    ((w.stores e).shelf d).Kept true d (w.hands e) :=
  (h.keeps.custody true fun _ => h.unharmed).kept d

theorem free (h : w.Rests e) (hl : ¬ w.Lingers e d) (hx : w.endpoints[e]? = some x) :
    ∀ s ∈ (x.queue d).slab.slots, s = .free := by
  have hk := h.kept d
  have hqueue := shelf_queue hx d
  have htidy := h.keeps.tidy hx d
  intro s hs
  refine htidy.free_of_idle (h.empty hl hx) (fun i => ?_) hs
  have hslot : w.hands e (.slot d i) = ((w.stores e).shelf d).queue.reserves i := hk.slots i
  rw [(h.hands hl).1, hqueue] at hslot
  exact hslot.symm

end Rests

end World

end QueuePair
