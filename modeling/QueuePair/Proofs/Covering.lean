import QueuePair.Proofs.Levels

namespace QueuePair

namespace Departing

def rests : Departing → Bool
  | .disconnect _ => false
  | _ => true

end Departing

namespace Sender

def rests : Sender → Bool
  | .recycle .. => true
  | .depart s => s.rests
  | _ => false

end Sender

namespace Receiver

def rests : Receiver → Bool
  | .recycle .. => true
  | .depart s => s.rests
  | _ => false

end Receiver

namespace Destroying

def rests : Destroying → Bool
  | .fail .. | .dropDisconnect _ => true
  | _ => false

end Destroying

namespace Call

def rests : Call → Bool
  | .destroying _ s => s.rests
  | _ => true

end Call

namespace Task

def rests : Task → Bool
  | .sender _ _ s => s.rests
  | .receiver _ _ s => s.rests
  | .call _ c => c.rests
  | .leaving .. | .ended _ => true

end Task

namespace Callback

def rests (c : Callback) : Bool :=
  c.call?.all Call.rests

end Callback

namespace Thread

structure Covered (th : Thread) : Prop where
  task : th.callbacks ≠ [] → th.task.rests = true
  callbacks : ∀ c ∈ th.callbacks.tail, c.rests = true

end Thread

namespace Move

variable {σ ρ τ : Type} {f : σ → Bool} {mv : Move σ}

def Rests (f : σ → Bool) : Move σ → Prop
  | .invoke _ _ after => f after = true
  | .perform .. | .panic | .halt => True

@[simp] theorem rests_map {g : τ → σ} {mv : Move τ} :
    (mv.map g).Rests f ↔ mv.Rests fun s => f (g s) := by
  cases mv <;> exact Iff.rfl

theorem rests_of_forall (hf : ∀ s, f s = true) : mv.Rests f := by
  cases mv with
  | invoke p i after => exact hf after
  | _ => trivial

theorem Rests.imp {g : σ → Bool} (h : mv.Rests f) (hg : ∀ s, f s = true → g s = true) :
    mv.Rests g := by
  cases mv with
  | invoke p i after => exact hg after h
  | _ => trivial

theorem Outward.rests (h : mv.Outward) : mv.Rests f := by
  cases mv with
  | invoke => exact h.elim
  | _ => trivial

def Lands (Q : Thread → Prop) : Move Thread → Prop
  | .perform _ next => ∀ a, Q (next a)
  | .invoke _ _ after => ∀ c : Option Callback, Q (after.push c)
  | .panic | .halt => True

theorem Into.lands {Q : Thread → Prop} {mv : Move Thread} (h : mv.Into Q)
    (hpush : ∀ (th : Thread) (c : Option Callback), Q th → Q (th.push c)) : mv.Lands Q := by
  cases mv with
  | perform p next => exact h
  | invoke p i after => exact fun c => hpush after c h
  | panic | halt => trivial

end Move

section

variable {p : Party} {l : Link} {d : Direction}

theorem departing_rests (s : Departing) :
    (s.next p d).Rests (Flow.elim Departing.rests fun _ => true) := by
  cases s with
  | fail localEnd s =>
    refine Move.rests_map.mpr (Move.rests_of_forall fun f => ?_)
    cases f <;> cases localEnd <;> rfl
  | disconnect => rfl
  | _ => trivial

theorem sender_rests (s : Sender) :
    (s.next p l).Rests (Flow.elim Sender.rests fun _ => true) := by
  cases s with
  | publish slot job s => exact Move.rests_map.mpr (publishing_confined _ _ s).outward.rests
  | depart s =>
    refine Move.rests_map.mpr ((departing_rests s).imp fun f hf => ?_)
    cases f with
    | more => exact hf
    | done => rfl
  | complete | fail => rfl
  | _ => trivial

theorem receiver_rests (s : Receiver) :
    (s.next p l).Rests (Flow.elim Receiver.rests fun _ => true) := by
  cases s with
  | discard s => exact Move.rests_map.mpr (collecting_confined _ _ s).outward.rests
  | collect slot job s => exact Move.rests_map.mpr (collecting_confined _ _ s).outward.rests
  | depart s =>
    refine Move.rests_map.mpr ((departing_rests s).imp fun f hf => ?_)
    cases f with
    | more => exact hf
    | done => rfl
  | complete | fail => rfl
  | _ => trivial

theorem destroying_rests (s : Destroying) :
    (s.next p).Rests (Flow.elim Destroying.rests fun _ => true) := by
  cases s with
  | remove l s => exact Move.rests_map.mpr (removal_confined l s).1.outward.rests
  | fail r d s =>
    refine Move.rests_map.mpr (Move.rests_of_forall fun f => ?_)
    cases f <;> cases d <;> rfl
  | _ => trivial

theorem call_rests (c : Call) : c.next.Rests (Flow.elim Call.rests fun _ => true) := by
  cases c with
  | destroying p s =>
    refine Move.rests_map.mpr ((destroying_rests s).imp fun f hf => ?_)
    cases f with
    | more => exact hf
    | done => rfl
  | connecting p s =>
    refine Move.rests_map.mpr (Move.rests_of_forall fun f => ?_)
    cases f with
    | more => rfl
    | done r =>
      cases r with
      | error => rfl
      | ok => cases hr : p.settings.role.isServer <;> simp [Flow.elim, Call.rests]
  | readingState | holding | changing | removingSet | unlinking => trivial
  | _ => exact Move.rests_map.mpr (Move.rests_of_forall fun f => by cases f <;> rfl)

theorem task_rests (a : Task) : a.next.Rests Task.rests := by
  cases a with
  | sender p l s =>
    refine Move.rests_map.mpr ((sender_rests s).imp fun f hf => ?_)
    cases f with
    | more => exact hf
    | done => rfl
  | receiver p l s =>
    refine Move.rests_map.mpr ((receiver_rests s).imp fun f hf => ?_)
    cases f with
    | more => exact hf
    | done => rfl
  | call owner c =>
    refine Move.rests_map.mpr ((call_rests c).imp fun f hf => ?_)
    cases f with
    | more => exact hf
    | done => cases owner <;> rfl
  | leaving =>
    refine Move.rests_map.mpr (Move.rests_of_forall fun f => ?_)
    cases f <;> rfl
  | ended => trivial

theorem callback_rests (c : Callback) : c.next.Rests fun o => o.all Callback.rests := by
  obtain ⟨q, lane, id, payload, index, state⟩ := c
  cases state with
  | running command call rest =>
    refine Move.rests_map.mpr ((call_rests call).imp fun f hf => ?_)
    cases f with
    | more => simpa [Flow.elim, Callback.rests, Callback.call?] using hf
    | done => simp [Flow.elim, Callback.rests, Callback.call?]
  | ended | panicking => trivial

end

namespace Thread

variable {e : EndpointId} {th : Thread}

theorem covered_nil (o task : Task) : Covered ⟨o, task, []⟩ :=
  ⟨fun h => absurd rfl h, by simp⟩

/-- Whatever a thread does, what it leaves under a callback rests. -/
theorem Covered.lands (h : th.Covered) : th.next.Lands Covered := by
  have hrests := task_rests th.task
  obtain ⟨o, task, cs⟩ := th
  cases cs with
  | nil =>
    simp only [next]
    cases hn : task.next with
    | perform p next => exact fun a => covered_nil o (next a)
    | invoke p i after =>
      rw [hn] at hrests
      intro c
      cases c with
      | none => exact covered_nil o after
      | some c => exact ⟨fun _ => hrests, by simp [push]⟩
    | panic | halt => trivial
  | cons c cs =>
    have htask : task.rests = true := h.task (by simp)
    have hcallback := callback_rests c
    have htail : ∀ f : Option Callback, Covered ⟨o, task, f.toList ++ cs⟩ := fun f => by
      refine ⟨fun _ => htask, fun b hb => ?_⟩
      cases f with
      | none => exact h.callbacks b (List.mem_of_mem_tail hb)
      | some => exact h.callbacks b hb
    simp only [next]
    cases hn : c.next with
    | perform p next => exact fun a => htail (next a)
    | invoke p i after =>
      rw [hn] at hcallback
      intro b
      cases b with
      | none => exact htail after
      | some b =>
        refine ⟨fun _ => htask, fun b' (hb : b' ∈ after.toList ++ cs) => ?_⟩
        rcases List.mem_append.mp hb with hb | hb
        · obtain rfl := Option.mem_toList.mp hb
          exact hcallback
        · exact h.callbacks b' hb
    | panic | halt => trivial

/-- A teardown that is not the innermost one has come to failing the queues. -/
theorem Covered.below (h : th.Covered) {s : Destroying} (hs : s ∈ th.below e) :
    s.rests = true := by
  have hcall : ∀ c : Call, c.rests = true → s ∈ c.tears e → s.rests = true := fun c hc hm => by
    cases c with
    | destroying p s' =>
      simp only [Call.tears, Call.destroying?] at hm
      split at hm
      · cases s' <;> simp_all [Destroying.begun, Call.rests]
      · cases hm
    | _ => cases hm
  obtain ⟨o, task, cs⟩ := th
  cases cs with
  | nil => cases hs
  | cons c cs =>
    rcases List.mem_append.mp hs with hs | hs
    · obtain ⟨b, hb, hs⟩ := List.mem_flatMap.mp hs
      have hrests := h.callbacks b hb
      cases hc : b.call? with
      | none => simp [Callback.tears, hc] at hs
      | some call =>
        simp only [Callback.rests, hc, Option.all_some] at hrests
        simp only [Callback.tears, hc, Option.elim_some] at hs
        exact hcall call hrests hs
    · have hrests : task.rests = true := h.task (by simp)
      cases task with
      | call owner c => exact hcall c hrests hs
      | _ => cases hs

end Thread

namespace World

variable {w v : World} {allowed : Input → Prop}

/-- What holds of every thread that begins or panicked, and wherever threads go, holds of all
threads. -/
theorem Atom.each {Q : Thread → Prop} (hworker : ∀ p l d, Q (.ofTask (worker p l d)))
    (hstart : ∀ {b : Thread}, w.Starts b → Q b) (hpanic : ∀ th : Thread, Q th.unwound)
    (hgo : ∀ th, Q th → th.next.Lands Q) (h : ∀ th ∈ w.threads, Q th) (ha : Atom allowed w v) :
    ∀ th ∈ v.threads, Q th := by
  intro b hb
  cases ha with
  | @act t th α p next u a ht hn hans =>
    have hgoes := hgo th (h th (List.mem_of_getElem? ht))
    rw [hn] at hgoes
    rcases List.mem_or_eq_of_mem_set hb with hb | rfl
    · rcases hans.threads_cases with he | ⟨q, l, d, he⟩
      · exact h b (he ▸ hb)
      · rw [he] at hb
        rcases List.mem_append.mp hb with hb | hb
        · exact h b hb
        · obtain rfl := List.mem_singleton.mp hb
          exact hworker q l d
    · exact hgoes a
  | @invoke t th p i after ht hn =>
    have hgoes := hgo th (h th (List.mem_of_getElem? ht))
    rw [hn] at hgoes
    rcases List.mem_or_eq_of_mem_set hb with hb | rfl
    · exact h b (invoke_threads p i ▸ hb)
    · exact hgoes _
  | @panic t th ht =>
    rw [panic_threads] at hb
    rcases List.mem_or_eq_of_mem_set hb with hb | rfl
    · exact h b hb
    · exact hpanic th
  | outside _ hi ha =>
    obtain ⟨n, hn⟩ := List.getElem?_of_mem hb
    rcases Nat.lt_or_ge n w.threads.length with hlt | hle
    · obtain ⟨news, hv, -⟩ := outside_threads hi ha
      rw [hv, List.getElem?_append_left hlt] at hn
      exact h b (List.mem_of_getElem? hn)
    · exact hstart (apply_new ha hn hle)
  | settle ha => exact h b (ha.threads ▸ hb)

theorem Atom.covered (h : ∀ th ∈ w.threads, th.Covered) (ha : Atom allowed w v) :
    ∀ th ∈ v.threads, th.Covered := by
  refine ha.each (fun _ _ _ => Thread.covered_nil _ _) (fun hb => ?_)
    (fun _ => Thread.covered_nil _ _) (fun _ hc => hc.lands) h
  obtain ⟨task, rfl⟩ := hb.ofTask
  exact Thread.covered_nil task task

theorem Run.covered (hr : Run allowed empty w) : ∀ th ∈ w.threads, th.Covered :=
  (hr.induction (m := fun u => ∀ th ∈ u.threads, th.Covered) (queued_of_new rfl) (by simp [empty])
    fun h ha => ha.covered h).1

end World

end QueuePair
