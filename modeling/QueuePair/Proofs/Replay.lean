import Mathlib.Data.List.Basic
import QueuePair.Outcome

namespace QueuePair

namespace Event

def accepted? (e : EndpointId) (d : Direction) : Event → Option Job
  | .noted e' (.accepted d' job) => if e' = e ∧ d' = d then some job else none
  | _ => none

def withdrawn? (e : EndpointId) (d : Direction) : Event → Option Nat
  | .noted e' (.withdrawn d' serial) => if e' = e ∧ d' = d then some serial else none
  | _ => none

def taken? (e : EndpointId) (d : Direction) : Event → Option Nat
  | .noted e' (.taken d' serial) => if e' = e ∧ d' = d then some serial else none
  | _ => none

def resolved? (e : EndpointId) (d : Direction) : Event → Option (Job × Option Error)
  | .noted e' (.resolved d' job error) => if e' = e ∧ d' = d then some (job, error) else none
  | _ => none

/-- The message that one of some threads published. -/
def stored? (f : ThreadId → Bool) : Event → Option Bytes
  | .stored t _ payload => if f t then some payload else none
  | _ => none

def looks (e : EndpointId) : Event → Bool
  | .noted e' .missed | .noted e' (.taken .receive _) => e' = e
  | _ => false

end Event

def replay {α : Type} (f : Event → Option α) (h : List Event) : List α :=
  h.reverse.filterMap f

@[simp] theorem replay_nil {α : Type} (f : Event → Option α) : replay f [] = [] := rfl

@[simp] theorem replay_cons {α : Type} (f : Event → Option α) (ev : Event) (h : List Event) :
    replay f (ev :: h) = replay f h ++ (f ev).toList := by
  cases hf : f ev <;> simp [replay, List.filterMap_append, hf]

/-- The accepted jobs that nobody withdrew. The record has the latest event first; the lists read
off it have the oldest first. -/
def kept (h : List Event) (e : EndpointId) (d : Direction) : List Job :=
  (replay (Event.accepted? e d) h).filter fun job =>
    job.serial ∉ replay (Event.withdrawn? e d) h

def fifo (h : List Event) (e : EndpointId) (d : Direction) : List Job :=
  (kept h e d).drop (replay (Event.taken? e d) h).length

def finds (e : EndpointId) : List Event → List (Option Job)
  | [] => []
  | ev :: h => finds e h ++ if ev.looks e then [(fifo h e .receive).head?] else []

def Honest (e : EndpointId) : List Event → Prop
  | [] => True
  | ev :: h => Honest e h ∧ (ev = .noted e .missed → fifo h e .receive = []) ∧
    ∀ d serial, ev = .noted e (.taken d serial) →
      ∃ job rest, fifo h e d = job :: rest ∧ job.serial = serial

structure Event.Silent (e : EndpointId) (ev : Event) : Prop where
  accepted : ∀ d, ev.accepted? e d = none
  withdrawn : ∀ d, ev.withdrawn? e d = none
  taken : ∀ d, ev.taken? e d = none
  looks : ev.looks e = false

section

variable {e : EndpointId} {d : Direction} {ev : Event} {h : List Event} {job : Job}

theorem silent_elsewhere {e' : EndpointId} {n : Note} (hne : e' ≠ e) :
    (Event.noted e' n).Silent e := by
  cases n with
  | taken d serial =>
    cases d <;> exact ⟨fun _ => rfl, fun _ => rfl, fun _ => if_neg fun h => hne h.1,
      by simp [Event.looks, hne]⟩
  | accepted | withdrawn =>
    exact ⟨fun _ => by simp [Event.accepted?, hne], fun _ => by simp [Event.withdrawn?, hne],
      fun _ => rfl, rfl⟩
  | missed => exact ⟨fun _ => rfl, fun _ => rfl, fun _ => rfl, by simp [Event.looks, hne]⟩
  | resolved | disconnected | acted => exact ⟨fun _ => rfl, fun _ => rfl, fun _ => rfl, rfl⟩

theorem silent_stored (t : ThreadId) (file : FileId) (payload : Bytes) :
    (Event.stored t file payload).Silent e :=
  ⟨fun _ => rfl, fun _ => rfl, fun _ => rfl, rfl⟩

theorem silent_loaded (t : ThreadId) (file : FileId) (r : Except Error Bytes) :
    (Event.loaded t file r).Silent e :=
  ⟨fun _ => rfl, fun _ => rfl, fun _ => rfl, rfl⟩

theorem kept_of_none (ha : ev.accepted? e d = none) (hw : ev.withdrawn? e d = none) :
    kept (ev :: h) e d = kept h e d := by
  simp [kept, ha, hw]

theorem finds_of_silent (hl : ev.looks e = false) : finds e (ev :: h) = finds e h := by
  simp [finds, hl]

theorem Event.Silent.honest (hs : ev.Silent e) (hh : Honest e h) : Honest e (ev :: h) := by
  refine ⟨hh, ?_, ?_⟩
  · rintro rfl
    have hl := hs.looks
    simp [Event.looks] at hl
  · rintro d serial rfl
    have ht := hs.taken d
    simp [Event.taken?] at ht

theorem kept_accepted (hnew : job.serial ∉ replay (Event.withdrawn? e d) h) :
    kept (.noted e (.accepted d job) :: h) e d = kept h e d ++ [job] := by
  simp [kept, Event.accepted?, Event.withdrawn?, List.filter_append, hnew]

theorem kept_accepted_ne {d' : Direction} (hne : d' ≠ d) :
    kept (.noted e (.accepted d' job) :: h) e d = kept h e d :=
  kept_of_none (by simp [Event.accepted?, hne]) rfl

theorem kept_withdrawn (serial : Nat) : kept (.noted e (.withdrawn d serial) :: h) e d =
    (kept h e d).filter fun job => job.serial ≠ serial := by
  simp only [kept, replay_cons, Event.accepted?, Event.withdrawn?, and_self, if_true,
    Option.toList_none, Option.toList_some, List.append_nil, List.filter_filter]
  refine List.filter_congr fun job _ => ?_
  simp [not_or, and_comm]

theorem kept_withdrawn_ne {d' : Direction} {serial : Nat} (hne : d' ≠ d) :
    kept (.noted e (.withdrawn d' serial) :: h) e d = kept h e d :=
  kept_of_none rfl (by simp [Event.withdrawn?, hne])

end

end QueuePair
