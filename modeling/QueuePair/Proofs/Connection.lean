import QueuePair.Proofs.Covering
import QueuePair.Proofs.Range

namespace QueuePair

def Task.connection? : Task → Option (Party × Connecting)
  | .call _ (.connecting p s) => some (p, s)
  | _ => none

def Thread.connection? (th : Thread) : Option (Party × Connecting) :=
  th.task.connection?

theorem Call.next_connection (o : Option EndpointId) (c : Call) :
    c.next.Into (Flow.elim (fun c' => ∀ a ∈ (Task.call o c').connection?,
      ∃ s, (Task.call o c).connection? = some (a.1, s)) fun _ => True) := by
  cases c with
  | connecting p s =>
    refine Move.into_map.mpr (Move.into_of_forall fun f => ?_)
    cases f with
    | more s' =>
      rintro a ha
      obtain rfl := Option.some.inj ha
      exact ⟨s, rfl⟩
    | done r =>
      cases r with
      | error => trivial
      | ok => cases hr : p.settings.role.isServer <;> simp [Flow.elim, Task.connection?]
  | readingState | holding | changing | removingSet | unlinking => exact fun _ => trivial
  | _ =>
    refine Move.into_map.mpr (Move.into_of_forall fun f => ?_)
    cases f with
    | more => exact fun a ha => by cases ha
    | done => trivial

theorem Task.connection?_finish (owner : Option EndpointId) (out : Outcome) :
    (finish owner out).connection? = none := by
  cases owner <;> rfl

theorem Task.next_connection (task : Task) :
    task.next.Into fun b => ∀ a ∈ b.connection?, ∃ s, task.connection? = some (a.1, s) := by
  cases task with
  | call o c =>
    refine Move.into_map.mpr ((Call.next_connection o c).mono fun f hf => ?_)
    cases f with
    | more c => exact hf
    | done r =>
      rintro a ha
      cases (connection?_finish o (.returned r)).symm.trans ha
  | ended => trivial
  | _ =>
    refine Move.into_map.mpr (Move.into_of_forall fun f => ?_)
    cases f <;> exact fun a ha => by cases ha

theorem Thread.next_connection (th : Thread) :
    th.next.Into fun b => ∀ a ∈ b.connection?, ∃ s, th.connection? = some (a.1, s) := by
  obtain ⟨o, task, cs⟩ := th
  cases cs with
  | nil =>
    simp only [next, Move.into_map]
    exact task.next_connection
  | cons c cs =>
    simp only [next, Move.into_map]
    exact Move.into_of_forall fun _ a ha => ⟨a.2, ha⟩

theorem Task.connection?_operation {o : Option EndpointId} {p : Party} {op : Operation} :
    ∀ a ∈ (Task.ofStarted o (Call.ofOperation p op)).connection?, a.1 = p := by
  have hfinish : ∀ r, ∀ a ∈ (Task.ofStarted o (.done r)).connection?, a.1 = p := fun r a ha => by
    cases (connection?_finish o (.returned r)).symm.trans ha
  cases op with
  | connect | accept | finalizeConnect | finalizeAccept =>
    simp only [Call.ofOperation, Call.requireRole]
    split
    · rintro a ha
      cases ha <;> rfl
    · exact hfinish _
  | postSend | waitSend =>
    simp only [Call.ofOperation, Call.sendFits]
    split
    · exact hfinish _
    · exact fun a ha => by cases ha
  | postReceive | waitReceive | readState | destroy => exact fun a ha => by cases ha

theorem Task.connection?_request {o : Option EndpointId} {op : ObjectOperation} :
    (Task.ofStarted o (Call.ofObject op)).connection? = none := by
  cases op with
  | add =>
    simp only [Call.ofObject]
    split <;> first | rfl | exact connection?_finish _ _
  | change handle changes span =>
    simp only [Call.ofObject, TimedChange.start]
    split <;> first | rfl | exact connection?_finish _ _
  | publish m payload =>
    simp only [Call.ofObject, Mailbox.Publishing.start]
    split <;> first | rfl | exact connection?_finish _ _
  | _ => rfl

namespace World

variable {w v : World} {e : EndpointId} {s : Settings} {allowed : Input → Prop}

def Furnished (w : World) (e : EndpointId) (s : Settings) : Prop :=
  ∀ th ∈ w.threads, ∀ a ∈ th.connection?, a.1.id = e → a.1.settings = s

theorem Starts.connection {b : Thread} (h : w.Starts b) (hs : w.Suits e s) :
    ∀ a ∈ b.connection?, a.1.id = e → a.1.settings = s := by
  rintro a ha rfl
  cases h with
  | @worker _ _ _ _ _ _ _ d => cases d <;> cases ha
  | @operation e' x op hx =>
    have hp := Task.connection?_operation a ha
    rw [hp] at hs ⊢
    exact hs x hx
  | request => cases Task.connection?_request.symm.trans ha
  | leaving => cases ha

theorem Furnished.atom (h : w.Furnished e s) (hs : w.Suits e s) (ha : Atom allowed w v) :
    v.Furnished e s := by
  refine ha.each (fun p l d a ha => ?_) (fun hb => hb.connection hs) (fun th a ha => ?_)
    (fun th hth => ?_) h
  · cases d <;> cases ha
  · cases (Task.connection?_finish th.task.owner? .panicked).symm.trans ha
  · refine Move.Into.lands (th.next_connection.mono fun b hb a ha he => ?_) fun b c hb => ?_
    · obtain ⟨c, hc⟩ := hb a ha
      exact hth (a.1, c) hc he
    · cases c <;> exact hb

theorem Furnished.of_place {c : Connecting} (h : w.Furnished e s) (hp : w.place e t = some c) :
    ∃ th ∈ w.threads, th.connection? = some (⟨e, s⟩, c) := by
  obtain ⟨th, ht, hc⟩ := Option.bind_eq_some_iff.mp hp
  refine ⟨th, List.mem_of_getElem? ht, ?_⟩
  unfold Thread.connecting? Task.connecting? at hc
  split at hc
  · rename_i o q c' htask
    split at hc <;> cases hc
    rename_i he
    have hconn : th.connection? = some (q, c) := by
      simp [Thread.connection?, htask, Task.connection?]
    have hs : q.settings = s := h th (List.mem_of_getElem? ht) (q, c) hconn he
    subst he hs
    exact hconn
  · cases hc

end World

end QueuePair
