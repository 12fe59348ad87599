import QueuePair.Proofs.Pair.Closing

namespace QueuePair

open World

inductive Farewell
  | ahead
  -- the callback is taken, and still to be run
  | due
  | over
deriving DecidableEq

namespace Departing

def farewell : Departing → Farewell
  | .close true | .fail true _ => .over
  | .disconnect _ => .due
  | _ => .ahead

end Departing

namespace Sender

def farewell : Sender → Farewell
  | .depart s => s.farewell
  | _ => .ahead

end Sender

namespace Receiver

def farewell : Receiver → Farewell
  | .depart s => s.farewell
  | _ => .ahead

end Receiver

namespace Task

def farewell (e : EndpointId) : Task → Farewell
  | .sender p _ s => if p.id = e then s.farewell else .over
  | .receiver p _ s => if p.id = e then s.farewell else .over
  | _ => .over

theorem farewell_finish (e : EndpointId) (owner : Option EndpointId) (out : Outcome) :
    (finish owner out).farewell e = .over := by
  cases owner <;> rfl

end Task

namespace Thread

def farewell (e : EndpointId) (th : Thread) : Farewell :=
  th.task.farewell e

def owing (e : EndpointId) (th : Thread) : Nat :=
  if th.farewell e = .due then 1 else 0

end Thread

namespace Primitive

def leavesDisconnect (e : EndpointId) {α : Type} : Primitive α → Prop
  | .endpoint e' c => e' = e → c.parts = false
  | _ => True

def Parts (e : EndpointId) : {α : Type} → Primitive α → α → Farewell → Farewell → Prop
  | _, .endpoint e' .takeDisconnect, a, s, s' =>
    if e' = e then s = .ahead ∧ s' = (if a.isSome then .due else .over) else s' = s
  | _, .endpoint e' .readStopping, a, s, s' => s' = if e' = e ∧ a = true then .over else s
  | _, _, _, s, s' => s' = s

theorem leavesDisconnect.parts {e : EndpointId} {α : Type} {p : Primitive α}
    (h : p.leavesDisconnect e) (a : α)
    (s : Farewell) : p.Parts e a s s := by
  cases p with
  | endpoint e' c =>
    by_cases he : e' = e
    · have hc := h he
      cases c <;> first | rfl | cases hc
    · cases c <;> simp [Parts, he]
  | _ => rfl

end Primitive

theorem Primitive.leavesDisconnect.eq {e : EndpointId} {α : Type} {p : Primitive α} {a : α}
    {s s' : Farewell}
    (h : p.leavesDisconnect e) (hp : p.Parts e a s s') : s' = s := by
  cases p with
  | endpoint e' c =>
    by_cases he : e' = e
    · have hc := h he
      cases c <;> first | exact hp | cases hc
    · cases c <;> first | exact hp | simpa [Parts, he] using hp
  | _ => exact hp

def Invocation.Parts (e : EndpointId) (p : Party) : Invocation → Farewell → Farewell → Prop
  | .resolve .., s, s' => s' = s
  | .disconnect _, s, s' => if p.id = e then s = .due ∧ s' = .over else s' = s

namespace Move

variable {σ ρ τ : Type} {e : EndpointId} {f : σ → Farewell} {s : Farewell} {mv : Move σ}

def LeavesDisconnect (e : EndpointId) : Move σ → Prop
  | .perform p _ => p.leavesDisconnect e
  | .invoke p (.disconnect _) _ => p.id ≠ e
  | .invoke _ (.resolve ..) _ | .panic | .halt => True

@[simp] theorem leavesDisconnect_map {g : τ → σ} {mv : Move τ} : (mv.map g).LeavesDisconnect e ↔
    mv.LeavesDisconnect e := by
  cases mv with
  | invoke p i after => cases i <;> exact Iff.rfl
  | _ => exact Iff.rfl

@[simp] theorem leavesDisconnect_through {more : σ → τ} {done : ρ → τ} {mv : Move (Flow σ ρ)} :
    (mv.through more done).LeavesDisconnect e ↔ mv.LeavesDisconnect e :=
  leavesDisconnect_map

theorem Outward.leavesDisconnect (h : mv.Outward) : mv.LeavesDisconnect e := by
  cases mv with
  | perform p next =>
    cases p with
    | endpoint => cases h
    | _ => trivial
  | invoke => exact h.elim
  | panic | halt => trivial

def Parts (e : EndpointId) (f : σ → Farewell) (s : Farewell) : Move σ → Prop
  | .perform p next => ∀ a, p.Parts e a s (f (next a))
  | .invoke p i after => i.Parts e p s (f after)
  | .panic | .halt => True

@[simp] theorem parts_map {g : τ → σ} {mv : Move τ} :
    (mv.map g).Parts e f s ↔ mv.Parts e (fun x => f (g x)) s := by
  cases mv <;> exact Iff.rfl

theorem LeavesDisconnect.parts (h : mv.LeavesDisconnect e) (hf : ∀ x, f x = s) :
    mv.Parts e f s := by
  cases mv with
  | perform p next =>
    intro a
    rw [hf]
    exact h.parts a s
  | invoke p i after =>
    cases i with
    | resolve => exact hf after
    | disconnect =>
      have hp : p.id ≠ e := h
      simp [Parts, Invocation.Parts, hp, hf]
  | panic | halt => trivial

theorem Parts.through {more : σ → τ} {done : ρ → τ} {f : τ → Farewell} {mv : Move (Flow σ ρ)}
    {g : Flow σ ρ → Farewell} (h : mv.Parts e g s) (hmore : ∀ x, f (more x) = g (.more x))
    (hdone : ∀ r, f (done r) = g (.done r)) : (mv.through more done).Parts e f s := by
  have hf : (fun x : Flow σ ρ => f (x.elim more done)) = g := by
    funext x
    cases x with
    | more x => exact hmore x
    | done r => exact hdone r
  refine parts_map.mpr ?_
  rw [hf]
  exact h

end Move

section

variable {e : EndpointId} {p : Party} {l : Link} {d : Direction}

theorem access_leavesDisconnect {α σ : Type} {c : EndpointCall α} {next : α → σ}
    (hc : c.parts = false) :
    (Move.access p c next).LeavesDisconnect e :=
  fun _ => hc

theorem access_leavesDisconnect_of_ne {α σ : Type} {c : EndpointCall α} {next : α → σ}
    (hp : p.id ≠ e) :
    (Move.access p c next).LeavesDisconnect e :=
  fun he => absurd he hp

theorem failPending_leavesDisconnect (s : FailPending) : (s.next p d).LeavesDisconnect e := by
  cases s with
  | fail => trivial
  | _ => exact access_leavesDisconnect rfl

theorem posting_leavesDisconnect {data : Buffer} {handler : Handler} (s : Posting) :
    (s.next p d data handler).LeavesDisconnect e := by
  cases s with
  | clock | parked | overflowed => trivial
  | _ => exact access_leavesDisconnect rfl

theorem waiting_leavesDisconnect {data : Buffer} (s : Waiting) :
    (s.next p d data).LeavesDisconnect e := by
  cases s with
  | posting s => exact Move.leavesDisconnect_through.mpr (posting_leavesDisconnect s)
  | clock => trivial
  | _ => exact access_leavesDisconnect rfl

theorem finalizing_leavesDisconnect (s : Finalizing) : (s.next p).LeavesDisconnect e := by
  cases s with
  | rendezvous =>
    exact Move.leavesDisconnect_through.mpr (rendezvous_confined ..).outward.leavesDisconnect
  | _ => exact access_leavesDisconnect rfl

theorem destroying_leavesDisconnect (hp : p.id ≠ e) (s : Destroying) :
    (s.next p).LeavesDisconnect e := by
  cases s with
  | remove l s =>
    exact Move.leavesDisconnect_through.mpr (removal_confined l s).1.outward.leavesDisconnect
  | join => trivial
  | fail r d s => exact Move.leavesDisconnect_through.mpr (failPending_leavesDisconnect s)
  | _ => exact access_leavesDisconnect_of_ne hp

theorem departing_parts (hp : p.id = e) (s : Departing) :
    (s.next p d).Parts e (Flow.elim Departing.farewell fun _ => .over) s.farewell := by
  subst hp
  cases s with
  | readStopping =>
    intro localEnd
    cases localEnd <;> simp [Primitive.Parts, Flow.elim, Departing.farewell]
  | close localEnd => cases localEnd <;> exact fun _ => rfl
  | fail localEnd s =>
    refine Move.Parts.through (g := fun _ => (Departing.fail localEnd s).farewell)
      ((failPending_leavesDisconnect s).parts fun _ => rfl) (fun s' => ?_) fun _ => ?_
    all_goals cases localEnd <;> rfl
  | takeDisconnect =>
    intro script
    cases script <;> simp [Primitive.Parts, Flow.elim, Departing.farewell]
  | disconnect => simp [Departing.next, Move.Parts, Invocation.Parts, Flow.elim, Departing.farewell]

theorem departing_leavesDisconnect (hp : p.id ≠ e) (s : Departing) :
    (s.next p d).LeavesDisconnect e := by
  cases s with
  | fail localEnd s => exact Move.leavesDisconnect_through.mpr (failPending_leavesDisconnect s)
  | disconnect => exact hp
  | _ => exact access_leavesDisconnect_of_ne hp

theorem sender_parts (hp : p.id = e) (s : Sender) :
    (s.next p l).Parts e (Flow.elim Sender.farewell fun _ => .over) s.farewell := by
  cases s with
  | fetch =>
    intro r
    cases r with
    | stopped | empty => rfl
    | job slot job =>
      simp only [Flow.elim, Sender.ofJob, Mailbox.Publishing.start]
      split <;> rfl
  | parked => exact fun _ => rfl
  | publish slot job s =>
    refine Move.parts_map.mpr
      ((publishing_confined _ _ s).outward.leavesDisconnect.parts fun f => ?_)
    cases f with
    | more => rfl
    | done r => cases r <;> rfl
  | signal =>
    intro r
    cases r <;> rfl
  | complete | fail => rfl
  | recycle slot goOn =>
    intro a
    cases goOn <;> rfl
  | depart s => exact (departing_parts hp s).through (fun _ => rfl) fun _ => rfl

theorem sender_leavesDisconnect (hp : p.id ≠ e) (s : Sender) : (s.next p l).LeavesDisconnect e := by
  cases s with
  | parked | signal | complete | fail => trivial
  | publish slot job s =>
    exact Move.leavesDisconnect_through.mpr (publishing_confined _ _ s).outward.leavesDisconnect
  | depart s => exact Move.leavesDisconnect_through.mpr (departing_leavesDisconnect hp s)
  | _ => exact access_leavesDisconnect rfl

theorem receiver_parts (hp : p.id = e) (s : Receiver) :
    (s.next p l).Parts e (Flow.elim Receiver.farewell fun _ => .over) s.farewell := by
  cases s with
  | await =>
    intro r
    cases r <;> rfl
  | fetch =>
    intro r
    cases r <;> rfl
  | discard s =>
    refine Move.parts_map.mpr
      ((collecting_confined _ _ s).outward.leavesDisconnect.parts fun f => ?_)
    cases f with
    | more => rfl
    | done c =>
      simp only [Flow.elim, Receiver.discarded]
      split
      · rfl
      · split <;> rfl
  | collect slot job s =>
    refine Move.parts_map.mpr
      ((collecting_confined _ _ s).outward.leavesDisconnect.parts fun f => ?_)
    cases f with
    | more => rfl
    | done c =>
      simp only [Flow.elim, Receiver.collected]
      split <;> rfl
  | complete | fail => rfl
  | recycle slot goOn =>
    intro a
    cases goOn <;> rfl
  | depart s => exact (departing_parts hp s).through (fun _ => rfl) fun _ => rfl

theorem receiver_leavesDisconnect (hp : p.id ≠ e) (s : Receiver) :
    (s.next p l).LeavesDisconnect e := by
  cases s with
  | await | complete | fail => trivial
  | discard s =>
    exact Move.leavesDisconnect_through.mpr (collecting_confined _ _ s).outward.leavesDisconnect
  | collect slot job s =>
    exact Move.leavesDisconnect_through.mpr (collecting_confined _ _ s).outward.leavesDisconnect
  | depart s => exact Move.leavesDisconnect_through.mpr (departing_leavesDisconnect hp s)
  | _ => exact access_leavesDisconnect rfl

end

namespace Teardown

variable {T : Teardown} {s : Role} {t : ThreadId} {v u : World} {th : Thread} {e : EndpointId}

abbrev left (T : Teardown) : EndpointId := T.pair.id T.side.peer

theorem side_ne_left : T.pair.id T.side ≠ T.left := fun he => by
  have hne : T.side ≠ T.side.peer := by cases T.side <;> decide
  exact hne (Pair.id_inj.mp he)

theorem call_leavesDisconnect {c : Call} (h : T.CallFades s t v c) :
    c.next.LeavesDisconnect T.left := by
  cases c with
  | finalizing p a => exact Move.leavesDisconnect_through.mpr (finalizing_leavesDisconnect a)
  | posting p d data handler a =>
    exact Move.leavesDisconnect_through.mpr (posting_leavesDisconnect a)
  | waiting p d data a => exact Move.leavesDisconnect_through.mpr (waiting_leavesDisconnect a)
  | destroying p a =>
    obtain ⟨rfl, rfl, -⟩ := h
    exact Move.leavesDisconnect_through.mpr (destroying_leavesDisconnect side_ne_left a)
  | _ => exact h.elim

theorem callback_leavesDisconnect {c : Callback} (h : T.CallbackFades s c) :
    c.next.LeavesDisconnect T.left := by
  have hstate := h.fit.state
  obtain ⟨p, lane, id, payload, index, state⟩ := c
  cases state with
  | running command call rest =>
    refine Move.leavesDisconnect_through.mpr ?_
    cases call with
    | posting p d data handler a =>
      exact Move.leavesDisconnect_through.mpr (posting_leavesDisconnect a)
    | waiting p d data a => exact Move.leavesDisconnect_through.mpr (waiting_leavesDisconnect a)
    | readingState => exact access_leavesDisconnect rfl
    | holding => trivial
    | _ => exact hstate.1.elim
  | ended | panicking => trivial

theorem task_parts {a : Task} (h : T.TaskFades s t v a) :
    a.next.Parts T.left (Task.farewell T.left) (a.farewell T.left) := by
  cases a with
  | sender p l a =>
    by_cases hp : p.id = T.left
    · simp only [Task.farewell, hp, if_true]
      refine (sender_parts hp a).through (fun x => ?_) fun _ => Task.farewell_finish ..
      simp [Task.farewell, hp, Flow.elim]
    · refine Move.parts_map.mpr ((sender_leavesDisconnect hp a).parts fun f => ?_)
      cases f with
      | more => simp [Flow.elim, Task.farewell, hp]
      | done r => simp [Flow.elim, Task.farewell, hp, Task.finish]
  | receiver p l a =>
    by_cases hp : p.id = T.left
    · simp only [Task.farewell, hp, if_true]
      refine (receiver_parts hp a).through (fun x => ?_) fun _ => Task.farewell_finish ..
      simp [Task.farewell, hp, Flow.elim]
    · refine Move.parts_map.mpr ((receiver_leavesDisconnect hp a).parts fun f => ?_)
      cases f with
      | more => simp [Flow.elim, Task.farewell, hp]
      | done r => simp [Flow.elim, Task.farewell, hp, Task.finish]
  | call o c =>
    refine Move.parts_map.mpr ((call_leavesDisconnect h.2.1).parts fun f => ?_)
    cases f with
    | more => rfl
    | done r => exact Task.farewell_finish ..
  | leaving e' a out =>
    obtain ⟨-, rfl, -⟩ := h
    have hmute : (Leaving.release.next T.left).LeavesDisconnect T.left := fun _ => rfl
    refine Move.parts_map.mpr (hmute.parts fun f => ?_)
    cases f <;> rfl
  | ended => trivial

theorem Fades.parts (h : T.Fades s t v th) :
    th.next.Parts T.left (Thread.farewell T.left) (th.farewell T.left) := by
  have htask := h.task
  have hcs := h.callbacks
  obtain ⟨o, task, cs⟩ := th
  cases cs with
  | nil =>
    simp only [Thread.next, Move.parts_map]
    exact task_parts htask
  | cons c cs =>
    simp only [Thread.next, Move.parts_map]
    exact (callback_leavesDisconnect (hcs c List.mem_cons_self)).parts fun _ => rfl

/-- What a step of a thread makes of the disconnect callback, along with the farewell of the
thread. -/
inductive FarewellStep (T : Teardown) (v u : World) : Farewell → Farewell → Prop
  | still {s : Farewell} : u.partings T.left = v.partings T.left →
      (∀ x, v.endpoints[T.left]? = some x →
        ∃ y, u.endpoints[T.left]? = some y ∧ y.onDisconnect = x.onDisconnect) →
        FarewellStep T v u s s
  | take {x y : Endpoint} : u.partings T.left = v.partings T.left →
      v.endpoints[T.left]? = some x → u.endpoints[T.left]? = some y → y.onDisconnect = none →
      FarewellStep T v u .ahead (if x.onDisconnect.isSome then .due else .over)
  | run : u.partings T.left = v.partings T.left + 1 → u.endpoints = v.endpoints →
      FarewellStep T v u .due .over

theorem Ripples.partings {α : Type} {p : Primitive α} {a : α} {lc : Licence}
    (h : T.Ripples s t lc v p u a) (e : EndpointId) : u.partings e = v.partings e := by
  obtain ⟨evs, hevs, hsilent⟩ := h.history
  have hnone : evs.countP (Event.parts e) = 0 :=
    List.countP_eq_zero.mpr fun ev hev => by simp [(hsilent ev hev).2]
  rw [World.partings, hevs, List.countP_append, hnone, Nat.zero_add, World.partings]

theorem Ripples.farewellStep {α : Type} {p : Primitive α} {a : α} {lc : Licence} {f f' : Farewell}
    (h : T.Ripples s t lc v p u a) (hp : p.Parts T.left a f f')
    (hs : ∀ x, v.endpoints[T.left]? = some x → x.stopping = false) : T.FarewellStep v u f f' := by
  have hpart := h.partings T.left
  cases h with
  | @access α c x sec hm hx hc =>
    have hlt := (List.getElem?_eq_some_iff.mp hx).1
    by_cases he : T.pair.id s = T.left
    · have hy : (v.accessed (T.pair.id s) sec).endpoints[T.left]? = some sec.endpoint := by
        rw [accessed_endpoints, ← he, List.getElem?_set_self hlt]
      rw [he] at hx
      cases hparts : c.parts with
      | false =>
        have hmute : (Primitive.endpoint (T.pair.id s) c).leavesDisconnect T.left := fun _ => hparts
        obtain rfl := hmute.eq hp
        refine .still hpart fun z hz => ⟨_, hy, ?_⟩
        obtain rfl := Option.some.inj (hx.symm.trans hz)
        exact (call_frame hc).2 hparts
      | true =>
        cases c with
        | takeDisconnect =>
          cases hc
          simp only [Primitive.Parts, he, if_true] at hp
          obtain ⟨rfl, rfl⟩ := hp
          exact .take hpart hx hy rfl
        | readStopping =>
          cases hc
          simp only [Primitive.Parts, hs x hx] at hp
          obtain rfl : f' = f := by simpa using hp
          exact .still hpart fun z hz => ⟨x, hy, by rw [Option.some.inj (hx.symm.trans hz)]⟩
        | _ => cases hparts
    · have hmute : (Primitive.endpoint (T.pair.id s) c).leavesDisconnect T.left := fun h =>
        absurd h he
      obtain rfl := hmute.eq hp
      refine .still hpart fun z hz => ⟨z, ?_, rfl⟩
      rw [accessed_endpoints, List.getElem?_set_ne he, hz]
  | _ =>
    obtain rfl : f' = f := hp
    exact .still hpart fun z hz => ⟨z, hz, rfl⟩

theorem invoke_farewellStep {p : Party} {i : Invocation} {x : Endpoint} {f f' : Farewell}
    (hg : T.Gives s p i) (hp : i.Parts T.left p f f') (hx : v.endpoints[T.pair.id s]? = some x) :
    T.FarewellStep v (v.invoke p i).1 f f' ∧
      (v.invoke p i).1.partings (T.pair.id T.side) = v.partings (T.pair.id T.side) := by
  cases i with
  | resolve d job error =>
    obtain rfl : f' = f := hp
    obtain ⟨rfl, -⟩ := hg
    have hlevel := Pair.resolve_levels hx d job error
    refine ⟨.still (hlevel.partings _) fun z hz => ?_, hlevel.partings _⟩
    obtain ⟨y, hy, heven⟩ := hlevel.ends hz
    exact ⟨y, hy, heven.script⟩
  | disconnect script =>
    obtain ⟨rfl, hs, -⟩ := hg
    obtain rfl : s = T.side.peer := (Traffic.eq_or_eq_peer T.side s).resolve_left hs
    simp only [Invocation.Parts, Pair.party_id, if_true] at hp
    obtain ⟨rfl, rfl⟩ := hp
    refine ⟨.run ?_ rfl, ?_⟩
    · simp [World.partings, invoke, note, record, Event.parts]
    · simp [World.partings, invoke, note, record, Event.parts, side_ne_left.symm]

/-- The disconnect callback of the side that is left behind has run, is still to be run by the
one who took it, or is still there, and then a worker will look for it. The other side's does not
run. -/
structure Parting (T : Teardown) (n : Nat) (v : World) : Prop where
  sum : ∀ x, v.endpoints[T.left]? = some x → v.partings T.left +
    tally (Thread.owing T.left) v.threads + (if x.onDisconnect.isSome then 1 else 0) = n
  warned : ∀ x, v.endpoints[T.left]? = some x → x.onDisconnect.isSome = true →
    ∃ th ∈ v.threads, th.farewell T.left = .ahead
  spared : v.partings (T.pair.id T.side) = 0

section

variable {f f' : Farewell} {x y : Endpoint}

theorem FarewellStep.sum (hb : T.FarewellStep v u f f') (hx : v.endpoints[T.left]? = some x)
    (hy : u.endpoints[T.left]? = some y) :
    u.partings T.left + (if f' = .due then 1 else 0) + (if y.onDisconnect.isSome then 1 else 0) =
      v.partings T.left + (if f = .due then 1 else 0) +
        (if x.onDisconnect.isSome then 1 else 0) := by
  cases hb with
  | still hpart hends =>
    obtain ⟨z, hz, hscript⟩ := hends x hx
    obtain rfl := Option.some.inj (hy.symm.trans hz)
    rw [hscript, hpart]
  | take hpart hx' hy' hnone =>
    obtain rfl := Option.some.inj (hx.symm.trans hx')
    obtain rfl := Option.some.inj (hy.symm.trans hy')
    rw [hpart, hnone]
    cases x.onDisconnect <;> simp
  | run hpart hends =>
    obtain rfl := Option.some.inj (hx.symm.trans (hends ▸ hy))
    simp [hpart]

theorem FarewellStep.ahead (hb : T.FarewellStep v u f f') (hx : v.endpoints[T.left]? = some x)
    (hy : u.endpoints[T.left]? = some y) (hsome : y.onDisconnect.isSome = true) :
    x.onDisconnect.isSome = true ∧ (f = .ahead → f' = .ahead) := by
  cases hb with
  | still hpart hends =>
    obtain ⟨z, hz, hscript⟩ := hends x hx
    obtain rfl := Option.some.inj (hy.symm.trans hz)
    exact ⟨hscript ▸ hsome, id⟩
  | take hpart hx' hy' hnone =>
    obtain rfl := Option.some.inj (hy.symm.trans hy')
    rw [hnone] at hsome
    cases hsome
  | run hpart hends =>
    obtain rfl := Option.some.inj (hx.symm.trans (hends ▸ hy))
    exact ⟨hsome, fun h => by cases h⟩

theorem Parting.go {n : Nat} {th' : Thread} (h : T.Parting n v)
    (hx : v.endpoints[T.left]? = some x) (ht : v.threads[t]? = some th)
    (hb : T.FarewellStep v u (th.farewell T.left) (th'.farewell T.left))
    (hl : u.threads.length = v.threads.length)
    (hsame : ∀ (i : ThreadId) a b, u.threads[i]? = some a → v.threads[i]? = some b →
      a.farewell T.left = b.farewell T.left)
    (hs : u.partings (T.pair.id T.side) = v.partings (T.pair.id T.side)) :
    T.Parting n (u.putThread t th') := by
  have hlt : t < u.threads.length := hl ▸ (List.getElem?_eq_some_iff.mp ht).1
  have ha := List.getElem?_eq_getElem hlt
  refine ⟨fun y hy => ?_, fun y hy hsome => ?_, hs.trans h.spared⟩
  · have hset := tally_set (f := Thread.owing T.left) ha th'
    rw [tally_congr (g := Thread.owing T.left) hl fun i a b ha hb => by
      simp only [Thread.owing, hsame i a b ha hb]] at hset
    have hself : u.threads[t].owing T.left = th.owing T.left := by
      simp only [Thread.owing, hsame t _ th ha ht]
    have hsum := h.sum x hx
    have hstep := hb.sum hx hy
    simp only [← Thread.owing.eq_1] at hstep
    show u.partings T.left + tally (Thread.owing T.left) (u.threads.set t th') + _ = n
    omega
  · obtain ⟨hold, hstay⟩ := hb.ahead hx hy hsome
    obtain ⟨b, hm, hahead⟩ := h.warned x hx hold
    obtain ⟨i, hi⟩ := List.mem_iff_getElem?.mp hm
    by_cases hit : i = t
    · subst hit
      obtain rfl := Option.some.inj (ht.symm.trans hi)
      exact ⟨th', List.mem_of_getElem? (List.getElem?_set_self hlt), hstay hahead⟩
    · obtain ⟨c, hi'⟩ : ∃ c, u.threads[i]? = some c :=
        ⟨_, List.getElem?_eq_getElem (hl ▸ (List.getElem?_eq_some_iff.mp hi).1)⟩
      refine ⟨c, List.mem_of_getElem? ((List.getElem?_set_ne (Ne.symm hit)).trans hi'), ?_⟩
      rw [hsame i _ b hi' hi, hahead]

end

theorem MovedOn.farewell {k : Kernel} {th' : Thread} (h : T.Fades s t v th)
    (hn : MovedOn e k th th') : th'.farewell T.left = th.farewell T.left := by
  have hparts := h.parts
  cases hn with
  | same => rfl
  | woken hw =>
    rw [hw] at hparts
    exact hparts .notified
  | failed hw =>
    rw [hw] at hparts
    exact hparts (.error .connectionClosed)

/-- One step, unless a callback panics. -/
theorem Sinks.parting {n : Nat} (h : T.Sinks v) (hp : T.Parting n v)
    (hshape : ∀ th ∈ v.threads, th.Shaped) (hstep : v.step t = some u)
    (hharm : ∀ e, ¬ u.Harmed e) : T.Parting n u := by
  obtain ⟨th, ht, -⟩ := step_cases hstep
  obtain ⟨s, hf, -⟩ := h.threads ht
  obtain ⟨x, hx, -⟩ := h.ends s
  obtain ⟨z, hz, hfz⟩ := h.ends T.side.peer
  have hstopping : ∀ y, v.endpoints[T.left]? = some y → y.stopping = false := fun y hy => by
    obtain rfl := Option.some.inj (hz.symm.trans hy)
    rw [hfz.stopping]
    cases T.side <;> rfl
  obtain ⟨w, th', hdoes, rfl⟩ := hf.step ht (hshape th (List.mem_of_getElem? ht)) hstep hharm
  have hparts := hf.parts
  cases hdoes with
  | @act α p next w a hn hr =>
    rw [hn] at hparts
    refine hp.go hz ht (hr.farewellStep (hparts a) hstopping) hr.length (fun i a b ha hb => ?_)
      (hr.partings _)
    obtain ⟨c, hc, hnudge⟩ := hr.movedOn h.queued ha
    obtain rfl := Option.some.inj (hb.symm.trans hc)
    obtain ⟨q, hfc, -⟩ := h.threads hb
    exact hnudge.farewell hfc
  | @back p i after hn hgives =>
    rw [hn] at hparts
    obtain ⟨hbids, hspared⟩ := invoke_farewellStep hgives hparts hx
    have hsame : (v.invoke p i).1.threads = v.threads := invoke_threads p i
    refine hp.go hz ht hbids (by rw [hsame]) (fun j a b ha hb => ?_) hspared
    rw [hsame] at ha
    rw [Option.some.inj (ha.symm.trans hb)]

theorem Opens.parting {n : Nat} {a : Destroying} {f : Endpoint → Endpoint} {g : Thread → Thread}
    (h : T.Opens a f g v) (hp : T.Parting n T.before)
    (hg : ∀ th ∈ T.before.threads, (g th).farewell T.left = th.farewell T.left) :
    T.Parting n v := by
  have hends : v.endpoints[T.left]? = T.before.endpoints[T.left]? :=
    h.elsewhere fun he => side_ne_left (congrArg T.pair.id he.symm)
  have hpartings : ∀ e, v.partings e = T.before.partings e := fun e => by
    rw [World.partings, h.history, World.partings]
  refine ⟨fun x hx => ?_, fun x hx hsome => ?_, (hpartings _).trans hp.spared⟩
  · have howing : tally (Thread.owing T.left) v.threads =
        tally (Thread.owing T.left) T.before.threads := by
      have hmap : tally (Thread.owing T.left) (T.before.threads.map g) =
          tally (Thread.owing T.left) T.before.threads := by
        refine tally_congr (List.length_map _) fun i b c hb hc => ?_
        rw [List.getElem?_map, hc] at hb
        obtain rfl := Option.some.inj hb
        simp only [Thread.owing, hg c (List.mem_of_getElem? hc)]
      rw [h.threads, tally_append, hmap]
      rfl
    rw [howing, hpartings]
    exact hp.sum x (hends ▸ hx)
  · obtain ⟨th, hm, hahead⟩ := hp.warned x (hends ▸ hx) hsome
    refine ⟨g th, ?_, (hg th hm).trans hahead⟩
    rw [h.threads]
    exact List.mem_append_left _ (List.mem_map_of_mem hm)

theorem Stranded.parting {n : Nat} (hT : T.Stranded) (hp : T.Parting n T.before)
    (h : T.Opens .begin Endpoint.started id v) (hk : v.Keeps e) (hr : Run Input.Steps v u)
    (hharm : ∀ e, ¬ u.Harmed e) : T.Parting n u := by
  refine hr.unharmed h.queued (h.parting hp fun _ _ => rfl) (fun hr hpart hw ha hharm => ?_) hharm
  rcases hT.run h hk hr hw with hw | hw | hw
  · obtain rfl := hw.alone hT (fun _ => ⟨rfl, rfl⟩) ha
    exact (hw.begin hT ha).parting hp fun _ _ => rfl
  · obtain rfl := hw.alone hT (fun _ => ⟨rfl, rfl⟩) ha
    refine (hw.close hT ha).parting hp fun th hm => ?_
    obtain ⟨j, hj⟩ := List.mem_iff_getElem?.mp hm
    obtain ⟨s, hf⟩ := hT.threads hj
    exact (movedOn_wake th _ T.before.kernel).farewell hf
  · exact hw.parting hpart (hk.run h.queued hr).shaped ha hharm

end Teardown

end QueuePair
