import QueuePair.Proofs.Possession
import QueuePair.Proofs.Replay

namespace QueuePair

theorem queue_withQueue (x : Endpoint) (d d' : Direction) (q : WorkQueue Job) :
    (x.withQueue d q).queue d' = if d' = d then q else x.queue d' := by
  cases d <;> cases d' <;> rfl

theorem queue_update (x : Endpoint) (d : Direction) (q : WorkQueue Job) :
    (x.withQueue d q).queue = Function.update x.queue d q := by
  funext d'
  rw [Function.update_apply, queue_withQueue]

theorem nextSerial_withQueue (x : Endpoint) (d : Direction) (q : WorkQueue Job) :
    (x.withQueue d q).nextSerial = x.nextSerial := by
  cases d <;> rfl

theorem withQueue_queue (x : Endpoint) (d : Direction) : x.withQueue d (x.queue d) = x := by
  cases d <;> rfl

namespace Stores

def ofRecord (queue : Direction → WorkQueue Job) (serial : Nat) (e : EndpointId) (h : List Event) :
    Stores where
  shelf d := ⟨queue d, replay (Event.accepted? e d) h, replay (Event.withdrawn? e d) h,
    replay (Event.resolved? e d) h⟩
  serial := serial

variable {x y : Stores} {d : Direction} {act : Deed} {queue : Direction → WorkQueue Job}
  {serial : Nat} {e : EndpointId} {h : List Event} {q : WorkQueue Job}

theorem Does.still (x : Stores) : x.Does .rest x := by
  have hx := Stores.Does.lane (x := x) (d := .send) .rest
  rwa [Function.update_eq_self] at hx

theorem Does.of_shelf (hs : (x.shelf d).Does d act (y.shelf d))
    (ho : ∀ d', d' ≠ d → y.shelf d' = x.shelf d') (hn : y.serial = x.serial) : x.Does act y := by
  have hy : y = { x with shelf := Function.update x.shelf d (y.shelf d) } := by
    obtain ⟨shelf, serial⟩ := y
    obtain rfl : serial = x.serial := hn
    congr 1
    funext d'
    by_cases hd : d' = d
    · subst hd
      rw [Function.update_self]
    · rw [Function.update_of_ne hd]
      exact ho d' hd
  rw [hy]
  exact .lane hs

theorem Does.of_record {queue' : Direction → WorkQueue Job} {h' : List Event}
    (hq : queue' = Function.update queue d q)
    (hs : ((ofRecord queue serial e h).shelf d).Does d act
      ⟨q, replay (Event.accepted? e d) h', replay (Event.withdrawn? e d) h',
        replay (Event.resolved? e d) h'⟩)
    (ho : ∀ d', d' ≠ d → replay (Event.accepted? e d') h' = replay (Event.accepted? e d') h ∧
      replay (Event.withdrawn? e d') h' = replay (Event.withdrawn? e d') h ∧
      replay (Event.resolved? e d') h' = replay (Event.resolved? e d') h) :
    (ofRecord queue serial e h).Does act (ofRecord queue' serial e h') := by
  subst hq
  refine .of_shelf (d := d) ?_ (fun d' hd => ?_) rfl
  · simpa only [ofRecord, Function.update_self] using hs
  · obtain ⟨ha, hw, hr⟩ := ho d' hd
    simp only [ofRecord, Function.update_of_ne hd, ha, hw, hr]

/-- One event is noted of one queue. -/
theorem Does.of_noted {queue' : Direction → WorkQueue Job} {n : Note}
    (hq : queue' = Function.update queue d q)
    (hs : ((ofRecord queue serial e h).shelf d).Does d act
      ⟨q, replay (Event.accepted? e d) h ++ (Event.accepted? e d (.noted e n)).toList,
        replay (Event.withdrawn? e d) h ++ (Event.withdrawn? e d (.noted e n)).toList,
        replay (Event.resolved? e d) h ++ (Event.resolved? e d (.noted e n)).toList⟩)
    (ho : ∀ d', d' ≠ d → Event.accepted? e d' (.noted e n) = none ∧
      Event.withdrawn? e d' (.noted e n) = none ∧ Event.resolved? e d' (.noted e n) = none) :
    (ofRecord queue serial e h).Does act (ofRecord queue' serial e (.noted e n :: h)) :=
  .of_record hq (by simpa only [replay_cons] using hs) fun d' hd => by
    obtain ⟨ha, hw, hr⟩ := ho d' hd
    simp [ha, hw, hr]

end Stores

/-- An access does with the jobs of its endpoint what its answer tells. -/
theorem call_deed {α : Type} {x : Endpoint} {t : ThreadId} {c : EndpointCall α} {s : Section α}
    (e : EndpointId) (h : List Event) (hc : x.call t c = some s) :
    (Stores.ofRecord x.queue x.nextSerial e h).Does (c.deed s.answer)
      (Stores.ofRecord s.endpoint.queue s.endpoint.nextSerial e
        (s.notes.foldl (fun h n => .noted e n :: h) h)) := by
  cases c with
  | takeSerial =>
    cases hc
    exact .number
  | post d job =>
    cases hc
    simp only [Endpoint.post]
    split
    · exact .still _
    · split
      · exact .still _
      · rename_i q hq
        simp only [nextSerial_withQueue]
        refine .of_noted (queue_update x d q) ?_ fun d' hd => ?_
        · simpa [Event.accepted?, Event.withdrawn?, Event.resolved?] using .accept hq
        · simp [Event.accepted?, Event.withdrawn?, Event.resolved?, Ne.symm hd]
  | nextSend =>
    cases hc
    simp only [Endpoint.nextSend]
    split
    · exact .still _
    · split
      · rename_i q hq
        exact .of_record (queue_update x .send q) (.miss hq) fun _ _ => ⟨rfl, rfl, rfl⟩
      · rename_i slot job q hq
        refine .of_noted (queue_update x .send q) ?_ fun d' hd => ⟨rfl, rfl, rfl⟩
        simpa [Event.accepted?, Event.withdrawn?, Event.resolved?] using .take hq
  | nextReceive =>
    cases hc
    simp only [Endpoint.nextReceive]
    split
    · rename_i q hq
      refine .of_noted (queue_update x .receive q) ?_ fun d' hd => ⟨rfl, rfl, rfl⟩
      simpa [Event.accepted?, Event.withdrawn?, Event.resolved?] using .miss hq
    · rename_i slot job q hq
      refine .of_noted (queue_update x .receive q) ?_ fun d' hd => ⟨rfl, rfl, rfl⟩
      simpa [Event.accepted?, Event.withdrawn?, Event.resolved?] using .take hq
  | complete d slot =>
    cases hc
    simp only [nextSerial_withQueue]
    exact .of_record (queue_update x d _) .complete fun _ _ => ⟨rfl, rfl, rfl⟩
  | cancel d serial =>
    cases hc
    simp only [Endpoint.cancel]
    split
    · rename_i q hq
      rw [WorkQueue.cancel_none hq, withQueue_queue]
      exact .still _
    · rename_i job q hq
      simp only [nextSerial_withQueue]
      refine .of_noted (queue_update x d q) ?_ fun d' hd => ?_
      · simpa [Event.accepted?, Event.withdrawn?, Event.resolved?] using .withdraw hq
      · simp [Event.accepted?, Event.withdrawn?, Event.resolved?, Ne.symm hd]
  | drain d =>
    cases hc
    simp only [Endpoint.drain, nextSerial_withQueue]
    exact .of_record (queue_update x d _) (.drain rfl) fun _ _ => ⟨rfl, rfl, rfl⟩
  | lockLink | readLink | takeLink =>
    simp only [Endpoint.call, Endpoint.underLink] at hc
    split at hc
    · cases hc
    · cases hc
      exact .still _
  | awaitReply serial dl =>
    simp only [Endpoint.call] at hc
    split at hc
    · cases hc
    · cases hc
      exact .still _
  | release =>
    simp only [Endpoint.call] at hc
    split at hc <;> cases hc <;> exact .still _
  | _ =>
    cases hc
    exact .still _

end QueuePair
