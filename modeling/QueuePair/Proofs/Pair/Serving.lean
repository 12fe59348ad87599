import QueuePair.Proofs.Pair.Finalizing
import QueuePair.Proofs.Sections

namespace QueuePair

open World

namespace Pair

variable (P : Pair)

/-- The steps of a post. -/
inductive Posts (r : Role) (d : Direction) (data : Buffer) (handler : Handler) (w : World) :
    Posting → World → Flow Posting (Except Error Nat) → Prop
  | ready : Posts r d data handler w .check w (.more .number)
  | refuse {e : Error} : Posts r d data handler w .check w (.done (.error e))
  | number {x : Endpoint} : w.endpoints[P.id r]? = some x →
      Posts r d data handler w .number
        (w.putEndpoint (P.id r) { x with nextSerial := x.nextSerial + 1 })
        (.more (.clock ⟨x.nextSerial, data, handler⟩))
  | clock {job : Job} {dl : Instant} :
      Posts r d data handler w (.clock job) w (.more (.enqueue job dl))
  | noClock {job : Job} : Posts r d data handler w (.clock job) w (.more .overflowed)
  | accept {x : Endpoint} {q : WorkQueue Job} {job : Job} {dl : Instant} :
      w.endpoints[P.id r]? = some x → (x.queue d).post job = some q →
      Posts r d data handler w (.enqueue job dl)
        ((w.putEndpoint (P.id r) (x.withQueue d q)).note (P.id r) (.accepted d job))
        (.done (.ok job.serial))
  | full {job : Job} {dl : Instant} :
      Posts r d data handler w (.enqueue job dl) w (.more (.parked job dl))
  | wake {job : Job} {dl : Instant} :
      Posts r d data handler w (.parked job dl) w (.more (.enqueue job dl))
  | late {job : Job} {dl : Instant} {e : Error} :
      Posts r d data handler w (.parked job dl) w (.done (.error e))

/-- The steps of a wait. -/
inductive Waits (r : Role) (d : Direction) (data : Buffer) (w : World) :
    Waiting → World → Flow Waiting (Except Error Buffer) → Prop
  | post {s s' : Posting} {v : World} : P.Posts r d data .caller w s v (.more s') →
      Waits r d data w (.posting s) v (.more (.posting s'))
  | posted {s : Posting} {v : World} {serial : Nat} :
      P.Posts r d data .caller w s v (.done (.ok serial)) →
      Waits r d data w (.posting s) v (.more (.clock serial))
  | refused {s : Posting} {v : World} {e : Error} :
      P.Posts r d data .caller w s v (.done (.error e)) →
      Waits r d data w (.posting s) v (.done (.error e))
  | clock {serial : Nat} {dl : Option Instant} :
      Waits r d data w (.clock serial) w (.more (.awaiting serial dl))
  | answer {serial : Nat} {dl : Option Instant} {e : Except Error Buffer} :
      Waits r d data w (.awaiting serial dl) w (.done e)
  | giveUp {serial : Nat} {dl : Option Instant} :
      Waits r d data w (.awaiting serial dl) w (.more (.cancel serial))
  | withdraw {x : Endpoint} {q : WorkQueue Job} {serial : Nat} {job : Job} :
      w.endpoints[P.id r]? = some x → (x.queue d).cancel (·.serial = serial) = (some job, q) →
      Waits r d data w (.cancel serial)
        ((w.putEndpoint (P.id r) (x.withQueue d q)).note (P.id r) (.withdrawn d serial))
        (.done (.error .timeout))
  | keep {serial : Nat} : Waits r d data w (.cancel serial) w (.more (.poll serial))
  | poll {serial : Nat} {e : Except Error Buffer} : Waits r d data w (.poll serial) w (.done e)

/-- The steps of a call beside the connection. -/
inductive Serves (r : Role) (w : World) : Call → World → Flow Call Result → Prop
  | post {d : Direction} {data : Buffer} {handler : Handler} {s s' : Posting} {v : World} :
      P.Posts r d data handler w s v (.more s') →
      Serves r w (.posting (P.party r) d data handler s) v
        (.more (.posting (P.party r) d data handler s'))
  | posted {d : Direction} {data : Buffer} {handler : Handler} {s : Posting} {v : World}
      {e : Except Error Nat} : P.Posts r d data handler w s v (.done e) →
      Serves r w (.posting (P.party r) d data handler s) v (.done (e.map fun _ => .unit))
  | wait {d : Direction} {data : Buffer} {s s' : Waiting} {v : World} :
      P.Waits r d data w s v (.more s') →
      Serves r w (.waiting (P.party r) d data s) v (.more (.waiting (P.party r) d data s'))
  | waited {d : Direction} {data : Buffer} {s : Waiting} {v : World} {e : Except Error Buffer} :
      P.Waits r d data w s v (.done e) →
      Serves r w (.waiting (P.party r) d data s) v (.done (e.map .buffer))
  | readState {x : Endpoint} : w.endpoints[P.id r]? = some x →
      Serves r w (.readingState (P.party r)) w (.done (.ok (.state x.state)))
  | hold {id : String} : Serves r w (.holding id) w (.done (.ok .unit))

variable {P} {r : Role} {w v : World} {t : ThreadId}

theorem posts_of_after {d : Direction} {data : Buffer} {handler : Handler} {s : Posting}
    {f : Flow Posting (Except Error Nat)}
    (he : ∀ x, w.endpoints[P.id r]? = some x → P.EndFit w.kernel r x)
    (h : w.After t (s.next (P.party r) d data handler) v f) :
    P.Posts r d data handler w s v f := by
  cases s with
  | check =>
    obtain ⟨x, hx, rfl, rfl⟩ := after_readState h
    cases x.state with
    | connected => exact .ready
    | init | closed => exact .refuse
  | number =>
    obtain ⟨a, ⟨x, sec, hx, hc, rfl, rfl⟩, rfl⟩ := h
    cases hc
    exact .number hx
  | clock job =>
    obtain ⟨a, ⟨rfl, rfl⟩, rfl⟩ := h
    cases v.deadline? (P.party r).settings.timeout with
    | none => exact .noClock
    | some dl => exact .clock
  | overflowed => exact h.elim
  | enqueue job dl =>
    obtain ⟨a, ⟨x, sec, hx, hc, rfl, rfl⟩, rfl⟩ := h
    simp only [Endpoint.call, Endpoint.post, Option.some.injEq] at hc
    rw [if_neg (by simp [(he x hx).stopped])] at hc
    split at hc
    · subst hc
      simp only [List.foldl_nil]
      rw [putEndpoint_self hx]
      exact .full
    · rename_i q hq
      subst hc
      exact .accept hx hq
  | parked job dl =>
    obtain ⟨a, rfl, rfl⟩ := h
    cases a with
    | notified => exact .wake
    | timedOut => exact .late

theorem waits_of_after {d : Direction} {data : Buffer} {s : Waiting}
    {f : Flow Waiting (Except Error Buffer)}
    (he : ∀ x, w.endpoints[P.id r]? = some x → P.EndFit w.kernel r x)
    (h : w.After t (s.next (P.party r) d data) v f) : P.Waits r d data w s v f := by
  cases s with
  | posting s =>
    obtain ⟨g, hg, rfl⟩ := h.of_map
    have hp := posts_of_after he hg
    cases g with
    | more s' => exact .post hp
    | done a =>
      cases a with
      | ok serial => exact .posted hp
      | error e => exact .refused hp
  | clock serial =>
    obtain ⟨a, ⟨rfl, rfl⟩, rfl⟩ := h
    exact .clock
  | awaiting serial dl =>
    obtain ⟨a, ⟨rfl, -⟩, rfl⟩ := h
    cases a with
    | delivered e => exact .answer
    | abandoned => exact .answer
    | missing => exact .giveUp
  | cancel serial =>
    obtain ⟨a, ⟨x, sec, hx, hc, rfl, rfl⟩, rfl⟩ := h
    simp only [Endpoint.call, Endpoint.cancel, Option.some.injEq] at hc
    split at hc
    · rename_i q hq
      subst hc
      obtain rfl := WorkQueue.cancel_none hq
      simp only [List.foldl_nil, withQueue_queue]
      rw [putEndpoint_self hx]
      exact .keep
    · rename_i job q hq
      subst hc
      exact .withdraw hx hq
  | poll serial =>
    obtain ⟨a, ⟨x, sec, hx, hc, rfl, rfl⟩, rfl⟩ := h
    cases hc
    simp only [List.foldl_nil]
    rw [putEndpoint_self hx]
    cases x.reply serial <;> exact .poll

theorem serves_of_after {c : Call} {f : Flow Call Result}
    (he : ∀ x, w.endpoints[P.id r]? = some x → P.EndFit w.kernel r x) (hc : P.Serving r c)
    (h : w.After t c.next v f) : P.Serves r w c v f := by
  cases c with
  | posting p d data handler s =>
    obtain ⟨rfl, -⟩ := hc
    obtain ⟨g, hg, rfl⟩ := h.of_map
    have hp := posts_of_after he hg
    cases g with
    | more s' => exact .post hp
    | done a => exact .posted hp
  | waiting p d data s =>
    obtain ⟨rfl, -⟩ := hc
    obtain ⟨g, hg, rfl⟩ := h.of_map
    have hp := waits_of_after he hg
    cases g with
    | more s' => exact .wait hp
    | done a => exact .waited hp
  | readingState p =>
    obtain rfl : p = P.party r := hc
    obtain ⟨x, hx, rfl, rfl⟩ := after_readState h
    exact .readState hx
  | holding id =>
    obtain ⟨a, ⟨rfl, -⟩, rfl⟩ := h
    exact .hold
  | _ => exact hc.elim

theorem Posts.fit {d : Direction} {data : Buffer} {handler : Handler} {s s' : Posting}
    (h : P.Posts r d data handler w s v (.more s')) (ha : P.Accepts r d data handler)
    (hs : P.PostingFit r d s) : P.PostingFit r d s' := by
  cases h with
  | ready | noClock => trivial
  | number => exact ha
  | clock | full | wake => exact hs

theorem Serves.fit {c c' : Call} (h : P.Serves r w c v (.more c')) (hc : P.Serving r c) :
    P.Serving r c' := by
  cases h with
  | post h => exact ⟨rfl, hc.2.1, h.fit hc.2.1 hc.2.2⟩
  | wait h =>
    refine ⟨rfl, hc.2.1, ?_⟩
    cases h with
    | post h => exact h.fit hc.2.1 hc.2.2
    | posted | clock | giveUp | keep => trivial

end Pair

end QueuePair
