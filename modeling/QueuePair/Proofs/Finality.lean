import QueuePair.Proofs.Resumption
import QueuePair.Proofs.Settlement

namespace QueuePair

/-- The state in which the disconnect callback of an endpoint began. -/
def Event.disconnected? (e : EndpointId) : Event → Option Lifecycle
  | .noted e' (.disconnected s) => if e' = e then some s else none
  | _ => none

theorem Event.of_disconnected? {e : EndpointId} {s : Lifecycle} {ev : Event}
    (h : ev.disconnected? e = some s) : ev = .noted e (.disconnected s) := by
  unfold disconnected? at h
  split at h
  · split at h <;> cases h
    rename_i he
    rw [he]
  · cases h

/-- A connecting thread that has done nothing yet, or gives up. -/
def Connecting.refused : Connecting → Bool
  | .lock | .check _ | .unlock none (.error _) => true
  | _ => false

namespace World

variable {w v u : World} {e : EndpointId} {t : ThreadId} {s s' : Connecting} {x y : Endpoint}
  {allowed : Input → Prop}

theorem joining_with_error (er : Error) (ts : List ThreadId) :
    Connecting.joining er ts ≠ .unlock none (.ok ()) := by
  cases ts <;> simp [Connecting.joining]

theorem gives_up_with_error {q : Party} (ha : w.After t (s.next q) u (.more s')) :
    s' ≠ .unlock none (.ok ()) := by
  rintro rfl
  cases s with
  | check busy =>
    obtain ⟨a, -, hs⟩ := ha
    dsimp only at hs
    split at hs <;> cases hs
  | mailbox | signals | removeMailbox | attach | removeLink =>
    obtain ⟨s', -, hs⟩ | ⟨r, -, hs⟩ := ha.of_through
    · cases hs
    · cases r <;> cases hs
  | takeWorkers | join =>
    obtain ⟨a, -, hs⟩ := ha
    exact joining_with_error _ _ (Flow.more.inj hs).symm
  | _ =>
    obtain ⟨a, -, hs⟩ := ha
    cases hs

theorem Reachable.not_given_up_with_success (hr : Reachable w) :
    ∀ t s, w.place e t = some s → s ≠ .unlock none (.ok ()) := by
  have hkeep := Run.induction (m := fun u => (∀ t s, u.place e t = some s →
    s ≠ .unlock none (.ok ())) ∧ u.Keeps e) hr (queued_of_new rfl)
    ⟨by simp [place, World.empty], empty_keeps e⟩ fun {a b} h ha => by
      have honward := Atom.onward (P := fun s => s ≠ .unlock none (.ok ())) (Q := fun _ => True)
        h.2 ha (h.1 _ _) (fun _ _ => trivial) (by simp) (fun _ => trivial)
        fun _ _ _ hafter _ => gives_up_with_error hafter
      exact ⟨fun t s => honward.1, h.2.atom ha⟩
  exact hkeep.1.1

/-- Closed is final once an endpoint has its link. It never is unconnected again; once it is closed
it stays so; and whoever connects it meanwhile or later has done nothing or gives up with an
error. -/
theorem closed_for_good (hr : Reachable w) (hx : w.endpoints[e]? = some x)
    (hl : x.link.isSome = true) (hv : Run (fun _ => True) w v) (hy : v.endpoints[e]? = some y) :
    y.state ≠ .init ∧
    (y.state = .closed → ∀ u z, Run (fun _ => True) v u → u.endpoints[e]? = some z →
      z.state = .closed) ∧
    ∀ t s, v.place e t = some s → s.refused = true := by
  have hk : w.Keeps e := (empty_keeps e).run (queued_of_new rfl) hr
  have hkv := hk.run hr.queued hv
  have hqv := hv.queued hr.queued
  have hs := (hr.settled hx hl).run hk hr.queued hv
  obtain ⟨y', hy', hopened⟩ := hs.opened
  obtain rfl := Option.some.inj (hy.symm.trans hy')
  refine ⟨hopened.state, fun hclosed u z hu hz => ?_, fun t s hp => ?_⟩
  · have hkeep := (Run.induction (m := fun u => (∃ z,
        u.endpoints[e]? = some z ∧ z.state = .closed ∧ z.stopped = true) ∧ u.Settled e ∧
          u.Keeps e) hu hqv ⟨⟨y, hy, hclosed, hopened.stopped hclosed⟩, hs, hkv⟩
      fun {a b} h ha => by
        obtain ⟨⟨z, hz, hclosed, hstopped⟩, hs, hk⟩ := h
        obtain ⟨z', hz', hzz'⟩ := hs.lasts hk ha hz
        exact ⟨⟨z', hz', hzz'.closed hclosed hstopped⟩, hs.atom hk ha, hk.atom ha⟩).1.1
    obtain ⟨z', hz', hclosed', -⟩ := hkeep
    obtain rfl := Option.some.inj (hz.symm.trans hz')
    exact hclosed'
  · have hcalm := hs.calm hp
    have hok := Reachable.not_given_up_with_success (hr.trans hv) _ _ hp
    cases s with
    | lock | check => rfl
    | unlock link r =>
      cases link with
      | none =>
        cases r with
        | error => rfl
        | ok => exact absurd rfl hok
      | some => cases hcalm
    | _ => cases hcalm

/-- The server that has accepted is destroyed. -/
def destroyed : World :=
  accepting.play (.operate 0 .destroy :: List.replicate 20 (.run 3) ++
    [1, 2, 3].flatMap fun t => List.replicate 20 (.run t))

/-- Accepting again fails, and the server stays closed. -/
theorem destroyed_for_good : ∃ y, destroyed.endpoints[0]? = some y ∧ y.state = .closed ∧
    ∀ u z, Run (fun _ => True) destroyed u → u.endpoints[0]? = some z → z.state = .closed := by
  have hr : Reachable accepting := Run.refl.play (by simp)
  obtain ⟨x, hx, hl⟩ : ∃ x, accepting.endpoints[0]? = some x ∧ x.link.isSome = true := by
    have hany : (accepting.endpoints[0]?.any (·.link.isSome)) = true := by decide +kernel
    simpa [Option.any_eq_true] using hany
  obtain ⟨y, hy, hclosed⟩ : ∃ y, destroyed.endpoints[0]? = some y ∧ y.state = .closed := by
    have hany : (destroyed.endpoints[0]?.any (·.state = .closed)) = true := by decide +kernel
    simpa [Option.any_eq_true] using hany
  exact ⟨y, hy, hclosed, (closed_for_good hr hx hl (Run.refl.play (by simp)) hy).2.1 hclosed⟩

/-- A server that is being connected is destroyed after it has looked at its state. -/
def overtaken : World :=
  empty.play ([.make (attributes .server), .operate 0 .accept] ++ List.replicate 2 (.run 0) ++
    [.operate 0 .destroy] ++ List.replicate 2 (.run 1))

def connectedLate : World := overtaken.play (List.replicate 16 (.run 0))

/-- A closed endpoint becomes connected, and connecting it comes back without an error. -/
theorem connected_after_closing : Reachable overtaken ∧
    (∃ y, overtaken.endpoints[0]? = some y ∧ y.state = .closed) ∧
    Run (fun _ => True) overtaken connectedLate ∧
    (∃ y, connectedLate.endpoints[0]? = some y ∧ y.state = .connected) ∧
    ∃ out, connectedLate.outcome? 0 = some out ∧ out.isOk = true := by
  have hclosed : (overtaken.endpoints[0]?.any (·.state = .closed)) = true := by decide +kernel
  have hconnected : (connectedLate.endpoints[0]?.any (·.state = .connected)) = true := by
    decide +kernel
  have hreturned : (connectedLate.outcome? 0).any Outcome.isOk = true := by decide +kernel
  refine ⟨Run.refl.play (by simp), ?_, Run.refl.play (by simp), ?_,
    (Option.any_eq_true _ _).mp hreturned⟩
  · simpa [Option.any_eq_true] using hclosed
  · simpa [Option.any_eq_true] using hconnected

/-- While a server with a disconnect callback is about to attach to its mailbox, the client connects
and is destroyed. -/
def clientGone : World :=
  empty.play ([.make { attributes .server with onDisconnect := some [] },
      .make (attributes .client), .operate 0 .accept] ++ List.replicate 13 (.run 0) ++
    .operate 1 .connect :: List.replicate 20 (.run 3) ++
    .operate 1 .destroy :: List.replicate 12 (.run 6) ++
    (List.replicate 8 [.run 4, .run 5]).flatten ++ List.replicate 20 (.run 6))

def undone : World :=
  clientGone.play ((List.replicate 8 [.run 2, .run 1]).flatten ++ List.replicate 20 (.run 0))

/-- A setup that failed and was taken back has used up the disconnect callback. -/
theorem callback_lost_in_failed_setup :
    (∃ x, clientGone.endpoints[0]? = some x ∧ x.onDisconnect.isSome = true) ∧
    Run (fun i => ∀ o, i ≠ .operate 0 o) clientGone undone ∧
    (∃ out, undone.outcome? 0 = some out ∧ out.isOk = false) ∧
    Event.noted 0 (.disconnected .closed) ∈ undone.history ∧
    ∃ y, undone.endpoints[0]? = some y ∧ y.state = .init ∧ y.link = none ∧
      y.onDisconnect = none := by
  have hcallback : (clientGone.endpoints[0]?.any (·.onDisconnect.isSome)) = true := by
    decide +kernel
  have hfailed : (undone.outcome? 0).any (fun out => !out.isOk) = true := by decide +kernel
  have hran : undone.history.any (fun ev => ev.disconnected? 0 = some .closed) = true := by
    decide +kernel
  have hundone : (undone.endpoints[0]?.any fun y => decide (y.state = .init) && y.link.isNone &&
      y.onDisconnect.isNone) = true := by decide +kernel
  refine ⟨(Option.any_eq_true _ _).mp hcallback, Run.refl.play (by simp), ?_, ?_, ?_⟩
  · simpa [Option.any_eq_true] using hfailed
  · obtain ⟨ev, hmem, hev⟩ := List.any_eq_true.mp hran
    exact Event.of_disconnected? (of_decide_eq_true hev) ▸ hmem
  · obtain ⟨y, hy, hall⟩ := (Option.any_eq_true _ _).mp hundone
    simp only [Bool.and_eq_true, decide_eq_true_eq, Option.isNone_iff_eq_none] at hall
    exact ⟨y, hy, hall.1.1, hall.1.2, hall.2⟩

end World

end QueuePair
