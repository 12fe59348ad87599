import QueuePair.Proofs.Resumption

namespace QueuePair

namespace Call

end Call

namespace Move

variable {σ : Type} {e : EndpointId} {d : Direction} {mv : Move σ}

def drains (e : EndpointId) (d : Direction) : Move σ → Bool
  | .perform p _ => p.drains e d
  | _ => false

end Move

/-- The queues go on, and no teardown has begun. -/
structure Endpoint.Runs (x : Endpoint) : Prop where
  going : x.stopped = false
  unmarked : x.stopping = false

namespace World

variable {w v : World} {e : EndpointId} {d : Direction} {t : ThreadId} {th : Thread} {x : Endpoint}

theorem tips_goes {σ : Type} {mv : Move σ} (hx : w.endpoints[e]? = some x) (h : mv.Tips e) :
    ¬ w.Stands t mv := by
  cases mv with
  | perform p next =>
    have hgo : ∀ {β : Type} {e' : EndpointId} {c : EndpointCall β} {next : β → σ}, e' = e →
        c.prompt = true → ¬ w.Stands t (.perform (.endpoint e' c) next) := by
      rintro β e' c next rfl hc
      exact access_goes (p := ⟨e', x.settings⟩) hx hc
    cases p with
    | endpoint e' c =>
      cases c with
      | close => exact hgo (of_decide_eq_true h) rfl
      | setStopped | writeStopping =>
        simp only [Move.Tips, Primitive.tips, Bool.and_eq_true, decide_eq_true_eq] at h
        exact hgo h.1 rfl
      | _ => cases h
    | _ => cases h
  | invoke | panic | halt => exact h.elim

theorem Idle.reason (hi : w.Idle) (hq : w.Queued) (hp : w.Parked) (hm : w.Marked e) {want : Want}
    (hx : w.endpoints[e]? = some x) (ht : w.threads[t]? = some th)
    (hs : th.stance = .parked e want) : x.Lacks want ∧ x.Runs := by
  obtain ⟨y, hy, hgo, hwhy⟩ := hp.reason ht hs
  obtain rfl := Option.some.inj (hx.symm.trans hy)
  refine ⟨hwhy.resolve_right ?_, hgo, (Bool.not_eq_true _).mp fun hon => ?_⟩
  · rintro ⟨k, b, hk, hnote⟩
    have htell := b.stance_tells
    rw [hnote] at htell
    obtain ⟨next, hn⟩ := htell
    have hstands := hi.stands hq hk
    rw [hn] at hstands
    exact access_goes (p := ⟨e, x.settings⟩) (c := .notify) hx rfl hstands
  · obtain ⟨b, hb, hdue⟩ := hm.agrees hx hon hgo
    obtain ⟨k, hk⟩ := List.mem_iff_getElem?.mp hb
    exact tips_goes hx (b.exit_tips hdue) (hi.stands hq hk)

/-- Three receives are posted at the server, whose queue has two entries. -/
def crowded : World :=
  accepting.play ((["a", "b", "c"].map fun id =>
      .operate 0 (.postReceive (.ofLimit 8) (.callbacks id [] []))) ++
    [1, 2, 3, 4, 5].flatMap fun t => List.replicate 6 (.run t))

def draining : World :=
  crowded.play (.operate 0 .destroy :: List.replicate 14 (.run 6) ++ List.replicate 2 (.run 2))

end World

end QueuePair
