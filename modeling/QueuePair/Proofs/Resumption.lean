import QueuePair.Proofs.Reuse

namespace QueuePair

open Relation (ReflTransGen)

def EndpointCall.resumes {α : Type} : EndpointCall α → Bool
  | .setStopped stopped => !stopped
  | _ => false

def Primitive.resumes (e : EndpointId) {α : Type} : Primitive α → Bool
  | .endpoint e' c => e' = e && c.resumes
  | _ => false

section

variable {α : Type} {x : Endpoint} {t : ThreadId} {d : Direction} {c : EndpointCall α}
  {s : Section α}

theorem call_stays_empty (hc : x.call t c = some s) (hx : x.stopped = true)
    (hq : (x.queue d).pending = .empty) : (s.endpoint.queue d).pending = .empty := by
  cases hf : c.founds with
  | false => exact (call_unconnectedChange hc hf).empty d hx hq
  | true =>
    cases c with
    | lockLink =>
      simp only [Endpoint.call, Endpoint.underLink] at hc
      split at hc <;> cases hc
      cases d <;> exact hq
    | writeState | setStopped | writeStopping | unlockLink =>
      cases hc
      cases d <;> exact hq
    | _ => cases hf

end

namespace Move

variable {σ ρ τ : Type} {e : EndpointId} {mv : Move σ}

def resumes (e : EndpointId) : Move σ → Bool
  | .perform p _ => p.resumes e
  | _ => false

@[simp] theorem resumes_map {f : τ → σ} {mv : Move τ} : (mv.map f).resumes e = mv.resumes e := by
  cases mv <;> rfl

@[simp] theorem resumes_through {more : σ → τ} {done : ρ → τ} {mv : Move (Flow σ ρ)} :
    (mv.through more done).resumes e = mv.resumes e :=
  resumes_map

theorem NotFounding.resumes (h : mv.NotFounding e) : mv.resumes e = false := by
  cases mv with
  | perform p next =>
    cases p with
    | endpoint e' c =>
      cases c with
      | setStopped stopped =>
        have hne : e' ≠ e := fun he => by
          simp [Move.NotFounding, Primitive.founds, EndpointCall.founds, he] at h
        simp [Move.resumes, Primitive.resumes, hne]
      | _ => simp [Move.resumes, Primitive.resumes, EndpointCall.resumes]
    | _ => rfl
  | _ => rfl

theorem Outward.resumes (h : mv.Outward) : mv.resumes e = false :=
  h.notFounding.resumes

end Move

theorem connecting_resumes {p : Party} {e : EndpointId} {s : Connecting}
    (h : (s.next p).resumes e = true) : ∃ err, s = .resume err := by
  cases s with
  | resume err => exact ⟨err, rfl⟩
  | mailbox | signals | removeMailbox | attach | removeLink =>
    simp [Connecting.next, Move.Outward.resumes] at h
  | _ => simp [Connecting.next, Move.access, Move.resumes, Primitive.resumes,
      EndpointCall.resumes] at h

namespace Thread

variable {e : EndpointId} {th b : Thread}

theorem Shaped.resumes (h : th.Shaped) (hr : th.next.resumes e = true) :
    ∃ err, th.connecting? e = some (.resume err) := by
  cases hc : th.connecting? e with
  | none => cases hr.symm.trans (h.notFounding hc).resumes
  | some s =>
    obtain ⟨origin, o, p, rfl, rfl⟩ := h.connecting_cases hc
    simp only [Thread.next, Task.next, Call.next, Move.resumes_map, Move.resumes_through] at hr
    obtain ⟨err, rfl⟩ := connecting_resumes hr
    exact ⟨err, rfl⟩

theorem Drifts.closes (h : Drifts th b) (hb : b.Closes e) : th.Closes e := by
  obtain ⟨α, p, next, a, hn, hp, rfl⟩ := h
  have hexits := th.exits (e := e)
  rw [hn] at hexits
  exact ((hexits.2 a).2 hb).resolve_right fun hclose => by simp [hp.2 e] at hclose

theorem closes_of_drifts (h : ReflTransGen Drifts th b) (hb : b.Closes e) : th.Closes e := by
  induction h with
  | refl => exact hb
  | tail _ h ih => exact ih (h.closes hb)

theorem Fresh.not_closes (h : b.Fresh) : ¬ b.Closes e := by
  cases h with
  | begins h => exact h.not_closes
  | @worker p l d =>
    rintro ((h | ⟨d', h⟩) | ⟨c, hc, -⟩)
    · cases d <;> cases h
    · cases d <;> simp only [ofTask, World.worker, Task.watch] at h <;> split at h <;> cases h
    · cases hc

end Thread

namespace World

variable {w v u : World} {e : EndpointId} {d : Direction} {t : ThreadId} {th b : Thread}
  {x y : Endpoint} {i : Input}

/-- Whoever may still drain the queues of an endpoint could do so before, or has just stopped
them. -/
theorem closes_of_apply (ha : w.apply i = some v) (hb : b ∈ v.threads) (hc : b.Closes e) :
    (∃ th ∈ w.threads, th.Closes e) ∨ ∃ y, v.endpoints[e]? = some y ∧ y.stopped = true := by
  obtain ⟨k, hk⟩ := List.mem_iff_getElem?.mp hb
  obtain ⟨th, hth, hdrift | ⟨rfl, hgo⟩⟩ | hfresh := apply_thread ha hk
  · exact .inl ⟨th, List.mem_of_getElem? hth, Thread.closes_of_drifts hdrift hc⟩
  · have hexits := th.exits (e := e)
    cases hgo with
    | @answer α p next u' a hn hp =>
      rw [hn] at hexits
      refine ((hexits.2 a).2 hc).imp (fun h => ⟨th, List.mem_of_getElem? hth, h⟩) fun hclose => ?_
      cases p with
      | endpoint e' c =>
        cases c with
        | close =>
          obtain rfl : e' = e := by simpa [Primitive.closes] using hclose
          obtain ⟨-, x, s, hx, hs, -, -, -, -, hends⟩ := step_access hth hn ha
          refine ⟨s.endpoint, ?_, (call_closes (e := e') hs (by simp [Primitive.closes])).2⟩
          rw [hends]
          exact List.getElem?_set_self (List.getElem?_eq_some_iff.mp hx).1
        | _ => cases hclose
      | _ => cases hclose
    | @invoke p i after hn =>
      rw [hn] at hexits
      refine .inl ⟨th, List.mem_of_getElem? hth, hexits ?_⟩
      rcases hc with hc | ⟨c, hc, hclose⟩
      · exact .inl hc
      · rcases List.mem_append.mp hc with hc | hc
        · obtain ⟨lane, id, payload, script, hs⟩ := invoke_starts (Option.mem_toList.mp hc)
          cases (start_exit hs).symm.trans hclose
        · exact .inr ⟨c, hc, hclose⟩
    | panic =>
      rcases hc with (hc | ⟨d, hc⟩) | ⟨c, hc, -⟩
      · cases (exit_finish _ _).symm.trans hc
      · cases (Task.watch_finish _ _ _ _).symm.trans hc
      · cases hc
  · exact (hfresh.not_closes hc).elim

def StaysStopped (w v : World) (e : EndpointId) : Prop :=
  ∀ x y, w.endpoints[e]? = some x → v.endpoints[e]? = some y → x.stopped = true → y.stopped = true

/-- A run on which the queues of an endpoint stay stopped once they are. -/
inductive Unresumed (e : EndpointId) (w : World) : World → Prop
  | refl : Unresumed e w w
  | step {v u : World} (i : Input) : Unresumed e w v → v.apply i = some u → v.StaysStopped u e →
      Unresumed e w u

theorem Unresumed.run (h : Unresumed e w v) : Run (fun _ => True) w v := by
  induction h with
  | refl => exact .refl
  | step i _ ha _ ih => exact .step i ih trivial ha

theorem Barred.apply (h : w.Barred e) (hk : w.Keeps e) (ha : w.apply i = some v)
    (hs : w.StaysStopped v e) : v.Barred e := by
  intro b hb hc
  refine (closes_of_apply ha hb hc).elim (fun ⟨th, hm, hth⟩ => ?_) id
  obtain ⟨x, hx, hstopped⟩ := h th hm hth
  obtain ⟨y, hy, -⟩ := hk.turn hx ha
  exact ⟨y, hy, hs x y hx hy hstopped⟩

theorem Unresumed.stays_empty (h : Unresumed e w v)
    (hx : ∃ x, w.endpoints[e]? = some x ∧ x.stopped = true ∧ (x.queue d).pending = .empty) :
    ∃ y, v.endpoints[e]? = some y ∧ y.stopped = true ∧ (y.queue d).pending = .empty := by
  induction h with
  | refl => exact hx
  | step i _ ha hs ih =>
    obtain ⟨x, hx, hstopped, hempty⟩ := ih
    rcases apply_akin_or_access ha e with hv | ⟨t, th, α, c, next, rfl, ht, hn⟩
    · obtain ⟨y, hy, hxy⟩ := hv.ends hx
      exact ⟨y, hy, hxy.stopped.trans hstopped, by rw [hxy.queue, hempty]⟩
    · obtain ⟨-, z, s, hz, hc, -, -, -, -, hends⟩ := step_access ht hn ha
      obtain rfl := Option.some.inj (hx.symm.trans hz)
      have hy := hends ▸ List.getElem?_set_self (a := s.endpoint)
        (List.getElem?_eq_some_iff.mp hx).1
      exact ⟨_, hy, hs _ _ hx hy hstopped, call_stays_empty hc hstopped hempty⟩

theorem Barred.drained (hb : w.Barred e) (hk : w.Keeps e) (hq : w.Queued)
    {next : List Job → Thread} {z : Endpoint} (ht : w.threads[t]? = some th)
    (hn : th.next = .perform (.endpoint e (.drain d)) next) (hv : w.step t = some v)
    (hr : Unresumed e v u) (hz : u.endpoints[e]? = some z) (j : Nat) (job : Job) :
    (z.queue d).slab.slots[j]? ≠ some (.posted job) := by
  have hone : Run (fun _ => True) w v := .step (.run t) .refl trivial hv
  have hkv := hk.run hq hone
  have hempty : ∃ y, v.endpoints[e]? = some y ∧ y.stopped = true ∧
      (y.queue d).pending = .empty := by
    have hcloses : th.Closes e := by
      have hexits := th.exits (e := e)
      rw [hn] at hexits
      exact hexits.1 d (by simp [Primitive.drains])
    obtain ⟨x, hx, hstopped⟩ := hb th (List.mem_of_getElem? ht) hcloses
    obtain ⟨a, y, s, hy, hc, -, -, -, -, hends⟩ := step_access ht hn hv
    obtain rfl := Option.some.inj (hx.symm.trans hy)
    refine ⟨s.endpoint, ?_, ?_, call_drains (e := e) hc (by simp [Primitive.drains])⟩
    · rw [hends]
      exact List.getElem?_set_self (List.getElem?_eq_some_iff.mp hx).1
    · cases hc
      cases d <;> exact hstopped
  obtain ⟨y, hy, -, hpending⟩ := hr.stays_empty hempty
  obtain rfl := Option.some.inj (hz.symm.trans hy)
  intro hj
  have hmem := (((hkv.run (hone.queued hq) hr.run).tidy hz d).posted j).mpr ⟨job, hj⟩
  simp [hpending, Fifo.empty] at hmem

theorem Reachable.settled (hr : Reachable w) (hx : w.endpoints[e]? = some x)
    (hl : x.link.isSome = true) : w.Settled e :=
  ((founded_of_new rfl fun x hx => by simp [World.empty] at hx).run (empty_keeps e)
    (queued_of_new rfl) hr).linked hx hl

end World

end QueuePair
