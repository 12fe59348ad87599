import QueuePair.Proofs.Lending
import QueuePair.Proofs.Tearing

namespace QueuePair

namespace Link

def sets (l : Link) : List SetId :=
  l.handles.map (·.set)

namespace Removal

def gone (l : Link) : Removal → List SetId
  | .mailbox .semaphores => []
  | .mailbox (.file _) | .signals _ .outbound => [l.mailbox.semaphores.set]
  | .signals _ (.inbound _) => [l.mailbox.semaphores.set, l.signals.outbound.set]

def goneAfter (l : Link) : Flow Removal (Except Error Unit) → List SetId :=
  Flow.elim (gone l) fun _ => l.sets

end Removal

end Link

namespace Destroying

def links : Destroying → Bool
  | .begin | .close | .takeLink => true
  | _ => false

/-- Whether the endpoint is closed. -/
def closed : Destroying → Bool
  | .begin | .close => false
  | _ => true

def gone (l : Link) : Destroying → List SetId
  | .begin | .close | .takeLink => []
  | .remove _ s => s.gone l
  | .takeWorkers _ | .join .. | .fail .. | .dropDisconnect _ => l.sets

/-- The workers that may still be there, of those that the endpoint knows; a worker does not wait
for itself. -/
def crew (t : ThreadId) (workers : List ThreadId) : Destroying → List ThreadId
  | .begin | .close | .takeLink | .remove .. | .takeWorkers _ => workers
  | .join _ u rest => t :: u :: rest
  | .fail .. | .dropDisconnect _ => [t]

def drained (d : Direction) : Destroying → Bool
  | .fail _ d' .drain => d = .send && d' = .receive
  | .fail _ d' _ => d = .send || d' = .receive
  | .dropDisconnect _ => true
  | _ => false

theorem closed_of_drained {d : Direction} {s : Destroying} (h : s.drained d = true) :
    s.closed = true := by
  cases s <;> first | rfl | cases h

theorem drained_after {r : Except Error Unit} {d d' : Direction} {s : Destroying}
    (hs : s = failed r d ∨ (∃ job rest, s = .fail r d (.notify job rest)) ∨
      ∃ job rest, s = .fail r d (.fail job rest)) (h : s.drained d' = true) :
    d' = d ∨ (Destroying.fail r d .drain).drained d' = true := by
  obtain rfl | ⟨job, rest, rfl⟩ | ⟨job, rest, rfl⟩ := hs <;> cases d <;> cases d' <;>
    first | exact .inl rfl | exact .inr rfl | cases h

end Destroying

theorem Thread.not_staffs_of_ended {e : EndpointId} {th : Thread} (h : th.isEnded = true) :
    th.task.staffs e = false := by
  obtain ⟨o, task, cs⟩ := th
  cases task with
  | ended => rfl
  | _ => simp [isEnded, outcome?] at h

namespace World

variable {w v u : World} {e : EndpointId} {t : ThreadId} {th th' : Thread} {x y : Endpoint}
  {p : Party} {l : Link} {s : Destroying} {allowed : Input → Prop}

theorem removeSet_removed {σ : Type} {g : SemaphoreHandle} {next : Except Error Unit → σ} {f : σ}
    (h : w.After t (.call (.removeSet g.set) next) u f) (hg : w.kernel.Lends g) :
    u.kernel.Removed g.set := by
  obtain ⟨a, ⟨k, ends, hk, rfl⟩, -⟩ := h
  rw [observe_kernel]
  obtain ⟨s, hs, -⟩ := hg
  simp only [Kernel.call, Kernel.removeSet] at hk
  split at hk
  · rename_i hnone
    obtain ⟨rfl, -⟩ := (Called.mk.injEq ..).mp hk
    refine ⟨s, hs, ?_⟩
    simpa [Kernel.live?, hs] using hnone
  · obtain ⟨rfl, -⟩ := (Called.mk.injEq ..).mp hk
    have hlt := (List.getElem?_eq_some_iff.mp hs).1
    exact ⟨_, List.getElem?_set_self hlt, rfl⟩

/-- Removing a link removes its sets one after the other. -/
theorem removal_removed {r : Link.Removal} {f : Flow Link.Removal (Except Error Unit)}
    (h : w.After t (r.next l) u f) (hl : w.kernel.LendsAll l.handles) :
    ∀ set ∈ Link.Removal.goneAfter l f, set ∈ r.gone l ∨ u.kernel.Removed set := by
  cases r with
  | mailbox r =>
    obtain ⟨g, hg, rfl⟩ := After.of_map h
    cases r with
    | semaphores =>
      have hgone := removeSet_removed hg (hl _ (by simp [Link.handles]))
      obtain ⟨a, -, rfl⟩ := hg
      intro set hm
      obtain rfl := List.mem_singleton.mp hm
      exact .inr hgone
    | file first =>
      obtain ⟨a, -, rfl⟩ := hg
      exact fun set hm => .inl hm
  | signals first r =>
    obtain ⟨g, hg, rfl⟩ := After.of_map h
    cases r with
    | outbound =>
      have hgone := removeSet_removed hg (hl _ (by simp [Link.handles]))
      obtain ⟨a, -, rfl⟩ := hg
      intro set hm
      rcases List.mem_cons.mp hm with rfl | hm
      · exact .inl List.mem_cons_self
      · obtain rfl := List.mem_singleton.mp hm
        exact .inr hgone
    | inbound second =>
      have hgone := removeSet_removed hg (hl _ (by simp [Link.handles]))
      obtain ⟨a, -, rfl⟩ := hg
      intro set hm
      simp only [Link.Removal.goneAfter, Flow.elim, Link.sets, Link.handles, List.map_cons,
        List.map_nil, List.mem_cons, List.not_mem_nil, or_false] at hm
      rcases hm with rfl | rfl | rfl
      · exact .inl (by simp [Link.Removal.gone])
      · exact .inl (by simp [Link.Removal.gone])
      · exact .inr hgone

/-- What a thread that tears an endpoint down has done when it has come to a place. It has closed
the endpoint, taken and removed its link, joined every worker but the one it runs on, and drained
the queues, each as soon as it is past the place where it does so; nobody undoes any of this on the
way. -/
structure Past (w : World) (e : EndpointId) (l : Link) (t : ThreadId) (x : Endpoint)
    (s : Destroying) : Prop where
  link : s.links = true → x.link = some l
  own : ∀ l' r, s = .remove l' r → l' = l
  closed : s.closed = true → x.state = .closed ∧ x.stopped = true
  gone : ∀ set ∈ s.gone l, w.kernel.Removed set
  crew : ∀ {i : ThreadId} {b : Thread}, w.threads[i]? = some b → b.task.staffs e = true →
    i ∈ s.crew t x.workers
  drained : ∀ d, s.drained d = true → (x.queue d).pending = .empty

theorem Past.steady (h : w.Past e l t x s) (hv : Steady w v e) (hx : w.endpoints[e]? = some x)
    (hy : v.endpoints[e]? = some y) (hxy : x.Lasts y) (hk : w.kernel.Lasts v.kernel)
    (ha : ¬ w.Abandoned e x) : v.Past e l t y s := by
  obtain ⟨z, hz, hstands⟩ := hv.ends hx
  obtain rfl := Option.some.inj (hy.symm.trans hz)
  obtain hstands | ⟨hgone, -⟩ := hstands
  · refine ⟨fun hl => hstands.link.trans (h.link hl), h.own, fun hc => ?_,
      fun set hm => (h.gone set hm).mono hk, fun hb hs => ?_, fun d hd => ?_⟩
    · exact hxy.closed (h.closed hc).1 (h.closed hc).2
    · obtain ⟨a, ha, hs⟩ := hv.staff hb hs
      rw [hstands.workers]
      exact h.crew ha hs
    · exact hxy.empty d (h.closed (Destroying.closed_of_drained hd)).2 (h.drained d hd)
  · exact absurd hgone ha

theorem Past.joining {r : Except Error Unit} {ts : List ThreadId}
    (hc : x.state = .closed ∧ x.stopped = true) (hg : ∀ set ∈ l.sets, w.kernel.Removed set)
    (hcrew : ∀ {i : ThreadId} {b : Thread}, w.threads[i]? = some b → b.task.staffs e = true →
      i = t ∨ i ∈ ts) : w.Past e l t x (Destroying.joining r ts) := by
  cases ts with
  | nil =>
    exact ⟨fun h => (by cases h), fun _ _ h => (by cases h), fun _ => hc, hg,
      fun hb hs => by simpa [Destroying.joining, Destroying.crew] using hcrew hb hs,
      fun d h => by cases d <;> cases h⟩
  | cons u rest =>
    exact ⟨fun h => (by cases h), fun _ _ h => (by cases h), fun _ => hc, hg,
      fun hb hs => by simpa [Destroying.joining, Destroying.crew] using hcrew hb hs,
      fun _ h => by cases h⟩

theorem Past.failing {r : Except Error Unit} {d : Direction} {s : Destroying}
    (hs : s = Destroying.failed r d ∨ (∃ job rest, s = .fail r d (.notify job rest)) ∨
      ∃ job rest, s = .fail r d (.fail job rest))
    (hc : x.state = .closed ∧ x.stopped = true) (hg : ∀ set ∈ l.sets, w.kernel.Removed set)
    (hcrew : ∀ {i : ThreadId} {b : Thread}, w.threads[i]? = some b → b.task.staffs e = true →
      i ∈ [t]) (hd : ∀ d', s.drained d' = true → (x.queue d').pending = .empty) :
    w.Past e l t x s := by
  obtain rfl | ⟨job, rest, rfl⟩ | ⟨job, rest, rfl⟩ := hs
  · cases d <;>
      exact ⟨fun h => (by cases h), fun _ _ h => (by cases h), fun _ => hc, hg, hcrew, hd⟩
  · exact ⟨fun h => (by cases h), fun _ _ h => (by cases h), fun _ => hc, hg, hcrew, hd⟩
  · exact ⟨fun h => (by cases h), fun _ _ h => (by cases h), fun _ => hc, hg, hcrew, hd⟩

/-- A step of the teardown does what its place says. -/
theorem Past.stride {s : Destroying} {ts : List Destroying} (h : w.Past e l t x s)
    (hs : Strides w t u x s y ts) (hl : w.kernel.LendsAll l.handles) (hk : w.kernel.Lasts u.kernel)
    (hstaff : ∀ {i : ThreadId} {b : Thread}, v.threads[i]? = some b → b.task.staffs e = true →
      ∃ a, w.threads[i]? = some a ∧ a.task.staffs e = true) (hkernel : v.kernel = u.kernel) :
    ∀ s' ∈ ts, s ≠ .begin → v.Past e l t y s' := by
  have hold : ∀ {i : ThreadId} {b : Thread}, v.threads[i]? = some b →
      b.task.staffs e = true → i ∈ s.crew t x.workers := fun hb hs => by
    obtain ⟨a, ha, hs⟩ := hstaff hb hs
    exact h.crew ha hs
  have hgone : ∀ set ∈ s.gone l, v.kernel.Removed set := fun set hm =>
    (h.gone set hm).mono (hkernel ▸ hk)
  intro s' hm hne
  cases hs with
  | seen | begin => exact absurd rfl hne
  | close =>
    obtain rfl := List.mem_singleton.mp hm
    exact ⟨fun _ => h.link rfl, fun _ _ h => (by cases h), fun _ => ⟨rfl, rfl⟩,
      fun _ h => (by cases h), hold, fun _ h => by cases h⟩
  | missing _ hnone =>
    rw [h.link rfl] at hnone
    cases hnone
  | takeLink _ hlink =>
    obtain rfl := Option.some.inj ((h.link rfl).symm.trans hlink)
    obtain rfl := List.mem_singleton.mp hm
    refine ⟨fun h => (by cases h), fun l' r hr => ?_, fun _ => h.closed rfl,
      fun _ h => (by cases h), hold,
      fun _ h => by cases h⟩
    exact ((Destroying.remove.injEq ..).mp hr).1.symm
  | @remove l' r f hf =>
    obtain rfl := h.own l' r rfl
    have hremoved : ∀ set ∈ Link.Removal.goneAfter l' f, v.kernel.Removed set := fun set hm =>
      (removal_removed hf hl set hm).elim (hgone set) fun hr => hkernel ▸ hr
    cases f with
    | more r' =>
      obtain rfl := List.mem_singleton.mp hm
      refine ⟨fun h => (by cases h), fun l r hr => ?_, fun _ => h.closed rfl, hremoved, hold,
        fun _ h => by cases h⟩
      exact ((Destroying.remove.injEq ..).mp hr).1.symm
    | done r' =>
      obtain rfl := List.mem_singleton.mp hm
      exact ⟨fun h => (by cases h), fun _ _ h => (by cases h), fun _ => h.closed rfl,
        hremoved, hold,
        fun _ h => by cases h⟩
  | @takeWorkers r =>
    obtain rfl := List.mem_singleton.mp hm
    have hcrew : ∀ {i : ThreadId} {b : Thread}, v.threads[i]? = some b →
        b.task.staffs e = true → i = t ∨ i ∈ x.workers.filter (· ≠ t) := fun {i b} hb hs => by
      have hm : i ∈ x.workers := hold hb hs
      by_cases hi : i = t
      · exact .inl hi
      · exact .inr (List.mem_filter.mpr ⟨hm, by simpa using hi⟩)
    exact .joining (h.closed rfl) hgone hcrew
  | @join r a rest hended =>
    obtain rfl := List.mem_singleton.mp hm
    refine .joining (h.closed rfl) hgone fun {i b} hb hs => ?_
    obtain ⟨c, hc, hstaffs⟩ := hstaff hb hs
    have hcrew : i ∈ t :: a :: rest := hold hb hs
    rcases List.mem_cons.mp hcrew with hi | hi
    · exact .inl hi
    · rcases List.mem_cons.mp hi with rfl | hi
      · rw [Thread.not_staffs_of_ended (hended c hc)] at hstaffs
        cases hstaffs
      · exact .inr hi
  | @drain r d s hcases =>
    obtain rfl := List.mem_singleton.mp hm
    have hclosed : (x.drain d).endpoint.state = .closed ∧ (x.drain d).endpoint.stopped = true := by
      cases d <;> exact h.closed rfl
    refine .failing (hcases.imp_right .inl) hclosed hgone hold fun d' hd => ?_
    simp only [Endpoint.drain, queue_withQueue]
    split
    · rfl
    · rename_i hne
      exact h.drained d' ((Destroying.drained_after (hcases.imp_right .inl) hd).resolve_left hne)
  | @notify r d job rest =>
    obtain rfl := List.mem_singleton.mp hm
    exact .failing (.inr (.inr ⟨job, rest, rfl⟩)) (h.closed rfl) hgone hold fun d' hd =>
      h.drained d' (by cases d <;> cases d' <;> exact hd)
  | @fail r d job rest replies s hcases =>
    obtain rfl := List.mem_singleton.mp hm
    refine .failing (hcases.imp_right .inr) (h.closed rfl) hgone hold fun d' hd =>
      h.drained d' ?_
    obtain rfl | hlate := Destroying.drained_after (hcases.imp_right .inr) hd
    · cases d' <;> rfl
    · cases d <;> cases d' <;> first | rfl | cases hlate
  | dropDisconnect => cases hm

end World

end QueuePair
