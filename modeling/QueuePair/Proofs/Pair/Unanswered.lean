import QueuePair.Proofs.Numbering
import QueuePair.Proofs.Pair.Progress

namespace QueuePair

open World

theorem Stores.Does.resolve {x y : Stores} {d : Direction} {job : Job} {error : Option Error}
    (h : x.Does (.resolve d job error) y) (d' : Direction) : (y.shelf d').resolved =
      (x.shelf d').resolved ++ if d' = d then [(job, error)] else [] := by
  cases h with
  | lane h =>
    cases h
    by_cases hd : d' = d
    · subst hd
      simp
    · simp [hd]

namespace World

variable {w v : World} {e : EndpointId} {t : ThreadId} {x y : Endpoint}

def Earned (w : World) (e : EndpointId) : Prop :=
  ∀ x, w.endpoints[e]? = some x → ∀ a ∈ x.replies,
    ∃ d, ∃ b ∈ ((w.stores e).shelf d).resolved, b.1.serial = a.1

theorem Earned.same (h : w.Earned e) (hx : ∀ y, v.endpoints[e]? = some y →
      ∃ x, w.endpoints[e]? = some x ∧ y.replies = x.replies)
    (hr : ∀ d, ((v.stores e).shelf d).resolved = ((w.stores e).shelf d).resolved) :
    v.Earned e := by
  intro y hy a ha
  obtain ⟨x, hx, hreplies⟩ := hx y hy
  obtain ⟨d, b, hb, hn⟩ := h x hx a (hreplies ▸ ha)
  exact ⟨d, b, hr d ▸ hb, hn⟩

theorem replies_of_modify {e' : EndpointId} {f : Endpoint → Endpoint}
    (hf : ∀ x, (f x).replies = x.replies) (hv : v.endpoints = w.endpoints.modify e' f)
    (hy : v.endpoints[e]? = some y) : ∃ x, w.endpoints[e]? = some x ∧ y.replies = x.replies := by
  rw [hv, List.getElem?_modify] at hy
  split at hy
  · obtain ⟨x, hx, rfl⟩ := Option.map_eq_some_iff.mp hy
    exact ⟨x, hx, hf x⟩
  · exact ⟨y, by simpa using hy, rfl⟩

theorem Answers.unanswering {α : Type} {p : Primitive α} {a : α} (h : w.Answers t p v a)
    (hy : v.endpoints[e]? = some y) : ∃ x, w.endpoints[e]? = some x ∧ y.replies = x.replies := by
  cases h with
  | system =>
    rw [observe_endpoints] at hy
    exact ⟨y, hy, rfl⟩
  | @access _ e' x c s hx hc =>
    rw [(notes_same _ _).2] at hy
    by_cases he : e' = e
    · subst he
      simp only [putEndpoint, List.getElem?_set_self (List.getElem?_eq_some_iff.mp hx).1,
        Option.some.injEq] at hy
      exact ⟨x, hx, hy ▸ call_replies hc⟩
    · simp only [putEndpoint, List.getElem?_set_ne he] at hy
      exact ⟨y, hy, rfl⟩
  | @spawn p l d =>
    exact replies_of_modify (f := fun x => { x with
      workers := x.workers ++ [w.threads.length], owners := x.owners + 1 }) (fun _ => rfl) rfl hy
  | _ => exact ⟨y, hy, rfl⟩

/-- What is given back earns the answer that is put down for it. -/
theorem Earned.invoke (h : w.Earned e) (p : Party) (i : Invocation) :
    ((w.invoke p i).1).Earned e := by
  have hdeed := invoke_deed w p i e
  cases i with
  | disconnect =>
    refine h.same (fun x hx => ⟨x, hx, rfl⟩) fun d => ?_
    refine (hdeed.resolved d).resolve_right ?_
    rintro ⟨job, error, hd, -⟩
    cases hd
  | resolve d job error =>
    intro y hy a ha
    have hold : ∀ d', ∀ b ∈ ((w.stores e).shelf d').resolved,
        b ∈ (((w.invoke p (.resolve d job error)).1.stores e).shelf d').resolved := by
      intro d' b hb
      rcases hdeed.resolved d' with hr | ⟨job', error', -, hr⟩ <;> rw [hr]
      · exact hb
      · exact List.mem_append_left _ hb
    obtain ⟨serial, data, handler⟩ := job
    cases handler with
    | callbacks =>
      obtain ⟨d', b, hb, hn⟩ := h y hy a ha
      exact ⟨d', b, hold d' b hb, hn⟩
    | caller =>
      obtain ⟨r, hend⟩ : ∃ r, (w.invoke p (.resolve d ⟨serial, data, .caller⟩ error)).1.endpoints =
          w.endpoints.modify p.id (·.putReply serial (.delivered r)) := ⟨_, rfl⟩
      rw [hend, List.getElem?_modify] at hy
      obtain ⟨x, hx, hxy⟩ := Option.map_eq_some_iff.mp hy
      by_cases hp : p.id = e
      · rw [if_pos hp] at hxy
        subst hxy
        rcases List.mem_append.mp ha with ha | ha
        · obtain ⟨d', b, hb, hn⟩ := h x hx a ha
          exact ⟨d', b, hold d' b hb, hn⟩
        · obtain rfl := List.mem_singleton.mp ha
          simp only [Invocation.deed, if_pos hp] at hdeed
          exact ⟨d, (⟨serial, data, .caller⟩, error), by simp [hdeed.resolve d], rfl⟩
      · rw [if_neg hp] at hxy
        subst hxy
        obtain ⟨d', b, hb, hn⟩ := h x hx a ha
        exact ⟨d', b, hold d' b hb, hn⟩

end World

namespace Pair

variable {P : Pair} {w₀ w v : World} {r : Role} {x : Endpoint} {n : Nat} {th : Thread}

theorem Law.earned (hl : P.Law w) (hk : w.Keeps (P.id r)) (h : w.Earned (P.id r))
    (ha : w.Atom Input.Peaceful v) : v.Earned (P.id r) := by
  cases ha with
  | @act t th α p next u a ht hn hans =>
    obtain ⟨q, hleads⟩ := (hk.shaped th (List.mem_of_getElem? ht)).leads
    rw [hn] at hleads
    refine h.same (fun y hy => hans.unanswering hy) fun d => ?_
    refine ((hans.deed hleads.1 (P.id r)).resolved d).resolve_right ?_
    rintro ⟨job, error, hd, -⟩
    exact p.deed_ne_resolve (P.id r) a d job error hd
  | invoke => exact h.invoke _ _
  | panic ht hn =>
    rw [hl.panic_eq (panics_of_next (hl.fit ht) hn)]
    exact h
  | @outside i _ hi ho ha =>
    have hlt : P.id r < w.endpoints.length := by
      obtain ⟨x, hx, -⟩ := hl.ends r
      exact (List.getElem?_eq_some_iff.mp hx).1
    refine h.same (fun y hy => ?_) fun d => congrArg (fun s => (s.shelf d).resolved)
      (outside_stores (fun _ _ => Nat.ne_of_lt hlt) ho ha)
    cases outside_of_apply ho ha with
    | make | request | drop => exact hi.elim
    | operate =>
      exact replies_of_modify (f := fun x => { x with owners := x.owners + 1 }) (fun _ => rfl) rfl
        hy
    | @register _ x addr length access hx =>
      have hv := modify_of_getElem? (f := fun x : Endpoint => (x.register addr length access).1) hx
      exact replies_of_modify (f := fun x => (x.register addr length access).1) (fun _ => rfl)
        hv.symm hy
    | release => exact ⟨y, hy, rfl⟩
  | settle ha =>
    refine h.same (fun y hy => ⟨y, ha.endpoints ▸ hy, rfl⟩) fun d => ?_
    simp only [stores, goods, ha.endpoints, ha.history]

theorem Begins.earned (hb : P.Begins w₀) (hr : Run Input.Peaceful w₀ w) (r : Role) :
    w.Earned (P.id r) := by
  refine (hr.induction (m := fun u => P.Law u ∧ u.Keeps (P.id r) ∧ u.Earned (P.id r)) hb.queued
    ⟨hb.law, hb.keeps _, fun x hx a ha => ?_⟩ fun ⟨hl, hk, he⟩ ha =>
      ⟨hl.of_acts (hl.acts ha), hk.atom ha, hl.earned hk he ha⟩).1.2.2
  obtain ⟨script, hx'⟩ := hb.ends r
  obtain rfl := Option.some.inj (hx.symm.trans hx')
  cases ha

theorem Begins.issued (hb : P.Begins w₀) (hr : Run Input.Peaceful w₀ w) (r : Role) (n : Nat) :
    w.issued (P.id r) n ≤ 1 := by
  refine Nat.le_trans ((hb.keeps (P.id r)).issued_run hb.queued hr) ?_
  have hstores : w₀.stores (P.id r) = .ofRecord (w₀.goods (P.id r)).1 (w₀.goods (P.id r)).2
      (P.id r) [] := by rw [World.stores, hb.history]
  have hnone : ∀ d, ((w₀.stores (P.id r)).shelf d).received = [] := fun d => by
    rw [hstores]
    rfl
  simp only [World.issued, Stores.marks, hnone, hb.threads, load_nil, tally_nil]
  split <;> omega

theorem Begins.unanswered (hb : P.Begins w₀) (hr : Run Input.Peaceful w₀ w)
    (hm : th ∈ w.threads) (hn : 1 ≤ (drawn (P.id r) n).thread th) :
    (∀ d, n ∉ w.used (P.id r) d) ∧
      ∀ x, w.endpoints[P.id r]? = some x → ∀ a ∈ x.replies, a.1 ≠ n := by
  have hunused := unused_of_drawn (hb.issued hr r n) hm hn
  refine ⟨hunused, fun x hx a ha hna => ?_⟩
  obtain ⟨d, b, hb', hserial⟩ := hb.earned hr r x hx a ha
  have hk := (((hb.keeps (P.id r)).run hb.queued hr).custody false nofun).kept d
  have hsub := hk.settled_subperm.subset (a := b.1.tag)
    (List.mem_append_left _ (List.mem_map.mpr ⟨b, hb', rfl⟩))
  exact hunused d (List.mem_map.mpr ⟨_, hsub, hserial.trans hna⟩)

end Pair

end QueuePair
