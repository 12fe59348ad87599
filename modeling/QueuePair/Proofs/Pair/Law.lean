import QueuePair.Proofs.Pair.Returns

namespace QueuePair

open World

namespace Pair

open Kernel (Extends Shifts)

variable (P : Pair)

structure Law (w : World) : Prop where
  wide : w.kernel.Wide P.keys
  pair : w.endpoints.length = 2
  ends : ∀ r, ∃ x, w.endpoints[P.id r]? = some x ∧ P.EndFit w.kernel r x
  fit : ∀ {t : ThreadId} {th : Thread}, w.threads[t]? = some th → P.Fit w.kernel th
  ledger : ∀ d, P.stock w.kernel d + tally (P.due · d) w.threads = P.total w d
  holder : ∀ {r : Role} {x : Endpoint}, w.endpoints[P.id r]? = some x → ∀ t, x.linkHolder = some t ↔
    ∃ th, w.threads[t]? = some th ∧ th.task.locks = some r
  opens : ∀ {r : Role} {x : Endpoint} {t : ThreadId} {th : Thread},
    w.endpoints[P.id r]? = some x → w.threads[t]? = some th → th.task.opens = some r →
      x.state = .init

structure Turns (r : Role) (t : ThreadId) (th th' : Thread) (x x' : Endpoint) : Prop where
  holder : ∀ u, x'.linkHolder = some u ↔
    if u = t then th'.task.locks = some r else x.linkHolder = some u
  opens : th'.task.opens = some r → x'.state = .init
  state : x'.state = x.state ∨ th.task.locks = some r

variable {P} {w v : World} {t : ThreadId} {th th' : Thread} {r : Role} {x x' : Endpoint}

theorem Law.end_ (h : P.Law w) (hx : w.endpoints[P.id r]? = some x) : P.EndFit w.kernel r x := by
  obtain ⟨y, hy, hf⟩ := h.ends r
  rwa [Option.some.inj (hx.symm.trans hy)]

theorem opens_locks {task : Task} (h : task.opens = some r) : task.locks = some r := by
  cases task with
  | call owner c =>
    cases c with
    | connecting p s => cases s <;> first | exact h | cases h
    | _ => cases h
  | _ => cases h

theorem connected_eq (hx : w.endpoints[P.id r]? = some x) :
    P.connected w r = if x.state = .connected then 1 else 0 := by
  simp [connected, hx]

theorem owners_eq (hx : w.endpoints[P.id r]? = some x) : P.owners w r = x.owners := by
  simp [owners, hx]

theorem connected_le (w : World) (r : Role) : P.connected w r ≤ 1 := by
  cases hx : w.endpoints[P.id r]? with
  | none => simp [connected, hx]
  | some x =>
    rw [connected_eq hx]
    split <;> omega

theorem Law.intact (h : P.Law w) : w.kernel.Intact P.keys where
  wide := h.wide
  small := by
    have hs := connected_le (P := P) w .server
    have hc := connected_le (P := P) w .client
    have htoken := h.ledger .token
    have hgate := h.ledger .gate
    have hattached := h.ledger .attached
    simp only [stock, total] at htoken hgate hattached
    have hone : (if (w.kernel.setOf? P.keys.mailbox).isSome = true then 1 else 0) ≤ 1 := by
      split <;> omega
    intro g
    cases g with
    | gate | vacancy | attached => omega
    | signal r => cases r <;> omega

theorem Law.two_le_owners (h : P.Law w) (ht : w.threads[t]? = some th)
    (hx : w.endpoints[P.id r]? = some x) (ho : th.task.owner? = some (P.id r)) : 2 ≤ x.owners := by
  have hl := h.ledger (.owner r)
  have hd := le_tally (f := (P.due · (.owner r))) (List.mem_of_getElem? ht)
  simp only [due, ho, if_true, stock, total, owners_eq hx] at hl hd
  omega

theorem stock_shift {g : Gauge} {d : Int} {k k' : Kernel} (h : Shifts P.keys g d k k')
    (a : Due) : (P.stock k' a : Int) = P.stock k a + if g.due = a then d else 0 := by
  have hg := h.gauge
  cases a with
  | token =>
    have hv := hg .vacancy
    have hs := hg (.signal .server)
    have hc := hg (.signal .client)
    simp only [stock]
    cases g with
    | signal r => cases r <;> simp [Gauge.due] at hv hs hc ⊢ <;> omega
    | gate | vacancy | attached => simp [Gauge.due] at hv hs hc ⊢; omega
  | gate =>
    have hv := hg .gate
    simp only [stock]
    cases g <;> simp [Gauge.due] at hv ⊢ <;> omega
  | attached =>
    have hv := hg .attached
    simp only [stock]
    cases g <;> simp [Gauge.due] at hv ⊢ <;> omega
  | worker | owner => cases g <;> simp [stock, Gauge.due]

/-- One step of a thread, which may start others. -/
theorem Law.of_step {news : List Thread} (h : P.Law w) (ht : w.threads[t]? = some th)
    (hv : v.threads = w.threads.set t th' ++ news) (hk : Extends P.keys w.kernel v.kernel)
    (hp : v.endpoints.length = w.endpoints.length)
    (he : ∀ r x, w.endpoints[P.id r]? = some x → ∃ x', v.endpoints[P.id r]? = some x' ∧
      P.EndFit v.kernel r x' ∧ Turns r t th th' x x')
    (hf : P.Fit v.kernel th')
    (hn : ∀ n ∈ news, P.Fit v.kernel n ∧ n.task.locks = none)
    (hb : ∀ d, P.stock v.kernel d + P.due th' d + tally (P.due · d) news + P.total w d =
      P.stock w.kernel d + P.due th d + P.total v d) : P.Law v := by
  have hlt := (List.getElem?_eq_some_iff.mp ht).1
  have hcase : ∀ {u : ThreadId} {thu : Thread}, v.threads[u]? = some thu →
      (u = t ∧ thu = th') ∨ (u ≠ t ∧ w.threads[u]? = some thu) ∨ (u ≠ t ∧ thu ∈ news) := by
    intro u thu hu
    rw [hv] at hu
    by_cases hut : u = t
    · subst hut
      rw [List.getElem?_append_left (by simpa using hlt), List.getElem?_set_self hlt] at hu
      exact .inl ⟨rfl, (Option.some.inj hu).symm⟩
    · by_cases hul : u < w.threads.length
      · rw [List.getElem?_append_left (by simpa using hul),
          List.getElem?_set_ne (Ne.symm hut)] at hu
        exact .inr (.inl ⟨hut, hu⟩)
      · rw [List.getElem?_append_right (by simpa using Nat.le_of_not_lt hul)] at hu
        exact .inr (.inr ⟨hut, List.mem_of_getElem? hu⟩)
  have hself : v.threads[t]? = some th' := by
    rw [hv, List.getElem?_append_left (by simpa using hlt), List.getElem?_set_self hlt]
  have hother : ∀ {u : ThreadId} {thu : Thread}, u ≠ t → w.threads[u]? = some thu →
    v.threads[u]? = some thu := by
    intro u thu hut hu
    have hul := (List.getElem?_eq_some_iff.mp hu).1
    rw [hv, List.getElem?_append_left (by simpa using hul), List.getElem?_set_ne (Ne.symm hut), hu]
  have hend : ∀ {r : Role} {x' : Endpoint}, v.endpoints[P.id r]? = some x' →
      ∃ x, w.endpoints[P.id r]? = some x ∧ P.EndFit v.kernel r x' ∧ Turns r t th th' x x' := by
    intro r x' hx'
    obtain ⟨x, hx, -⟩ := h.ends r
    obtain ⟨y, hy, hfit, hturn⟩ := he r x hx
    obtain rfl := Option.some.inj (hx'.symm.trans hy)
    exact ⟨x, hx, hfit, hturn⟩
  refine ⟨hk.wide h.wide, hp.trans h.pair, fun r => ?_, fun hu => ?_, fun d => ?_, fun hx' u => ?_,
    fun {r x' u thu} hx' hu ho => ?_⟩
  · obtain ⟨x, hx, -⟩ := h.ends r
    obtain ⟨y, hy, hfit, -⟩ := he r x hx
    exact ⟨y, hy, hfit⟩
  · rcases hcase hu with ⟨-, rfl⟩ | ⟨-, hu⟩ | ⟨-, hu⟩
    · exact hf
    · exact (h.fit hu).mono hk
    · exact (hn _ hu).1
  · have hold := h.ledger d
    have hnew := hb d
    have hset := tally_set (f := (P.due · d)) ht th'
    have happ : tally (P.due · d) v.threads =
        tally (P.due · d) (w.threads.set t th') + tally (P.due · d) news := by
      simp [hv, tally]
    omega
  · obtain ⟨x, hx, -, hturn⟩ := hend hx'
    rw [hturn.holder]
    by_cases hut : u = t
    · subst hut
      simp [hself]
    · rw [if_neg hut, h.holder hx]
      constructor
      · rintro ⟨thu, hu, hl⟩
        exact ⟨thu, hother hut hu, hl⟩
      · rintro ⟨thu, hu, hl⟩
        rcases hcase hu with ⟨he, -⟩ | ⟨-, hu⟩ | ⟨-, hu⟩
        · exact absurd he hut
        · exact ⟨thu, hu, hl⟩
        · rw [(hn _ hu).2] at hl
          cases hl
  · obtain ⟨x, hx, -, hturn⟩ := hend hx'
    rcases hcase hu with ⟨-, rfl⟩ | ⟨hut, hu⟩ | ⟨-, hu⟩
    · exact hturn.opens ho
    · rcases hturn.state with hs | hl
      · rw [hs]
        exact h.opens hx hu ho
      · -- the lock has one holder, so nobody else is about to connect
        have hu' := (h.holder hx u).mpr ⟨thu, hu, opens_locks ho⟩
        have ht' := (h.holder hx t).mpr ⟨th, ht, hl⟩
        exact absurd (Option.some.inj (hu'.symm.trans ht')) hut
    · have hl := opens_locks ho
      rw [(hn _ hu).2] at hl
      cases hl

end Pair

end QueuePair
