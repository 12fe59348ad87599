import QueuePair.Proofs.Pair.Calm

namespace QueuePair

open World

theorem seek_cases {α : Type} (f : Thread → Option α) (a : α) (ths : List Thread) :
    seek f a ths = a ∨
      ∃ (t : ThreadId) (th : Thread), ths[t]? = some th ∧ f th = some (seek f a ths) := by
  rw [seek]
  cases h : ths.findSome? f with
  | none => exact .inl rfl
  | some x =>
    obtain ⟨th, hm, hf⟩ := List.exists_of_findSome?_eq_some h
    obtain ⟨t, ht⟩ := List.mem_iff_getElem?.mp hm
    exact .inr ⟨t, th, ht, hf⟩

theorem Sender.flight_le_token (s : Sender) : s.flight ≤ s.token := by
  cases s with
  | publish _ _ s => cases s <;> exact of_decide_eq_true rfl
  | _ => exact of_decide_eq_true rfl

theorem Receiver.flight_le_token (s : Receiver) : s.flight ≤ s.token := by
  cases s with
  | discard s | collect _ _ s => cases s <;> exact of_decide_eq_true rfl
  | _ => exact of_decide_eq_true rfl

namespace Pair

open Kernel (Shifts)

variable {P : Pair} {capacity : Nat} {w v u : World} {t : ThreadId} {th th' : Thread} {r : Role}
  {x x' : Endpoint} {ev : Event}

@[simp] theorem sender?_party (r' : Role) (l : Link) (a : Sender) :
    (Task.sender (P.party r) l a).sender? r' = if r = r' then some a else none := by
  simp [Task.sender?]

@[simp] theorem receiver?_party (r' : Role) (l : Link) (a : Receiver) :
    (Task.receiver (P.party r) l a).receiver? r' = if r = r' then some a else none := by
  simp [Task.receiver?]

theorem sender?_flight {task : Task} {a : Sender} (h : task.sender? r = some a) :
    a.flight ≤ task.token := by
  cases task with
  | sender p l b =>
    simp only [Task.sender?, Option.ite_none_right_eq_some, Option.some.injEq] at h
    exact h.2 ▸ b.flight_le_token
  | _ => cases h

theorem receiver?_flight {task : Task} {a : Receiver} (h : task.receiver? r = some a) :
    a.flight ≤ task.token := by
  cases task with
  | receiver p l b =>
    simp only [Task.receiver?, Option.ite_none_right_eq_some, Option.some.injEq] at h
    exact h.2 ▸ b.flight_le_token
  | _ => cases h

/-- While one thread has the token, no message is on its way. -/
theorem Law.transit_eq_zero (h : P.Law w) (ht : w.threads[t]? = some th)
    (htoken : th.task.token = 1) (hs : ∀ r a, th.task.sender? r = some a → a.flight = 0)
    (hr : ∀ r a, th.task.receiver? r = some a → a.flight = 0) (r : Role) :
    (P.traffic w).transit r = 0 := by
  have hl := h.ledger .token
  have hle := le_tally (f := (P.due · .token)) (List.mem_of_getElem? ht)
  have hone : (if (w.kernel.setOf? P.keys.mailbox).isSome = true then 1 else 0) ≤ 1 := by
    split <;> omega
  simp only [stock, due, total] at hl hle
  have hother : ∀ {u : ThreadId} {thu : Thread}, u ≠ t → w.threads[u]? = some thu →
      thu.task.token = 0 := by
    intro u thu hne hu
    have hadd := add_le_tally (f := (P.due · .token)) ht hu (Ne.symm hne)
    simp only [due] at hadd
    omega
  have hsender : (w.sender r).flight = 0 := by
    rcases seek_cases (·.task.sender? r) .fetch w.threads with hseek | ⟨u, thu, hu, hf⟩
    · exact (congrArg Sender.flight hseek).trans rfl
    · by_cases hut : u = t
      · subst hut
        obtain rfl := Option.some.inj (hu.symm.trans ht)
        exact hs r _ hf
      · exact Nat.le_zero.mp (hother hut hu ▸ sender?_flight hf)
  have hreceiver : (w.receiver r.peer).flight = 0 := by
    rcases seek_cases (·.task.receiver? r.peer) .await w.threads with hseek | ⟨u, thu, hu, hf⟩
    · exact (congrArg Receiver.flight hseek).trans rfl
    · by_cases hut : u = t
      · subst hut
        obtain rfl := Option.some.inj (hu.symm.trans ht)
        exact hr r.peer _ hf
      · exact Nat.le_zero.mp (hother hut hu ▸ receiver?_flight hf)
  have hsignal : w.kernel.gauge P.keys (.signal r) = 0 := by
    cases r <;> omega
  change w.kernel.gauge P.keys (.signal r) + (w.sender r).flight + (w.receiver r.peer).flight = 0
  omega

namespace Stride

theorem signed_after (s : P.Stride w v t th th') (hh : v.history = w.history ∨
    ∃ ev, v.history = ev :: w.history ∧ ∀ u, ev.author? = some u → u = t) :
    (v.putThread t th').Signed := by
  obtain ⟨news, hv, -⟩ := s.threads_eq
  have hlt := (List.getElem?_eq_some_iff.mp s.thread).1
  have hlen : w.threads.length ≤ (v.putThread t th').threads.length := by
    rw [hv]
    simp
  have hold : ∀ ev ∈ w.history, ∀ u, ev.author? = some u →
      u < (v.putThread t th').threads.length := fun ev hm u hu =>
    Nat.lt_of_lt_of_le (s.signed ev hm u hu) hlen
  intro ev hm u hu
  change ev ∈ v.history at hm
  rcases hh with hh | ⟨new, hh, hauthor⟩
  · exact hold ev (hh ▸ hm) u hu
  · rw [hh] at hm
    rcases List.mem_cons.mp hm with rfl | hm
    · obtain rfl := hauthor u hu
      exact Nat.lt_of_lt_of_le hlt hlen
    · exact hold ev hm u hu

theorem published_same (s : P.Stride w v t th th') (hh : v.history = w.history ∨
    ∃ ev, v.history = ev :: w.history ∧ ∀ f, ev.stored? f = none) (r : Role) :
    (v.putThread t th').published r = w.published r := by
  rw [← s.published_old r, World.published]
  change replay _ v.history = _
  rcases hh with hh | ⟨ev, hh, hnone⟩
  · rw [hh]
  · rw [hh, replay_cons, hnone]
    exact List.append_nil _

theorem processed_same (s : P.Stride w v t th th') (hh : v.history = w.history ∨
    ∃ ev, v.history = ev :: w.history ∧ ∀ f, ev.loaded? f = none) (r : Role) :
    (v.putThread t th').processed r = w.processed r := by
  rw [← s.processed_old r, World.processed]
  change replay _ v.history = _
  rcases hh with hh | ⟨ev, hh, hnone⟩
  · rw [hh]
  · rw [hh, replay_cons, hnone]
    exact List.append_nil _

theorem employs_self (s : P.Stride w v t th th') (d : Direction) (r : Role) :
    (v.putThread t th').employs d r t = decide (th'.origin.works d r = 1) := by
  rw [World.employs, s.putThread_get]
  rfl

theorem published_stored (s : P.Stride w v t th th') {file : FileId} {payload : Bytes}
    (hh : v.history = .stored t file payload :: w.history) (r : Role) :
    (v.putThread t th').published r =
      w.published r ++ if th'.origin.works .send r = 1 then [payload] else [] := by
  rw [← s.published_old r, World.published]
  change replay _ v.history = _
  rw [hh, replay_cons]
  simp only [Event.stored?, s.employs_self]
  by_cases ho : th'.origin.works .send r = 1 <;> simp [ho]

theorem processed_loaded (s : P.Stride w v t th th') {file : FileId} {m : Except Error Bytes}
    (hh : v.history = .loaded t file m :: w.history) (r : Role) :
    (v.putThread t th').processed r =
      w.processed r ++ if th'.origin.works .receive r = 1 then [m] else [] := by
  rw [← s.processed_old r, World.processed]
  change replay _ v.history = _
  rw [hh, replay_cons]
  simp only [Event.loaded?, s.employs_self]
  by_cases ho : th'.origin.works .receive r = 1 <;> simp [ho]

theorem quiet (s : P.Stride w v t th th') (hc : P.Calm capacity w v)
    (hs : ∀ r, (w.sender r).Alike ((v.putThread t th').sender r))
    (hr : ∀ r, (w.receiver r).Alike ((v.putThread t th').receiver r))
    (hn : ∀ r d n, th'.numbers (P.id r) d n ≤ th.numbers (P.id r) d n)
    (hh : v.history = w.history ∨ ∃ e n, v.history = .noted e n :: w.history ∧
      ∀ r, (Event.noted e n).Aside (P.id r)) :
    P.Carries capacity w (v.putThread t th') := by
  refine ⟨.quiet (fun r => ?_) ?_ hc.file ?_, s.signed_after ?_, hc.housed s.housed⟩
  · refine ⟨hc.queue r, hc.next r, fun d n => ?_, hs r, hr r, s.published_same ?_ r,
      s.processed_same ?_ r⟩
    · have hp := s.posting r d n
      have hle := hn r d n
      change (P.side (v.putThread t th') r).posting d n ≤ (P.side w r).posting d n
      omega
    · exact hh.imp_right fun ⟨e, n, hh, _⟩ => ⟨_, hh, fun _ => rfl⟩
    · exact hh.imp_right fun ⟨e, n, hh, _⟩ => ⟨_, hh, fun _ => rfl⟩
  · funext r
    exact hc.signal r
  · exact hh.imp_right fun ⟨e, n, hh, ha⟩ => ⟨_, hh, ha⟩
  · exact hh.imp_right fun ⟨e, n, hh, _⟩ => ⟨_, hh, nofun⟩

theorem quiet_same (s : P.Stride w v t th th') (hc : P.Calm capacity w v)
    (hs : ∀ r, th'.task.sender? r = th.task.sender? r)
    (hr : ∀ r, th'.task.receiver? r = th.task.receiver? r)
    (hn : ∀ r d n, th'.numbers (P.id r) d n ≤ th.numbers (P.id r) d n)
    (hh : v.history = w.history ∨ ∃ e n, v.history = .noted e n :: w.history ∧
      ∀ r, (Event.noted e n).Aside (P.id r)) :
    P.Carries capacity w (v.putThread t th') :=
  s.quiet hc (fun r => s.sender_same (hs r) ▸ .refl _) (fun r => s.receiver_same (hr r) ▸ .refl _)
    hn hh

theorem sides (s : P.Stride w v t th th') {x : Side} (hx : P.side (v.putThread t th') r = x)
    (he : ∀ r', r' ≠ r → P.endpoint v r' = P.endpoint w r')
    (hs : ∀ r', r' ≠ r → th'.task.sender? r' = th.task.sender? r')
    (hr : ∀ r', r' ≠ r → th'.task.receiver? r' = th.task.receiver? r')
    (hn : ∀ r', r' ≠ r → ∀ d n, th'.numbers (P.id r') d n = th.numbers (P.id r') d n)
    (hp : ∀ r', r' ≠ r → (v.putThread t th').published r' = w.published r')
    (hq : ∀ r', r' ≠ r → (v.putThread t th').processed r' = w.processed r') :
    P.side (v.putThread t th') = Function.update (P.side w) r x := by
  funext r'
  rw [Function.update_apply]
  split
  · rename_i hr'
    rw [hr', hx]
  · rename_i hne
    have hend : P.endpoint (v.putThread t th') r' = P.endpoint w r' := he r' hne
    refine Side.ext ?_ ?_ ?_ (s.sender_same (hs r' hne)) (s.receiver_same (hr r' hne)) (hp r' hne)
      (hq r' hne)
    · simp only [side, hend]
    · simp only [side, hend]
    · funext d n
      have hpost := s.posting r' d n
      have hnum := hn r' hne d n
      omega

end Stride

end Pair

end QueuePair
