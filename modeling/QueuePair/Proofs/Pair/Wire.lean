import QueuePair.Proofs.Pair.Tracking

namespace QueuePair

variable {capacity : Nat} {s s' : Traffic} {r r' : Role} {x : Side} {e : EndpointId}

structure Traffic.Wire (capacity : Nat) (s : Traffic) (r : Role) : Prop where
  one : s.transit r ≤ 1
  count : (s.side r.peer).processed.length + s.transit r = (s.side r).published.length
  same : (s.side r.peer).processed =
    ((s.side r).published.take (s.side r.peer).processed.length).map .ok
  stands : s.transit r ≠ 0 → ∀ payload, (s.side r).published.getLast? = some payload →
    payload.length ≤ capacity ∧ Record.encode payload <+: s.file.written

theorem aside_elsewhere {e' : EndpointId} {n : Note} (hne : e' ≠ e) : (Event.noted e' n).Aside e :=
  ⟨silent_elsewhere hne, by cases n <;> simp [Event.resolved?, hne]⟩

namespace Traffic

theorem side_put (s : Traffic) (r r' : Role) (x : Side) :
    (s.put r x).side r' = if r' = r then x else s.side r' :=
  Function.update_apply ..

theorem side_put_self (s : Traffic) (r : Role) (x : Side) : (s.put r x).side r = x :=
  Function.update_self ..

theorem side_put_peer (s : Traffic) (r : Role) (x : Side) :
    (s.put r x).side r.peer = s.side r.peer := by
  rw [side_put, if_neg (by cases r <;> nofun)]

@[simp] theorem peer_peer (r : Role) : r.peer.peer = r := by
  cases r <;> rfl

theorem eq_or_eq_peer (r r' : Role) : r' = r ∨ r' = r.peer := by
  cases r <;> cases r' <;> simp [Role.peer]

theorem Wire.congr (hw : s.Wire capacity r) (ht : s'.transit r = s.transit r)
    (hp : (s'.side r).published = (s.side r).published)
    (hq : (s'.side r.peer).processed = (s.side r.peer).processed)
    (hf : File.Keeps capacity s.file s'.file) : s'.Wire capacity r where
  one := ht ▸ hw.one
  count := by
    rw [ht, hp, hq]
    exact hw.count
  same := by
    rw [hp, hq]
    exact hw.same
  stands := fun hne payload hl => by
    obtain ⟨hle, hr⟩ := hw.stands (ht ▸ hne) payload (hp ▸ hl)
    exact ⟨hle, hf payload hle hr⟩

theorem Wire.record (hw : s.Wire capacity r) (ev : Event) : (s.record ev).Wire capacity r :=
  ⟨hw.one, hw.count, hw.same, hw.stands⟩

theorem Wire.beside (hw : s.Wire capacity r) (hsig : s'.signal = s.signal)
    (hs : ∀ r, (s'.side r).sender.flight = (s.side r).sender.flight ∧
      (s'.side r).receiver.flight = (s.side r).receiver.flight ∧
      (s'.side r).published = (s.side r).published ∧
      (s'.side r).processed = (s.side r).processed)
    (hf : File.Keeps capacity s.file s'.file) : s'.Wire capacity r :=
  hw.congr (by simp only [transit, hsig, (hs r).1, (hs r.peer).2.1]) (hs r).2.2.1
    (hs r.peer).2.2.2 hf

theorem Wire.put (hw : s.Wire capacity r') (hs : x.sender.flight = (s.side r).sender.flight)
    (hr : x.receiver.flight = (s.side r).receiver.flight)
    (hp : x.published = (s.side r).published) (hq : x.processed = (s.side r).processed) :
    (s.put r x).Wire capacity r' := by
  refine hw.beside rfl (fun r' => ?_) (.refl _ _)
  rw [side_put]
  split
  · rename_i he
    subst he
    exact ⟨hs, hr, hp, hq⟩
  · exact ⟨rfl, rfl, rfl, rfl⟩

theorem Wire.note {ev : Event} (hw : s.Wire capacity r')
    (hs : x.sender.flight = (s.side r).sender.flight)
    (hr : x.receiver.flight = (s.side r).receiver.flight)
    (hp : x.published = (s.side r).published) (hq : x.processed = (s.side r).processed) :
    ((s.put r x).record ev).Wire capacity r' :=
  .record (hw.put hs hr hp hq) ev

theorem Wire.publish {slot : Nat} {job : Job} (hw : s.Wire capacity r')
    (hs : (s.side r).sender = .publish slot job .copy) (hl : job.data.payload.length ≤ capacity)
    (hz : ∀ r, s.transit r = 0) :
    Wire capacity { s.put r { s.side r with
      sender := .publish slot job .giveGate,
      published := (s.side r).published ++ [job.data.payload] } with
        file := Record.store s.file job.data.payload } r' := by
  rcases eq_or_eq_peer r r' with rfl | rfl
  · have hzero := hz r'
    have hcount := hw.count
    have hsame := hw.same
    have htransit : transit { s.put r' { s.side r' with
        sender := .publish slot job .giveGate,
        published := (s.side r').published ++ [job.data.payload] } with
          file := Record.store s.file job.data.payload } r' = 1 := by
      simp only [transit, hs, side_put_self, side_put_peer] at hzero ⊢
      simp only [Sender.flight] at hzero ⊢
      change s.signal r' + 1 + _ = 1
      omega
    refine ⟨Nat.le_of_eq htransit, ?_, ?_, fun _ payload hlast => ?_⟩
    · rw [htransit]
      simp only [side_put_self, side_put_peer, List.length_append, List.length_singleton]
      omega
    · simp only [side_put_self, side_put_peer]
      rw [List.take_append_of_le_length (by omega)]
      exact hsame
    · simp only [side_put_self, List.getLast?_append, List.getLast?_singleton, Option.some_or,
        Option.some.injEq] at hlast
      subst hlast
      exact ⟨hl, Record.prefix_store _ _⟩
  · -- nothing comes the other way, so it does not matter what the file holds
    have hzero := hz r.peer
    have htransit : transit { s.put r { s.side r with
        sender := .publish slot job .giveGate,
        published := (s.side r).published ++ [job.data.payload] } with
          file := Record.store s.file job.data.payload } r.peer = 0 := by
      simp only [transit, peer_peer, side_put_self, side_put_peer] at hzero ⊢
      exact hzero
    have hcount := hw.count
    have hsame := hw.same
    rw [peer_peer, hzero] at hcount
    rw [peer_peer] at hsame
    refine ⟨by omega, ?_, ?_, fun hne => absurd htransit hne⟩
    · rw [htransit, peer_peer]
      simpa only [side_put_self, side_put_peer] using hcount
    · rw [peer_peer]
      simpa only [side_put_self, side_put_peer] using hsame

theorem Wire.announce {slot : Nat} {job : Job} (hw : s.Wire capacity r')
    (hs : (s.side r).sender = .signal slot job) :
    Wire capacity { s.put r { s.side r with sender := .complete slot job } with
      signal := Function.update s.signal r (s.signal r + 1) } r' := by
  rcases eq_or_eq_peer r r' with rfl | rfl
  · refine hw.congr ?_ (by simp only [side_put_self]) (by simp only [side_put_peer]) (.refl _ _)
    simp only [transit, hs, side_put_self, side_put_peer, Function.update_self, Sender.flight]
  · refine hw.congr ?_ (by simp only [side_put_peer]) (by simp only [peer_peer, side_put_self])
      (.refl _ _)
    simp only [transit, side_put_self, side_put_peer, peer_peer]
    rw [Function.update_of_ne (by cases r <;> nofun)]

theorem Wire.hear {n : Nat} (hw : s.Wire capacity r') (hr : (s.side r).receiver = .await)
    (hn : s.signal r.peer = n + 1) :
    Wire capacity { s.put r { s.side r with receiver := .fetch } with
      signal := Function.update s.signal r.peer n } r' := by
  rcases eq_or_eq_peer r r' with rfl | rfl
  · refine hw.congr ?_ (by simp only [side_put_self]) (by simp only [side_put_peer]) (.refl _ _)
    simp only [transit, side_put_self, side_put_peer]
    rw [Function.update_of_ne (by cases r' <;> nofun)]
  · refine hw.congr ?_ (by simp only [side_put_peer]) (by simp only [peer_peer, side_put_self])
      (.refl _ _)
    simp only [transit, hr, hn, side_put_self, side_put_peer, peer_peer, Function.update_self,
      Receiver.flight]
    omega

theorem Wire.load (hw : s.Wire capacity r) (hc : capacity < 4294967296)
    (hr : (s.side r.peer).receiver.flight = 1) :
    ∃ payload, (s.side r).published.getLast? = some payload ∧
      Record.load s.file capacity = .ok payload := by
  have hcount := hw.count
  have hpos : s.transit r ≠ 0 := by
    simp only [transit]
    omega
  cases hl : (s.side r).published.getLast? with
  | none =>
    rw [List.getLast?_eq_none_iff.mp hl] at hcount
    exact absurd (by simpa using hcount) (fun h : _ ∧ _ => hpos h.2)
  | some payload =>
    obtain ⟨hle, hrec⟩ := hw.stands hpos payload hl
    exact ⟨payload, rfl, Record.load_start hrec hle hc⟩

theorem Wire.read {s₁ : Receiver} (hw : ∀ r, s.Wire capacity r) (hc : capacity < 4294967296)
    (hr : (s.side r).receiver.flight = 1) (hr' : s₁.flight = 0) :
    (s.put r { s.side r with
      receiver := s₁,
      processed := (s.side r).processed ++ [Record.load s.file capacity] }).Wire capacity r' := by
  rcases eq_or_eq_peer r r' with rfl | rfl
  · refine (hw r').congr ?_ (by simp only [side_put_self]) (by simp only [side_put_peer])
      (.refl _ _)
    simp only [transit, side_put_self, side_put_peer]
    rfl
  · obtain ⟨payload, hlast, hload⟩ := (hw r.peer).load hc (by rw [peer_peer]; exact hr)
    have hone := (hw r.peer).one
    have hcount := (hw r.peer).count
    have hsame := (hw r.peer).same
    have htransit : (s.put r { s.side r with
        receiver := s₁,
        processed := (s.side r).processed ++ [Record.load s.file capacity] }).transit r.peer =
      0 := by
      simp only [transit, peer_peer, side_put_self, side_put_peer] at hone ⊢
      rw [hr'] at *
      change s.signal r.peer + _ + _ = 0
      omega
    rw [peer_peer] at hcount hsame
    have hlen : (s.side r.peer).published.length = (s.side r).processed.length + 1 := by
      simp only [transit, peer_peer] at hone hcount
      omega
    refine ⟨by omega, ?_, ?_, fun hne => absurd htransit hne⟩
    · rw [htransit, peer_peer]
      simp only [side_put_self, side_put_peer, List.length_append, List.length_singleton]
      omega
    · rw [peer_peer]
      simp only [side_put_self, side_put_peer, List.length_append, List.length_singleton]
      obtain ⟨pre, hpre⟩ := List.getLast?_eq_some_iff.mp hlast
      have hpl : pre.length = (s.side r).processed.length := by
        rw [hpre] at hlen
        simpa using hlen
      rw [hpre, List.take_append_of_le_length (Nat.le_of_eq hpl.symm),
        List.take_of_length_le (Nat.le_of_eq hpl)] at hsame
      rw [hload, hsame, hpre, List.take_of_length_le (by simp [hpl])]
      simp

end Traffic

namespace Pair

variable {P : Pair}

/-- The messages of both sides are where the record has them: at most one message of a side is
between its sender and the peer's receiver, and then it is the last one that was published, and it
stands in the mailbox file. -/
structure Orderly (P : Pair) (capacity : Nat) (s : Traffic) : Prop where
  tracked : ∀ r, (s.side r).Tracked (P.id r) s.history
  wire : ∀ r, s.Wire capacity r

theorem Orderly.tracked_put (ho : P.Orderly capacity s) (hx : x.Tracked (P.id r) s.history)
    (r' : Role) : ((s.put r x).side r').Tracked (P.id r') s.history := by
  rw [Traffic.side_put]
  split
  · rename_i he
    exact he ▸ hx
  · exact ho.tracked r'

theorem Orderly.tracked_note {n : Note} (ho : P.Orderly capacity s)
    (hx : x.Tracked (P.id r) (.noted (P.id r) n :: s.history)) (r' : Role) :
    ((s.put r x).side r').Tracked (P.id r') (.noted (P.id r) n :: s.history) := by
  rw [Traffic.side_put]
  split
  · rename_i he
    exact he ▸ hx
  · rename_i hne
    exact (ho.tracked r').aside (aside_elsewhere fun hid => hne (id_inj.mp hid).symm)

/-- Everything that can happen to the traffic leaves it in order. -/
theorem Orderly.deals (ho : P.Orderly capacity s) (hc : capacity < 4294967296)
    (hd : P.Deals capacity s s') : P.Orderly capacity s' := by
  cases hd with
  | quiet ha hsig hf hh =>
    refine ⟨fun r => ?_, fun r => (ho.wire r).beside hsig (fun r => ?_) hf⟩
    · have ht := (ho.tracked r).alike (ha r)
      rcases hh with hh | ⟨ev, hh, haside⟩
      · rwa [hh]
      · rw [hh]
        exact ht.aside (haside r)
    · exact ⟨(ha r).sender.flight, (ha r).receiver.flight, (ha r).published, (ha r).processed⟩
  | @number r posting hp =>
    exact ⟨ho.tracked_put ((ho.tracked r).number hp), fun r' => (ho.wire r').put rfl rfl rfl rfl⟩
  | @accept r d job q posting hq hp =>
    exact ⟨ho.tracked_note ((ho.tracked r).accept hq hp),
      fun r' => (ho.wire r').note rfl rfl rfl rfl⟩
  | @withdraw r d serial job q hq =>
    exact ⟨ho.tracked_note ((ho.tracked r).withdraw hq),
      fun r' => (ho.wire r').note rfl rfl rfl rfl⟩
  | @dry r q hs hq =>
    exact ⟨ho.tracked_put ((ho.tracked r).dry hs hq),
      fun r' => (ho.wire r').put (by rw [hs]; rfl) rfl rfl rfl⟩
  | @take r slot job q hs hq =>
    exact ⟨ho.tracked_note ((ho.tracked r).take hs hq),
      fun r' => (ho.wire r').note (by rw [hs]; rfl) rfl rfl rfl⟩
  | @publish r slot job t file hs hl hz =>
    refine ⟨fun r' => ?_, fun r' => .record ((ho.wire r').publish hs hl hz) _⟩
    exact (ho.tracked_put ((ho.tracked r).publish hs) r').aside ⟨silent_stored t file _, rfl⟩
  | @announce r slot job hs =>
    exact ⟨ho.tracked_put ((ho.tracked r).announce hs), fun r' => (ho.wire r').announce hs⟩
  | @reuse r slot hs =>
    exact ⟨ho.tracked_put ((ho.tracked r).reuse hs),
      fun r' => (ho.wire r').put (by rw [hs]; rfl) rfl rfl rfl⟩
  | @hear r n hr hn =>
    exact ⟨ho.tracked_put ((ho.tracked r).hear hr), fun r' => (ho.wire r').hear hr hn⟩
  | @miss r q hr hq =>
    exact ⟨ho.tracked_note ((ho.tracked r).miss hr hq),
      fun r' => (ho.wire r').note rfl (by rw [hr]; rfl) rfl rfl⟩
  | @find r slot job q hr hq =>
    exact ⟨ho.tracked_note ((ho.tracked r).find hr hq),
      fun r' => (ho.wire r').note rfl (by rw [hr]; rfl) rfl rfl⟩
  | @discard r t file hr =>
    have hread := (ho.tracked r).read (m := Record.load s.file capacity)
      (a := .discard (.giveGate (.ofMessage none (Record.load s.file capacity))))
      (by rw [hr]; rfl) (by rw [hr]; rfl) rfl rfl (by rw [hr]; rfl)
    refine ⟨fun r' => ?_, fun r' =>
      .record (.read ho.wire hc (by rw [hr]; rfl) rfl) _⟩
    exact (ho.tracked_put hread r').aside ⟨silent_loaded t file _, rfl⟩
  | @collect r slot job t file hr =>
    have hread := (ho.tracked r).read (m := Record.load s.file capacity)
      (a := .collect slot job
        (.giveGate (.ofMessage (some job.data) (Record.load s.file capacity))))
      (by rw [hr]; rfl) (by rw [hr]; rfl) rfl (by rw [← handed_ofMessage]; rfl) (by rw [hr]; rfl)
    refine ⟨fun r' => ?_, fun r' =>
      .record (.read ho.wire hc (by rw [hr]; rfl) rfl) _⟩
    exact (ho.tracked_put hread r').aside ⟨silent_loaded t file _, rfl⟩
  | @handBack r slot job e hp hf hl hs =>
    exact ⟨ho.tracked_note ((ho.tracked r).handBack hp hl hs),
      fun r' => (ho.wire r').note rfl hf.symm rfl rfl⟩
  | @refill r slot hr =>
    exact ⟨ho.tracked_put ((ho.tracked r).refill hr),
      fun r' => (ho.wire r').put rfl (by rw [hr]; rfl) rfl rfl⟩

end Pair

end QueuePair
