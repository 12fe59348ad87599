import QueuePair.Proofs.Pair.Carriage

namespace QueuePair

open World

namespace Pair

/-- The way of the messages of one side, from its accepted sends to what its peer made of them. -/
structure InOrder (P : Pair) (w : World) (r : Role) : Prop where
  -- the peer reads what was published, whole and in order
  untorn : w.processed r.peer <+: (w.published r).map .ok
  -- at most one published message is still to be read
  prompt : (w.published r).length ≤ (w.processed r.peer).length + 1
  -- the accepted sends that nobody withdrew are published, in the hand of the sender, or queued, in
  -- this order
  sent : ∃ sent, kept w.history (P.id r) .send =
      sent ++ (w.sender r).hand ++ ((P.endpoint w r).queue .send).items ∧
    sent.map (·.data.payload) = w.published r
  -- the peer's receiver misses a receive only if none is queued, and else takes the oldest
  fair : Honest (P.id r.peer) w.history
  -- for every message that is read there was one look for a receive. A message that met one is
  -- handed back with it, but for the last one that was read; the others are gone
  met : ∃ looked, finds (P.id r.peer) w.history = looked ++ (w.receiver r.peer).looking ∧
    looked.length = (w.processed r.peer).length ∧
    replay (Event.resolved? (P.id r.peer) .receive) w.history ++ (w.receiver r.peer).pending =
      (looked.zip (w.published r)).filterMap fun m => m.1.map (deliver · m.2)

variable {P : Pair} {capacity : Nat} {w v : World} {r : Role}

theorem filterMap_deliver {looked : List (Option Job)} {processed : List (Except Error Bytes)}
    {published : List Bytes} (hl : looked.length = processed.length)
    (hp : processed <+: published.map .ok) : (looked.zip processed).filterMap deliver? =
      (looked.zip published).filterMap fun m => m.1.map (deliver · m.2) := by
  induction looked generalizing processed published with
  | nil => rfl
  | cons found looked ih =>
    cases processed with
    | nil => cases hl
    | cons m processed =>
      cases published with
      | nil => simp at hp
      | cons payload published =>
        obtain ⟨rfl, hrest⟩ := List.cons_prefix_cons.mp hp
        have hi := ih (Nat.succ.inj hl) hrest
        rw [List.zip_cons_cons, List.zip_cons_cons, List.filterMap_cons, List.filterMap_cons, hi]
        cases found <;> rfl

theorem Orderly.inOrder (ho : P.Orderly capacity (P.traffic w)) (r : Role) : P.InOrder w r := by
  have hone := (ho.wire r).one
  have hcount : (w.processed r.peer).length + (P.traffic w).transit r = (w.published r).length :=
    (ho.wire r).count
  have huntorn : w.processed r.peer <+: (w.published r).map .ok := by
    have hsame : w.processed r.peer = _ := (ho.wire r).same
    rw [hsame]
    exact (List.take_prefix _ _).map _
  obtain ⟨looked, hfound, hlen, hres⟩ := (ho.tracked r.peer).found
  refine ⟨huntorn, by omega, (ho.tracked r).sent, (ho.tracked r.peer).books.honest, looked, hfound,
    hlen, ?_⟩
  rw [← filterMap_deliver hlen huntorn]
  exact hres

theorem Begins.orderly (h : P.Begins w) : P.Orderly capacity (P.traffic w) := by
  have hend : ∀ r, ∃ script, P.endpoint w r = .ofSettings (P.settings r) script := fun r => by
    obtain ⟨script, hx⟩ := h.ends r
    exact ⟨script, by simp [endpoint, hx]⟩
  have hsignal : ∀ r, w.kernel.gauge P.keys (.signal r) = 0 := fun r => by
    have hnone : w.kernel.setOf? (Gauge.key P.keys (.signal r)) = none := h.signal r
    simp [Kernel.gauge, hnone]
  have hsender : ∀ r, w.sender r = .fetch := fun r => seek_none (by simp [h.threads])
  have hreceiver : ∀ r, w.receiver r = .await := fun r => seek_none (by simp [h.threads])
  have hpublished : ∀ r, w.published r = [] := fun r => by rw [World.published, h.history]; rfl
  have hprocessed : ∀ r, w.processed r = [] := fun r => by rw [World.processed, h.history]; rfl
  have htransit : ∀ r, (P.traffic w).transit r = 0 := by
    intro r
    change w.kernel.gauge P.keys (.signal r) + (w.sender r).flight + (w.receiver r.peer).flight = 0
    rw [hsignal, hsender, hreceiver]
    rfl
  refine ⟨fun r => ?_, fun r => ?_⟩
  · obtain ⟨script, hx⟩ := hend r
    have hempty : ∀ d, ((P.side w r).queue d).Tidy ∧ ((P.side w r).queue d).items = [] := by
      intro d
      simp only [side, hx]
      cases d <;> exact ⟨WorkQueue.tidy_ofDepth _, WorkQueue.items_ofDepth _⟩
    have hpost : ∀ d n, (P.side w r).posting d n = 0 := fun d n => by simp [side, h.threads]
    change Side.Tracked (P.id r) w.history (P.side w r)
    rw [h.history]
    refine ⟨⟨fun d => (hempty d).1, by rintro _ _ ⟨⟩, fun d n => ?_, fun d => ⟨[], ?_, rfl⟩,
      trivial⟩,
      fun i hi => ?_, fun i hi => ?_, ⟨[], ?_, ?_⟩, [], ?_, ?_, ?_⟩
    · rw [hpost]
      exact Nat.zero_le _
    · rw [(hempty d).2]
      rfl
    · cases (congrArg Sender.slot? (hsender r)).symm.trans hi
    · cases (congrArg Receiver.slot? (hreceiver r)).symm.trans hi
    · rw [(hempty .send).2, List.append_nil]
      exact (congrArg Sender.hand (hsender r)).symm
    · exact (hpublished r).symm
    · exact (congrArg Receiver.looking (hreceiver r)).symm
    · exact (congrArg List.length (hprocessed r)).symm
    · exact congrArg Receiver.pending (hreceiver r)
  · refine ⟨(htransit r).symm ▸ Nat.zero_le _, ?_, ?_, fun hne => absurd (htransit r) hne⟩
    · rw [htransit]
      change (w.processed r.peer).length + 0 = (w.published r).length
      rw [hprocessed, hpublished]
      rfl
    · change w.processed r.peer = (List.take _ (w.published r)).map .ok
      simp [hprocessed r.peer, hpublished r]

/-- Messages between two sides of one capacity arrive in order and untorn, each for the oldest
receive or for none, in every run in which nobody destroys. -/
theorem in_order_delivery (hb : P.Begins w)
    (hc : (P.settings .server).capacity = (P.settings .client).capacity)
    (hr : Run Input.Peaceful w v) (r : Role) : P.InOrder v r := by
  have hcap : ∀ r, (P.settings r).capacity = (P.settings .client).capacity := by
    intro r
    cases r with
    | server => exact hc
    | client => rfl
  have hsmall : (P.settings .client).capacity < 4294967296 :=
    Nat.lt_of_le_of_lt (P.capacity_le .client) (by decide)
  have hkeep := hb.induction (motive := fun u => u.Signed ∧ P.Housed u.kernel ∧
      P.Orderly (P.settings .client).capacity (P.traffic u)) hr
    ⟨by simp [World.Signed, hb.history], hb.housed, hb.orderly⟩
    fun hl ha ⟨hs, hh, ho⟩ => by
      have hcarry := hl.carries hs hh hcap ha
      exact ⟨hcarry.signed, hcarry.housed, ho.deals hsmall hcarry.deals⟩
  exact hkeep.2.2.2.2.inOrder r

/-- The small pair after a message of the client, before anybody finalized. -/
def delivered : World :=
  newborn.play (joining ++ [.operate 0 (.postReceive (.ofLimit 8) .caller)] ++
    List.replicate 5 (.run 6) ++ [.operate 1 (.postSend (.ofBytes [1, 2]) .caller)] ++
    List.replicate 5 (.run 7) ++ List.replicate 6 (.run 4) ++ List.replicate 7 (.run 2))

theorem message_delivered : (small.settings .server).capacity = (small.settings .client).capacity ∧
    delivered.published .client = [[1, 2]] ∧
    (delivered.processed .server).map Except.toOption = [some [1, 2]] ∧
    small.InOrder delivered .client := by
  have hr : Run Input.Peaceful newborn delivered := Run.refl.play (by decide +kernel)
  exact ⟨rfl, by decide +kernel, by decide +kernel, in_order_delivery newborn_begins rfl hr .client⟩

end Pair

end QueuePair
