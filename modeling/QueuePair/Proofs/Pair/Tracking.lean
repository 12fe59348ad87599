import QueuePair.Proofs.Pair.Traffic

namespace QueuePair

variable {e : EndpointId} {h : List Event} {x x' : Side} {ev : Event} {d : Direction} {job : Job}
  {q : WorkQueue Job} {slot serial : Nat} {posting : Direction → Nat → Nat}

theorem finds_append (e : EndpointId) (ev : Event) (h : List Event) : finds e (ev :: h) =
    finds e h ++ if ev.looks e then [(fifo h e .receive).head?] else [] := rfl

namespace Side

/-- What the record has to say of a side. -/
structure Tracked (e : EndpointId) (h : List Event) (x : Side) : Prop where
  books : Books e h x.queue x.next x.posting
  sends : ∀ i, x.sender.slot? = some i → (x.queue .send).Reserved i
  receives : ∀ i, x.receiver.slot? = some i → (x.queue .receive).Reserved i
  sent : ∃ sent, kept h e .send = sent ++ x.sender.hand ++ (x.queue .send).items ∧
    sent.map (·.data.payload) = x.published
  found : ∃ looked, finds e h = looked ++ x.receiver.looking ∧
    looked.length = x.processed.length ∧
    replay (Event.resolved? e .receive) h ++ x.receiver.pending =
      (looked.zip x.processed).filterMap deliver?

namespace Tracked

theorem alike (ht : x.Tracked e h) (ha : x.Alike x') : x'.Tracked e h where
  books := ht.books.congr (fun d => by rw [ha.queue]) ha.next ha.posting
  sends := fun i hi => by
    rw [ha.queue]
    exact ht.sends i (ha.sender.slot i hi)
  receives := fun i hi => by
    rw [ha.queue]
    exact ht.receives i (ha.receiver.slot i hi)
  sent := by
    rw [ha.sender.hand, ha.queue, ha.published]
    exact ht.sent
  found := by
    rw [ha.receiver.looking, ha.processed, ha.receiver.pending]
    exact ht.found

theorem aside (ht : x.Tracked e h) (ha : ev.Aside e) : x.Tracked e (ev :: h) where
  books := ht.books.silent ha.silent
  sends := ht.sends
  receives := ht.receives
  sent := by
    rw [kept_of_none (ha.silent.accepted _) (ha.silent.withdrawn _)]
    exact ht.sent
  found := by
    rw [finds_of_silent ha.silent.looks, replay_cons, ha.resolved, Option.toList_none,
      List.append_nil]
    exact ht.found

theorem number (ht : x.Tracked e h)
    (hp : ∀ d n, posting d n ≤ x.posting d n + if n = x.next then 1 else 0) :
    Tracked e h { x with next := x.next + 1, posting } :=
  ⟨ht.books.number hp, ht.sends, ht.receives, ht.sent, ht.found⟩

theorem accept (ht : x.Tracked e h) (hq : (x.queue d).post job = some q)
    (hp : ∀ d' n, posting d' n + (if d' = d ∧ n = job.serial then 1 else 0) ≤ x.posting d' n) :
    Tracked e (.noted e (.accepted d job) :: h)
      { x with queue := Function.update x.queue d q, posting } := by
  obtain ⟨-, hitems, hreserved⟩ := (ht.books.tidy d).post hq
  obtain ⟨hbooks, hkept⟩ := ht.books.accept hq hp
  obtain ⟨sent, hsent, hpub⟩ := ht.sent
  have hfound : ∃ looked, finds e (.noted e (.accepted d job) :: h) = looked ++ x.receiver.looking ∧
      looked.length = x.processed.length ∧
      replay (Event.resolved? e .receive) (.noted e (.accepted d job) :: h) ++ x.receiver.pending =
        (looked.zip x.processed).filterMap deliver? := by
    rw [finds_of_silent rfl, replay_cons]
    simpa [Event.resolved?] using ht.found
  cases d with
  | send =>
    refine ⟨hbooks, fun i hi => ?_, ht.receives, ⟨sent, ?_, hpub⟩, hfound⟩
    · exact hreserved i (ht.sends i hi)
    · simp [hkept, hsent, hitems]
  | receive =>
    refine ⟨hbooks, ht.sends, fun i hi => ?_, ⟨sent, ?_, hpub⟩, hfound⟩
    · exact hreserved i (ht.receives i hi)
    · exact (kept_accepted_ne (by decide : Direction.receive ≠ .send)).trans hsent

theorem withdraw (ht : x.Tracked e h)
    (hq : (x.queue d).cancel (·.serial = serial) = (some job, q)) :
    Tracked e (.noted e (.withdrawn d serial) :: h)
      { x with queue := Function.update x.queue d q } := by
  obtain ⟨-, hreserved, -⟩ := (ht.books.tidy d).cancel hq
  obtain ⟨hbooks, hkept⟩ := ht.books.withdraw hq
  obtain ⟨sent, hsent, hpub⟩ := ht.sent
  have hfound : ∃ looked, finds e (.noted e (.withdrawn d serial) :: h) =
      looked ++ x.receiver.looking ∧ looked.length = x.processed.length ∧
      replay (Event.resolved? e .receive) (.noted e (.withdrawn d serial) :: h) ++
        x.receiver.pending = (looked.zip x.processed).filterMap deliver? := by
    rw [finds_of_silent rfl, replay_cons]
    simpa [Event.resolved?] using ht.found
  cases d with
  | send =>
    refine ⟨hbooks, fun i hi => ?_, ht.receives, ⟨sent, ?_, hpub⟩, hfound⟩
    · exact hreserved i (ht.sends i hi)
    · exact hkept _ hsent
  | receive =>
    refine ⟨hbooks, ht.sends, fun i hi => ?_, ⟨sent, ?_, hpub⟩, hfound⟩
    · exact hreserved i (ht.receives i hi)
    · exact (kept_withdrawn_ne (by decide : Direction.receive ≠ .send)).trans hsent

theorem dry (ht : x.Tracked e h) (hs : x.sender = .fetch)
    (hq : (x.queue .send).next = (none, q)) :
    Tracked e h { x with queue := Function.update x.queue .send q, sender := .parked } := by
  obtain ⟨htidy, hreserved, hcase⟩ := (ht.books.tidy .send).next hq
  have hitems : q.items = (x.queue .send).items := by
    rcases hcase with ⟨-, h₁, h₂⟩ | ⟨i, a, hr, -⟩
    · rw [h₁, h₂]
    · cases hr
  obtain ⟨sent, hsent, hpub⟩ := ht.sent
  rw [hs] at hsent
  refine ⟨ht.books.of_items htidy hitems, nofun, ht.receives, ⟨sent, ?_, hpub⟩, ht.found⟩
  simpa [Sender.hand, hitems] using hsent

theorem take (ht : x.Tracked e h) (hs : x.sender = .fetch)
    (hq : (x.queue .send).next = (some (slot, job), q)) :
    Tracked e (.noted e (.taken .send job.serial) :: h)
      { x with queue := Function.update x.queue .send q,
               sender := .publish slot job .takeVacancy } := by
  obtain ⟨-, -, hcase⟩ := (ht.books.tidy .send).next hq
  have hitems : (x.queue .send).items = job :: q.items ∧ q.Reserved slot := by
    rcases hcase with ⟨hr, -⟩ | ⟨i, a, hr, hi, hres⟩
    · cases hr
    · cases hr
      exact ⟨hi, hres⟩
  obtain ⟨sent, hsent, hpub⟩ := ht.sent
  rw [hs, hitems.1] at hsent
  refine ⟨ht.books.take hq, fun i hi => ?_, ht.receives, ⟨sent, ?_, hpub⟩, ?_⟩
  · cases hi
    exact hitems.2
  · rw [kept_of_none rfl rfl, hsent]
    simp [Sender.hand]
  · rw [finds_of_silent rfl, replay_cons]
    simpa [Event.resolved?] using ht.found

theorem publish (ht : x.Tracked e h) (hs : x.sender = .publish slot job .copy) :
    Tracked e h { x with
      sender := .publish slot job .giveGate, published := x.published ++ [job.data.payload] } := by
  obtain ⟨sent, hsent, hpub⟩ := ht.sent
  rw [hs] at hsent
  refine ⟨ht.books, fun i hi => ht.sends i (by rw [hs]; exact hi), ht.receives,
    ⟨sent ++ [job], ?_, by simp [hpub]⟩, ht.found⟩
  rw [hsent]
  simp [Sender.hand]

theorem announce (ht : x.Tracked e h) (hs : x.sender = .signal slot job) :
    Tracked e h { x with sender := .complete slot job } := by
  obtain ⟨sent, hsent, hpub⟩ := ht.sent
  rw [hs] at hsent
  exact ⟨ht.books, fun i hi => ht.sends i (by rw [hs]; exact hi), ht.receives, ⟨sent, hsent, hpub⟩,
    ht.found⟩

theorem reuse (ht : x.Tracked e h) (hs : x.sender = .recycle slot true) :
    Tracked e h { x with
      queue := Function.update x.queue .send ((x.queue .send).complete slot),
      sender := .fetch } := by
  obtain ⟨htidy, hitems, -⟩ := (ht.books.tidy .send).complete (ht.sends slot (by rw [hs]; rfl))
  obtain ⟨sent, hsent, hpub⟩ := ht.sent
  rw [hs] at hsent
  refine ⟨ht.books.of_items htidy hitems, nofun, ht.receives, ⟨sent, ?_, hpub⟩, ht.found⟩
  simpa [Sender.hand, hitems] using hsent

theorem hear (ht : x.Tracked e h) (hs : x.receiver = .await) :
    Tracked e h { x with receiver := .fetch } := by
  obtain ⟨looked, hfound, hlen, hres⟩ := ht.found
  rw [hs] at hfound hres
  exact ⟨ht.books, ht.sends, nofun, ht.sent, ⟨looked, hfound, hlen, hres⟩⟩

theorem miss (ht : x.Tracked e h) (hs : x.receiver = .fetch)
    (hq : (x.queue .receive).next = (none, q)) :
    Tracked e (.noted e .missed :: h) { x with
      queue := Function.update x.queue .receive q, receiver := .discard .takeGate } := by
  have hbooks := ht.books.miss hq
  have hempty : fifo h e .receive = [] := hbooks.honest.2.1 rfl
  obtain ⟨looked, hfound, hlen, hres⟩ := ht.found
  rw [hs] at hfound hres
  refine ⟨hbooks, ht.sends, nofun, ?_, looked, ?_, hlen, ?_⟩
  · rw [kept_of_none rfl rfl]
    exact ht.sent
  · rw [finds_append, hfound, hempty]
    simp [Event.looks, Receiver.looking, Mailbox.Collecting.read?]
  · rw [replay_cons]
    simpa [Event.resolved?, Receiver.pending] using hres

theorem find (ht : x.Tracked e h) (hs : x.receiver = .fetch)
    (hq : (x.queue .receive).next = (some (slot, job), q)) :
    Tracked e (.noted e (.taken .receive job.serial) :: h) { x with
      queue := Function.update x.queue .receive q, receiver := .collect slot job .takeGate } := by
  obtain ⟨-, -, hcase⟩ := (ht.books.tidy .receive).next hq
  have hitems : (x.queue .receive).items = job :: q.items ∧ q.Reserved slot := by
    rcases hcase with ⟨hr, -⟩ | ⟨i, a, hr, hi, hres⟩
    · cases hr
    · cases hr
      exact ⟨hi, hres⟩
  obtain ⟨looked, hfound, hlen, hres⟩ := ht.found
  rw [hs] at hfound hres
  refine ⟨ht.books.take hq, ht.sends, fun i hi => ?_, ?_, looked, ?_, hlen, ?_⟩
  · cases hi
    exact hitems.2
  · rw [kept_of_none rfl rfl]
    exact ht.sent
  · rw [finds_append, hfound, ht.books.fifo_eq, hitems.1]
    simp [Event.looks, Receiver.looking, Mailbox.Collecting.read?]
  · rw [replay_cons]
    simpa [Event.resolved?, Receiver.pending, Mailbox.Collecting.read?] using hres

theorem read {found : Option Job} {m : Except Error Bytes} {a : Receiver} (ht : x.Tracked e h)
    (hl : x.receiver.looking = [found]) (hp : x.receiver.pending = []) (hl' : a.looking = [])
    (hp' : a.pending = (deliver? (found, m)).toList) (hs : a.slot? = x.receiver.slot?) :
    Tracked e h { x with receiver := a, processed := x.processed ++ [m] } := by
  obtain ⟨looked, hfound, hlen, hres⟩ := ht.found
  rw [hl] at hfound
  rw [hp, List.append_nil] at hres
  refine ⟨ht.books, ht.sends, fun i hi => ht.receives i (hs ▸ hi), ht.sent, looked ++ [found], ?_,
    by simp [hlen], ?_⟩
  · simp [hfound, hl']
  · rw [List.zip_append hlen, List.filterMap_append, hres, hp']
    cases hd : deliver? (found, m) <;> simp [hd]

theorem handBack {error : Option Error} (ht : x.Tracked e h)
    (hp : x.receiver.pending = [(job, error)]) (hl : x.receiver.looking = [])
    (hs : x.receiver.slot? = some slot) :
    Tracked e (.noted e (.resolved .receive job error) :: h)
      { x with receiver := .recycle slot true } := by
  obtain ⟨looked, hfound, hlen, hres⟩ := ht.found
  rw [hl] at hfound
  rw [hp] at hres
  refine ⟨ht.books.silent ⟨fun _ => rfl, fun _ => rfl, fun _ => rfl, rfl⟩, ht.sends,
    fun i hi => ht.receives i (hs.trans hi), ?_, looked, ?_, hlen, ?_⟩
  · rw [kept_of_none rfl rfl]
    exact ht.sent
  · rw [finds_of_silent rfl]
    exact hfound
  · rw [replay_cons]
    simpa [Event.resolved?, Receiver.pending] using hres

theorem refill (ht : x.Tracked e h) (hs : x.receiver = .recycle slot true) :
    Tracked e h { x with
      queue := Function.update x.queue .receive ((x.queue .receive).complete slot),
      receiver := .await } := by
  obtain ⟨htidy, hitems, -⟩ :=
    (ht.books.tidy .receive).complete (ht.receives slot (by rw [hs]; rfl))
  obtain ⟨looked, hfound, hlen, hres⟩ := ht.found
  rw [hs] at hfound hres
  exact ⟨ht.books.of_items htidy hitems, ht.sends, nofun, ht.sent, looked, hfound, hlen, hres⟩

end Tracked

end Side

end QueuePair
