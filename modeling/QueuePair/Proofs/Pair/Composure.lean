import QueuePair.Proofs.Pair.Carriage
import QueuePair.Proofs.Standing

namespace QueuePair

open World

def Event.parts (e : EndpointId) : Event → Bool
  | .noted e' (.disconnected _) => e' = e
  | _ => false

def World.partings (w : World) (e : EndpointId) : Nat :=
  w.history.countP (Event.parts e)

def Task.holds : Task → Bool
  | .call _ (.holding _) => true
  | _ => false

def Task.connects : Task → Bool
  | .call _ (.connecting ..) => true
  | _ => false

namespace Endpoint

structure Even (x y : Endpoint) : Prop where
  stopping : y.stopping = x.stopping
  script : y.onDisconnect = x.onDisconnect

theorem Even.trans {x y z : Endpoint} (h : x.Even y) (h' : y.Even z) : x.Even z :=
  ⟨h'.stopping.trans h.stopping, h'.script.trans h.script⟩

structure Level (x y : Endpoint) : Prop extends Even x y where
  state : y.state = x.state
  link : y.link = x.link

end Endpoint

namespace Pair

structure Levels (P : Pair) (w v : World) : Prop where
  ends : ∀ {r x}, w.endpoints[P.id r]? = some x →
    ∃ y, v.endpoints[P.id r]? = some y ∧ x.Level y
  partings : ∀ e, v.partings e = w.partings e

variable {P : Pair} {w₀ w v u : World} {t : ThreadId} {th th' : Thread} {r : Role} {x y : Endpoint}

theorem level_refl (x : Endpoint) : x.Level x := ⟨⟨rfl, rfl⟩, rfl, rfl⟩

theorem level_withQueue (x : Endpoint) (d : Direction) (q : WorkQueue Job) :
    x.Level (x.withQueue d q) := by
  cases d <;> exact ⟨⟨rfl, rfl⟩, rfl, rfl⟩

theorem partings_record {ev : Event} {e : EndpointId} (h : ev.parts e = false) (w : World) :
    (w.record ev).partings e = w.partings e := by
  simp [World.partings, World.record, h]

theorem Levels.record {ev : Event} (h : P.Levels w v) (hev : ∀ e, ev.parts e = false) :
    P.Levels w (v.record ev) :=
  ⟨h.ends, fun e => (partings_record (hev e) v).trans (h.partings e)⟩

theorem Levels.of_eq (he : v.endpoints = w.endpoints) (hh : v.history = w.history) :
    P.Levels w v :=
  ⟨fun hx => ⟨_, he ▸ hx, level_refl _⟩, fun e => by rw [World.partings, hh, World.partings]⟩

theorem Levels.put (hx : w.endpoints[P.id r]? = some x) (h : x.Level y) :
    P.Levels w (w.putEndpoint (P.id r) y) := by
  refine ⟨fun {r' x'} hx' => ?_, fun _ => rfl⟩
  have hend := ends_set (v := w.putEndpoint (P.id r) y) hx rfl r'
  by_cases hr : r' = r
  · subst hr
    obtain rfl := Option.some.inj (hx.symm.trans hx')
    exact ⟨y, by rw [hend, if_pos rfl], h⟩
  · exact ⟨x', by rw [hend, if_neg hr, hx'], level_refl x'⟩

theorem Sends.levels {l : Link} {s s' : Sender} (h : P.Sends r l w t s v s') : P.Levels w v := by
  cases h with
  | dry hx | recycle hx => exact .put hx ⟨⟨rfl, rfl⟩, rfl, rfl⟩
  | @take x q slot job hx =>
    exact .record (.put (y := { x with sends := q }) hx ⟨⟨rfl, rfl⟩, rfl, rfl⟩) fun _ => rfl
  | wake | takeVacancy | takeGate | giveGate | signal => exact .of_eq rfl rfl
  | copy => exact .record (.of_eq rfl rfl) fun _ => rfl

theorem Collects.levels {m : Mailbox} {into : Option Buffer} {s : Mailbox.Collecting}
    {f : Flow Mailbox.Collecting Mailbox.Collected} (h : P.Collects m into w t s v f) :
    P.Levels w v := by
  cases h with
  | takeGate | giveGate | giveVacancy => exact .of_eq rfl rfl
  | copy => exact .record (.of_eq rfl rfl) fun _ => rfl

theorem Receives.levels {l : Link} {s s' : Receiver} (h : P.Receives r l w t s v s') :
    P.Levels w v := by
  cases h with
  | await => exact .of_eq rfl rfl
  | @miss x q hx | @take x q slot job hx =>
    exact .record (.put (y := { x with receives := q }) hx ⟨⟨rfl, rfl⟩, rfl, rfl⟩) fun _ => rfl
  | discard hc | discarded hc | collect hc | collected hc => exact hc.levels
  | recycle hx => exact .put hx ⟨⟨rfl, rfl⟩, rfl, rfl⟩

theorem Finishes.levels {s : Finalizing} {f : Flow Finalizing (Except Error Unit)}
    (h : P.Finishes r w s v f) : P.Levels w v := by
  cases h with
  | meet hm | met hm => cases hm <;> exact .of_eq rfl rfl
  | ready | unready | linked | unlinked | refuse => exact .of_eq rfl rfl

theorem Posts.levels {d : Direction} {data : Buffer} {handler : Handler} {s : Posting}
    {f : Flow Posting (Except Error Nat)} (h : P.Posts r d data handler w s v f) :
    P.Levels w v := by
  cases h with
  | number hx => exact .put hx ⟨⟨rfl, rfl⟩, rfl, rfl⟩
  | @accept x q job dl hx => exact .record (.put hx (level_withQueue x d q)) fun _ => rfl
  | ready | refuse | clock | noClock | full | wake | late => exact .of_eq rfl rfl

theorem Waits.levels {d : Direction} {data : Buffer} {s : Waiting}
    {f : Flow Waiting (Except Error Buffer)} (h : P.Waits r d data w s v f) : P.Levels w v := by
  cases h with
  | post hp | posted hp | refused hp => exact hp.levels
  | @withdraw x q serial job hx => exact .record (.put hx (level_withQueue x d q)) fun _ => rfl
  | clock | answer | giveUp | keep | poll => exact .of_eq rfl rfl

theorem Serves.levels {c : Call} {f : Flow Call Result} (h : P.Serves r w c v f) :
    P.Levels w v := by
  cases h with
  | post hp | posted hp => exact hp.levels
  | wait hw | waited hw => exact hw.levels
  | readState | hold => exact .of_eq rfl rfl

theorem Connects.cases {s : Connecting} {f : Flow Connecting (Except Error Unit)} (h : P.Law w)
    (hc : P.Connects r w t s v f) : P.Levels w v ∨
      ∃ x y, w.endpoints[P.id r]? = some x ∧ v = w.putEndpoint (P.id r) y ∧ x.Even y ∧
        ((∃ l, f = .more (.spawnSender l)) ∨
          ∃ l e, s = .unlock l e ∧ y.state = x.state ∧ y.link = l.orElse fun _ => x.link) := by
  cases hc with
  | lock hx => exact .inl (.put hx ⟨⟨rfl, rfl⟩, rfl, rfl⟩)
  | vacant | busy | markVacant | raiseGate | raiseCount => exact .inl (.of_eq rfl rfl)
  | map hm | mapped hm | unmapped hm => cases hm <;> exact .inl (.of_eq rfl rfl)
  | boxSet hj | boxMade hj | boxJoined hj | outSet hj | outDone hj | inSet hj | inDone hj =>
    cases hj <;> exact .inl (.of_eq rfl rfl)
  | storeConnected hx => exact .inr ⟨_, _, hx, rfl, ⟨rfl, rfl⟩, .inl ⟨_, rfl⟩⟩
  | spawnSender | spawnReceiver =>
    obtain ⟨x, hx, -⟩ := h.ends r
    have hput := Levels.put (P := P) (y := { x with
      workers := x.workers ++ [w.threads.length], owners := x.owners + 1 }) hx
      ⟨⟨rfl, rfl⟩, rfl, rfl⟩
    refine .inl ⟨fun hx' => ?_, fun _ => rfl⟩
    obtain ⟨y, hy, hlevel⟩ := hput.ends hx'
    refine ⟨y, ?_, hlevel⟩
    rw [← hy]
    simp only [spawnWorker, spawn, modifyEndpoint, putEndpoint, party_id, modify_of_getElem? hx]
  | unlock hx => exact .inr ⟨_, _, hx, rfl, ⟨rfl, rfl⟩, .inr ⟨_, _, rfl, rfl, rfl⟩⟩

theorem Connects.stays {s : Connecting} {f : Flow Connecting (Except Error Unit)}
    (hc : P.Connects r w t s v f) (hs : s.stored = true) :
    (∃ s', f = .more s' ∧ s'.stored = true) ∨
      ∃ x y, w.endpoints[P.id r]? = some x ∧ v = w.putEndpoint (P.id r) y ∧
        y.link.isSome = true := by
  cases hc with
  | spawnSender | spawnReceiver | raiseGate | raiseCount => exact .inl ⟨_, rfl, rfl⟩
  | @unlock x l e hx =>
    cases l with
    | none => cases hs
    | some l => exact .inr ⟨_, _, hx, rfl, rfl⟩
  | _ => cases hs

theorem connecting?_self (o : Option EndpointId) (r : Role) (s : Connecting) :
    (Task.call o (.connecting (P.party r) s)).connecting? (P.id r) = some s := by
  simp [Task.connecting?]

theorem connecting?_unique {task : Task} {e e' : EndpointId} {s s' : Connecting}
    (hs : task.connecting? e = some s) (hs' : task.connecting? e' = some s') : e = e' ∧ s = s' := by
  cases task with
  | call o c =>
    cases c with
    | connecting p c =>
      simp only [Task.connecting?, Option.ite_none_right_eq_some] at hs hs'
      exact ⟨hs.1.symm.trans hs'.1, Option.some.inj (hs.2.symm.trans hs'.2)⟩
    | _ => cases hs
  | _ => cases hs

/-- A step of a connecting thread, or one that leaves all connecting threads where they are. -/
inductive Stays (P : Pair) (w : World) : World → Prop
  | connect {r : Role} {s : Connecting} {v : World} {f : Flow Connecting (Except Error Unit)}
      {t : ThreadId} {th th' : Thread} : w.threads[t]? = some th →
      th.task.connecting? (P.id r) = some s → P.Connects r w t s v f →
      (∀ s', f = .more s' → th'.task.connecting? (P.id r) = some s') →
      th'.task.holds = false → Stays P w (v.putThread t th')
  | level {v : World} : P.Levels w v →
      (∀ th ∈ w.threads, ∀ e s, th.task.connecting? e = some s → s.stored = true →
        th ∈ v.threads) →
      (∀ th ∈ v.threads, th.task.holds = true → ∃ th' ∈ w.threads, th'.task.holds = true) →
      Stays P w v

theorem unstored {task : Task} (h : task.connects = false) (e : EndpointId) (s : Connecting)
    (hs : task.connecting? e = some s) : s.stored = false := by
  cases task with
  | call o c =>
    cases c with
    | connecting => cases h
    | _ => cases hs
  | _ => cases hs

theorem Stays.of_put (h : P.Levels w v) (hv : v.threads = w.threads) (ht : w.threads[t]? = some th)
    (hc : ∀ e s, th.task.connecting? e = some s → s.stored = false)
    (hh : th'.task.holds = true → th.task.holds = true) : P.Stays w (v.putThread t th') := by
  refine .level ⟨h.ends, h.partings⟩ (fun b hb e s hs hst => ?_) fun b hb hb' => ?_
  · obtain ⟨i, hi⟩ := List.mem_iff_getElem?.mp hb
    have hne : t ≠ i := by
      rintro rfl
      obtain rfl := Option.some.inj (ht.symm.trans hi)
      rw [hc e s hs] at hst
      cases hst
    refine List.mem_of_getElem? (i := i) ?_
    rw [putThread_threads, List.getElem?_set_ne hne, hv, hi]
  · rcases List.mem_or_eq_of_mem_set hb with hb | rfl
    · exact ⟨b, hv ▸ hb, hb'⟩
    · exact ⟨th, List.mem_of_getElem? ht, hh hb'⟩

theorem serving_connects {c : Call} (h : P.Serving r c) (o : Option EndpointId) (e : EndpointId)
    (s : Connecting) : (Task.call o c).connecting? e = some s → s.stored = false := by
  cases c with
  | connecting => exact h.elim
  | _ => exact unstored rfl e s

theorem Serves.holds {c c' : Call} (h : P.Serves r w c v (.more c')) (o : Option EndpointId) :
    (Task.call o c').holds = false := by
  cases h <;> rfl

theorem opened_holds (r : Role) (e : Except Error Unit) : (P.opened r e).holds = false := by
  cases e with
  | error => rfl
  | ok =>
    simp only [opened]
    split <;> rfl

theorem Fit.unconnected {k : Kernel} {o task : Task} {c : Callback} {cs : List Callback}
    (h : P.Fit k ⟨o, task, c :: cs⟩) (e : EndpointId) (s : Connecting) :
    task.connecting? e = some s → s.stored = false := by
  cases h <;> exact unstored rfl e s

theorem Moves.stays (ht : w.threads[t]? = some th) (hm : P.Moves w t th v th') :
    P.Stays w (v.putThread t th') := by
  cases hm with
  | sender _ _ hs =>
    exact .of_put hs.levels (by cases hs <;> rfl) ht (unstored rfl) fun h => by cases h
  | receiver _ _ hs =>
    refine .of_put hs.levels ?_ ht (unstored rfl) fun h => by cases h
    cases hs with
    | discard hc | discarded hc | collect hc | collected hc => cases hc <;> rfl
    | _ => rfl
  | @connect r s s' v _ hc =>
    refine .connect (r := r) (s := s) ht (connecting?_self _ r s) hc ?_ rfl
    rintro c ⟨⟩
    exact connecting?_self _ r s'
  | @connected r s v e _ hc =>
    exact .connect (r := r) (s := s) ht (connecting?_self _ r s) hc
      (fun _ h => by simp at h) (opened_holds r e)
  | finalize _ hf =>
    exact .of_put hf.levels hf.threads ht (unstored rfl) fun h => by cases h
  | finalized _ hf =>
    exact .of_put hf.levels hf.threads ht (unstored rfl) fun h => by cases h
  | call _ hc hs =>
    exact .of_put hs.levels hs.threads ht (serving_connects hc _) fun hh => by
      rw [hs.holds] at hh
      cases hh
  | called _ hc hs =>
    exact .of_put hs.levels hs.threads ht (serving_connects hc _) fun h => by cases h
  | callback hf _ _ _ hs | ended hf _ _ _ hs =>
    exact .of_put hs.levels hs.threads ht (hf.unconnected) fun h => h
  | acted hf =>
    exact .of_put (.record (.of_eq rfl rfl) fun _ => rfl) rfl ht hf.unconnected fun h => h
  | release hx =>
    exact .of_put (.put hx ⟨⟨rfl, rfl⟩, rfl, rfl⟩) rfl ht (unstored rfl) fun h => by cases h

theorem Levels.refl (w : World) : P.Levels w w := .of_eq rfl rfl

theorem resolve_levels (hx : w.endpoints[P.id r]? = some x) (d : Direction) (job : Job)
    (e : Option Error) : P.Levels w (w.resolve (P.party r) d job e).1 := by
  obtain ⟨serial, data, handler⟩ := job
  cases handler with
  | callbacks => exact .record (.refl w) fun _ => rfl
  | caller =>
    obtain ⟨a, ha⟩ := resolve_caller (w := w) (P.party r) d serial data e
    have hput : P.Levels w ((w.putEndpoint (P.id r) (x.putReply serial a)).note (P.id r)
        (.resolved d ⟨serial, data, .caller⟩ e)) :=
      .record (.put hx ⟨⟨rfl, rfl⟩, rfl, rfl⟩) fun _ => rfl
    rw [ha]
    refine ⟨fun hx' => ?_, hput.partings⟩
    obtain ⟨y, hy, hlevel⟩ := hput.ends hx'
    refine ⟨y, hy ▸ ?_, hlevel⟩
    simp only [note, record, modifyEndpoint, putEndpoint, party_id, modify_of_getElem? hx]

theorem Returns.stays {p : Party} {i : Invocation} {after : Thread} (h : P.Law w)
    (ht : w.threads[t]? = some th) (hr : P.Returns w.kernel th p i after) :
    P.Stays w ((w.invoke p i).1.putThread t (after.push (w.invoke p i).2)) := by
  have hthreads := invoke_threads (w := w) p i
  cases hr with
  | @sent r | @received r | @refused r =>
    obtain ⟨x, hx, -⟩ := h.ends r
    exact .of_put (resolve_levels hx _ _ _) hthreads ht (unstored rfl) fun h => by cases h

theorem operation_holds (P : Pair) (r : Role) (op : Operation) :
    (P.operation r op).task.holds = false := by
  simp only [operation, Thread.ofTask]
  cases hop : Call.ofOperation (P.party r) op with
  | done => rfl
  | more c =>
    cases op with
    | connect | accept | finalizeConnect | finalizeAccept =>
      simp only [Call.ofOperation, Call.requireRole] at hop
      split at hop <;> cases hop
      rfl
    | postSend | waitSend =>
      simp only [Call.ofOperation, Call.sendFits] at hop
      split at hop <;> cases hop
      rfl
    | postReceive | waitReceive | readState | destroy =>
      cases hop
      rfl

theorem unstored_of_unlocked {task : Task} {e : EndpointId} {s : Connecting}
    (hs : task.connecting? e = some s) (hl : task.locks = none) : s.stored = false := by
  cases task with
  | call o c =>
    cases c with
    | connecting p s' =>
      simp only [Task.connecting?, Option.ite_none_right_eq_some, Option.some.injEq] at hs
      obtain ⟨-, rfl⟩ := hs
      cases s' with
      | lock => rfl
      | _ => cases hl
    | _ => cases hs
  | _ => cases hs

theorem Acts.stays (h : P.Law w) (ha : P.Acts w v) : P.Stays w v := by
  cases ha with
  | move ht hm => exact hm.stays ht
  | back ht hr => exact hr.stays h ht
  | @panic t th ht hp =>
    obtain ⟨r, ho⟩ := hp.owner
    refine .of_put (.refl w) rfl ht (fun e s hs => ?_) fun hh => ?_
    · exact unstored_of_unlocked hs hp.locks
    · simp [Thread.unwound, ho, Task.finish, Task.holds] at hh
  | @operate r x op hx =>
    have hput := Levels.put (P := P) (y := { x with owners := x.owners + 1 }) hx
      ⟨⟨rfl, rfl⟩, rfl, rfl⟩
    refine .level ⟨fun hx' => hput.ends hx', fun _ => rfl⟩
      (fun b hb _ _ _ _ => List.mem_append_left _ hb) fun b hb hh => ?_
    rcases List.mem_append.mp hb with hb | hb
    · exact ⟨b, hb, hh⟩
    · obtain rfl := List.mem_singleton.mp hb
      rw [operation_holds] at hh
      cases hh
  | @register r x key hx =>
    exact .level (.put hx ⟨⟨rfl, rfl⟩, rfl, rfl⟩) (fun b hb _ _ _ _ => hb) fun b hb hh =>
      ⟨b, hb, hh⟩
  | release => exact .level (.of_eq rfl rfl) (fun b hb _ _ _ _ => hb) fun b hb hh => ⟨b, hb, hh⟩
  | settle ha =>
    exact .level (.of_eq ha.endpoints ha.history) (fun b hb _ _ _ _ => ha.threads ▸ hb)
      fun b hb hh => ⟨b, ha.threads ▸ hb, hh⟩

structure Composed (P : Pair) (w₀ w : World) : Prop where
  even : ∀ {r x y}, w₀.endpoints[P.id r]? = some x → w.endpoints[P.id r]? = some y → x.Even y
  partings : ∀ e, w.partings e = 0
  linked : ∀ {r x}, w.endpoints[P.id r]? = some x → x.state = .connected →
    x.link.isSome = true ∨
      ∃ th ∈ w.threads, ∃ s, th.task.connecting? (P.id r) = some s ∧ s.stored = true
  holds : ∀ th ∈ w.threads, th.task.holds = false

/-- What one step leaves of the link that a connected endpoint has, or is about to have. -/
theorem Composed.linked_connect {s : Connecting} {f : Flow Connecting (Except Error Unit)}
    {q : Role} (h : P.Composed w₀ w) (hl : P.Law w) (ht : w.threads[t]? = some th)
    (hs : th.task.connecting? (P.id r) = some s) (hc : P.Connects r w t s v f)
    (hmore : ∀ s', f = .more s' → th'.task.connecting? (P.id r) = some s')
    (hy : (v.putThread t th').endpoints[P.id q]? = some y) (hcon : y.state = .connected) :
    y.link.isSome = true ∨ ∃ b ∈ (v.putThread t th').threads,
      ∃ s, b.task.connecting? (P.id q) = some s ∧ s.stored = true := by
  have hlt : t < v.threads.length := by
    have hold := (List.getElem?_eq_some_iff.mp ht).1
    rcases hc.news with hv | ⟨_, _, _, hv⟩ <;> rw [hv]
    · exact hold
    · exact Nat.lt_of_lt_of_le hold (by simp)
  have hmem : th' ∈ (v.putThread t th').threads := List.mem_set hlt th'
  -- whoever was about to put the link in place is still there, or has just done so
  have hkeep : ∀ {x : Endpoint}, w.endpoints[P.id q]? = some x → x.link = y.link ∨
      y.link.isSome = true → x.state = .connected → y.link.isSome = true ∨
        ∃ b ∈ (v.putThread t th').threads,
          ∃ s, b.task.connecting? (P.id q) = some s ∧ s.stored = true := by
    intro x hx hlink hxs
    rcases hlink with hlink | hlink
    swap
    · exact .inl hlink
    rcases h.linked hx hxs with hsome | ⟨b, hb, s', hs', hst⟩
    · exact .inl (hlink ▸ hsome)
    obtain ⟨i, hi⟩ := List.mem_iff_getElem?.mp hb
    by_cases hit : i = t
    · subst hit
      obtain rfl := Option.some.inj (ht.symm.trans hi)
      obtain ⟨hid, rfl⟩ := connecting?_unique hs hs'
      obtain rfl := id_inj.mp hid
      rcases hc.stays hst with ⟨s', hf, hst'⟩ | ⟨x', y', hx', hv, hsome⟩
      · exact .inr ⟨th', hmem, s', hmore s' hf, hst'⟩
      · have hend := ends_set (v := v.putThread i th') hx' (by rw [hv]; rfl) r
        rw [if_pos rfl, hy] at hend
        exact .inl (Option.some.inj hend ▸ hsome)
    · refine .inr ⟨b, List.mem_of_getElem? (i := i) ?_, s', hs', hst⟩
      rw [putThread_threads, List.getElem?_set_ne (Ne.symm hit)]
      rcases hc.news with hv | ⟨_, _, _, hv⟩ <;> rw [hv]
      · exact hi
      · rw [List.getElem?_append_left (List.getElem?_eq_some_iff.mp hi).1, hi]
  rcases hc.cases hl with hlevel | ⟨x, z, hx, hv, heven, hcase⟩
  · obtain ⟨x, hx, -⟩ := hl.ends q
    obtain ⟨z, hz, hxz⟩ := hlevel.ends hx
    obtain rfl := Option.some.inj (hy.symm.trans hz)
    exact hkeep hx (.inl hxz.link.symm) (hxz.state ▸ hcon)
  have hend := ends_set (v := v.putThread t th') hx (by rw [hv]; rfl) q
  by_cases hq : q = r
  · subst hq
    rw [if_pos rfl, hy] at hend
    obtain rfl := Option.some.inj hend
    rcases hcase with ⟨l, hf⟩ | ⟨l, e, -, hstate, hlink⟩
    · exact .inr ⟨th', hmem, _, hmore _ hf, rfl⟩
    · refine hkeep hx ?_ (hstate ▸ hcon)
      cases l with
      | none => exact .inl (by simpa using hlink.symm)
      | some l => exact .inr (by simp [hlink])
  · rw [if_neg hq, hy] at hend
    exact hkeep hend.symm (.inl rfl) hcon

theorem Connects.even {s : Connecting} {f : Flow Connecting (Except Error Unit)} (h : P.Law w)
    (hc : P.Connects r w t s v f) : (∀ {q x}, w.endpoints[P.id q]? = some x →
      ∃ y, v.endpoints[P.id q]? = some y ∧ x.Even y) ∧ ∀ e, v.partings e = w.partings e := by
  rcases hc.cases h with hlevel | ⟨x, z, hx, rfl, heven, -⟩
  · refine ⟨fun hx => ?_, hlevel.partings⟩
    obtain ⟨y, hy, hxy⟩ := hlevel.ends hx
    exact ⟨y, hy, hxy.toEven⟩
  · refine ⟨fun {q x'} hx' => ?_, fun _ => rfl⟩
    have hend := ends_set (v := w.putEndpoint (P.id r) z) hx rfl q
    by_cases hq : q = r
    · subst hq
      obtain rfl := Option.some.inj (hx.symm.trans hx')
      exact ⟨z, by rw [hend, if_pos rfl], heven⟩
    · exact ⟨x', by rw [hend, if_neg hq, hx'], (level_refl x').toEven⟩

theorem Composed.acts (h : P.Composed w₀ w) (hl : P.Law w) (ha : P.Acts w v) :
    P.Composed w₀ v := by
  cases ha.stays hl with
  | level hlevel hstay hholds =>
    have hback : ∀ {r y}, v.endpoints[P.id r]? = some y →
        ∃ x, w.endpoints[P.id r]? = some x ∧ x.Level y := fun {r y} hy => by
      obtain ⟨x, hx, -⟩ := hl.ends r
      obtain ⟨z, hz, hxz⟩ := hlevel.ends hx
      obtain rfl := Option.some.inj (hy.symm.trans hz)
      exact ⟨x, hx, hxz⟩
    refine ⟨fun hx hy => ?_, fun e => (hlevel.partings e).trans (h.partings e), fun hy hs => ?_,
      fun th hm => ?_⟩
    · obtain ⟨z, hz, hzy⟩ := hback hy
      exact (h.even hx hz).trans hzy.toEven
    · obtain ⟨z, hz, hzy⟩ := hback hy
      rw [hzy.link]
      refine (h.linked hz (hzy.state ▸ hs)).imp_right ?_
      rintro ⟨th, hm, s, hc, hst⟩
      exact ⟨th, hstay th hm _ s hc hst, s, hc, hst⟩
    · refine Bool.eq_false_iff.mpr fun hh => ?_
      obtain ⟨th', hm', hh'⟩ := hholds th hm hh
      rw [h.holds th' hm'] at hh'
      cases hh'
  | @connect r s v f t th th' ht hc hstep hmore hh =>
    obtain ⟨heven, hparts⟩ := hstep.even hl
    refine ⟨fun {q x y} hx hy => ?_, fun e => (hparts e).trans (h.partings e),
      fun hy hs => h.linked_connect hl ht hc hstep hmore hy hs, fun b hb => ?_⟩
    · obtain ⟨z, hz, -⟩ := hl.ends q
      obtain ⟨y', hy', hzy⟩ := heven hz
      obtain rfl := Option.some.inj (hy.symm.trans hy')
      exact (h.even hx hz).trans hzy
    · rcases List.mem_or_eq_of_mem_set hb with hb | rfl
      · rcases hstep.news with hv | ⟨p, l, d, hv⟩ <;> rw [hv] at hb
        · exact h.holds b hb
        · rcases List.mem_append.mp hb with hb | hb
          · exact h.holds b hb
          · obtain rfl := List.mem_singleton.mp hb
            cases d <;> rfl
      · exact hh

theorem Begins.composed (hb : P.Begins w₀) (hr : Run Input.Peaceful w₀ w) : P.Composed w₀ w := by
  refine (hb.induction (motive := P.Composed w₀) hr ⟨fun hx hy => ?_, fun e => ?_, fun hx hs => ?_,
    fun th hm => ?_⟩ fun hl ha h => h.acts hl ha).2.2
  · obtain rfl := Option.some.inj (hx.symm.trans hy)
    exact (level_refl _).toEven
  · simp [World.partings, hb.history]
  · obtain ⟨script, hx'⟩ := hb.ends _
    obtain rfl := Option.some.inj (hx.symm.trans hx')
    cases hs
  · rw [hb.threads] at hm
    cases hm

end Pair

end QueuePair
