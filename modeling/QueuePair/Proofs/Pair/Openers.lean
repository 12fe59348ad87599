import QueuePair.Proofs.Pair.Calm

namespace QueuePair

open World

namespace Role

/-- The operation that connects a side. -/
def opening : Role → Operation
  | .server => .accept
  | .client => .connect

/-- What the caller is told once a side is connected. -/
def welcome : Role → Result
  | .server => .ok (.state .connected)
  | .client => .ok .unit

end Role

namespace Connecting

/-- Nothing has been done to the endpoint yet but to lock its link. -/
def opening : Connecting → Bool
  | .lock | .check false | .mailbox _ | .signals .. | .storeConnected _ => true
  | _ => false

def standing : Connecting → Bool
  | .spawnSender _ | .spawnReceiver _ | .attach .. | .unlock (some _) (.ok ()) => true
  | _ => false

/-- The most steps that are left. -/
def rank : Connecting → Nat
  | .lock => 21
  | .check _ => 20
  | .mailbox (.map .openFile) => 19
  | .mailbox (.map (.measure _)) => 18
  | .mailbox (.map (.extend _)) => 17
  | .mailbox (.map (.map _)) => 16
  | .mailbox (.semaphores _ .create) => 15
  | .mailbox (.semaphores _ .join) => 14
  | .mailbox _ => 13
  | .signals _ (.outbound .create) => 12
  | .signals _ (.outbound .join) => 11
  | .signals _ (.inbound _ .create) => 10
  | .signals _ _ => 9
  | .storeConnected _ => 8
  | .spawnSender _ => 7
  | .spawnReceiver _ => 6
  | .attach _ .raiseGate => 5
  | .attach _ .raiseCount => 4
  | _ => 3

end Connecting

namespace Task

def rank : Task → Nat
  | .call _ (.connecting _ s) => s.rank
  | .call .. => 2
  | .leaving .. => 1
  | _ => 0

end Task

namespace Pair

open Kernel (Shifts)

variable (P : Pair)

def opener (r : Role) (task : Task) : Thread :=
  ⟨.call (some (P.id r)) (.connecting (P.party r) .lock), task, []⟩

/-- Where a connecting thread and its endpoint are if nothing has failed. -/
inductive Stage (r : Role) (x : Endpoint) : Task → Prop
  | opening {s : Connecting} : s.opening = true → x.state = .init → x.link = none →
      Stage r x (.call (some (P.id r)) (.connecting (P.party r) s))
  | standing {s : Connecting} : s.standing = true → x.state = .connected → x.link = none →
      Stage r x (.call (some (P.id r)) (.connecting (P.party r) s))
  | reading {l : Link} : r = .server → x.state = .connected → x.link = some l →
      Stage r x (.call (some (P.id r)) (.readingState (P.party r)))
  | leaving {l : Link} : x.state = .connected → x.link = some l →
      Stage r x (.leaving (P.id r) .release (.returned r.welcome))
  | ended {l : Link} : x.state = .connected → x.link = some l →
      Stage r x (.ended (.returned r.welcome))

/-- The steps of such a thread. -/
inductive Opens (r : Role) (w : World) (t : ThreadId) : Task → World → Task → Prop
  | connect {s s' : Connecting} {v : World} : P.ConnectingFit w.kernel r s →
      P.Connects r w t s v (.more s') →
      Opens r w t (.call (some (P.id r)) (.connecting (P.party r) s)) v
        (.call (some (P.id r)) (.connecting (P.party r) s'))
  | connected {s : Connecting} {v : World} {e : Except Error Unit} :
      P.ConnectingFit w.kernel r s → P.Connects r w t s v (.done e) →
      Opens r w t (.call (some (P.id r)) (.connecting (P.party r) s)) v (P.opened r e)
  | read {x : Endpoint} : w.endpoints[P.id r]? = some x →
      Opens r w t (.call (some (P.id r)) (.readingState (P.party r))) w
        (.leaving (P.id r) .release (.returned (.ok (.state x.state))))
  | release {o : Outcome} {x : Endpoint} : w.endpoints[P.id r]? = some x →
      Opens r w t (.leaving (P.id r) .release o)
        (w.putEndpoint (P.id r) { x with owners := x.owners - 1 }) (.ended o)

inductive Dozes : Thread → Prop
  | fetch {r : Role} {l : Link} :
      Dozes ⟨.sender (P.party r) l .fetch, .sender (P.party r) l .fetch, []⟩
  | parked {r : Role} {l : Link} :
      Dozes ⟨.sender (P.party r) l .fetch, .sender (P.party r) l .parked, []⟩
  | await {r : Role} {l : Link} :
      Dozes ⟨.receiver (P.party r) l .await, .receiver (P.party r) l .await, []⟩

/-- The path of the pair is the path of a file, or of one that can be made, and the system grants
its length and its mapping. -/
structure Openable (k : Kernel) : Prop where
  path : ∃ node, k.files.lookup P.keys.path = .ok node ∧ node ≠ some .directory
  grants : ∀ r, k.limits.Grants (P.settings r).capacity

variable {P} {r : Role} {w v : World} {t : ThreadId} {task task' : Task} {x : Endpoint}

theorem opens_of_moves {th' : Thread} (hs : P.Stage r x task)
    (hm : P.Moves w t (P.opener r task) v th') :
    ∃ task', th' = P.opener r task' ∧ P.Opens r w t task v task' := by
  generalize hth : P.opener r task = th at hm
  simp only [opener] at hth ⊢
  cases hm with
  | connect hf hc | connected hf hc =>
    simp only [Thread.mk.injEq, Task.call.injEq, Option.some.injEq, Call.connecting.injEq, id_inj]
      at hth
    obtain ⟨⟨rfl, -⟩, rfl, -⟩ := hth
    first
      | exact ⟨_, rfl, .connect hf hc⟩
      | exact ⟨_, rfl, .connected hf hc⟩
  | call _ hc h =>
    simp only [Thread.mk.injEq] at hth
    obtain ⟨-, ht, -⟩ := hth
    cases hs with
    | opening | standing =>
      simp only [Task.call.injEq] at ht
      exact (ht.2 ▸ hc).elim
    | reading =>
      simp only [Task.call.injEq, Option.some.injEq, id_inj] at ht
      obtain ⟨rfl, rfl⟩ := ht
      cases h
    | leaving | ended => cases ht
  | called _ hc h =>
    simp only [Thread.mk.injEq] at hth
    obtain ⟨rfl, ht, -⟩ := hth
    cases hs with
    | opening | standing =>
      simp only [Task.call.injEq] at ht
      exact (ht.2 ▸ hc).elim
    | reading =>
      simp only [Task.call.injEq, Option.some.injEq, id_inj] at ht
      obtain ⟨rfl, rfl⟩ := ht
      cases h with
      | readState hx => exact ⟨_, rfl, .read hx⟩
    | leaving | ended => cases ht
  | release hx =>
    simp only [Thread.mk.injEq] at hth
    obtain ⟨rfl, ht, -⟩ := hth
    cases hs with
    | leaving =>
      simp only [Task.leaving.injEq, id_inj] at ht
      obtain ⟨rfl, -, rfl⟩ := ht
      exact ⟨_, rfl, .release hx⟩
    | _ => simp only [reduceCtorEq] at ht
  | _ => simp at hth

theorem Connects.rank_lt {s s' : Connecting} (h : P.Connects r w t s v (.more s')) :
    s'.rank < s.rank := by
  cases h with
  | map hm | mapped hm | unmapped hm =>
    cases hm <;> simp [Connecting.rank]
  | boxSet hj | boxMade hj | boxJoined hj | outSet hj | outDone hj | inSet hj | inDone hj =>
    cases hj <;> simp [Connecting.rank, Signals.Opening.start]
  | _ => simp [Connecting.rank, Mailbox.Opening.start, Signals.Opening.start]

theorem rank_opened (e : Except Error Unit) : (P.opened r e).rank ≤ 2 := by
  unfold opened
  split
  · split <;> simp [Task.rank]
  · simp [Task.rank]

theorem three_le_rank (s : Connecting) : 3 ≤ s.rank := by
  unfold Connecting.rank
  split <;> omega

theorem Opens.rank_lt (h : P.Opens r w t task v task') : task'.rank < task.rank := by
  cases h with
  | connect _ hc => exact hc.rank_lt
  | connected _ hc => exact Nat.lt_of_lt_of_le (Nat.lt_succ_of_le (rank_opened _)) (three_le_rank _)
  | read | release => exact Nat.lt_succ_self _

theorem Connects.puts {s : Connecting} {f : Flow Connecting (Except Error Unit)}
    (hx : w.endpoints[P.id r]? = some x) (h : P.Connects r w t s v f) :
    ∃ y, v.endpoints = w.endpoints.set (P.id r) y := by
  have hsame : ∃ y, w.endpoints = w.endpoints.set (P.id r) y :=
    ⟨x, (set_of_getElem? hx).symm⟩
  cases h with
  | lock | storeConnected | unlock => exact ⟨_, rfl⟩
  | vacant | busy | markVacant | raiseGate | raiseCount => exact hsame
  | map hm | mapped hm | unmapped hm => exact hm.extends.2.2.1 ▸ hsame
  | boxSet hj | boxMade hj | boxJoined hj | outSet hj | outDone hj | inSet hj | inDone hj =>
    exact hj.extends.2.2.1 ▸ hsame
  | spawnSender | spawnReceiver => exact ⟨_, modify_of_getElem? hx⟩

theorem Opens.endpoint_peer (hx : w.endpoints[P.id r]? = some x)
    (h : P.Opens r w t task v task') : P.endpoint v r.peer = P.endpoint w r.peer := by
  have hput : ∃ y, v.endpoints = w.endpoints.set (P.id r) y := by
    cases h with
    | connect _ hc | connected _ hc => exact hc.puts hx
    | read => exact ⟨x, (set_of_getElem? hx).symm⟩
    | release => exact ⟨_, rfl⟩
  obtain ⟨y, hy⟩ := hput
  rw [endpoint_set hx hy, if_neg (by cases r <;> decide)]

theorem Opens.calm {capacity : Nat} (hl : P.Law w) (hh : P.Housed w.kernel)
    (hcap : (P.settings r).capacity = capacity) (h : P.Opens r w t task v task') :
    P.Calm capacity w v := by
  cases h with
  | connect hf hc | connected hf hc => exact hc.calm hl hh hcap hf
  | read => exact .refl w
  | release hx => exact .of_put hx rfl rfl

theorem Openable.opens {s : MapFile} {e : SystemError} (ho : P.Openable w.kernel) :
    ¬ P.Maps (Record.headerSize + (P.settings r).capacity) w s v (.done (.error e)) := by
  obtain ⟨node, hl, hd⟩ := ho.path
  intro h
  cases h with
  | tooLong hlt => exact absurd (ho.grants r).1 (Nat.not_le.mpr hlt)
  | tooLarge hlt => exact absurd (ho.grants r).2 (Nat.not_le.mpr hlt)
  | refuse h =>
    rcases node with _ | ⟨_ | _⟩
    · simp [FileTree.openFile, hl] at h
    · exact hd rfl
    · simp [FileTree.openFile, hl] at h

theorem Openable.maps {size : Nat} {s : MapFile} {f : Flow MapFile (Except SystemError Mapping)}
    (ho : P.Openable w.kernel) (h : P.Maps size w s v f) : P.Openable v.kernel := by
  cases h with
  | openFile h =>
    rcases FileTree.openFile_spec h with ⟨e, he, -⟩ | ⟨file, -, hl, -⟩
    · cases he
    · exact ⟨⟨_, hl, by simp⟩, ho.grants⟩
  | refuse | short | long | tooLong | map | tooLarge => exact ho
  | extend =>
    obtain ⟨node, hl, hd⟩ := ho.path
    exact ⟨⟨node, (FileTree.lookup_modify ..).trans hl, hd⟩, ho.grants⟩

theorem Stage.of_connecting {s : Connecting}
    (h : P.Stage r x (.call (some (P.id r)) (.connecting (P.party r) s))) :
    x.link = none ∧ ((s.opening = true ∧ x.state = .init) ∨
      (s.standing = true ∧ x.state = .connected)) := by
  generalize htask : Task.call (some (P.id r)) (.connecting (P.party r) s) = task at h
  cases h with
  | opening hs hx hl =>
    cases htask
    exact ⟨hl, .inl ⟨hs, hx⟩⟩
  | standing hs hx hl =>
    cases htask
    exact ⟨hl, .inr ⟨hs, hx⟩⟩
  | reading | leaving | ended => cases htask

theorem Stage.of_reading (h : P.Stage r x (.call (some (P.id r)) (.readingState (P.party r)))) :
    r = .server ∧ x.state = .connected ∧ ∃ l, x.link = some l := by
  generalize htask : Task.call (some (P.id r)) (.readingState (P.party r)) = task at h
  cases h with
  | reading hr hx hl => exact ⟨hr, hx, _, hl⟩
  | _ => simp at htask

theorem Stage.of_leaving {o : Outcome} (h : P.Stage r x (.leaving (P.id r) .release o)) :
    o = .returned r.welcome ∧ x.state = .connected ∧ ∃ l, x.link = some l := by
  generalize htask : Task.leaving (P.id r) .release o = task at h
  cases h with
  | leaving hx hl =>
    cases htask
    exact ⟨rfl, hx, _, hl⟩
  | _ => simp at htask

theorem spawnWorker_endpoint (hx : w.endpoints[P.id r]? = some x) (l : Link) (d : Direction) :
    (w.spawnWorker (P.party r) l d).endpoints[P.id r]? = some
      { x with workers := x.workers ++ [w.threads.length], owners := x.owners + 1 } :=
  (congrArg (·[P.id r]?) (modify_of_getElem? hx)).trans
    (List.getElem?_set_self (List.getElem?_eq_some_iff.mp hx).1)

/-- Nothing fails on the way. -/
theorem Connects.stage {s s' : Connecting} (hx : w.endpoints[P.id r]? = some x)
    (ho : P.Openable w.kernel)
    (hs : P.Stage r x (.call (some (P.id r)) (.connecting (P.party r) s)))
    (h : P.Connects r w t s v (.more s')) : ∃ y, v.endpoints[P.id r]? = some y ∧
      P.Stage r y (.call (some (P.id r)) (.connecting (P.party r) s')) := by
  have hlt := (List.getElem?_eq_some_iff.mp hx).1
  obtain ⟨hlink, ⟨hop, hstate⟩ | ⟨hst, hstate⟩⟩ := hs.of_connecting
  · cases h with
    | lock hx' =>
      obtain rfl := Option.some.inj (hx.symm.trans hx')
      exact ⟨_, List.getElem?_set_self hlt, .opening (by rw [hlink]; rfl) hstate hlink⟩
    | vacant => exact ⟨x, hx, .opening rfl hstate hlink⟩
    | busy hx' hb =>
      obtain rfl := Option.some.inj (hx.symm.trans hx')
      obtain hb | rfl := hb
      · exact absurd hstate hb
      · cases hop
    | map hm | mapped hm => exact ⟨x, hm.extends.2.2.1 ▸ hx, .opening rfl hstate hlink⟩
    | unmapped hm => exact absurd hm ho.opens
    | boxSet hj | boxMade hj | boxJoined hj | outSet hj | outDone hj | inSet hj | inDone hj =>
      exact ⟨x, hj.extends.2.2.1 ▸ hx, .opening rfl hstate hlink⟩
    | markVacant => exact ⟨x, hx, .opening rfl hstate hlink⟩
    | storeConnected hx' =>
      obtain rfl := Option.some.inj (hx.symm.trans hx')
      exact ⟨_, List.getElem?_set_self hlt, .standing rfl rfl hlink⟩
    | spawnSender | spawnReceiver | raiseGate | raiseCount => cases hop
  · cases h with
    | spawnSender | spawnReceiver =>
      exact ⟨_, spawnWorker_endpoint hx _ _, .standing rfl hstate hlink⟩
    | raiseGate | raiseCount => exact ⟨x, hx, .standing rfl hstate hlink⟩
    | _ => cases hst

theorem Connects.stage_opened {s : Connecting} {e : Except Error Unit}
    (hx : w.endpoints[P.id r]? = some x)
    (hs : P.Stage r x (.call (some (P.id r)) (.connecting (P.party r) s)))
    (h : P.Connects r w t s v (.done e)) : ∃ l, s = .unlock (some l) (.ok ()) ∧ e = .ok () ∧
      ∃ y, v.endpoints[P.id r]? = some y ∧ y.link = some l ∧ P.Stage r y (P.opened r e) := by
  have hlt := (List.getElem?_eq_some_iff.mp hx).1
  obtain ⟨hlink, ⟨hop, hstate⟩ | ⟨hst, hstate⟩⟩ := hs.of_connecting
  · cases h
    cases hop
  · cases h with
    | @unlock x' l e hx' =>
      obtain rfl := Option.some.inj (hx.symm.trans hx')
      obtain ⟨l, rfl⟩ : ∃ l', l = some l' := by
        cases l with
        | none => cases hst
        | some l => exact ⟨l, rfl⟩
      obtain rfl : e = .ok () := by
        cases e with
        | error => cases hst
        | ok => rfl
      refine ⟨l, rfl, rfl, _, List.getElem?_set_self hlt, rfl, ?_⟩
      cases r with
      | server => exact .reading rfl hstate rfl
      | client => exact .leaving hstate rfl

end Pair

end QueuePair
