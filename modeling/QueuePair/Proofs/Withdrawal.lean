import QueuePair.Proofs.Patience
import QueuePair.Proofs.Settlement

namespace QueuePair

/-- The number of the job that a wait has queued. -/
def Waiting.number? : Waiting → Option Nat
  | .clock n | .awaiting n _ | .cancel n | .poll n => some n
  | .posting _ => none

def timedOut : Option Result → Bool
  | some (.error .timeout) => true
  | _ => false

theorem timedOut_iff {r : Option Result} : timedOut r = true ↔ r = some (.error .timeout) := by
  cases r with
  | none => simp [timedOut]
  | some r =>
    cases r with
    | ok => simp [timedOut]
    | error e => cases e <;> simp [timedOut]

def Call.retracts (e : EndpointId) (d : Direction) (n : Nat) : Call → Bool
  | .waiting p d' _ (.cancel m) => p.id = e && d' = d && m = n
  | _ => false

theorem Call.of_retracts {c : Call} {e : EndpointId} {d : Direction} {n : Nat}
    (h : c.retracts e d n = true) : ∃ p data, c = .waiting p d data (.cancel n) ∧ p.id = e := by
  cases c with
  | waiting p d' data s =>
    cases s with
    | cancel m =>
      simp only [retracts, Bool.and_eq_true, decide_eq_true_eq] at h
      obtain ⟨⟨hp, rfl⟩, rfl⟩ := h
      exact ⟨p, data, rfl, hp⟩
    | _ => cases h
  | _ => cases h

namespace Callback

def call? (c : Callback) : Option Call :=
  match c.state with
  | .running _ call _ => some call
  | _ => none

/-- The result of the command that a callback has just carried out. -/
def result? (c : Callback) : Option Result :=
  match c.state with
  | .ended _ r _ => some r
  | _ => none

end Callback

namespace Task

/-- What the operation of a task gave back. -/
def result? : Task → Option Result
  | .leaving _ _ (.returned r) | .ended (.returned r) => some r
  | _ => none

theorem result?_finish (owner : Option EndpointId) (r : Result) :
    (finish owner (.returned r)).result? = some r := by
  cases owner <;> rfl

end Task

namespace Thread

/-- The operation that a thread is at: that of the innermost callback, if one runs. -/
def call? (th : Thread) : Option Call :=
  match th.callbacks with
  | [] => th.task.call?
  | c :: _ => c.call?

/-- What the last operation gave back, if a thread has just come back from it. -/
def result? (th : Thread) : Option Result :=
  match th.callbacks with
  | [] => th.task.result?
  | c :: _ => c.result?

/-- A thread goes on with its operation until that gives something back. -/
theorem next_of_call {th : Thread} {c : Call} (h : th.call? = some c) :
    ∃ f : Call.Started → Thread, th.next = c.next.map f ∧
      (∀ s, (f s).result? = s.elim (fun _ => none) some) ∧
      ∀ (m : Holding) (s), m.thread (f s) + m.call c = m.thread th + s.elim m.call fun _ => 0 := by
  obtain ⟨o, task, cs⟩ := th
  cases cs with
  | nil =>
    cases task with
    | call owner c' =>
      obtain rfl := Option.some.inj h
      refine ⟨fun s => ⟨o, s.elim (.call owner) fun r => .finish owner (.returned r), []⟩, ?_,
        fun s => ?_, fun m s => ?_⟩
      · simp only [next, Task.next, Move.through]
        cases c'.next <;> rfl
      · cases s with
        | more => rfl
        | done r => exact Task.result?_finish owner r
      · cases s with
        | more => exact Nat.add_comm _ _
        | done r =>
          have hnone := Holding.task_finish (m := m) owner (.returned r)
          simp only [Holding.thread_nil, Flow.elim, hnone]
          exact Nat.add_comm _ _
    | _ => cases h
  | cons cb cs =>
    obtain ⟨p, lane, id, payload, index, state⟩ := cb
    cases state with
    | running command c' rest =>
      obtain rfl := Option.some.inj h
      refine ⟨fun s => ⟨o, task, (s.elim (fun c => ⟨p, lane, id, payload, index,
        .running command c rest⟩) fun r => ⟨p, lane, id, payload, index, .ended command r rest⟩) ::
          cs⟩, ?_, fun s => ?_, fun m s => ?_⟩
      · simp only [next, Callback.next, Move.through]
        cases c'.next with
        | perform p next =>
          simp only [Move.map]
          congr 1
          funext a
          cases next a <;> rfl
        | invoke p i after => cases after <;> rfl
        | panic | halt => rfl
      · cases s <;> rfl
      · cases s <;> simp only [Holding.thread, List.map_cons, List.sum_cons, Holding.callback,
          Flow.elim] <;> omega
    | _ => cases h

theorem call_le {th : Thread} {c : Call} (m : Holding) (h : th.call? = some c) :
    m.call c ≤ m.thread th := by
  obtain ⟨f, -, -, hm⟩ := next_of_call h
  have hdone := hm m (.done (.ok .unit))
  simp only [Flow.elim] at hdone
  omega

end Thread

section

variable {x y : Stores} {h g : Hands} {act : Deed} {d : Direction} {n : Nat}

namespace Stores.Does

theorem received (hx : x.Does act y) (d : Direction) :
    (x.shelf d).received ⊆ (y.shelf d).received := by
  cases hx with
  | number => exact List.Subset.refl _
  | @lane d' act s hs =>
    by_cases hd : d = d'
    · subst hd
      simp only [Function.update_self]
      cases hs with
      | accept => simp [Shelf.received]
      | _ => exact List.Subset.refl _
    · simp only [Function.update_of_ne hd]
      exact List.Subset.refl _

theorem withdrawn (hx : x.Does act y) (d : Direction) :
    (y.shelf d).withdrawn = (x.shelf d).withdrawn ∨ ∃ serial, act = .withdraw d serial ∧
      (y.shelf d).withdrawn = (x.shelf d).withdrawn ++ [serial] := by
  cases hx with
  | number => exact .inl rfl
  | @lane d' act s hs =>
    by_cases hd : d = d'
    · subst hd
      simp only [Function.update_self]
      cases hs with
      | withdraw => exact .inr ⟨_, rfl, rfl⟩
      | _ => exact .inl rfl
    · exact .inl (by simp only [Function.update_of_ne hd])

/-- Jobs come into a queue by being accepted only. -/
theorem items (hc : Custody false x h) (hx : x.Does act y)
    (hg : ∀ a, g a + act.costs a ≤ h a + act.brings a) (d : Direction) :
    ∀ job ∈ (y.shelf d).queue.items, job ∈ (x.shelf d).queue.items ∨ act = .accept d job := by
  intro job hj
  cases hx with
  | number => exact .inl hj
  | @lane d' act s hs =>
    by_cases hd : d = d'
    · subst hd
      simp only [Function.update_self] at hj
      have hk := hc.kept d
      cases hs with
      | rest | resolve => exact .inl hj
      | accept hq =>
        rw [(hk.tidy.post hq).2.1] at hj
        rcases List.mem_append.mp hj with hj | hj
        · exact .inl hj
        · exact .inr (congrArg _ (List.mem_singleton.mp hj).symm)
      | take hq =>
        obtain ⟨i, a, hr, hitems, -⟩ := (hk.tidy.next hq).2.2.resolve_left (by simp)
        rw [hitems]
        exact .inl (List.mem_cons_of_mem _ hj)
      | miss hq =>
        obtain ⟨-, -, hnone⟩ := (hk.tidy.next hq).2.2.resolve_right (by simp)
        rw [hnone] at hj
        cases hj
      | @complete slot =>
        have hslot := hg (.slot d slot)
        simp only [Deed.costs, Deed.brings, and_self, if_true] at hslot
        have hr : (x.shelf d).queue.Reserved slot := hk.reserved (by omega)
        exact .inl ((hk.tidy.complete hr).2.1 ▸ hj)
      | withdraw hq =>
        rw [(hk.tidy.cancel hq).2.2.2] at hj
        exact .inl (List.mem_of_mem_eraseP hj)
      | drain hq =>
        rw [WorkQueue.items_nil (hk.tidy.drain hq).2.2.1] at hj
        cases hj
    · simp only [Function.update_of_ne hd] at hj
      exact .inl hj

end Stores.Does

theorem Custody.accepts_new (hc : Custody false x h)
    (hn : n ∈ (x.shelf d).received.map (·.1)) {job : Job}
    (hg : g (.number d n) + (Deed.accept d job).costs (.number d n) ≤ h (.number d n)) :
    job.serial ≠ n := by
  rintro rfl
  have hone : load (numbered job.serial) (x.shelf d).received ≠ 0 := fun h0 =>
    World.load_numbered_eq_zero.mp h0 hn
  have huses := hc.numbers d job.serial
  have hcost : (Deed.accept d job).costs (.number d job.serial) = 1 := by
    simp [Deed.costs, numbered, Job.tag]
  rw [hcost] at hg
  unfold Stores.uses at huses
  omega

end

def Waiting.polls (n : Nat) : Waiting → Nat
  | .poll serial => if n = serial then 1 else 0
  | _ => 0

def Call.polls (e : EndpointId) (d : Direction) (n : Nat) : Call → Nat
  | .waiting p d' _ s => if p.id = e ∧ d = d' then s.polls n else 0
  | _ => 0

def polling (e : EndpointId) (d : Direction) (n : Nat) : Holding where
  call c := c.polls e d n
  sender _ _ := 0
  receiver _ _ := 0

def EndpointCall.refuses (d : Direction) (n : Nat) : {α : Type} → EndpointCall α → α → Nat
  | _, .cancel d' serial, r => if d = d' ∧ n = serial ∧ r = false then 1 else 0
  | _, _, _ => 0

/-- Such answers bring a last look. -/
def refusing (e : EndpointId) (d : Direction) (n : Nat) : Tariff where
  gain
    | .endpoint e' c, r => if e' = e then c.refuses d n r else 0
    | _, _ => 0
  spend _ _ := 0
  pay _ _ := 0
  still := by
    intro α p a h
    refine ⟨?_, rfl⟩
    cases p with
    | endpoint e' c =>
      dsimp only
      split
      · cases c <;> first | rfl | cases h
      · rfl
    | _ => rfl

section

variable {e : EndpointId} {d d' : Direction} {n : Nat} {p : Party}

theorem refusing_gain_own {α : Type} {e' : EndpointId} {c : EndpointCall α} {r : α} (he : e' = e) :
    (refusing e d n).gain (.endpoint e' c) r = c.refuses d n r :=
  if_pos he

theorem refusing_gain_other {α : Type} {e' : EndpointId} {c : EndpointCall α} {r : α}
    (he : e' ≠ e) : (refusing e d n).gain (.endpoint e' c) r = 0 :=
  if_neg he

theorem accounts_none {σ : Type} {m : σ → Nat} {mv : Move σ} (hm : ∀ s, m s = 0) :
    mv.Accounts false (refusing e d n) m 0 := by
  cases mv with
  | perform p next =>
    intro a
    simp [hm, refusing, Within]
  | invoke p i after => simp [Move.Accounts, hm, refusing, Within]
  | panic | halt => trivial

theorem waiting_polls {data : Buffer} (s : Waiting) :
    (s.next p d' data).Accounts false (refusing e d n)
      (Flow.elim (fun s => if p.id = e ∧ d = d' then s.polls n else 0) fun _ => 0)
      (if p.id = e ∧ d = d' then s.polls n else 0) := by
  cases s with
  | posting s =>
    simp only [Waiting.polls, ite_self]
    refine Move.accounts_map.mpr (accounts_none fun f => ?_)
    cases f with
    | more => exact ite_self 0
    | done r => cases r <;> simp [Flow.elim]
  | clock serial => exact Move.accounts_of_still rfl fun r => rfl
  | awaiting serial dl =>
    refine Move.accounts_of_still rfl fun r => ?_
    cases r <;> simp [Flow.elim, Waiting.polls]
  | cancel serial =>
    intro r
    change _ ≤ _ + if p.id = e then (EndpointCall.cancel d' serial).refuses d n r else 0
    cases r <;> simp [refusing, Flow.elim, Waiting.polls, EndpointCall.refuses, ite_and]
  | poll serial =>
    refine Move.accounts_of_still_le rfl fun r => ?_
    cases r <;> exact Nat.zero_le _

theorem call_polls (c : Call) : c.next.Accounts false (refusing e d n)
    (Flow.elim (Call.polls e d n) fun _ => 0) (c.polls e d n) := by
  cases c with
  | waiting p d data s => exact (waiting_polls s).through (fun _ => rfl) fun _ => rfl
  | posting | destroying =>
    refine Move.accounts_map.mpr (accounts_none fun f => ?_)
    cases f <;> rfl
  | _ =>
    refine quiet_call_accounts (m := Call.polls e d n) (fun c _ h => ?_) rfl rfl
    cases c <;> first | rfl | cases h

theorem call_polls_le (c : Call) : c.polls e d n ≤ c.waits e d n := by
  cases c with
  | waiting p d' data s =>
    simp only [Call.polls, Call.waits]
    split
    · cases s <;> first | exact Nat.le_refl _ | exact Nat.zero_le _
    · exact Nat.le_refl _
  | _ => exact Nat.zero_le _

theorem polling_obeys (e : EndpointId) (d : Direction) (n : Nat) :
    (polling e d n).Obeys false (refusing e d n) where
  call c _ := call_polls c
  sender _ _ _ := accounts_none fun f => by cases f <;> rfl
  receiver _ _ _ := accounts_none fun f => by cases f <;> rfl
  operation h := Nat.le_zero.mp ((ofOperation_new h).2.2 ▸ call_polls_le _)
  object h := Nat.le_zero.mp ((ofObject_new h).2.2 ▸ call_polls_le _)
  fetch _ := rfl
  await _ := rfl
  holding _ := rfl

end

namespace World

variable {w v u : World} {e : EndpointId} {d : Direction} {n : Nat} {t : ThreadId} {th : Thread}
  {allowed : Input → Prop}

theorem Answers.endpoints_length {α : Type} {p : Primitive α} {a : α} (h : w.Answers t p v a) :
    v.endpoints.length = w.endpoints.length := by
  cases h with
  | system => rw [observe_endpoints]
  | @access α e x c s => simp [(notes_same s.notes _).2, putEndpoint]
  | @spawn p l d => exact List.length_modify ..
  | _ => rfl

theorem endpoints_length_le (ha : Atom allowed w v) : w.endpoints.length ≤ v.endpoints.length := by
  cases ha with
  | act ht hn hans => exact Nat.le_of_eq hans.endpoints_length.symm
  | @invoke t th p i after =>
    cases i with
    | disconnect => exact Nat.le_refl _
    | resolve d job error =>
      simp only [World.invoke, resolve, putThread]
      split
      · simp [modifyEndpoint, note, record]
      · exact Nat.le_refl _
  | @panic t th =>
    simp only [World.panic, putThread]
    split
    · exact Nat.le_refl _
    · simp [modifyEndpoint]
  | @outside i _ _ hi ha =>
    cases outside_of_apply hi ha with
    | make => simp
    | operate => simp [spawn, modifyEndpoint]
    | register => simp [putEndpoint]
    | request | drop | release => exact Nat.le_refl _
  | settle ha => rw [ha.endpoints]

def waiting (w : World) (e : EndpointId) (d : Direction) : List Nat :=
  ((w.stores e).shelf d).queue.items.map (·.serial)

def withdrawn (w : World) (e : EndpointId) (d : Direction) : List Nat :=
  ((w.stores e).shelf d).withdrawn

def resolved (w : World) (e : EndpointId) (d : Direction) : List Nat :=
  ((w.stores e).shelf d).resolved.map (·.1.serial)

structure Away (w : World) (e : EndpointId) (d : Direction) (n : Nat) : Prop where
  made : e < w.endpoints.length
  used : n ∈ w.used e d
  gone : n ∉ w.waiting e d

structure Forgone (w : World) (e : EndpointId) (d : Direction) (n : Nat) : Prop where
  made : e < w.endpoints.length
  used : n ∈ w.used e d
  kept : n ∉ w.withdrawn e d
  unclaimed : w.hands e (.wait d n) = 0

theorem used_atom (hx : ∃ act, (w.stores e).Does act (v.stores e)) (hn : n ∈ w.used e d) :
    n ∈ v.used e d := by
  obtain ⟨act, hx⟩ := hx
  exact List.map_subset _ (hx.received d) hn

theorem Away.atom (h : w.Away e d n) (hk : w.Keeps e) (ha : Atom allowed w v) : v.Away e d n := by
  obtain ⟨act, hx, hg⟩ := hk.deed h.made ha
  have hc := hk.custody false nofun
  refine ⟨Nat.lt_of_lt_of_le h.made (endpoints_length_le ha), used_atom ⟨act, hx⟩ h.used, ?_⟩
  intro hm
  obtain ⟨job, hj, rfl⟩ := List.mem_map.mp hm
  rcases hx.items hc hg d job hj with hold | rfl
  · exact h.gone (List.mem_map_of_mem hold)
  · exact hc.accepts_new h.used (hg (.number d job.serial)) rfl

theorem Forgone.atom (h : w.Forgone e d n) (hk : w.Keeps e) (ha : Atom allowed w v) :
    v.Forgone e d n := by
  obtain ⟨act, hx, hg⟩ := hk.deed h.made ha
  have hwait := hg (.wait d n)
  rw [h.unclaimed] at hwait
  have hbrings : act.brings (.wait d n) = 0 := by
    cases act with
    | accept d' job =>
      simp only [Deed.brings]
      split
      · rename_i hd
        subst hd
        have hne := (hk.custody false (by simp)).accepts_new h.used (hg (.number d n))
        exact if_neg fun hboth => hne hboth.1
      · rfl
    | _ => rfl
  refine ⟨Nat.lt_of_lt_of_le h.made (endpoints_length_le ha), used_atom ⟨act, hx⟩ h.used, ?_,
    by omega⟩
  rcases hx.withdrawn d with heq | ⟨serial, rfl, heq⟩
  · rw [withdrawn, heq]
    exact h.kept
  · rw [withdrawn, heq, List.mem_append, List.mem_singleton]
    rintro (hm | rfl)
    · exact h.kept hm
    · simp only [Deed.costs, Deed.brings, and_self, if_true] at hwait
      omega

theorem Away.run (h : w.Away e d n) (hk : w.Keeps e) (hq : w.Queued) (hr : Run allowed w v) :
    v.Away e d n :=
  (hr.induction (m := fun u => u.Keeps e ∧ u.Away e d n) hq ⟨hk, h⟩ fun h ha =>
    ⟨h.1.atom ha, h.2.atom h.1 ha⟩).1.2

theorem Forgone.run (h : w.Forgone e d n) (hk : w.Keeps e) (hq : w.Queued)
    (hr : Run allowed w v) : v.Forgone e d n :=
  (hr.induction (m := fun u => u.Keeps e ∧ u.Forgone e d n) hq ⟨hk, h⟩ fun h ha =>
    ⟨h.1.atom ha, h.2.atom h.1 ha⟩).1.2

def polls (w : World) (e : EndpointId) (d : Direction) (n : Nat) : Nat :=
  tally (polling e d n).thread w.threads

def Polled (w : World) (e : EndpointId) (d : Direction) (n : Nat) : Prop :=
  1 ≤ w.polls e d n → w.Away e d n

theorem Keeps.claimed (hk : w.Keeps e) (h : 1 ≤ w.hands e (.wait d n)) :
    n ∈ w.used e d ∧ n ∉ w.withdrawn e d ∧ w.hands e (.wait d n) = 1 := by
  have hc := hk.custody false nofun
  have hwaits := (hc.kept d).waits n
  have huses := hc.numbers d n
  have hload := load_numbered n ((w.stores e).shelf d).received
  unfold Stores.uses at huses
  have hcount : ((w.stores e).shelf d).withdrawn.count n = 0 := by omega
  refine ⟨?_, List.count_eq_zero.mp hcount, by omega⟩
  by_contra hn
  have hzero := load_numbered_eq_zero.mpr hn
  omega

theorem Keeps.cancels {next : Bool → Thread} (hk : w.Keeps e) (ht : w.threads[t]? = some th)
    (hn : th.next = .perform (.endpoint e (.cancel d n)) next) : 1 ≤ w.hands e (.wait d n) := by
  have hm := List.mem_of_getElem? ht
  have hacc := (holding_obeys e (.wait d n)).thread (hk.shaped th hm)
  rw [hn] at hacc
  have htrue := (Move.accounts_access.mp hacc true).le
  simp only [EndpointCall.deed, if_true, Deed.costs, Deed.brings, and_self] at htrue
  exact Nat.le_trans (by omega : 1 ≤ (holding e (.wait d n)).thread th) (le_tally hm)

theorem away_of_refused {next : Bool → Thread} (hk : w.Keeps e) (ht : w.threads[t]? = some th)
    (hn : th.next = .perform (.endpoint e (.cancel d n)) next)
    (ha : w.Answers t (.endpoint e (.cancel d n)) u false) : w.Away e d n := by
  obtain ⟨hused, -, -⟩ := hk.claimed (hk.cancels ht hn)
  obtain ⟨x, s, hx, hc, -, hans⟩ := ha.answered
  refine ⟨(List.getElem?_eq_some_iff.mp hx).1, hused, fun hmem => ?_⟩
  rw [waiting, shelf_queue hx] at hmem
  obtain ⟨job, hj, rfl⟩ := List.mem_map.mp hmem
  simp only [Endpoint.call, Endpoint.cancel, Option.some.injEq] at hc
  split at hc
  · rename_i q hq
    simpa using List.find?_eq_none.mp ((hk.tidy hx d).cancel hq).2.2.1.symm job hj
  · subst hc
    cases hans

theorem Polled.atom (h : w.Polled e d n) (hk : w.Keeps e) (ha : Atom allowed w v) :
    v.Polled e d n := by
  intro hv
  -- a job that was away before stays away; else the last look has just come
  by_cases hw : 1 ≤ w.polls e d n
  · exact (h hw).atom hk ha
  have hle : v.polls e d n ≤ w.polls e d n → v.Away e d n := fun hle =>
    absurd (Nat.le_trans hv hle) hw
  have hobeys := polling_obeys e d n
  cases ha with
  | @act t th α p next u a ht hn hans =>
    have hs := hk.shaped th (List.mem_of_getElem? ht)
    have hacc := hobeys.thread hs
    rw [hn] at hacc
    have hgain := (hacc a).le
    have hnew : u.polls e d n = w.polls e d n := by
      rcases hans.threads_cases with he | ⟨q, l, d', he⟩
      · rw [polls, he, polls]
      · rw [polls, he, tally_append, show (polling e d n).thread (.ofTask (worker q l d')) = 0 by
          cases d' <;> rfl]
        rfl
    have hthere : u.threads[t]? = some th := (hk.answered ht hans).2.1
    have hset := tally_set (f := (polling e d n).thread) hthere (next a)
    have hone : 1 ≤ (refusing e d n).gain p a := by
      have hle := le_tally (f := (polling e d n).thread) (List.mem_of_getElem? ht)
      change 1 ≤ tally _ _ at hv
      simp only [polls, putThread] at hnew hv hw
      omega
    have hatom : Atom allowed w (u.putThread t (next a)) := .act ht hn hans
    refine Away.atom ?_ hk hatom
    cases p with
    | endpoint e' c =>
      by_cases he : e' = e
      · subst he
        rw [refusing_gain_own rfl] at hone
        cases c with
        | cancel d' serial =>
          simp only [EndpointCall.refuses] at hone
          split at hone
          · rename_i hall
            obtain ⟨rfl, rfl, rfl⟩ := hall
            exact away_of_refused hk ht hn hans
          · cases hone
        | _ => exact absurd hone (Nat.not_succ_le_zero 0)
      · rw [refusing_gain_other he] at hone
        cases hone
    | _ => exact absurd hone (Nat.not_succ_le_zero 0)
  | @invoke t th p i after ht hn =>
    refine hle ?_
    have hacc := hobeys.thread (hk.shaped th (List.mem_of_getElem? ht))
    rw [hn] at hacc
    have hpush := invoke_push (w := w) hobeys (p := p) (i := i) after
    have hset := tally_set (f := (polling e d n).thread) ht (after.push (w.invoke p i).2)
    have hle := Within.le hacc
    simp only [refusing] at hle
    simp only [polls, putThread, invoke_threads]
    omega
  | @panic t th ht =>
    exact hle (Nat.le.intro (panic_tally (polling e d n) ht))
  | outside _ hi ha => exact hle (Nat.le_of_eq (outside_tally hobeys hi ha))
  | settle ha => exact hle (by simp only [polls, ha.threads, Nat.le_refl])

theorem empty_polled (e : EndpointId) (d : Direction) (n : Nat) : empty.Polled e d n :=
  fun h => by simp [polls, empty] at h

theorem Polled.run (h : w.Polled e d n) (hk : w.Keeps e) (hq : w.Queued) (hr : Run allowed w v) :
    v.Polled e d n :=
  (hr.induction (m := fun u => u.Keeps e ∧ u.Polled e d n) hq ⟨hk, h⟩ fun h ha =>
    ⟨h.1.atom ha, h.2.atom h.1 ha⟩).1.2

end World

namespace Task

/-- The jobs of a queue that a task has in its hands. -/
def jobs (e : EndpointId) (d : Direction) : Task → List Job
  | .sender p _ s => if p.id = e ∧ d = .send then s.jobs else []
  | .receiver p _ s => if p.id = e ∧ d = .receive then s.jobs else []
  | .call _ c => c.jobs e d
  | _ => []

end Task

namespace Thread

def jobs (e : EndpointId) (d : Direction) (th : Thread) : List Job :=
  th.task.jobs e d ++ th.callbacks.flatMap fun c => (c.call?.map (·.jobs e d)).getD []

theorem load_jobs (e : EndpointId) (d : Direction) (k : Tag → Nat) (th : Thread) :
    (holding e (.jobs d k)).thread th = load k ((th.jobs e d).map Job.tag) := by
  obtain ⟨o, task, cs⟩ := th
  have htask : (holding e (.jobs d k)).task task = load k ((task.jobs e d).map Job.tag) := by
    cases task with
    | sender | receiver =>
      simp only [Holding.task, holding, Task.jobs]
      split <;> rfl
    | _ => rfl
  have hcs : (cs.map (holding e (.jobs d k)).callback).sum = load k
      ((cs.flatMap fun c => (c.call?.map (·.jobs e d)).getD []).map Job.tag) := by
    induction cs with
    | nil => rfl
    | cons c cs ih =>
      rw [List.map_cons, List.sum_cons, ih, List.flatMap_cons, List.map_append, load_append]
      congr 1
      obtain ⟨p, lane, id, payload, index, state⟩ := c
      cases state <;> rfl
  simp only [Holding.thread, htask, hcs, jobs, List.map_append, load_append]

end Thread

namespace World

variable {w v u : World} {e : EndpointId} {d : Direction} {n : Nat} {t : ThreadId} {th : Thread}
  {allowed : Input → Prop}

/-- A job with which nothing is done: it waits in no queue, nobody has it in hand, and it was not
given back. -/
structure Retracted (w : World) (e : EndpointId) (d : Direction) (n : Nat) : Prop where
  gone : n ∉ w.waiting e d
  idle : ∀ th ∈ w.threads, ∀ job ∈ th.jobs e d, job.serial ≠ n
  unresolved : n ∉ w.resolved e d

def Held (w : World) (e : EndpointId) (d : Direction) (n : Nat) : Prop :=
  ∃ th ∈ w.threads, ∃ job ∈ th.jobs e d, job.serial = n

theorem load_numbered_pos {as : List Tag} : 1 ≤ load (numbered n) as ↔ n ∈ as.map (·.1) := by
  rw [Nat.one_le_iff_ne_zero, ne_eq, load_numbered_eq_zero, not_not]

/-- How often a job is in a queue, was given back, or was taken back, and how often it is in
somebody's hands. -/
theorem Keeps.places (hk : w.Keeps e) (d : Direction) (n : Nat) :
    load (numbered n) (((w.stores e).shelf d).queue.items.map Job.tag) +
      load (numbered n) (((w.stores e).shelf d).resolved.map (·.1.tag)) +
      load (numbered n) (((w.stores e).shelf d).withdrawn.map (·, .caller)) +
      w.hands e (.jobs d (numbered n)) ≤ 1 ∧
    (¬ w.Harmed e → load (numbered n) (((w.stores e).shelf d).queue.items.map Job.tag) +
      load (numbered n) (((w.stores e).shelf d).resolved.map (·.1.tag)) +
      load (numbered n) (((w.stores e).shelf d).withdrawn.map (·, .caller)) +
      w.hands e (.jobs d (numbered n)) =
        load (numbered n) ((w.stores e).shelf d).received) := by
  have hc := hk.custody false nofun
  have hjobs := ((hc.kept d).jobs (numbered n)).le
  have huses := hc.numbers d n
  rw [Shelf.load_placed] at hjobs
  unfold Stores.uses at huses
  refine ⟨by omega, fun hh => ?_⟩
  have hexact := ((hk.custody true fun _ => hh).kept d).jobs (numbered n)
  rwa [Shelf.load_placed] at hexact

theorem waiting_pos : 1 ≤ load (numbered n) (((w.stores e).shelf d).queue.items.map Job.tag) ↔
    n ∈ w.waiting e d := by
  rw [load_numbered_pos, List.map_map]
  rfl

theorem resolved_pos : 1 ≤ load (numbered n) (((w.stores e).shelf d).resolved.map (·.1.tag)) ↔
    n ∈ w.resolved e d := by
  rw [load_numbered_pos, List.map_map]
  rfl

theorem withdrawn_pos : 1 ≤ load (numbered n) (((w.stores e).shelf d).withdrawn.map (·, .caller)) ↔
    n ∈ w.withdrawn e d := by
  rw [load_numbered_pos, List.map_map]
  simp [withdrawn, Function.comp_def]

theorem held_pos : 1 ≤ w.hands e (.jobs d (numbered n)) ↔ w.Held e d n := by
  have hthread : ∀ th : Thread, 1 ≤ (holding e (.jobs d (numbered n))).thread th ↔
      ∃ job ∈ th.jobs e d, job.serial = n := fun th => by
    rw [Thread.load_jobs, load_numbered_pos, List.map_map]
    exact List.mem_map
  constructor
  · intro h
    by_contra hnone
    rw [hands, tally_eq_zero fun th hth => ?_] at h
    · cases h
    · by_contra h0
      exact hnone ⟨th, hth, (hthread th).mp (Nat.one_le_iff_ne_zero.mpr h0)⟩
  · rintro ⟨th, hth, hjob⟩
    exact Nat.le_trans ((hthread th).mpr hjob) (le_tally hth)

theorem Keeps.retracted (hk : w.Keeps e) (hn : n ∈ w.withdrawn e d) : w.Retracted e d n := by
  obtain ⟨hle, -⟩ := hk.places d n
  have hone := withdrawn_pos.mpr hn
  refine ⟨fun hm => ?_, fun th hth job hj hs => ?_, fun hm => ?_⟩
  · have := waiting_pos.mpr hm
    omega
  · have := held_pos.mpr ⟨th, hth, job, hj, hs⟩
    omega
  · have := resolved_pos.mpr hm
    omega

theorem Keeps.used_of_withdrawn (hk : w.Keeps e) (hn : n ∈ w.withdrawn e d) : n ∈ w.used e d := by
  have hjobs := (((hk.custody false nofun).kept d).jobs (numbered n)).le
  rw [Shelf.load_placed] at hjobs
  have hone := withdrawn_pos.mpr hn
  exact load_numbered_pos.mp (by omega)

theorem withdrawn_run (hk : w.Keeps e) (he : e < w.endpoints.length) (hq : w.Queued)
    (hn : n ∈ w.withdrawn e d) (hr : Run allowed w v) : n ∈ v.withdrawn e d :=
  (hr.induction (m := fun u => u.Keeps e ∧ e < u.endpoints.length ∧ n ∈ u.withdrawn e d) hq
    ⟨hk, he, hn⟩ fun ⟨hk, he, hn⟩ ha => by
      obtain ⟨act, hx, -⟩ := hk.deed he ha
      refine ⟨hk.atom ha, Nat.lt_of_lt_of_le he (endpoints_length_le ha), ?_⟩
      rcases hx.withdrawn d with heq | ⟨_, -, heq⟩
      · rw [withdrawn, heq]
        exact hn
      · rw [withdrawn, heq]
        exact List.mem_append_left _ hn).1.2.2

/-- A thread that accesses an endpoint goes on with the answer. -/
theorem step_access {α : Type} {c : EndpointCall α} {next : α → Thread}
    (ht : w.threads[t]? = some th) (hn : th.next = .perform (.endpoint e c) next)
    (hv : w.step t = some v) :
    ∃ u x s, w.endpoints[e]? = some x ∧ x.call t c = some s ∧
      w.Answers t (.endpoint e c) u s.answer ∧ v.threads[t]? = some (next s.answer) ∧
      (∀ e', v.stores e' = u.stores e') ∧
      (s.wakes = false → v.threads = w.threads.set t (next s.answer)) ∧
      v.endpoints = w.endpoints.set e s.endpoint := by
  obtain ⟨th', ht', -, hcases⟩ := step_cases hv
  obtain rfl := Option.some.inj (ht.symm.trans ht')
  rcases hcases with ⟨β, p, next', hn', hp⟩ | ⟨p, i, after, hn', -⟩ | ⟨hn', -⟩
  · rw [hn] at hn'
    cases hn'
    simp only [perform] at hp
    cases hcall : w.endpoints[e]?.bind (·.call t c) with
    | none => simp [hcall] at hp
    | some s =>
      obtain ⟨x, hx, hs⟩ := Option.bind_eq_some_iff.mp hcall
      simp only [hcall, reduceCtorEq, Effect.done.injEq, false_or] at hp
      obtain ⟨u, a, ⟨rfl, rfl⟩, rfl⟩ := hp
      have hlt := (List.getElem?_eq_some_iff.mp ht).1
      obtain ⟨hsame, hends⟩ := notes_same (e := e) s.notes (w.putEndpoint e s.endpoint)
      refine ⟨_, x, s, hx, hs, .access hx hs, ?_, fun e' => ?_, fun hw => ?_, ?_⟩
      · refine List.getElem?_set_self ?_
        split
        · rw [wake, List.length_map, hsame]
          exact hlt
        · rw [hsame]
          exact hlt
      · split <;> rfl
      · simp only [hw, Bool.false_eq_true, if_false, putThread, hsame]
        rfl
      · split <;> exact hends
  · rw [hn] at hn'
    cases hn'
  · rw [hn] at hn'
    cases hn'

theorem received_cases {x y : Stores} {act : Deed} (hx : x.Does act y) (d : Direction) :
    (y.shelf d).received = (x.shelf d).received ∨ ∃ job, act = .accept d job := by
  cases hx with
  | number => exact .inl rfl
  | @lane d' act s hs =>
    by_cases hd : d = d'
    · subst hd
      simp only [Function.update_self]
      cases hs with
      | accept => exact .inr ⟨_, rfl⟩
      | _ => exact .inl rfl
    · exact .inl (by simp only [Function.update_of_ne hd])

theorem Answers.made {α : Type} {p : Primitive α} {a : α} (h : w.Answers t p v a)
    (hd : p.deed e a ≠ .rest) : e < w.endpoints.length := by
  cases h with
  | @access _ e' x c s hx hc =>
    by_cases he : e' = e
    · subst he
      exact (List.getElem?_eq_some_iff.mp hx).1
    · exact absurd (if_neg he) hd
  | @unanswered e' serial dl =>
    refine absurd ?_ hd
    simp only [Primitive.deed]
    split <;> rfl
  | _ => exact absurd rfl hd

/-- Only an endpoint that was made has accepted jobs. -/
theorem made_of_used (hr : Run allowed empty w) (hn : n ∈ w.used e d) :
    e < w.endpoints.length := by
  have hall := hr.induction (m := fun u => u.Keeps e ∧ (n ∈ u.used e d → e < u.endpoints.length))
    (queued_of_new rfl) ⟨empty_keeps e, fun h => by cases h⟩ fun {x y} hx ha => by
      obtain ⟨hk, himp⟩ := hx
      refine ⟨hk.atom ha, fun hn => ?_⟩
      have hold : n ∈ x.used e d → e < y.endpoints.length := fun h =>
        Nat.lt_of_lt_of_le (himp h) (endpoints_length_le ha)
      have hsame : ((y.stores e).shelf d).received = ((x.stores e).shelf d).received →
          e < y.endpoints.length := fun heq => hold (by rwa [used, ← heq])
      have hend := endpoints_length_le ha
      cases ha with
      | @act t th α p next u a ht hnext hans =>
        obtain ⟨q, hleads⟩ := (hk.shaped th (List.mem_of_getElem? ht)).leads
        rw [hnext] at hleads
        rcases received_cases (hans.deed hleads.1 e) d with heq | ⟨job, hd⟩
        · exact hsame heq
        · exact Nat.lt_of_lt_of_le (hans.made (by rw [hd]; rintro ⟨⟩)) hend
      | @invoke t th p i after =>
        rcases received_cases (invoke_deed x p i e) d with heq | ⟨job, hd⟩
        · exact hsame heq
        · cases i with
          | disconnect => cases hd
          | resolve =>
            simp only [Invocation.deed] at hd
            split at hd <;> cases hd
      | @panic t th => exact hsame (congrArg (fun s => (s.shelf d).received) (abandon_stores th))
      | outside _ hi ha => exact hsame ((outside_record hi ha).2 d)
      | settle ha =>
        refine hsame ?_
        simp only [World.stores, goods, ha.endpoints, ha.history]
  exact hall.1.2 hn

theorem step_clock {span : Span} {next : Option Instant → Thread} (ht : w.threads[t]? = some th)
    (hn : th.next = .perform (.clock span) next) (hv : w.step t = some v) :
    ∃ r, v.threads[t]? = some (next r) := by
  obtain ⟨th', ht', -, hcases⟩ := step_cases hv
  obtain rfl := Option.some.inj (ht.symm.trans ht')
  rcases hcases with ⟨β, p, next', hn', hp⟩ | ⟨p, i, after, hn', -⟩ | ⟨hn', -⟩
  · rw [hn] at hn'
    cases hn'
    simp only [perform, reduceCtorEq, Effect.done.injEq, false_or] at hp
    obtain ⟨u, a, ⟨rfl, rfl⟩, rfl⟩ := hp
    exact ⟨_, List.getElem?_set_self (List.getElem?_eq_some_iff.mp ht).1⟩
  · rw [hn] at hn'
    cases hn'
  · rw [hn] at hn'
    cases hn'

theorem withdraw_spec {x y : Stores} (hx : x.Does (.withdraw d n) y)
    (ht : (x.shelf d).queue.Tidy) :
    n ∈ (x.shelf d).queue.items.map (·.serial) ∧ n ∈ (y.shelf d).withdrawn := by
  cases hx with
  | @lane d' act s hs =>
    cases hs with
    | @withdraw serial job q hq =>
      obtain ⟨-, -, hfind, -⟩ := ht.cancel hq
      refine ⟨List.mem_map.mpr ⟨job, List.mem_of_find?_eq_some hfind.symm, ?_⟩, by simp⟩
      simpa using List.find?_some hfind.symm

section

variable {p : Party} {data : Buffer}

theorem awaiting_spec {deadline : Option Instant} (hr : Reachable w) (ht : w.threads[t]? = some th)
    (hc : th.call? = some (.waiting p d data (.awaiting n deadline))) (hv : w.step t = some v) :
    v.threads[t]?.bind Thread.result? ≠ some (.error .timeout) := by
  obtain ⟨f, hnext, hres, -⟩ := Thread.next_of_call hc
  obtain ⟨u, x, sec, hx, hcall, -, htv, -⟩ := step_access ht hnext hv
  rw [htv, Option.bind_some, hres]
  simp only [Endpoint.call] at hcall
  split at hcall
  · cases hcall
  · cases hcall
    dsimp only
    cases hreply : x.reply n with
    | missing | abandoned => rintro ⟨⟩
    | delivered r =>
      intro hend
      have hpunctual := (empty_punctual p.id).run (empty_keeps p.id) (queued_of_new rfl) hr
      refine hpunctual.no_timeout hx n (hreply.trans ?_)
      cases r with
      | ok => cases hend
      | error e =>
        cases hend
        rfl

theorem cancel_spec (hr : Reachable w) (ht : w.threads[t]? = some th)
    (hc : th.call? = some (.waiting p d data (.cancel n))) (hv : w.step t = some v)
    (hend : v.threads[t]?.bind Thread.result? = some (.error .timeout)) :
    n ∈ w.waiting p.id d ∧ n ∈ v.withdrawn p.id d := by
  have hk : w.Keeps p.id := (empty_keeps p.id).run (queued_of_new rfl) hr
  obtain ⟨f, hnext, hres, -⟩ := Thread.next_of_call hc
  obtain ⟨u, x, sec, hx, -, hans, htv, hst, -⟩ := step_access ht hnext hv
  rw [htv, Option.bind_some, hres] at hend
  cases hanswer : sec.answer with
  | false =>
    rw [hanswer] at hend
    cases hend
  | true =>
    have hdeed := hans.deed rfl p.id
    simp only [Primitive.deed, EndpointCall.deed, hanswer, if_true, ← hst] at hdeed
    exact withdraw_spec hdeed ((hk.custody false (by simp)).kept d).tidy

/-- A caller with a last look left has not taken its job back, and never will. -/
theorem poll_spec (hr : Reachable w) (ht : w.threads[t]? = some th)
    (hc : th.call? = some (.waiting p d data (.poll n))) (hv : w.step t = some v) :
    w.Away p.id d n ∧ v.Forgone p.id d n := by
  have hk : w.Keeps p.id := (empty_keeps p.id).run (queued_of_new rfl) hr
  have hmem := List.mem_of_getElem? ht
  obtain ⟨f, hnext, -, hm⟩ := Thread.next_of_call hc
  obtain ⟨u, x, sec, hx, hcall, hans, htv, hst, hthreads, -⟩ := step_access ht hnext hv
  have hpolls : 1 ≤ w.polls p.id d n :=
    Nat.le_trans (by simp [polling, Call.polls, Waiting.polls])
      (Nat.le_trans (Thread.call_le (polling p.id d n) hc) (le_tally hmem))
  have haway := (empty_polled p.id d n).run (empty_keeps p.id) (queued_of_new rfl) hr hpolls
  have hawayv := haway.run hk hr.queued (.step (.run t) .refl trivial hv : Run (fun _ => True) w v)
  have hclaims : (holding p.id (.wait d n)).call (.waiting p d data (.poll n)) = 1 := by
    simp [holding, Call.waits, Waiting.waits]
  obtain ⟨hused, hkept, hone⟩ := hk.claimed (hclaims ▸
    Nat.le_trans (Thread.call_le (holding p.id (.wait d n)) hc) (le_tally hmem))
  refine ⟨haway, ?_, ?_, ?_, ?_⟩
  · exact hawayv.made
  · exact hawayv.used
  · have hdeed := hans.deed rfl p.id
    simp only [Primitive.deed, EndpointCall.deed, if_true, ← hst] at hdeed
    rcases hdeed.withdrawn d with heq | ⟨_, hd, -⟩
    · rw [withdrawn, heq]
      exact hkept
    · cases hd
  · have hwakes : sec.wakes = false := by
      cases hcall
      rfl
    -- the last look is over, and with it the wait
    obtain ⟨th', hth', hless⟩ : ∃ th', v.threads = w.threads.set t th' ∧
        (holding p.id (.wait d n)).thread th' + 1 = (holding p.id (.wait d n)).thread th := by
      have hgo := hm (holding p.id (.wait d n))
      rw [hclaims] at hgo
      refine ⟨_, hthreads hwakes, ?_⟩
      cases sec.answer <;> exact hgo _
    have hset := tally_set (f := (holding p.id (.wait d n)).thread) ht th'
    rw [hands] at hone
    rw [hands, hth']
    omega

theorem Forgone.spec (h : w.Forgone e d n) (ha : w.Away e d n) (hk : w.Keeps e) :
    n ∉ w.waiting e d ∧ n ∉ w.withdrawn e d ∧ (w.resolved e d).count n ≤ 1 ∧
      (¬ w.Harmed e → n ∈ w.resolved e d ∨ w.Held e d n) := by
  obtain ⟨hle, hexact⟩ := hk.places d n
  refine ⟨ha.gone, h.kept, ?_, fun hh => ?_⟩
  · have hcount := count_numbers n (((w.stores e).shelf d).resolved.map (·.1.tag))
    rw [List.map_map] at hcount
    exact Nat.le_trans (Nat.le_of_eq hcount) (by omega)
  · have hreceived := load_numbered_pos.mpr ha.used
    have hqueue := mt waiting_pos.mp ha.gone
    have hback := mt withdrawn_pos.mp h.kept
    have hsum := hexact hh
    by_contra hnone
    have hres := mt resolved_pos.mp fun hm => hnone (.inl hm)
    have hheld := mt held_pos.mp fun hm => hnone (.inr hm)
    omega

/-- What becomes of the job of a wait that comes back because its time was up, in every run. Either
the job still waited, as it had ever since it was accepted, and the caller took it back. Then
nothing is ever done with it: it waits in no queue, nobody has it in hand, and it is not given back.
Or the job had left the queue before. Then it is not taken back, and is given back once at most; as
long as nobody who works for the endpoint or destroys it panics, it was given back or is in
somebody's hands, and may still be carried out. -/
theorem timed_out_wait (hr : Reachable w) {s : Waiting} (ht : w.threads[t]? = some th)
    (hc : th.call? = some (.waiting p d data s)) (hn : s.number? = some n)
    (hv : w.step t = some v)
    (hend : v.threads[t]?.bind Thread.result? = some (.error .timeout)) :
    (n ∈ w.waiting p.id d ∧
      (∀ u, Reachable u → Run (fun _ => True) u w → n ∈ u.used p.id d → n ∈ u.waiting p.id d) ∧
      ∀ u, Run (fun _ => True) v u → u.Retracted p.id d n) ∨
    (n ∈ w.used p.id d ∧ n ∉ w.waiting p.id d ∧
      ∀ u, Run (fun _ => True) v u → n ∉ u.waiting p.id d ∧ n ∉ u.withdrawn p.id d ∧
        (u.resolved p.id d).count n ≤ 1 ∧
        (¬ u.Harmed p.id → n ∈ u.resolved p.id d ∨ u.Held p.id d n)) := by
  have hkeeps : ∀ {u : World}, Reachable u → u.Keeps p.id := (empty_keeps p.id).run
    (queued_of_new rfl)
  have hrv : Reachable v := .step (.run t) hr trivial hv
  cases s with
  | posting => cases hn
  | clock m =>
    obtain ⟨f, hnext, hres, -⟩ := Thread.next_of_call hc
    obtain ⟨r, htv⟩ := step_clock ht hnext hv
    rw [htv, Option.bind_some, hres] at hend
    cases hend
  | awaiting m deadline => exact absurd hend (awaiting_spec hr ht hc hv)
  | cancel m =>
    obtain rfl : n = m := (Option.some.inj hn).symm
    obtain ⟨hwaiting, hwithdrawn⟩ := cancel_spec hr ht hc hv hend
    have hmade := made_of_used hrv ((hkeeps hrv).used_of_withdrawn hwithdrawn)
    refine .inl ⟨hwaiting, fun u hu huw hused => ?_, fun u hvu => ?_⟩
    · by_contra hgone
      have haway : u.Away p.id d n := ⟨made_of_used hu hused, hused, hgone⟩
      exact (haway.run (hkeeps hu) hu.queued huw).gone hwaiting
    · exact ((hkeeps hrv).run hrv.queued hvu).retracted
        (withdrawn_run (hkeeps hrv) hmade hrv.queued hwithdrawn hvu)
  | poll m =>
    obtain rfl : n = m := (Option.some.inj hn).symm
    obtain ⟨haway, hforgone⟩ := poll_spec hr ht hc hv
    have hawayv := haway.run (hkeeps hr) hr.queued
      (.step (.run t) .refl trivial hv : Run (fun _ => True) w v)
    exact .inr ⟨haway.used, haway.gone, fun u hu =>
      (hforgone.run (hkeeps hrv) hrv.queued hu).spec (hawayv.run (hkeeps hrv) hrv.queued hu)
        ((hkeeps hrv).run hrv.queued hu)⟩

end

/-- A receive that nobody answers has run out of time, and its caller is about to take it back. -/
def giving : World :=
  accepting.play ([.operate 0 (.waitReceive (.ofLimit 8))] ++ List.replicate 5 (.run 3) ++
    [.expire 3])

/-- The receive is taken back while it is queued, and nobody ever touches it. -/
theorem receive_taken_back : 1 ∈ giving.waiting 0 .receive ∧
    ∃ v, giving.step 3 = some v ∧
      ∀ u, Run (fun _ => True) v u → u.Retracted 0 .receive 1 := by
  have hr : Reachable giving := (Run.refl.play (by simp) : Run _ empty accepting).play (by simp)
  obtain ⟨th, ht, p, data, hc, hp⟩ : ∃ th, giving.threads[3]? = some th ∧ ∃ p data,
      th.call? = some (.waiting p .receive data (.cancel 1)) ∧ p.id = 0 := by
    have hany : (giving.threads[3]?.any fun th =>
        th.call?.any (·.retracts 0 .receive 1)) = true := by decide +kernel
    obtain ⟨th, ht, hth⟩ := Option.any_eq_true _ _ |>.mp hany
    obtain ⟨c, hc, hback⟩ := Option.any_eq_true _ _ |>.mp hth
    obtain ⟨p, data, rfl, hp⟩ := Call.of_retracts hback
    exact ⟨th, ht, p, data, hc, hp⟩
  obtain ⟨v, hv, hend⟩ : ∃ v, giving.step 3 = some v ∧
      v.threads[3]?.bind Thread.result? = some (.error .timeout) := by
    have hany : ((giving.step 3).any fun v => timedOut (v.threads[3]?.bind Thread.result?)) =
        true := by decide +kernel
    obtain ⟨v, hv, hend⟩ := Option.any_eq_true _ _ |>.mp hany
    exact ⟨v, hv, timedOut_iff.mp hend⟩
  have hqueued : 1 ∈ giving.waiting 0 .receive := by decide +kernel
  rcases timed_out_wait hr ht hc rfl hv hend with ⟨-, -, hback⟩ | ⟨-, hgone, -⟩
  · exact ⟨hqueued, v, hv, fun u hu => hp ▸ hback u hu⟩
  · exact absurd (hp ▸ hqueued) hgone

/-- A send is taken by the sender, whose peer never comes, and its caller runs out of time. -/
def abandoned : World :=
  accepting.play ([.operate 0 (.waitSend (.ofBytes [7]))] ++ List.replicate 5 (.run 3) ++
    [.run 1, .expire 3, .run 3, .run 3])

/-- The caller is told that its time was up before its message is published; then it is
published. -/
theorem timed_out_send_published : Reachable abandoned ∧
    abandoned.threads[3]?.bind Thread.result? = some (.error .timeout) ∧
    1 ∈ abandoned.used 0 .send ∧
    replay (Event.stored? fun _ => true) abandoned.history = [] ∧
    replay (Event.stored? fun _ => true)
      (abandoned.play (List.replicate 3 (.run 1))).history = [[7]] := by
  exact ⟨(Run.refl.play (by simp) : Run _ empty accepting).play (by simp),
    timedOut_iff.mp (by decide +kernel), by decide +kernel, by decide +kernel, by decide +kernel⟩

end World

end QueuePair
