import QueuePair.Proofs.Pair.Preservation

namespace QueuePair

open World

namespace Pair

open Kernel (Extends Shifts)

variable {P : Pair} {w v : World} {t : ThreadId} {th th' : Thread} {r : Role} {x x' : Endpoint}

theorem due_connecting (s : Connecting) (d : Due) :
    P.due ⟨.call (some (P.id r)) (.connecting (P.party r) .lock),
        .call (some (P.id r)) (.connecting (P.party r) s), []⟩ d =
      match d with
      | .token => s.token
      | .gate => s.gate
      | .attached => s.attached
      | .worker d r' => if r = r' then s.worker d else 0
      | .owner r' => if r = r' then 1 else 0 := by
  cases d <;> simp [due, Task.token, Task.gate, Task.attached, Task.works, Task.owes, Task.owner?,
    Thread.passed, Task.outcome?, id_inj]

theorem Maps.extends {size : Nat} {s : MapFile} {f : Flow MapFile (Except SystemError Mapping)}
    (h : P.Maps size w s v f) : Extends P.keys w.kernel v.kernel ∧ v.threads = w.threads ∧
      v.endpoints = w.endpoints ∧ v.kernel.sets = w.kernel.sets := by
  cases h with
  | openFile ho =>
    refine ⟨⟨fun h => h, fun h => ?_, fun h => h⟩, rfl, rfl, rfl⟩
    rcases FileTree.openFile_spec ho with ⟨e, he, -⟩ | ⟨file, he, hl, rfl | ⟨hn, -⟩⟩
    · cases he
    · exact h
    · rw [hn] at h
      cases h
  | extend => exact ⟨extends_modify _ _ _, rfl, rfl, rfl⟩
  | refuse | short | long | tooLong | map | tooLarge => exact ⟨.refl _ _, rfl, rfl, rfl⟩

theorem Maps.fit {size : Nat} {s : MapFile} {f : Flow MapFile (Except SystemError Mapping)}
    (h : P.Maps size w s v f) (hs : P.OpeningFit w.kernel r (.map s)) :
    (∀ s', f = .more s' → P.OpeningFit v.kernel r (.map s')) ∧
      ∀ m, f = .done (.ok m) → v.kernel.files.lookup P.keys.path = .ok (some (.file m.file)) := by
  cases h with
  | openFile ho =>
    refine ⟨?_, nofun⟩
    rintro _ ⟨⟩
    rcases FileTree.openFile_spec ho with ⟨e, he, -⟩ | ⟨file, he, hl, -⟩
    · cases he
    · cases he
      exact hl
  | refuse | tooLong | tooLarge => exact ⟨nofun, nofun⟩
  | short | long => exact ⟨by rintro _ ⟨⟩; exact hs, nofun⟩
  | map => exact ⟨nofun, by rintro _ ⟨⟩; exact hs⟩
  | extend =>
    refine ⟨?_, nofun⟩
    rintro _ ⟨⟩
    exact (extends_modify (P := P) _ _ _).file hs

theorem Joins.extends {g : Gauge} {s : OpenSet} {f : Flow OpenSet (Except Error SemaphoreHandle)}
    (h : P.Joins g w s v f) : Extends P.keys w.kernel v.kernel ∧ v.threads = w.threads ∧
      v.endpoints = w.endpoints ∧ ∀ d, P.stock v.kernel d = P.stock w.kernel d := by
  cases h with
  | make hs =>
    obtain ⟨-, hx, hg⟩ := Kernel.addSet_spec (key_ne_zero g) hs
    exact ⟨hx, rfl, rfl, fun d => by cases d <;> simp [stock, hg]⟩
  | find | join => exact ⟨.refl _ _, rfl, rfl, fun _ => rfl⟩

/-- The set of a handle is the one under the key, and the set was not there before if opening made
it. -/
theorem Joins.fit {g : Gauge} {s : OpenSet} {f : Flow OpenSet (Except Error SemaphoreHandle)}
    (h : P.Joins g w s v f) :
    (∀ s', f = .more s' → s' = .join → ∃ set, v.kernel.setOf? (g.key P.keys) = some set) ∧
      ∀ a, f = .done (.ok a) → v.kernel.setOf? (g.key P.keys) = some a.set ∧
        (w.kernel.setOf? (g.key P.keys)).isSome = !a.created := by
  cases h with
  | make hs =>
    obtain ⟨hset, -, -⟩ := Kernel.addSet_spec (key_ne_zero g) hs
    refine ⟨nofun, ?_⟩
    rintro _ ⟨⟩
    exact ⟨hset, by simp [hs]⟩
  | find hs => exact ⟨by rintro _ ⟨⟩ -; exact ⟨_, hs⟩, nofun⟩
  | join hs =>
    refine ⟨nofun, ?_⟩
    rintro _ ⟨⟩
    exact ⟨hs, by simp [hs]⟩

theorem Joins.mailbox {s : OpenSet} {f : Flow OpenSet (Except Error SemaphoreHandle)}
    (h : P.Joins (.signal r) w s v f) :
    v.kernel.setOf? P.keys.mailbox = w.kernel.setOf? P.keys.mailbox := by
  cases h with
  | make hs =>
    rw [World.withKernel, Kernel.setOf?_addSet rfl, if_neg, Option.or_none]
    exact fun hk => Keys.mailbox_ne_outbound P.keys r hk.2.symm
  | find | join => rfl

theorem Law.of_signal {q : Role} {s : OpenSet}
    {f : Flow OpenSet (Except Error SemaphoreHandle)} (h : P.Law w)
    (ht : w.threads[t]? = some th) (hj : P.Joins (.signal q) w s v f) (hf : P.Fit v.kernel th')
    (hl : th'.task.locks = th.task.locks)
    (ho : ∀ r, th'.task.opens = some r → th.task.opens = some r)
    (hb : ∀ d, P.due th' d = P.due th d) : P.Law (v.putThread t th') := by
  obtain ⟨hk, hv, he, hstock⟩ := hj.extends
  refine h.of_kernel ht hv he hk hf hl ho fun d => ?_
  have htotal : P.total v d = P.total w d := by
    cases d <;> simp [total, connected, owners, hj.mailbox, he]
  rw [hstock, htotal, hb]

theorem Law.turns_locked (h : P.Law w) (ht : w.threads[t]? = some th)
    (hx : w.endpoints[P.id r]? = some x) (hl : th.task.locks = some r)
    (hl' : th'.task.locks = some r) (hh : x'.linkHolder = x.linkHolder)
    (ho : th'.task.opens = some r → x'.state = .init) : Turns r t th th' x x' := by
  refine ⟨fun u => ?_, ho, .inr hl⟩
  have hhold := (h.holder hx t).mpr ⟨th, ht, hl⟩
  rw [hh]
  by_cases hut : u = t
  · subst hut
    simp [hhold, hl']
  · rw [if_neg hut]

/-- The step that starts a worker. -/
theorem Law.spawns {l : Link} {d : Direction} (h : P.Law w) (ht : w.threads[t]? = some th)
    (hl : P.Bound w.kernel r l) (hf : P.Fit w.kernel th') (hlock : th.task.locks = some r)
    (hlock' : th'.task.locks = some r) (hopens : th'.task.opens = none)
    (hb : ∀ a, P.due th a = P.due th' a + if a = .worker d r then 1 else 0) :
    P.Law ((w.spawnWorker (P.party r) l d).putThread t th') := by
  have hlt := (List.getElem?_eq_some_iff.mp ht).1
  obtain ⟨x, hx, hfit⟩ := h.ends r
  have hends : (w.spawnWorker (P.party r) l d).endpoints = w.endpoints.set (P.id r)
      { x with workers := x.workers ++ [w.threads.length], owners := x.owners + 1 } :=
    modify_of_getElem? hx
  have hself : (w.spawnWorker (P.party r) l d).endpoints[P.id r]? = some
      { x with workers := x.workers ++ [w.threads.length], owners := x.owners + 1 } := by
    rw [hends, List.getElem?_set_self (List.getElem?_eq_some_iff.mp hx).1]
  have hother : ∀ {r'}, r' ≠ r →
      (w.spawnWorker (P.party r) l d).endpoints[P.id r']? = w.endpoints[P.id r']? := by
    intro r' hr
    rw [hends, List.getElem?_set_ne fun hid => hr (id_inj.mp hid.symm)]
  have hthreads : ((w.spawnWorker (P.party r) l d).putThread t th').threads =
      w.threads.set t th' ++ [.ofTask (World.worker (P.party r) l d)] :=
    List.set_append_left _ _ hlt
  refine h.of_step ht hthreads (.refl _ _) (by simp [hends]) (fun r' y hy => ?_) hf
    (fun n hn => ?_) fun a => ?_
  · by_cases hr : r' = r
    · subst hr
      obtain rfl := Option.some.inj (hx.symm.trans hy)
      refine ⟨_, hself, ⟨hfit.settings, hfit.stopped, hfit.open_, hfit.link, hfit.jobs⟩, ?_⟩
      exact h.turns_locked ht hx hlock hlock' rfl (by simp [hopens])
    · refine ⟨y, (hother hr).trans hy, h.end_ hy, fun u => ?_, by simp [hopens], .inl rfl⟩
      by_cases hut : u = t
      · subst hut
        rw [if_pos rfl, h.holder hy, hlock']
        constructor
        · rintro ⟨th₂, ht₂, hl₂⟩
          rw [← Option.some.inj (ht.symm.trans ht₂), hlock] at hl₂
          exact hl₂
        · exact fun he => absurd (Option.some.inj he).symm hr
      · rw [if_neg hut]
  · obtain rfl := List.mem_singleton.mp hn
    cases d with
    | send => exact ⟨.sender hl trivial (by simp) (by simp), rfl⟩
    | receive => exact ⟨.receiver hl trivial (by simp) (by simp), rfl⟩
  · have hnew : tally (P.due · a) [.ofTask (World.worker (P.party r) l d)] =
        (if a = .worker d r then 1 else 0) + if a = .owner r then 1 else 0 := by
      cases d with
      | send =>
        have hd := due_sender (P := P) (r := r) l .fetch [] a
        simp only [tally, World.worker, Thread.ofTask, List.map_cons, List.map_nil, List.sum_cons,
          List.sum_nil, Nat.add_zero, hd]
        cases a <;> simp [Sender.token, Sender.gate, eq_comm]
      | receive =>
        have hd := due_receiver (P := P) (r := r) l .await [] a
        simp only [tally, World.worker, Thread.ofTask, List.map_cons, List.map_nil, List.sum_cons,
          List.sum_nil, Nat.add_zero, hd]
        cases a <;> simp [Receiver.token, Receiver.gate, eq_comm]
    have htotal : P.total (w.spawnWorker (P.party r) l d) a =
        P.total w a + if a = .owner r then 1 else 0 := by
      have hc : ∀ r', P.connected (w.spawnWorker (P.party r) l d) r' = P.connected w r' ∧
          P.owners (w.spawnWorker (P.party r) l d) r' =
            P.owners w r' + if r' = r then 1 else 0 := by
        intro r'
        by_cases hr : r' = r
        · subst hr
          rw [connected_eq hself, connected_eq hx, owners_eq hself, owners_eq hx]
          simp
        · simp [connected, owners, hother hr, hr]
      cases a with
      | token => rfl
      | _ => simp [total, hc]
    have hkernel : (w.spawnWorker (P.party r) l d).kernel = w.kernel := rfl
    have hba := hb a
    rw [hnew, total_putThread, htotal, putThread_kernel, hkernel]
    omega

abbrev connectingAt (P : Pair) (r : Role) (s : Connecting) : Thread :=
  ⟨.call (some (P.id r)) (.connecting (P.party r) .lock),
    .call (some (P.id r)) (.connecting (P.party r) s), []⟩

theorem Law.link_locked (h : P.Law w) (ht : w.threads[t]? = some (P.connectingAt r .lock))
    (hx : w.endpoints[P.id r]? = some x) (hfree : x.linkHolder = none) :
    P.Law ((w.putEndpoint (P.id r) { x with linkHolder := some t }).putThread t
      (P.connectingAt r (.check x.link.isSome))) := by
  have hfit := h.end_ hx
  refine h.of_turn ht rfl rfl hx rfl (.connecting trivial)
    ⟨hfit.settings, hfit.stopped, hfit.open_, hfit.link, hfit.jobs⟩
    ⟨fun u => ?_, (by rintro ⟨⟩), .inl rfl⟩ (fun r' hr => ?_) fun d => ?_
  · by_cases hut : u = t
    · subst hut
      simp [Task.locks]
    · simp [hut, hfree, Ne.symm hut]
  · simp [Task.locks, Ne.symm hr]
  · have htotal := total_set (P := P) (w := w) (y := { x with linkHolder := some t })
      (v := w.putEndpoint (P.id r) { x with linkHolder := some t }) rfl hx rfl rfl rfl d
    rw [htotal]
    simp only [due_connecting]
    cases d <;> rfl

theorem Law.mailbox_made {m : Mapping} {s : OpenSet} {b : SemaphoreHandle} (h : P.Law w)
    (ht : w.threads[t]? = some (P.connectingAt r (.mailbox (.semaphores m s))))
    (hs : P.ConnectingFit w.kernel r (.mailbox (.semaphores m s)))
    (hj : P.Joins .gate w s v (.done (.ok b))) (hc : b.created = true) :
    P.Law (v.putThread t (P.connectingAt r (.mailbox (.markVacant (P.boxOf r m b))))) := by
  obtain ⟨hset, hnew⟩ := hj.fit.2 _ rfl
  obtain ⟨hk, hv, he, hstock⟩ := hj.extends
  refine h.of_kernel ht hv he hk (.connecting ⟨hset, hk.file hs.1, rfl⟩) rfl (fun _ ho => ho)
    fun d => ?_
  have hnone : (w.kernel.setOf? P.keys.mailbox).isSome = false := by
    rw [hc] at hnew
    exact hnew
  have hsome : (v.kernel.setOf? P.keys.mailbox).isSome = true := congrArg Option.isSome hset
  rw [hstock]
  simp only [due_connecting]
  cases d with
  | token =>
    simp [total, hnone, hsome, Connecting.token]
  | _ => simp [total, connected, owners, he, Connecting.gate, Connecting.attached,
      Connecting.worker]

theorem connected_store_connected (hx : w.endpoints[P.id r]? = some x) (hinit : x.state = .init)
    (r' : Role) : P.connected (w.putEndpoint (P.id r) { x with state := .connected }) r' =
      P.connected w r' + if r' = r then 1 else 0 := by
  by_cases hr : r' = r
  · subst hr
    have hw : P.connected w r' = 0 := by simp [connected_eq hx, hinit]
    rw [hw]
    simp [connected, ends_set (v := w.putEndpoint (P.id r') _) hx rfl]
  · simp [connected, ends_set (v := w.putEndpoint (P.id r) _) hx rfl, hr]

theorem owners_store_connected (hx : w.endpoints[P.id r]? = some x) (r' : Role) :
    P.owners (w.putEndpoint (P.id r) { x with state := .connected }) r' = P.owners w r' := by
  by_cases hr : r' = r
  · subst hr
    simp [owners, ends_set (v := w.putEndpoint (P.id r') _) hx rfl, hx]
  · simp [owners, ends_set (v := w.putEndpoint (P.id r) _) hx rfl, hr]

theorem Law.connected_stored {l : Link} (h : P.Law w)
    (ht : w.threads[t]? = some (P.connectingAt r (.storeConnected l)))
    (hs : P.ConnectingFit w.kernel r (.storeConnected l)) (hx : w.endpoints[P.id r]? = some x) :
    P.Law ((w.putEndpoint (P.id r) { x with state := .connected }).putThread t
      (P.connectingAt r (.spawnSender l))) := by
  have hrole : (P.party r).settings.role = r := P.role_settings r
  have hfit := h.end_ hx
  have hinit := h.opens hx ht (congrArg some hrole)
  have hc := connected_store_connected hx hinit
  have ho := owners_store_connected (P := P) hx
  refine h.of_turn ht rfl rfl hx rfl (.connecting hs)
    ⟨hfit.settings, hfit.stopped, (by rintro ⟨⟩), hfit.link, hfit.jobs⟩
    (h.turns_locked ht hx (congrArg some hrole) (congrArg some hrole) rfl (by rintro ⟨⟩))
    (fun r' hr => by simp [Task.locks, Ne.symm hr]) fun d => ?_
  simp only [due_connecting]
  cases d with
  | token => rfl
  | gate | attached =>
    simp only [total, hc, Connecting.gate, Connecting.attached]
    cases r <;> simp <;> omega
  | worker d r' =>
    by_cases hr : r' = r
    · subst hr
      simp [total, hc, connected_eq hx, hinit, Connecting.worker]
    · simp [total, hc, hr, Ne.symm hr]
  | owner r' => simp [total, ho]

theorem Law.connects {s s' : Connecting} (h : P.Law w)
    (ht : w.threads[t]? = some (P.connectingAt r s))
    (hs : P.ConnectingFit w.kernel r s) (hm : P.Connects r w t s v (.more s')) :
    P.Law (v.putThread t (P.connectingAt r s')) := by
  have hrole : (P.party r).settings.role = r := P.role_settings r
  cases hm with
  | lock hx hfree => exact h.link_locked ht hx hfree
  | @vacant x hx hst =>
    refine h.of_turn ht rfl rfl hx (set_of_getElem? hx).symm (.connecting trivial) (h.end_ hx)
      (h.turns_locked ht hx (congrArg some hrole) (congrArg some hrole) rfl fun _ => hst)
      (fun r' hr => ?_) fun d => ?_
    · simp [Task.locks, Ne.symm hr]
    · simp only [due_connecting]
      cases d <;> rfl
  | busy hx hst =>
    exact h.of_still ht rfl rfl (.refl _ _) rfl (.connecting (by rintro _ ⟨⟩)) rfl
        (by rintro _ ⟨⟩) fun d => by
      simp only [due_connecting]; cases d <;> rfl
  | map hm =>
    obtain ⟨hk, hv, he, hsets⟩ := hm.extends
    exact h.of_still ht hv he hk hsets (.connecting ((hm.fit hs).1 _ rfl)) rfl (fun _ ho => ho)
      fun d => by simp only [due_connecting]; cases d <;> rfl
  | mapped hm =>
    obtain ⟨hk, hv, he, hsets⟩ := hm.extends
    exact h.of_still ht hv he hk hsets (.connecting ⟨(hm.fit hs).2 _ rfl, (by rintro ⟨⟩)⟩) rfl
      (fun _ ho => ho) fun d => by simp only [due_connecting]; cases d <;> rfl
  | unmapped hm =>
    obtain ⟨hk, hv, he, hsets⟩ := hm.extends
    exact h.of_still ht hv he hk hsets (.connecting (by rintro _ ⟨⟩)) rfl
        (by rintro _ ⟨⟩) fun d => by
      simp only [due_connecting]; cases d <;> rfl
  | boxSet hj =>
    have hj' := hj.fit.1 _ rfl
    cases hj with
    | find hset =>
      exact h.of_still ht rfl rfl (.refl _ _) rfl (.connecting ⟨hs.1, hj'⟩) rfl (fun _ ho => ho)
        fun d => by simp only [due_connecting]; cases d <;> rfl
  | boxMade hj hc => exact h.mailbox_made ht hs hj hc
  | boxJoined hj hc =>
    obtain ⟨hset, hnew⟩ := hj.fit.2 _ rfl
    cases hj with
    | make => cases hc
    | join hset =>
      exact h.of_still ht rfl rfl (.refl _ _) rfl
        (.connecting ⟨⟨hset, hs.1, rfl⟩, by rintro ⟨⟩⟩) rfl
        (fun _ ho => ho) fun d => by simp only [due_connecting]; cases d <;> rfl
  | markVacant hk =>
    exact h.of_shift ht rfl rfl hk (.connecting ⟨hs, by rintro ⟨⟩⟩) rfl (fun _ ho => ho) fun d => by
      simp only [due_connecting]; cases d <;> rfl
  | outSet hj =>
    exact h.of_signal ht hj (.connecting ⟨hs.1.mono hj.extends.1, hj.fit.1 _ rfl⟩) rfl
      (fun _ ho => ho) fun d => by simp only [due_connecting]; cases d <;> rfl
  | outDone hj =>
    exact h.of_signal ht hj
      (.connecting ⟨hs.1.mono hj.extends.1, (hj.fit.2 _ rfl).1, by simp⟩) rfl (fun _ ho => ho)
      fun d => by simp only [due_connecting]; cases d <;> rfl
  | inSet hj =>
    have hout := hj.extends.1.setOf (g := .signal r) hs.2.1
    exact h.of_signal ht hj (.connecting ⟨hs.1.mono hj.extends.1, hout, hj.fit.1 _ rfl⟩) rfl
      (fun _ ho => ho) fun d => by simp only [due_connecting]; cases d <;> rfl
  | inDone hj =>
    have hout := hj.extends.1.setOf (g := .signal r) hs.2.1
    exact h.of_signal ht hj
      (.connecting ⟨hs.1.mono hj.extends.1, hout, (hj.fit.2 _ rfl).1⟩) rfl (fun _ ho => ho)
      fun d => by simp only [due_connecting]; cases d <;> rfl
  | storeConnected hx => exact h.connected_stored ht hs hx
  | spawnSender =>
    refine h.spawns ht hs (.connecting hs) (congrArg some hrole) (congrArg some hrole) rfl
      fun d => ?_
    simp only [due_connecting]
    cases d with
    | worker d r' => cases d <;> simp [Connecting.worker, eq_comm]
    | _ => rfl
  | spawnReceiver =>
    refine h.spawns ht hs (.connecting hs) (congrArg some hrole) (congrArg some hrole) rfl
      fun d => ?_
    simp only [due_connecting]
    cases d with
    | worker d r' => cases d <;> simp [Connecting.worker, eq_comm]
    | _ => rfl
  | raiseGate hk =>
    exact h.of_shift ht rfl rfl hk (.connecting hs) rfl (fun _ ho => ho) fun d => by
      simp only [due_connecting]; cases d <;> rfl
  | raiseCount hk =>
    exact h.of_shift ht rfl rfl hk (.connecting (by rintro _ ⟨⟩; exact hs)) rfl
        (by rintro _ ⟨⟩) fun d => by
      simp only [due_connecting]; cases d <;> rfl

theorem opened_facts (r : Role) (e : Except Error Unit) :
    (P.opened r e).locks = none ∧ (P.opened r e).opens = none ∧
      P.Fit w.kernel ⟨.call (some (P.id r)) (.connecting (P.party r) .lock), P.opened r e, []⟩ ∧
      ∀ d, P.due ⟨.call (some (P.id r)) (.connecting (P.party r) .lock), P.opened r e, []⟩ d =
        match d with
        | .owner r' => if r = r' then 1 else 0
        | _ => 0 := by
  have hdue : ∀ (task : Task) (d : Due), task.owner? = some (P.id r) → task.token = 0 →
      task.gate = 0 → task.attached = 0 → (∀ d r, task.owes d r = 0) →
      P.due ⟨.call (some (P.id r)) (.connecting (P.party r) .lock), task, []⟩ d =
        match d with
        | .owner r' => if r = r' then 1 else 0
        | _ => 0 := by
    intro task d ho htoken hgate hattached howes
    cases d <;> simp [due, ho, htoken, hgate, hattached, howes, Task.works, Thread.passed,
      Task.finalizes, id_inj]
  cases e with
  | error e => exact ⟨rfl, rfl, .leaving, fun d => hdue _ d rfl rfl rfl rfl fun _ _ => rfl⟩
  | ok a =>
    cases r with
    | server => exact ⟨rfl, rfl, .call rfl rfl, fun d => hdue _ d rfl rfl rfl rfl fun _ _ => rfl⟩
    | client => exact ⟨rfl, rfl, .leaving, fun d => hdue _ d rfl rfl rfl rfl fun _ _ => rfl⟩

theorem Law.connected {s : Connecting} {e : Except Error Unit} (h : P.Law w)
    (ht : w.threads[t]? = some ⟨.call (some (P.id r)) (.connecting (P.party r) .lock),
      .call (some (P.id r)) (.connecting (P.party r) s), []⟩)
    (hs : P.ConnectingFit w.kernel r s) (hm : P.Connects r w t s v (.done e)) :
    P.Law (v.putThread t
      ⟨.call (some (P.id r)) (.connecting (P.party r) .lock), P.opened r e, []⟩) := by
  obtain ⟨hlocks, hopens, hfit', hdue⟩ := opened_facts (P := P) (w := w) r e
  cases hm with
  | @unlock x l e hx =>
    have hfit := h.end_ hx
    have hhold := (h.holder hx t).mpr ⟨_, ht, congrArg some (settings_role r)⟩
    refine h.of_turn ht rfl rfl hx rfl hfit'
      ⟨hfit.settings, hfit.stopped, hfit.open_, fun l' hl' => ?_, hfit.jobs⟩
      ⟨fun u => ?_, fun ho => ?_, .inl rfl⟩ (fun r' hr => ?_) fun d => ?_
    · cases l with
      | some l₀ => exact hs l' hl'
      | none => exact hfit.link l' hl'
    · simp only [hlocks, hhold]
      by_cases hut : u = t
      · simp [hut]
      · simp [hut, Ne.symm hut]
    · rw [hopens] at ho
      cases ho
    · refine ⟨by simp [hlocks], ?_⟩
      simp [Task.locks, Ne.symm hr]
    · have htotal := total_set (P := P) (w := w)
        (y := { x with link := l.orElse fun _ => x.link, linkHolder := none })
        (v := w.putEndpoint (P.id r)
          { x with link := l.orElse fun _ => x.link, linkHolder := none }) rfl hx rfl rfl rfl d
      rw [htotal, hdue, due_connecting]
      cases d <;> simp [Connecting.token, Connecting.gate, Connecting.attached, Connecting.worker]

theorem due_finalizing (s : Finalizing) (d : Due) :
    P.due ⟨.call (some (P.id r)) (.finalizing (P.party r) .check),
        .call (some (P.id r)) (.finalizing (P.party r) s), []⟩ d =
      match d with
      | .gate => s.gate
      | .owner r' => if r = r' then 1 else 0
      | _ => 0 := by
  cases d <;> simp [due, Task.token, Task.gate, Task.attached, Task.works, Task.owes, Task.owner?,
    Thread.passed, Task.outcome?, id_inj]

theorem due_finalized (e : Except Error Unit) (d : Due) :
    P.due ⟨.call (some (P.id r)) (.finalizing (P.party r) .check),
        .leaving (P.id r) .release (.returned (Call.unit e)), []⟩ d =
      match d with
      | .gate => if r = .client ∧ e = .ok () then 1 else 0
      | .owner r' => if r = r' then 1 else 0
      | _ => 0 := by
  cases e <;> cases d <;> simp [due, Task.token, Task.gate, Task.attached, Task.works, Task.owes,
    Task.owner?, Thread.passed, Task.outcome?, Task.finalizes, Call.unit, Except.map,
    Outcome.isOk, id_inj]

theorem Law.meets {l : Link} {s s' : Mailbox.Rendezvous} (h : P.Law w)
    (ht : w.threads[t]? = some ⟨.call (some (P.id r)) (.finalizing (P.party r) .check),
      .call (some (P.id r)) (.finalizing (P.party r) (.rendezvous l s)), []⟩)
    (hl : P.Bound w.kernel r l) (hs : RendezvousFit r s) (hm : P.Meets r w s v (.more s')) :
    P.Law (v.putThread t ⟨.call (some (P.id r)) (.finalizing (P.party r) .check),
      .call (some (P.id r)) (.finalizing (P.party r) (.rendezvous l s')), []⟩) := by
  have hfit : ∀ {s' : Mailbox.Rendezvous}, RendezvousFit r s' →
      P.Fit w.kernel ⟨.call (some (P.id r)) (.finalizing (P.party r) .check),
        .call (some (P.id r)) (.finalizing (P.party r) (.rendezvous l s')), []⟩ :=
    fun hs' => .finalizing ⟨hl, hs'⟩
  cases hm with
  | clock hd | noClock hd =>
    exact h.of_still ht rfl rfl (.refl _ _) rfl (hfit (by cases r <;> trivial)) rfl
      (fun _ ho => ho) fun d => by simp only [due_finalizing]; cases d <;> rfl
  | both _ hk =>
    exact h.of_shift ht rfl rfl hk (hfit (by cases r <;> trivial)) rfl (fun _ ho => ho) fun d => by
      simp only [due_finalizing]; cases r <;> cases d <;> rfl
  | takeGate hr hk =>
    subst hr
    exact h.of_shift ht rfl rfl hk (hfit trivial) rfl (fun _ ho => ho) fun d => by
      simp only [due_finalizing]; cases d <;> rfl
  | zero hz hk =>
    exact h.of_shift ht rfl rfl hk (hfit (by cases r; trivial; exact hs)) rfl (fun _ ho => ho)
      fun d => by simp only [due_finalizing]; cases d <;> rfl
  | zeroLate =>
    exact h.of_still ht rfl rfl (.refl _ _) rfl (hfit (by cases r; trivial; exact hs)) rfl
      (fun _ ho => ho) fun d => by simp only [due_finalizing]; cases d <;> rfl

theorem Law.met {l : Link} {s : Mailbox.Rendezvous} {e : Except Error Unit} (h : P.Law w)
    (ht : w.threads[t]? = some ⟨.call (some (P.id r)) (.finalizing (P.party r) .check),
      .call (some (P.id r)) (.finalizing (P.party r) (.rendezvous l s)), []⟩)
    (hm : P.Meets r w s v (.done e)) :
    P.Law (v.putThread t ⟨.call (some (P.id r)) (.finalizing (P.party r) .check),
      .leaving (P.id r) .release (.returned (Call.unit e)), []⟩) := by
  cases hm with
  | bothLate | takeGateLate | takeLastLate =>
    exact h.of_still ht rfl rfl (.refl _ _) rfl .leaving rfl (by rintro _ ⟨⟩) fun d => by
      rw [due_finalizing, due_finalized]; cases d <;>
        simp [Finalizing.gate, Mailbox.Rendezvous.gate]
  | giveBack hr hk =>
    subst hr
    exact h.of_shift ht rfl rfl hk .leaving rfl (by rintro _ ⟨⟩) fun d => by
      rw [due_finalizing, due_finalized]
      cases d <;> simp [Finalizing.gate, Mailbox.Rendezvous.gate, Gauge.due]
  | undo hk =>
    exact h.of_shift ht rfl rfl hk .leaving rfl (by rintro _ ⟨⟩) fun d => by
      rw [due_finalizing, due_finalized]
      cases d <;> simp [Finalizing.gate, Mailbox.Rendezvous.gate, Gauge.due]
  | takeLast hr hg hk =>
    subst hr
    exact h.of_shift ht rfl rfl hk .leaving rfl (by rintro _ ⟨⟩) fun d => by
      rw [due_finalizing, due_finalized]
      cases d <;> simp [Finalizing.gate, Mailbox.Rendezvous.gate, Gauge.due]

theorem Law.finishes {s s' : Finalizing} (h : P.Law w)
    (ht : w.threads[t]? = some ⟨.call (some (P.id r)) (.finalizing (P.party r) .check),
      .call (some (P.id r)) (.finalizing (P.party r) s), []⟩)
    (hs : P.FinalizingFit w.kernel r s) (hm : P.Finishes r w s v (.more s')) :
    P.Law (v.putThread t ⟨.call (some (P.id r)) (.finalizing (P.party r) .check),
      .call (some (P.id r)) (.finalizing (P.party r) s'), []⟩) := by
  cases hm with
  | ready | unlinked =>
    exact h.of_still ht rfl rfl (.refl _ _) rfl (.finalizing trivial) rfl (fun _ ho => ho)
      fun d => by simp only [due_finalizing]; cases d <;> rfl
  | linked hx hl =>
    have hfit : RendezvousFit r .clock := by cases r <;> trivial
    exact h.of_still ht rfl rfl (.refl _ _) rfl (.finalizing ⟨(h.end_ hx).link _ hl, hfit⟩) rfl
      (fun _ ho => ho) fun d => by simp only [due_finalizing]; cases d <;> rfl
  | meet hm => exact h.meets ht hs.1 hs.2 hm

theorem Law.finished {s : Finalizing} {e : Except Error Unit} (h : P.Law w)
    (ht : w.threads[t]? = some ⟨.call (some (P.id r)) (.finalizing (P.party r) .check),
      .call (some (P.id r)) (.finalizing (P.party r) s), []⟩)
    (hm : P.Finishes r w s v (.done e)) :
    P.Law (v.putThread t ⟨.call (some (P.id r)) (.finalizing (P.party r) .check),
      .leaving (P.id r) .release (.returned (Call.unit e)), []⟩) := by
  cases hm with
  | unready | refuse =>
    exact h.of_still ht rfl rfl (.refl _ _) rfl .leaving rfl (by rintro _ ⟨⟩) fun d => by
      rw [due_finalizing, due_finalized]; cases d <;> simp [Finalizing.gate]
  | met hm => exact h.met ht hm

end Pair

end QueuePair
