import QueuePair.Proofs.Alone
import QueuePair.Proofs.Pair.Agreement
import QueuePair.Proofs.Pair.Making

namespace QueuePair

open World

namespace Pair

open Kernel (Extends Shifts)

structure Sized (P : Pair) (former f : File) (task : Role → Task) : Prop where
  written : ∃ n, former.length ≤ n ∧ f.written = former.written.take n
  longer : former.length ≤ f.length
  extending : ∀ r, (task r).extending = true → former.length < P.size r
  mapped : ∀ r, (task r).mapped = true → min (P.size r) (P.size r.peer) ≤ f.length

structure Apart (P : Pair) (f : File) (task : Role → Task) : Prop where
  extending : ∀ r, (task r).extending = true → f.length < P.size r
  mapped : ∀ r, (task r).mapped = true → P.size r ≤ f.length

def lane (first r : Role) : ThreadId :=
  if r = first then 0 else 1

/-- Both sides are being connected, or are connected and at rest. -/
structure Setup (P : Pair) (first : Role) (former : File) (w : World) (task : Role → Task) :
    Prop where
  housed : P.Housed w.kernel
  openable : P.Openable w.kernel
  lanes : ∀ r, w.threads[lane first r]? = some (P.opener r (task r))
  dozes : ∀ t th, w.threads[t]? = some th → (∀ r, t ≠ lane first r) → P.Dozes th
  stage : ∀ r, P.Stage r (P.endpoint w r) (task r)
  sends : ∀ r, (P.endpoint w r).sends.pending = .empty
  signal : ∀ r, w.kernel.gauge P.keys (.signal r) = 0
  made : ∀ g, P.present w.kernel g = (task .server).made .server (P.endpoint w .server).link g +
    (task .client).made .client (P.endpoint w .client).link g
  sized : P.Sized former (P.boxFile w.kernel) task

variable {P : Pair} {first r : Role} {former f f' : File} {w v : World} {t : ThreadId} {th : Thread}
  {task task' : Role → Task} {x : Endpoint}

theorem lane_inj {r' : Role} : lane first r = lane first r' ↔ r = r' := by
  cases first <;> cases r <;> cases r' <;> decide

theorem peer_ne (r : Role) : r.peer ≠ r := by
  cases r <;> decide

theorem min_peer (r : Role) :
    min (P.size r.peer) (P.size r.peer.peer) = min (P.size r) (P.size r.peer) := by
  rw [Role.peer_peer, Nat.min_comm]

theorem sum_role (p : Role → Nat) (r : Role) : p .server + p .client = p r + p r.peer := by
  cases r with
  | server => rfl
  | client => exact Nat.add_comm _ _

theorem forall_role (r : Role) {p : Role → Prop} (h : p r) (h' : p r.peer) (s : Role) : p s := by
  cases r <;> cases s <;> assumption

theorem Sized.fills (h : P.Sized former f task) (hf : Fills P r f f' (task r) (task' r))
    (hp : task' r.peer = task r.peer) : P.Sized former f' task' := by
  obtain ⟨n, hn, hw⟩ := h.written
  cases hf with
  | same hfile he hm =>
    refine ⟨hfile ▸ ⟨n, hn, hw⟩, hfile ▸ h.longer, forall_role r (fun h' => ?_) fun h' => ?_,
      forall_role r (fun h' => ?_) fun h' => ?_⟩
    · exact Nat.lt_of_le_of_lt h.longer (he h')
    · exact h.extending _ (hp ▸ h')
    · rw [hfile]
      rcases hm h' with hmap | hle
      · exact h.mapped r hmap
      · exact Nat.le_trans (Nat.min_le_left _ _) hle
    · rw [hfile]
      exact h.mapped _ (hp ▸ h')
  | extend he hfile hn' =>
    have hlt := h.extending r he
    rw [hfile]
    refine ⟨⟨min n (P.size r), by omega, ?_⟩, Nat.le_of_lt hlt,
      forall_role r (fun h' => ?_) fun h' => ?_,
      forall_role r (fun _ => Nat.min_le_left _ _) fun _ => ?_⟩
    · rw [File.resize, hw, List.take_take, Nat.min_comm]
    · cases hn'.symm.trans h'
    · exact h.extending _ (hp ▸ h')
    · rw [min_peer]
      exact Nat.min_le_left _ _

theorem Apart.fills (h : P.Apart f task) (hf : Fills P r f f' (task r) (task' r))
    (hp : task' r.peer = task r.peer) (hb : ¬ ∀ s, (task s).extending = true) :
    P.Apart f' task' := by
  cases hf with
  | same hfile he hm =>
    rw [← hfile] at h he hm
    refine ⟨forall_role r he fun h' => h.extending _ (hp ▸ h'),
      forall_role r (fun h' => (hm h').elim (h.mapped r) fun hle => hle) fun h' => ?_⟩
    exact h.mapped _ (hp ▸ h')
  | extend he hfile hn' =>
    have hlt := h.extending r he
    rw [hfile]
    refine ⟨forall_role r (fun h' => ?_) fun h' => ?_,
      forall_role r (fun _ => Nat.le_refl _) fun h' => ?_⟩
    · cases hn'.symm.trans h'
    · exact absurd (forall_role r he (hp ▸ h')) hb
    · exact Nat.le_of_lt (Nat.lt_of_le_of_lt (h.mapped _ (hp ▸ h')) hlt)

theorem Stage.congr {y : Endpoint} {a : Task} (h : P.Stage r x a) (hs : y.state = x.state)
    (hl : y.link = x.link) : P.Stage r y a := by
  cases h with
  | opening ha hx hlink => exact .opening ha (hs.trans hx) (hl.trans hlink)
  | standing ha hx hlink => exact .standing ha (hs.trans hx) (hl.trans hlink)
  | reading hr hx hlink => exact .reading hr (hs.trans hx) (hl.trans hlink)
  | leaving hx hlink => exact .leaving (hs.trans hx) (hl.trans hlink)
  | ended hx hlink => exact .ended (hs.trans hx) (hl.trans hlink)

theorem Stage.locks {s : Role} {task : Task} (h : P.Stage s x task) (hl : task.locks = some r) :
    s = r ∧ task ≠ .call (some (P.id r)) (.connecting (P.party r) .lock) := by
  cases h with
  | @opening c =>
    cases c with
    | lock => cases hl
    | _ =>
      obtain rfl := Option.some.inj hl
      exact ⟨(settings_role s).symm, by simp⟩
  | @standing c =>
    cases c with
    | lock => cases hl
    | _ =>
      obtain rfl := Option.some.inj hl
      exact ⟨(settings_role s).symm, by simp⟩
  | reading | leaving | ended => cases hl

theorem Fit.of_connecting {k : Kernel} {o : Task} {s : Connecting} {cs : List Callback}
    (h : P.Fit k ⟨o, .call (some (P.id r)) (.connecting (P.party r) s), cs⟩) :
    P.ConnectingFit k r s := by
  generalize hth : (⟨o, .call (some (P.id r)) (.connecting (P.party r) s), cs⟩ : Thread) = th at h
  cases h with
  | connecting hs =>
    simp only [Thread.mk.injEq, Task.call.injEq, Option.some.injEq, id_inj] at hth
    obtain ⟨-, ⟨rfl, hc⟩, -⟩ := hth
    cases hc
    exact hs
  | call _ hc =>
    simp only [Thread.mk.injEq, Task.call.injEq] at hth
    obtain ⟨-, ⟨-, rfl⟩, -⟩ := hth
    exact hc.elim
  | _ => simp at hth

theorem Fit.of_receiver {k : Kernel} {o : Task} {l : Link} {s : Receiver} {cs : List Callback}
    (h : P.Fit k ⟨o, .receiver (P.party r) l s, cs⟩) : P.Bound k r l := by
  generalize hth : (⟨o, .receiver (P.party r) l s, cs⟩ : Thread) = th at h
  cases h with
  | receiver hl =>
    simp only [Thread.mk.injEq, Task.receiver.injEq, party_inj] at hth
    obtain ⟨-, ⟨rfl, rfl, -⟩, -⟩ := hth
    exact hl
  | _ => simp at hth

theorem Fit.of_sender {k : Kernel} {o : Task} {l : Link} {s : Sender} {cs : List Callback}
    (h : P.Fit k ⟨o, .sender (P.party r) l s, cs⟩) : P.Bound k r l := by
  generalize hth : (⟨o, .sender (P.party r) l s, cs⟩ : Thread) = th at h
  cases h with
  | sender hl =>
    simp only [Thread.mk.injEq, Task.sender.injEq, party_inj] at hth
    obtain ⟨-, ⟨rfl, rfl, -⟩, -⟩ := hth
    exact hl
  | _ => simp at hth

namespace Setup

variable (h : P.Setup first former w task)
include h

theorem unlocked (hl : P.Law w) (hx : w.endpoints[P.id r]? = some x)
    (hn : task r = .call (some (P.id r)) (.connecting (P.party r) .lock)) :
    x.linkHolder = none := by
  cases hh : x.linkHolder with
  | none => rfl
  | some t =>
    obtain ⟨th, ht, hlock⟩ := (hl.holder hx t).mp hh
    by_cases hlane : ∃ s, t = lane first s
    · obtain ⟨s, rfl⟩ := hlane
      obtain rfl := Option.some.inj ((h.lanes s).symm.trans ht)
      obtain ⟨rfl, hne⟩ := (h.stage s).locks hlock
      exact absurd hn hne
    · cases h.dozes t th ht fun s hs => hlane ⟨s, hs⟩ <;> cases hlock

theorem goes (hl : P.Law w) (hn : ∀ o, task r ≠ .ended o) :
    ¬ w.Stands t (P.opener r (task r)).next := by
  obtain ⟨x, hx, -⟩ := hl.ends r
  have hfit := hl.fit (h.lanes r)
  have hstage := h.stage r
  have hlock := h.unlocked hl hx
  generalize task r = a at hfit hstage hlock hn
  have hconnecting : ∀ s, a = .call (some (P.id r)) (.connecting (P.party r) s) →
      ¬ w.Stands t (P.opener r a).next := by
    rintro s rfl
    rw [opener, next_task, stands_map, Task.next, Move.through, stands_map, Call.next,
      Move.through, stands_map]
    by_cases hs : s = .lock
    · subst hs
      refine not_refuses_access (c := .lockLink) hx ?_
      simp [Endpoint.call, Endpoint.underLink, Endpoint.quiet, hlock rfl]
    · exact hl.connecting_goes hfit.of_connecting hs
  cases hstage with
  | opening | standing => exact hconnecting _ rfl
  | reading => exact not_refuses_access (c := .readState) hx rfl
  | leaving =>
    refine not_refuses_access (c := .release) hx ?_
    simp only [Endpoint.call]
    split <;> rfl
  | ended => exact absurd rfl (hn _)

theorem mailbox_free (hl : P.Law w) (hq : w.Queued) {m : Mailbox} (hm : P.Box w.kernel r m)
    {s : SemaphoreSet} (hs : w.kernel.live? m.semaphores.set = some s) : s.waiters = [] := by
  rw [List.eq_nil_iff_forall_not_mem]
  intro q hmem
  obtain ⟨hset, -⟩ := Kernel.live?_eq_some.mp hs
  obtain ⟨th, d, next, ht, hnext⟩ := hq.waits hset hmem
  have hstands := hq.stands ht (holds_iff.mpr ⟨_, s, q, hset, hmem, rfl⟩)
  by_cases hlane : ∃ s, q.thread = lane first s
  · obtain ⟨s, hs⟩ := hlane
    obtain rfl := Option.some.inj ((h.lanes s).symm.trans (hs ▸ ht))
    refine h.goes hl (fun o ho => ?_) hstands
    rw [ho] at hnext
    cases hnext
  · have hset : th.next.set? = some m.semaphores.set := hnext ▸ rfl
    have hfit := hl.fit ht
    cases h.dozes _ _ ht fun s hs => hlane ⟨s, hs⟩ with
    | fetch | parked => cases hset
    | @await r' l =>
      have hinbound : l.signals.inbound.set = m.semaphores.set := Option.some.inj hset
      have hl : P.Bound w.kernel r' l := hfit.of_receiver
      exact Keys.mailbox_ne_outbound _ _ (Kernel.setOf?_inj hm.set (hinbound ▸ hl.inbound))

/-- The step of a side moves nobody else. -/
theorem alone (hl : P.Law w) (hq : w.Queued) : w.Alone t (P.opener r (task r)).next := by
  have hfit := hl.fit (h.lanes r)
  have hstage := h.stage r
  generalize task r = a at hfit hstage
  have hconnecting : ∀ s, a = .call (some (P.id r)) (.connecting (P.party r) s) →
      w.Alone t (P.opener r a).next := by
    rintro s rfl
    have hs := hfit.of_connecting
    rw [opener, next_task, alone_map, Task.next, Move.through, alone_map, Call.next,
      Move.through, alone_map]
    cases s with
    | lock =>
      intro x sec _ hc
      simp only [Endpoint.call, Endpoint.underLink] at hc
      split at hc <;> cases hc
      rfl
    | check | storeConnected | unlock => exact fun _ _ _ hc => by cases hc; rfl
    | mailbox s =>
      cases s with
      | map s => cases s <;> trivial
      | semaphores m s => cases s <;> trivial
      | unlink => exact hs.elim
      | markVacant m => exact fun s hlive => h.mailbox_free hl hq hs hlive
    | signals m s =>
      cases s with
      | outbound s | inbound out s => cases s <;> trivial
      | discard => exact hs.2.elim
    | spawnSender | spawnReceiver => trivial
    | attach l s => cases s <;> exact fun s hlive => h.mailbox_free hl hq hs.box hlive
    | _ => exact hs.elim
  cases hstage with
  | opening | standing => exact hconnecting _ rfl
  | reading => exact fun _ _ _ hc => by cases hc; rfl
  | leaving =>
    intro x sec _ hc
    simp only [Endpoint.call] at hc
    split at hc <;> cases hc <;> rfl
  | ended => trivial

theorem threads {news : List Thread} {a : Task} (hv : v.threads = w.threads ++ news)
    (hn : ∀ n ∈ news, P.Dozes n) :
    (∀ s, (v.putThread (lane first r) (P.opener r a)).threads[lane first s]? =
      some (P.opener s (Function.update task r a s))) ∧
    ∀ t th, (v.putThread (lane first r) (P.opener r a)).threads[t]? = some th →
      (∀ s, t ≠ lane first s) → P.Dozes th := by
  have hold : ∀ s, v.threads[lane first s]? = some (P.opener s (task s)) := fun s => by
    rw [hv, List.getElem?_append_left (List.getElem?_eq_some_iff.mp (h.lanes s)).1]
    exact h.lanes s
  refine ⟨fun s => ?_, fun t th ht hne => ?_⟩
  · by_cases hs : s = r
    · subst hs
      rw [Function.update_self]
      exact List.getElem?_set_self (List.getElem?_eq_some_iff.mp (hold s)).1
    · rw [Function.update_of_ne hs]
      exact (List.getElem?_set_ne fun he => hs (lane_inj.mp he).symm).trans (hold s)
  · have ht' : v.threads[t]? = some th :=
      (List.getElem?_set_ne fun he => hne r he.symm).symm.trans ht
    rw [hv] at ht'
    rcases Nat.lt_or_ge t w.threads.length with hlt | hge
    · exact h.dozes t th ((List.getElem?_append_left hlt).symm.trans ht') hne
    · exact hn th (List.mem_of_getElem? ((List.getElem?_append_right hge).symm.trans ht'))

/-- A side goes on. -/
theorem advance {a : Task} (ha : Advances P r w v (task r) a) :
    P.Setup first former (v.putThread (lane first r) (P.opener r a))
      (Function.update task r a) := by
  obtain ⟨news, hv, hn⟩ := ha.threads
  obtain ⟨hlanes, hdozes⟩ := h.threads (a := a) hv hn
  have hpeer : Function.update task r a r.peer = task r.peer :=
    Function.update_of_ne (peer_ne r) _ _
  have hself : Function.update task r a r = a := Function.update_self ..
  refine ⟨ha.calm.housed h.housed, ha.openable, hlanes, hdozes, ?_, fun s => ?_,
    fun s => (ha.calm.signal s).trans (h.signal s), fun g => ?_, ?_⟩
  · refine forall_role r ?_ ?_
    · rw [hself]
      exact ha.stage
    · rw [hpeer]
      exact (congrArg (fun x => P.Stage r.peer x (task r.peer)) ha.peer).mpr (h.stage r.peer)
  · exact (congrArg (·.pending) (congrFun (ha.calm.queue s) .send)).trans (h.sends s)
  · have hmade := ha.made g
    have hold := h.made g
    rw [sum_role (fun s => (task s).made s (P.endpoint w s).link g) r] at hold
    rw [sum_role (fun s => (Function.update task r a s).made s
      (P.endpoint (v.putThread (lane first r) (P.opener r a)) s).link g) r, hself, hpeer]
    have hkeep : (P.endpoint (v.putThread (lane first r) (P.opener r a)) r.peer).link =
        (P.endpoint w r.peer).link := congrArg (·.link) ha.peer
    rw [hkeep]
    change P.present v.kernel g = _ + _
    change _ = a.made r (P.endpoint v r).link g + _
    omega
  · exact h.sized.fills (hself.symm ▸ ha.fills) hpeer

theorem step_lane (hl : P.Law w) (hq : w.Queued) (hs : w.step (lane first r) = some v) :
    ∃ u a, v = u.putThread (lane first r) (P.opener r a) ∧ Advances P r w u (task r) a := by
  have hn : ∀ o, task r ≠ .ended o := by
    intro o ho
    have hnext : (P.opener r (task r)).next = .halt := by rw [ho]; rfl
    simp only [World.step, h.lanes r, hnext] at hs
    split at hs <;> cases hs
  obtain ⟨u, th', hafter, rfl⟩ := (h.alone hl hq).step (h.goes hl hn) (h.lanes r) hs
  have hmoves : P.Moves w (lane first r) (P.opener r (task r)) u th' := by
    refine moves_of_after hl.intact (fun r x hx => hl.end_ hx) (fun r x hx ho => ?_)
      (hl.fit (h.lanes _)) hafter
    have htwo := hl.two_le_owners (h.lanes _) hx ho
    omega
  obtain ⟨a, rfl, hopens⟩ := opens_of_moves (h.stage r) hmoves
  exact ⟨u, a, rfl, hopens.advances hl h.housed h.openable (h.stage r)⟩

theorem rest (hx : ∀ r, (P.endpoint v r).state = (P.endpoint w r).state ∧
      (P.endpoint v r).link = (P.endpoint w r).link ∧ (P.endpoint v r).sends.pending = .empty)
    (hk : Shifts P.keys .gate 0 w.kernel v.kernel)
    (hlanes : ∀ s, v.threads[lane first s]? = w.threads[lane first s]?)
    (hdozes : ∀ u th, v.threads[u]? = some th → (∀ s, u ≠ lane first s) → P.Dozes th) :
    P.Setup first former v task := by
  refine ⟨h.housed.of_files hk.files, h.openable.of_files hk.files hk.limits,
    fun s => (hlanes s).trans (h.lanes s), hdozes,
    fun s => (h.stage s).congr (hx s).1 (hx s).2.1, fun s => (hx s).2.2, fun s => ?_,
    fun g => ?_, ?_⟩
  · have hgauge := hk.gauge (.signal s)
    have hold := h.signal s
    simp only [ite_self, Int.add_zero, Nat.cast_inj] at hgauge
    omega
  · rw [present_congr (hk.setOf _), h.made g, (hx .server).2.1, (hx .client).2.1]
  · exact boxFile_congr hk.files ▸ h.sized

/-- A sender finds nothing to send. -/
theorem step_fetch {l : Link} (hl : P.Law w)
    (ht : w.threads[t]? = some ⟨.sender (P.party r) l .fetch, .sender (P.party r) l .fetch, []⟩)
    (hne : ∀ s, t ≠ lane first s) (hs : w.step t = some v) :
    P.Setup first former v task ∧ v.kernel.files = w.kernel.files := by
  obtain ⟨x, hx, hfit⟩ := hl.ends r
  have halone : w.Alone t (Sender.next (P.party r) l .fetch) := by
    intro y sec _ hc
    simp only [Endpoint.call, Option.some.injEq] at hc
    subst hc
    unfold Endpoint.nextSend
    split
    · rfl
    · split <;> rfl
  have hgoes : ¬ w.Stands t (Sender.next (P.party r) l .fetch) :=
    not_refuses_access (c := .nextSend) hx rfl
  obtain ⟨u, th', hafter, rfl⟩ := Alone.step
    (by rwa [next_task, alone_map, Task.next, Move.through, alone_map])
    (by rwa [next_task, stands_map, Task.next, Move.through, stands_map]) ht hs
  rw [next_task] at hafter
  obtain ⟨a, ha, rfl⟩ := hafter.of_map
  have hb := (hl.fit ht).of_sender
  obtain ⟨s, hmore, rfl⟩ | ⟨e, hdone, -⟩ := ha.of_through
  · obtain ⟨s', hs', hsends⟩ := sends_of_after hl.intact (fun x hx => hl.end_ hx) hb
      (by exact trivial) hmore
    cases hs'
    have hpending := h.sends r
    rw [endpoint_eq hx] at hpending
    cases hsends with
    | @dry x' q hx' hq =>
      obtain rfl := Option.some.inj (hx.symm.trans hx')
      have hempty : q.pending = .empty := by
        simp only [WorkQueue.next, hpending, Fifo.empty, WorkQueue.takeFirst] at hq
        cases hq
        rfl
      refine ⟨h.rest (fun s => ?_) (shifts_refl _ _) (fun s => ?_) fun n th hn hlane => ?_, rfl⟩
      · change (P.endpoint (w.putEndpoint (P.id r) { x with sends := q }) s).state = _ ∧
          (P.endpoint (w.putEndpoint (P.id r) { x with sends := q }) s).link = _ ∧
            (P.endpoint (w.putEndpoint (P.id r) { x with sends := q }) s).sends.pending = _
        rw [endpoint_set hx rfl]
        split
        · rename_i hsr
          subst hsr
          rw [endpoint_eq hx]
          exact ⟨rfl, rfl, hempty⟩
        · exact ⟨rfl, rfl, h.sends s⟩
      · exact List.getElem?_set_ne (hne s)
      · by_cases hnt : n = t
        · subst hnt
          obtain rfl := Option.some.inj ((List.getElem?_set_self
            (List.getElem?_eq_some_iff.mp ht).1).symm.trans hn)
          exact .parked
        · exact h.dozes n th ((List.getElem?_set_ne (Ne.symm hnt)).symm.trans hn) hlane
    | take hx' hq =>
      obtain rfl := Option.some.inj (hx.symm.trans hx')
      simp [WorkQueue.next, hpending, Fifo.empty, WorkQueue.takeFirst] at hq
  · obtain ⟨s', hs', -⟩ := sends_of_after hl.intact (fun x hx => hl.end_ hx) hb
      (by exact trivial) hdone
    cases hs'

theorem step_await {l : Link} (hl : P.Law w)
    (ht : w.threads[t]? =
      some ⟨.receiver (P.party r) l .await, .receiver (P.party r) l .await, []⟩)
    (hs : w.step t = some v) :
    P.Setup first former v task ∧ v.kernel.files = w.kernel.files := by
  have hb := (hl.fit ht).of_receiver
  obtain ⟨s, hlive, hwidth⟩ := hl.wide (.signal r.peer) _ hb.inbound
  have hgauge := h.signal r.peer
  rw [Kernel.gauge_eq hb.inbound hlive] at hgauge
  have hblocks : attempt s.values [⟨0, -1⟩] = .blocks := by
    have hzero : s.values.getD 0 0 = 0 := hgauge
    simp only [attempt, hzero]
    rfl
  have hnext : Thread.next ⟨.receiver (P.party r) l .await, .receiver (P.party r) l .await, []⟩ =
      .perform (.system (.change l.signals.inbound.set [⟨0, -1⟩] none)) _ := rfl
  simp only [World.step, ht, hnext, perform, Kernel.call, Kernel.change, hlive, hblocks] at hs
  split at hs
  · cases hs
  · simp only [Option.some.injEq] at hs
    subst hs
    exact ⟨h.rest (fun s => ⟨rfl, rfl, h.sends s⟩)
      (Kernel.shifts_of_waiters rfl rfl (alike_enqueue hlive).sets) (fun _ => rfl) h.dozes, rfl⟩

theorem step_dozing (hl : P.Law w) (hne : ∀ s, t ≠ lane first s) (hs : w.step t = some v) :
    P.Setup first former v task ∧ v.kernel.files = w.kernel.files := by
  cases ht : w.threads[t]? with
  | none => simp [World.step, ht] at hs
  | some th =>
    cases h.dozes t th ht hne with
    | fetch => exact h.step_fetch hl ht hne hs
    | parked =>
      simp only [World.step, ht] at hs
      split at hs <;> cases hs
    | await => exact h.step_await hl ht hs

/-- Whoever takes a step, the setup goes on, and each step of a side leads closer to its answer. The
file gets shorter only if both sides were about to set its length. -/
theorem step (hl : P.Law w) (hq : w.Queued) (hs : w.step t = some v) :
    ∃ task', P.Setup first former v task' ∧
      (∀ r, (task' r).rank + (if t = lane first r then 1 else 0) ≤ (task r).rank) ∧
      (P.Apart (P.boxFile w.kernel) task → (∀ s, (task s).extending = true) ∨
        P.Apart (P.boxFile v.kernel) task') := by
  by_cases hlane : ∃ r, t = lane first r
  · obtain ⟨r, rfl⟩ := hlane
    obtain ⟨u, a, rfl, ha⟩ := h.step_lane hl hq hs
    have hself : Function.update task r a r = a := Function.update_self ..
    have hpeer : Function.update task r a r.peer = task r.peer :=
      Function.update_of_ne (peer_ne r) _ _
    refine ⟨_, h.advance ha, forall_role r ?_ ?_, fun hapart => ?_⟩
    · rw [hself, if_pos rfl]
      exact ha.rank
    · rw [hpeer, if_neg fun he => peer_ne r (lane_inj.mp he).symm]
      exact Nat.le_refl _
    · by_cases hb : ∀ s, (task s).extending = true
      · exact .inl hb
      · exact .inr (hapart.fills (hself.symm ▸ ha.fills) hpeer hb)
  · have hne : ∀ s, t ≠ lane first s := fun s hs => hlane ⟨s, hs⟩
    obtain ⟨hsetup, hfiles⟩ := h.step_dozing hl hne hs
    refine ⟨task, hsetup, fun r => ?_, fun hapart => .inr ?_⟩
    · rw [if_neg (hne r)]
      exact Nat.le_refl _
    · rwa [boxFile_congr hfiles]

end Setup

end Pair

end QueuePair
