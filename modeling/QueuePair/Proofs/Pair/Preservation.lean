import QueuePair.Proofs.Pair.Law

namespace QueuePair

open World

namespace Pair

open Kernel (Extends Shifts)

variable {P : Pair} {w v : World} {t : ThreadId} {th th' : Thread} {r : Role} {x x' : Endpoint}

@[simp] theorem putThread_kernel (v : World) (t : ThreadId) (th : Thread) :
    (v.putThread t th).kernel = v.kernel := rfl

@[simp] theorem putThread_endpoints (v : World) (t : ThreadId) (th : Thread) :
    (v.putThread t th).endpoints = v.endpoints := rfl

@[simp] theorem putThread_threads (v : World) (t : ThreadId) (th : Thread) :
    (v.putThread t th).threads = v.threads.set t th := rfl

@[simp] theorem total_putThread (v : World) (t : ThreadId) (th : Thread) (d : Due) :
    P.total (v.putThread t th) d = P.total v d := by
  cases d <;> rfl

theorem Law.of_kernel (h : P.Law w) (ht : w.threads[t]? = some th) (hv : v.threads = w.threads)
    (he : v.endpoints = w.endpoints) (hk : Extends P.keys w.kernel v.kernel)
    (hf : P.Fit v.kernel th') (hl : th'.task.locks = th.task.locks)
    (ho : ∀ r, th'.task.opens = some r → th.task.opens = some r)
    (hb : ∀ d, P.stock v.kernel d + P.due th' d + P.total w d =
      P.stock w.kernel d + P.due th d + P.total v d) : P.Law (v.putThread t th') := by
  have hthreads : (v.putThread t th').threads = w.threads.set t th' ++ [] := by simp [hv]
  refine h.of_step ht hthreads hk (by simp [he]) (fun r x hx => ?_) hf (by simp)
    (by simpa using hb)
  refine ⟨x, by simpa [he] using hx, (h.end_ hx).mono hk, fun u => ?_, fun hop => ?_,
    .inl rfl⟩
  · by_cases hut : u = t
    · subst hut
      rw [if_pos rfl, h.holder hx, hl]
      constructor
      · rintro ⟨th₂, ht₂, hl₂⟩
        rwa [Option.some.inj (ht.symm.trans ht₂)]
      · exact fun hl => ⟨th, ht, hl⟩
    · rw [if_neg hut]
  · exact h.opens hx ht (ho r hop)

theorem total_congr (hk : ∀ key, v.kernel.setOf? key = w.kernel.setOf? key)
    (he : v.endpoints = w.endpoints) (d : Due) : P.total v d = P.total w d := by
  cases d <;> simp [total, connected, owners, hk, he]

theorem Law.of_shift {g : Gauge} {d : Int} (h : P.Law w) (ht : w.threads[t]? = some th)
    (hv : v.threads = w.threads) (he : v.endpoints = w.endpoints)
    (hk : Shifts P.keys g d w.kernel v.kernel) (hf : P.Fit w.kernel th')
    (hl : th'.task.locks = th.task.locks)
    (ho : ∀ r, th'.task.opens = some r → th.task.opens = some r)
    (hb : ∀ a, (P.due th' a : Int) + (if g.due = a then d else 0) = P.due th a) :
    P.Law (v.putThread t th') := by
  refine h.of_kernel ht hv he hk.extends (hf.mono hk.extends) hl ho fun a => ?_
  have hs := stock_shift hk a
  have htotal := total_congr (P := P) hk.setOf he a
  have hba := hb a
  omega

theorem Law.of_still (h : P.Law w) (ht : w.threads[t]? = some th) (hv : v.threads = w.threads)
    (he : v.endpoints = w.endpoints) (hk : Extends P.keys w.kernel v.kernel)
    (hs : v.kernel.sets = w.kernel.sets) (hf : P.Fit v.kernel th')
    (hl : th'.task.locks = th.task.locks)
    (ho : ∀ r, th'.task.opens = some r → th.task.opens = some r)
    (hb : ∀ a, P.due th' a = P.due th a) : P.Law (v.putThread t th') := by
  refine h.of_kernel ht hv he hk hf hl ho fun a => ?_
  have hset : ∀ key, v.kernel.setOf? key = w.kernel.setOf? key := fun key => by
    simp only [Kernel.setOf?, hs]
  have hstock : P.stock v.kernel a = P.stock w.kernel a := by
    cases a <;> simp [stock, Kernel.gauge, hset, hs]
  rw [hstock, total_congr hset he, hb]

theorem ends_set {y : Endpoint} (hx : w.endpoints[P.id r]? = some x)
    (he : v.endpoints = w.endpoints.set (P.id r) y) (r' : Role) :
    v.endpoints[P.id r']? = if r' = r then some y else w.endpoints[P.id r']? := by
  rw [he]
  by_cases hr : r' = r
  · subst hr
    rw [if_pos rfl, List.getElem?_set_self (List.getElem?_eq_some_iff.mp hx).1]
  · rw [if_neg hr, List.getElem?_set_ne fun hid => hr (id_inj.mp hid.symm)]

theorem total_set {y : Endpoint} (hk : v.kernel = w.kernel) (hx : w.endpoints[P.id r]? = some x)
    (he : v.endpoints = w.endpoints.set (P.id r) y) (hs : y.state = x.state)
    (ho : y.owners = x.owners) (d : Due) : P.total v d = P.total w d := by
  have hc : ∀ r', P.connected v r' = P.connected w r' ∧ P.owners v r' = P.owners w r' := by
    intro r'
    by_cases hr : r' = r
    · subst hr
      simp [connected, owners, ends_set hx he, hx, hs, ho]
    · simp [connected, owners, ends_set hx he, hr]
  cases d <;> simp [total, hc, hk]

/-- A step that changes one endpoint. -/
theorem Law.of_turn {r : Role} (h : P.Law w) (ht : w.threads[t]? = some th)
    (hv : v.threads = w.threads) (hk : v.kernel = w.kernel) (hx : w.endpoints[P.id r]? = some x)
    (he : v.endpoints = w.endpoints.set (P.id r) x') (hf : P.Fit w.kernel th')
    (hfit : P.EndFit w.kernel r x') (hturn : Turns r t th th' x x')
    (hl : ∀ r', r' ≠ r → th'.task.locks ≠ some r' ∧ th.task.locks ≠ some r')
    (hb : ∀ d, P.due th' d + P.total w d = P.due th d + P.total v d) :
    P.Law (v.putThread t th') := by
  have hthreads : (v.putThread t th').threads = w.threads.set t th' ++ [] := by simp [hv]
  refine h.of_step ht hthreads ?_ (by simp [he])
    (fun r₂ y hy => ?_) ?_ (by simp) (fun d => ?_)
  · simpa [hk] using Extends.refl P.keys w.kernel
  · by_cases hr : r₂ = r
    · subst hr
      obtain rfl := Option.some.inj (hx.symm.trans hy)
      exact ⟨x', by simp [ends_set hx he], by simpa [hk] using hfit, hturn⟩
    · refine ⟨y, by simpa [ends_set hx he, hr] using hy,
        by simpa [hk] using h.end_ hy, fun u => ?_, fun hop => ?_, .inl rfl⟩
      · by_cases hut : u = t
        · subst hut
          rw [if_pos rfl, h.holder hy]
          constructor
          · rintro ⟨th₂, ht₂, hl₂⟩
            rw [← Option.some.inj (ht.symm.trans ht₂)] at hl₂
            exact absurd hl₂ (hl r₂ hr).2
          · exact fun hl' => absurd hl' (hl r₂ hr).1
        · rw [if_neg hut]
      · exact absurd (opens_locks hop) (hl r₂ hr).1
  · simpa [hk] using hf
  · have hbd := hb d
    simp only [putThread_kernel, hk, tally_nil, total_putThread]
    omega

structure Light (x x' : Endpoint) : Prop where
  settings : x'.settings = x.settings
  state : x'.state = x.state
  stopped : x'.stopped = x.stopped
  link : x'.link = x.link
  holder : x'.linkHolder = x.linkHolder
  owners : x'.owners = x.owners

theorem shifts_refl (g : Gauge) (k : Kernel) : Shifts P.keys g 0 k k :=
  ⟨fun _ => rfl, rfl, rfl, fun h => h, fun g' => by split <;> omega⟩

/-- What happens beside the threads, and to what the law does not speak of. -/
theorem Law.of_same {g : Gauge} (h : P.Law w) (hv : v.threads = w.threads)
    (hk : Shifts P.keys g 0 w.kernel v.kernel) (hp : v.endpoints.length = w.endpoints.length)
    (he : ∀ r x, w.endpoints[P.id r]? = some x → ∃ x', v.endpoints[P.id r]? = some x' ∧
      Light x x' ∧ ∀ d job, (x'.queue d).Keeps job → (x.queue d).Keeps job ∨
        P.Accepts r d job.data job.handler) : P.Law v := by
  have hend : ∀ {r : Role} {x' : Endpoint}, v.endpoints[P.id r]? = some x' →
      ∃ x, w.endpoints[P.id r]? = some x ∧ Light x x' := by
    intro r x' hx'
    obtain ⟨x, hx, -⟩ := h.ends r
    obtain ⟨y, hy, hlight, -⟩ := he r x hx
    obtain rfl := Option.some.inj (hx'.symm.trans hy)
    exact ⟨x, hx, hlight⟩
  refine ⟨hk.wide h.wide, hp.trans h.pair, fun r => ?_, fun ht => ?_, fun d => ?_,
    fun hx' t => ?_, fun hx' ht ho => ?_⟩
  · obtain ⟨x, hx, hfit⟩ := h.ends r
    obtain ⟨x', hx', hlight, hjobs⟩ := he r x hx
    refine ⟨x', hx', hlight.settings.trans hfit.settings, hlight.stopped.trans hfit.stopped,
      fun hc => hfit.open_ (hlight.state.symm.trans hc),
      fun l hl => (hfit.link l (hlight.link.symm.trans hl)).mono hk.extends, fun d job hj => ?_⟩
    rcases hjobs d job hj with hj | hj
    · exact hfit.jobs d job hj
    · exact hj
  · exact (h.fit (hv ▸ ht)).mono hk.extends
  · have hc : ∀ r, P.connected v r = P.connected w r ∧ P.owners v r = P.owners w r := by
      intro r
      obtain ⟨x, hx, -⟩ := h.ends r
      obtain ⟨x', hx', hlight, -⟩ := he r x hx
      rw [connected_eq hx', connected_eq hx, owners_eq hx', owners_eq hx, hlight.state,
        hlight.owners]
      exact ⟨rfl, rfl⟩
    have hstock := stock_shift hk d
    have htotal : P.total v d = P.total w d := by
      cases d <;> simp [total, hc, hk.setOf]
    have hl := h.ledger d
    rw [hv, htotal, ← hl]
    have hz : (if g.due = d then (0 : Int) else 0) = 0 := by split <;> rfl
    omega
  · obtain ⟨x, hx, hlight⟩ := hend hx'
    rw [hlight.holder, hv]
    exact h.holder hx t
  · obtain ⟨x, hx, hlight⟩ := hend hx'
    rw [hlight.state]
    exact h.opens hx (hv ▸ ht) ho

theorem Law.of_light {z : Endpoint} {r : Role} (h : P.Law w) (ht : w.threads[t]? = some th)
    (hv : v.threads = w.threads) (hk : v.kernel = w.kernel) (hx : w.endpoints[P.id r]? = some x)
    (he : v.endpoints = w.endpoints.set (P.id r) z) (hlight : Light x z)
    (hjobs : ∀ d job, (z.queue d).Keeps job → (x.queue d).Keeps job ∨
      P.Accepts r d job.data job.handler)
    (hf : P.Fit w.kernel th') (hl : th'.task.locks = none) (hl' : th.task.locks = none)
    (hb : ∀ d, P.due th' d = P.due th d) : P.Law (v.putThread t th') := by
  have hlaw : P.Law v := by
    refine h.of_same (g := .gate) hv (hk ▸ shifts_refl _ _) (by simp [he]) fun r' y hy => ?_
    by_cases hr : r' = r
    · subst hr
      obtain rfl := Option.some.inj (hx.symm.trans hy)
      exact ⟨z, by simp [ends_set hx he], hlight, hjobs⟩
    · exact ⟨y, by simp [ends_set hx he, hr, hy], ⟨rfl, rfl, rfl, rfl, rfl, rfl⟩,
        fun d job hj => .inl hj⟩
  refine hlaw.of_still (hv ▸ ht) rfl rfl (.refl _ _) rfl (hk ▸ hf) (hl.trans hl'.symm)
    (fun r ho => ?_) hb
  rw [opens_locks ho] at hl
  cases hl

theorem extends_modify (k : Kernel) (file : FileId) (f : File → File) :
    Extends P.keys k { k with files := k.files.modify file f } :=
  ⟨fun h => h, fun h => by rwa [FileTree.lookup_modify], fun h => h⟩

theorem due_sender (l : Link) (s : Sender) (cs : List Callback) (d : Due) :
    P.due ⟨.sender (P.party r) l .fetch, .sender (P.party r) l s, cs⟩ d =
      match d with
      | .token => s.token
      | .gate => s.gate
      | .attached => 0
      | .worker d r' => if d = .send ∧ r = r' then 1 else 0
      | .owner r' => if r = r' then 1 else 0 := by
  cases d <;> simp [due, Task.token, Task.gate, Task.attached, Task.works, Task.owes, Task.owner?,
    Thread.passed, Task.outcome?, id_inj]

theorem due_receiver (l : Link) (s : Receiver) (cs : List Callback) (d : Due) :
    P.due ⟨.receiver (P.party r) l .await, .receiver (P.party r) l s, cs⟩ d =
      match d with
      | .token => s.token
      | .gate => s.gate
      | .attached => 0
      | .worker d r' => if d = .receive ∧ r = r' then 1 else 0
      | .owner r' => if r = r' then 1 else 0 := by
  cases d <;> simp [due, Task.token, Task.gate, Task.attached, Task.works, Task.owes, Task.owner?,
    Thread.passed, Task.outcome?, id_inj]

theorem Law.sends {l : Link} {s s' : Sender} (h : P.Law w)
    (ht : w.threads[t]? = some ⟨.sender (P.party r) l .fetch, .sender (P.party r) l s, []⟩)
    (hl : P.Bound w.kernel r l) (hs : P.SenderFit r s) (hm : P.Sends r l w t s v s') :
    P.Law (v.putThread t ⟨.sender (P.party r) l .fetch, .sender (P.party r) l s', []⟩) := by
  have hfit : ∀ {a : Sender}, P.SenderFit r a →
      P.Fit w.kernel ⟨.sender (P.party r) l .fetch, .sender (P.party r) l a, []⟩ :=
    fun ha => .sender hl ha (by simp) (by simp)
  cases hm with
  | @dry x q hx hq =>
    refine h.of_light ht rfl rfl hx rfl ⟨rfl, rfl, rfl, rfl, rfl, rfl⟩ (fun d job hj => ?_)
      (hfit trivial) rfl rfl fun d => by simp only [due_sender]; cases d <;> rfl
    cases d with
    | send => exact .inl (WorkQueue.Keeps.of_next hq hj)
    | receive => exact .inl hj
  | @take x q slot job hx hq =>
    have hjob := (h.end_ hx).jobs .send job (WorkQueue.keeps_of_next hq)
    refine h.of_light (z := { x with sends := q }) ht rfl rfl hx rfl
      ⟨rfl, rfl, rfl, rfl, rfl, rfl⟩ (fun d job hj => ?_)
      (hfit hjob) rfl rfl fun d => by simp only [due_sender]; cases d <;> rfl
    cases d with
    | send => exact .inl (WorkQueue.Keeps.of_next hq hj)
    | receive => exact .inl hj
  | wake =>
    exact h.of_still ht rfl rfl (.refl _ _) rfl (hfit trivial) rfl (fun _ ho => ho) fun d => by
      simp only [due_sender]; cases d <;> rfl
  | takeVacancy hk =>
    exact h.of_shift ht rfl rfl hk (hfit hs) rfl (fun _ ho => ho) fun d => by
      simp only [due_sender]; cases d <;> rfl
  | takeGate hk =>
    exact h.of_shift ht rfl rfl hk (hfit hs) rfl (fun _ ho => ho) fun d => by
      simp only [due_sender]; cases d <;> rfl
  | @copy slot job =>
    have hk := extends_modify (P := P) w.kernel l.mailbox.file (Record.store · job.data.payload)
    exact h.of_still ht rfl rfl hk rfl ((hfit (a := .publish slot job .giveGate) hs).mono hk) rfl
      (fun _ ho => ho) fun d => by
      simp only [due_sender]; cases d <;> rfl
  | giveGate hk =>
    exact h.of_shift ht rfl rfl hk (hfit hs) rfl (fun _ ho => ho) fun d => by
      simp only [due_sender]; cases d <;> rfl
  | signal hk =>
    exact h.of_shift ht rfl rfl hk (hfit hs) rfl (fun _ ho => ho) fun d => by
      simp only [due_sender]; cases d <;> rfl
  | @recycle slot x hx =>
    refine h.of_light ht rfl rfl hx rfl ⟨rfl, rfl, rfl, rfl, rfl, rfl⟩ (fun d job hj => ?_)
      (hfit trivial) rfl rfl fun d => by simp only [due_sender]; cases d <;> rfl
    cases d with
    | send => exact .inl (WorkQueue.Keeps.of_complete hj)
    | receive => exact .inl hj

theorem collected_fit {slot : Nat} {job : Job} {c : Mailbox.Collected} (hc : c.Harmless)
    (hj : job.handler.peaceful = true) : ReceiverFit (Receiver.collected slot job c) := by
  simp only [Receiver.collected]
  split
  · exact hj
  · rename_i e he
    exact ⟨hj, hc e he⟩

theorem collected_due (slot : Nat) (job : Job) (c : Mailbox.Collected) :
    (Receiver.collected slot job c).token = 0 ∧ (Receiver.collected slot job c).gate = 0 := by
  simp only [Receiver.collected]
  split <;> exact ⟨rfl, rfl⟩

theorem Law.receives {l : Link} {s s' : Receiver} (h : P.Law w)
    (ht : w.threads[t]? = some ⟨.receiver (P.party r) l .await, .receiver (P.party r) l s, []⟩)
    (hl : P.Bound w.kernel r l) (hs : ReceiverFit s) (hm : P.Receives r l w t s v s') :
    P.Law (v.putThread t ⟨.receiver (P.party r) l .await, .receiver (P.party r) l s', []⟩) := by
  have hfit : ∀ {s' : Receiver}, ReceiverFit s' →
      P.Fit w.kernel ⟨.receiver (P.party r) l .await, .receiver (P.party r) l s', []⟩ :=
    fun hs' => .receiver hl hs' (by simp) (by simp)
  cases hm with
  | await hk =>
    exact h.of_shift ht rfl rfl hk (hfit trivial) rfl (fun _ ho => ho) fun d => by
      simp only [due_receiver]; cases d <;> rfl
  | @miss x q hx hq =>
    refine h.of_light (z := { x with receives := q }) ht rfl rfl hx rfl
      ⟨rfl, rfl, rfl, rfl, rfl, rfl⟩ (fun d job hj => ?_) (hfit trivial) rfl rfl fun d => by
        simp only [due_receiver]; cases d <;> rfl
    cases d with
    | send => exact .inl hj
    | receive => exact .inl (WorkQueue.Keeps.of_next hq hj)
  | @take x q slot job hx hq =>
    have hjob := (h.end_ hx).jobs .receive job (WorkQueue.keeps_of_next hq)
    refine h.of_light (z := { x with receives := q }) ht rfl rfl hx rfl
      ⟨rfl, rfl, rfl, rfl, rfl, rfl⟩ (fun d job hj => ?_) (hfit ⟨hjob.peaceful, trivial⟩) rfl rfl
      fun d => by simp only [due_receiver]; cases d <;> rfl
    cases d with
    | send => exact .inl hj
    | receive => exact .inl (WorkQueue.Keeps.of_next hq hj)
  | discard hc =>
    have hs' := (hc.fit hs).1 _ rfl
    cases hc with
    | takeGate hk | giveGate hk =>
      exact h.of_shift ht rfl rfl hk (hfit hs') rfl (fun _ ho => ho) fun d => by
        simp only [due_receiver]; cases d <;> rfl
    | copy =>
      exact h.of_still ht rfl rfl (.refl _ _) rfl (hfit hs') rfl (fun _ ho => ho) fun d => by
        simp only [due_receiver]; cases d <;> rfl
  | discarded hc =>
    cases hc with
    | giveVacancy hk =>
      exact h.of_shift ht rfl rfl hk (hfit trivial) rfl (fun _ ho => ho) fun d => by
        simp only [due_receiver]; cases d <;> rfl
  | collect hc =>
    have hs' := (hc.fit hs.2).1 _ rfl
    cases hc with
    | takeGate hk | giveGate hk =>
      exact h.of_shift ht rfl rfl hk (hfit ⟨hs.1, hs'⟩) rfl (fun _ ho => ho) fun d => by
        simp only [due_receiver]; cases d <;> rfl
    | copy =>
      exact h.of_still ht rfl rfl (.refl _ _) rfl (hfit ⟨hs.1, hs'⟩) rfl (fun _ ho => ho) fun d =>
        by simp only [due_receiver]; cases d <;> rfl
  | @collected slot job s v c hc =>
    have hc' := (hc.fit hs.2).2 _ rfl
    obtain ⟨htoken, hgate⟩ := collected_due slot job c
    cases hc with
    | giveVacancy hk =>
      exact h.of_shift ht rfl rfl hk (hfit (collected_fit hc' hs.1)) rfl
        (fun _ ho => ho) fun d => by
        simp only [due_receiver, htoken, hgate]; cases d <;> rfl
  | @recycle slot x hx =>
    refine h.of_light ht rfl rfl hx rfl ⟨rfl, rfl, rfl, rfl, rfl, rfl⟩ (fun d job hj => ?_)
      (hfit trivial) rfl rfl fun d => by simp only [due_receiver]; cases d <;> rfl
    cases d with
    | send => exact .inl hj
    | receive => exact .inl (WorkQueue.Keeps.of_complete hj)

end Pair

end QueuePair
