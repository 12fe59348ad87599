import QueuePair.Proofs.Gauge
import QueuePair.Proofs.Sharing

namespace QueuePair

def Kernel.counter (k : Kernel) (g : SetId) (i : Nat) : Nat :=
  ((k.live? g).map (·.values.getD i 0)).getD 0

theorem Kernel.counter_eq {k : Kernel} {g : SetId} {s : SemaphoreSet} (h : k.live? g = some s)
    (i : Nat) : k.counter g i = s.values.getD i 0 := by
  simp [counter, h]

namespace World

def overflows (w : World) (t : ThreadId) : Bool :=
  (w.threads[t]?.bind Thread.change?).any fun c =>
    (w.kernel.live? c.1).any fun s => attempt s.values c.2 = .overflows

/-- The worlds that are reached by inputs of which each is allowed where it comes. -/
inductive Course (allowed : World → Input → Prop) (w : World) : World → Prop
  | refl : Course allowed w w
  | step {u v : World} (i : Input) : Course allowed w u → allowed u i → u.apply i = some v →
      Course allowed w v

def admits (allowed : World → Input → Prop) [∀ w, DecidablePred (allowed w)] (w : World) :
    List Input → Bool
  | [] => true
  | i :: is => decide (allowed w i) && ((w.apply i).getD w).admits allowed is

theorem Course.play {allowed : World → Input → Prop} [∀ w, DecidablePred (allowed w)] {w u : World}
    {is : List Input} (hr : Course allowed w u) (h : u.admits allowed is = true) :
    Course allowed w (u.play is) := by
  induction is generalizing u with
  | nil => exact hr
  | cons i is ih =>
    simp only [admits, Bool.and_eq_true, decide_eq_true_eq] at h
    cases ha : u.apply i with
    | none => simpa [World.play, ha] using ih hr (by simpa [ha] using h.2)
    | some v => simpa [World.play, ha] using ih (.step i hr h.1 ha) (by simpa [ha] using h.2)

/-- A live mailbox with a closed gate, to which nobody is attached, and nobody who does
anything. -/
structure Fresh (w : World) (g : SetId) : Prop where
  set : ∃ s n, w.kernel.live? g = some s ∧ s.values = [0, n, 0] ∧ n ≤ semaphoreMax
  threads : w.threads = []
  waiters : ∀ s ∈ w.kernel.sets, s.waiters = []

end World

/-- Threads share a mailbox, and no semaphore overflows. -/
def Input.Shares (g : SetId) (w : World) : Input → Prop
  | .run t => w.overflows t = false
  | .expire _ | .release _ => True
  | .request op => op.Shares g
  | _ => False

instance (g : SetId) (w : World) : DecidablePred (Input.Shares g w)
  | .run t => inferInstanceAs (Decidable (w.overflows t = false))
  | .request op => inferInstanceAs (Decidable (op.Shares g))
  | .expire _ | .release _ => .isTrue trivial
  | .make _ | .operate .. | .drop _ | .register .. => .isFalse id

namespace World

variable {g : SetId} {w v : World} {t : ThreadId} {th th' : Thread}

/-- The gate and the count of a shared mailbox agree with its threads: what lies in the gate and
what threads have taken from it is what threads have raised it by. A rendezvous that comes too late
has taken nothing. -/
structure Metered (g : SetId) (w : World) : Prop where
  set : ∃ s, w.kernel.live? g = some s ∧ s.values.length = 3 ∧ Bounded s.values
  shares : ∀ {t : ThreadId} {th : Thread}, w.threads[t]? = some th → th.Shares g
  gate : w.kernel.counter g Mailbox.gate + tally Thread.taken w.threads =
    tally Thread.raised w.threads
  count : w.kernel.counter g Mailbox.attached = tally Thread.attached w.threads

theorem Metered.replace {s : SemaphoreSet} (h : Metered g w) (ht : w.threads[t]? = some th)
    (hs : v.kernel.live? g = some s) (hl : s.values.length = 3) (hb : Bounded s.values)
    (hv : v.threads = w.threads.set t th') (hf : th'.Shares g)
    (hgate : v.kernel.counter g Mailbox.gate + th'.taken + th.raised =
      w.kernel.counter g Mailbox.gate + th.taken + th'.raised)
    (hcount : v.kernel.counter g Mailbox.attached + th.attached =
      w.kernel.counter g Mailbox.attached + th'.attached) : Metered g v := by
  refine ⟨⟨s, hs, hl, hb⟩, fun {u thu} hu => ?_, ?_, ?_⟩
  · rw [hv] at hu
    by_cases hut : t = u
    · subst hut
      rw [List.getElem?_set_self (List.getElem?_eq_some_iff.mp ht).1] at hu
      exact Option.some.inj hu ▸ hf
    · rw [List.getElem?_set_ne hut] at hu
      exact h.shares hu
  · have htaken := tally_set (f := Thread.taken) ht th'
    have hraised := tally_set (f := Thread.raised) ht th'
    have hold := h.gate
    rw [hv]
    omega
  · have hattached := tally_set (f := Thread.attached) ht th'
    have hold := h.count
    rw [hv]
    omega

theorem Metered.even (h : Metered g w) (ht : w.threads[t]? = some th)
    (hk : v.kernel.sets = w.kernel.sets) (hv : v.threads = w.threads.set t th')
    (hf : th'.Shares g) (he : th.Even th') : Metered g v := by
  obtain ⟨s, hs, hl, hb⟩ := h.set
  have hlive : v.kernel.live? g = some s := by simpa only [Kernel.live?, hk] using hs
  refine h.replace ht hlive hl hb hv hf ?_ ?_
  · rw [Kernel.counter_eq hlive, Kernel.counter_eq hs, he.taken, he.raised]
  · rw [Kernel.counter_eq hlive, Kernel.counter_eq hs, he.attached]

theorem Metered.grant {s : SemaphoreSet} {changes : List Change} {d : Option Instant}
    {next : Except Error Unit → Thread} {values : List Nat} (h : Metered g w)
    (ht : w.threads[t]? = some th) (hd : th.Trades g changes d next)
    (hs : w.kernel.live? g = some s) (ha : attempt s.values changes = .done values) :
    Metered g (({ w with kernel := w.kernel.putSet g { s with values } }).putThread t
      (next (.ok ()))) := by
  obtain ⟨r, hr, hl, hb⟩ := h.set
  obtain rfl := Option.some.inj (hs.symm.trans hr)
  obtain ⟨hlen, hadded⟩ := attempt_spec ha
  have hlive : (w.kernel.putSet g { s with values }).live? g = some { s with values } :=
    Kernel.live?_putSet_self hs (Kernel.live?_eq_some.mp hs).2
  have hgate := hadded Mailbox.gate (by rw [hl]; decide)
  have hcount := hadded Mailbox.attached (by rw [hl]; decide)
  have htrade := hd.gate
  have htrade' := hd.count
  refine h.replace ht (s := { s with values }) hlive (hlen.trans hl) (hb.attempt ha) rfl
    hd.granted ?_ ?_
  · have hv := Kernel.counter_eq hlive Mailbox.gate
    rw [Kernel.counter_eq hs]
    simp only [putThread, hv]
    omega
  · have hv := Kernel.counter_eq hlive Mailbox.attached
    rw [Kernel.counter_eq hs]
    simp only [putThread, hv]
    omega

theorem Metered.alike (h : Metered g w) (ha : w.Alike v) : Metered g v := by
  obtain ⟨s, hs, hl, hb⟩ := h.set
  have hget : v.kernel.sets[g]?.map (fun s => { s with waiters := [] }) =
      w.kernel.sets[g]?.map (fun s => { s with waiters := [] }) := by
    simpa using congrArg (·[g]?) ha.sets
  obtain ⟨hset, hr⟩ := Kernel.live?_eq_some.mp hs
  rw [hset, Option.map_some, Option.map_eq_some_iff] at hget
  obtain ⟨r, hr', he⟩ := hget
  obtain ⟨-, hvalues, -, hremoved⟩ := (SemaphoreSet.mk.injEq ..).mp he
  have hlive : v.kernel.live? g = some r := Kernel.live?_eq_some.mpr ⟨hr', hremoved.trans hr⟩
  refine ⟨⟨r, hlive, hvalues ▸ hl, hvalues ▸ hb⟩, fun hu => h.shares (ha.threads ▸ hu), ?_, ?_⟩
  · rw [ha.threads, ← h.gate, Kernel.counter_eq hlive, Kernel.counter_eq hs, hvalues]
  · rw [ha.threads, ← h.count, Kernel.counter_eq hlive, Kernel.counter_eq hs, hvalues]

theorem not_overflows {set : SetId} {s : SemaphoreSet} {changes : List Change} {d : Option Instant}
    {next : Except Error Unit → Thread} (ho : w.overflows t = false) (ht : w.threads[t]? = some th)
    (hnext : th.next = .perform (.system (.change set changes d)) next)
    (hs : w.kernel.live? set = some s) : attempt s.values changes ≠ .overflows := by
  intro ha
  simp [overflows, ht, Thread.change?, hnext, hs, ha] at ho

/-- A step of a thread that does not overflow. -/
theorem Metered.step (h : Metered g w) (hq : w.Queued) (ho : w.overflows t = false)
    (hstep : w.step t = some v) : Metered g v := by
  obtain ⟨th, ht, hh, hcase⟩ := step_cases hstep
  have hdue := (h.shares ht).due
  rcases hcase with ⟨α, p, next, hnext, hp | ⟨u, a, hp, rfl⟩⟩ | ⟨p, i, after, hnext, rfl⟩ |
    ⟨hnext, rfl⟩
  · cases hdue with
    | @change changes d next hn hd =>
      cases hnext.symm.trans hn
      simp only [perform, Kernel.call] at hp
      rcases change_cases (t := t) w.kernel g changes with
        ⟨hs, he⟩ | ⟨s, hs, ⟨values, ha, he⟩ | ⟨ha, he⟩ | ⟨ha, he⟩⟩
      · simp [he] at hp
      · simp [he] at hp
      · simp [he] at hp
      · simp only [he] at hp
        cases hp
        exact h.alike (alike_enqueue hs)
    | clock hn | store hn | load hn =>
      cases hnext.symm.trans hn
      simp [perform, Kernel.call, Kernel.withFiles] at hp
    | panic hn | halt hn => cases hnext.symm.trans hn
  · cases hdue with
    | @change changes d next hn hd =>
      cases hnext.symm.trans hn
      simp only [perform, Kernel.call] at hp
      rcases change_cases (t := t) w.kernel g changes with
        ⟨hs, he⟩ | ⟨s, hs, ⟨values, ha, he⟩ | ⟨ha, he⟩ | ⟨ha, he⟩⟩
      · obtain ⟨s, hs', -⟩ := h.set
        cases hs.symm.trans hs'
      · simp only [he] at hp
        cases hp
        refine assign_induction hq ht hh hnext hs ha ?_ ?_ (fun hm => hm.alike) h
        · intro x u thu changes d next s values hm hu hn hs ha
          exact hm.grant hu ((hm.shares hu).trades hn).2 hs ha
        · intro x q thq d next r hqm hm hu hn hr ha
          obtain ⟨r', hr', -, hb⟩ := hm.set
          obtain rfl := Option.some.inj (hr.symm.trans hr')
          have hblocks := hq.blocks (Kernel.live?_eq_some.mp hs).1 hqm
          exact absurd ha (((hm.shares hu).trades hn).2.waits ⟨_, hblocks⟩ _ hb)
      · exact absurd ha (not_overflows ho ht hnext hs)
      · simp [he] at hp
    | clock hn hf =>
      cases hnext.symm.trans hn
      cases hp
      exact h.even ht rfl rfl (hf _).1 (hf _).2
    | store hn hf =>
      cases hnext.symm.trans hn
      cases hp
      exact h.even ht rfl rfl (hf _).1 (hf _).2
    | load hn hf =>
      cases hnext.symm.trans hn
      cases hp
      exact h.even ht rfl rfl (hf _).1 (hf _).2
    | panic hn | halt hn => cases hnext.symm.trans hn
  · cases hdue with
    | change hn | clock hn | store hn | load hn | panic hn | halt hn => cases hnext.symm.trans hn
  · cases hdue with
    | change hn | clock hn | store hn | load hn | halt hn => cases hnext.symm.trans hn
    | panic hn howner hf he =>
      have hpanic : w.panic t th = w.putThread t th.unwound := by
        simp only [panic_eq, abandon, howner]
      rw [hpanic]
      exact h.even ht rfl rfl hf he

theorem Metered.expire (h : Metered g w) (hs : w.expire t = some v) : Metered g v := by
  unfold World.expire at hs
  split at hs
  · rename_i deadline th' hd hth'
    cases hs
    obtain ⟨th, ht, hx⟩ := Option.bind_eq_some_iff.mp hth'
    have heven : th'.Shares g ∧ th.Even th' := by
      cases (h.shares ht).due with
      | @change changes d next hn hf =>
        simp only [Thread.expire?, hn, Option.map_eq_some_iff] at hx
        obtain ⟨a, ha, rfl⟩ := hx
        cases d with
        | none => cases ha
        | some d =>
          cases ha
          exact hf.late rfl
      | clock hn | store hn | load hn | panic hn | halt hn =>
        simp [Thread.expire?, hn, Primitive.expired?] at hx
    exact (h.even (v := w.putThread t th') ht rfl rfl heven.1 heven.2).alike (alike_forget _)
  · cases hs

theorem Metered.start (h : Metered g w)
    (hn : th.Shares g ∧ th.taken = 0 ∧ th.raised = 0 ∧ th.attached = 0) :
    Metered g (w.spawn th).1 := by
  obtain ⟨hf, htaken, hraised, hattached⟩ := hn
  refine ⟨h.set, fun {u thu} hu => ?_, ?_, ?_⟩
  · simp only [World.spawn, List.getElem?_append] at hu
    split at hu
    · exact h.shares hu
    · have hm := List.mem_of_getElem? hu
      rw [List.mem_singleton] at hm
      exact hm ▸ hf
  · simp only [World.spawn, tally_append, htaken, hraised]
    exact h.gate
  · simp only [World.spawn, tally_append, hattached]
    exact h.count

theorem started {op : ObjectOperation} (h : op.Shares g) :
    (Thread.ofTask (.ofStarted none (Call.ofObject op))).Shares g ∧
      (Thread.ofTask (.ofStarted none (Call.ofObject op))).taken = 0 ∧
      (Thread.ofTask (.ofStarted none (Call.ofObject op))).raised = 0 ∧
      (Thread.ofTask (.ofStarted none (Call.ofObject op))).attached = 0 := by
  cases op with
  | raiseGate m =>
    obtain rfl : m.semaphores.set = g := h
    exact ⟨.raising, rfl, rfl, rfl⟩
  | attach m => exact ⟨.attaching h, rfl, rfl, rfl⟩
  | rendezvous m restore span =>
    cases restore <;> exact ⟨.rendezvous h trivial, rfl, rfl, rfl⟩
  | consume m into | discard m => exact ⟨.collecting h, rfl, rfl, rfl⟩
  | publish m payload =>
    simp only [Call.ofObject, Mailbox.Publishing.start]
    split
    · exact ⟨.ended (by rintro _ _ _ ⟨⟩), rfl, rfl, rfl⟩
    · exact ⟨.publishing h, rfl, rfl, rfl⟩
  | _ => exact h.elim

theorem Metered.apply {i : Input} (h : Metered g w) (hq : w.Queued) (hi : i.Shares g w)
    (ha : w.apply i = some v) : Metered g v := by
  cases i with
  | run t => exact h.step hq hi ha
  | expire t => exact h.expire ha
  | release id =>
    cases ha
    exact ⟨h.set, h.shares, h.gate, h.count⟩
  | request op =>
    cases ha
    exact h.start (started hi)
  | make | operate | drop | register => exact hi.elim

theorem Fresh.queued (h : w.Fresh g) : w.Queued where
  waits := fun hs hm => by simp [h.waiters _ (List.mem_of_getElem? hs)] at hm
  nodup := fun hs => by simp [h.waiters _ (List.mem_of_getElem? hs)]
  blocks := fun hs hm => by simp [h.waiters _ (List.mem_of_getElem? hs)] at hm
  gone := fun hs _ => h.waiters _ (List.mem_of_getElem? hs)

theorem Fresh.metered (h : w.Fresh g) : Metered g w := by
  obtain ⟨s, n, hs, hv, hn⟩ := h.set
  refine ⟨⟨s, hs, by simp [hv], ?_⟩, fun hu => by simp [h.threads] at hu, ?_, ?_⟩
  · intro i
    rw [hv]
    rcases i with _ | _ | _ | i <;> simp [hn]
  · simp [Kernel.counter_eq hs, hv, h.threads, Mailbox.gate]
  · simp [Kernel.counter_eq hs, hv, h.threads, Mailbox.attached]

theorem Fresh.course (h : w.Fresh g) (hr : Course (Input.Shares g) w v) :
    Metered g v ∧ v.Queued := by
  induction hr with
  | refl => exact ⟨h.metered, h.queued⟩
  | step i _ hi ha ih =>
    have hqueued := (@apply_spec (fun _ => True) _ _ _ ih.2 trivial ha).2
    exact ⟨ih.1.apply ih.2 hi ha, hqueued⟩

/-- In every state of a shared mailbox, the value of its gate, the threads inside a copy, the
threads that have the gate in a rendezvous, and those that took it there for good are together as
many as the raises that succeeded. A rendezvous that comes back too late counts nowhere. So two
attached sides and one rendezvous that took the last raise leave a free gate, whatever was tried
before. -/
theorem gate_accounting (hf : w.Fresh g) (hr : Course (Input.Shares g) w v) :
    v.kernel.counter g Mailbox.gate + tally Thread.copying v.threads +
        tally Thread.restoring v.threads + tally Thread.kept v.threads =
      tally Thread.raised v.threads ∧
    v.kernel.counter g Mailbox.attached = tally Thread.attached v.threads ∧
    (∀ th ∈ v.threads, ∀ m restore span, th.origin = .call none
    (.rendezvous m restore span .clock) →
      ∀ out, th.outcome? = some out →
        (out = .returned (.ok .unit) ∨ out = .returned (.error .connectTimeout) ∨
          out = .panicked) ∧
        (out ≠ .returned (.ok .unit) → th.taken = 0 ∧ th.raised = 0)) ∧
    (tally Thread.attached v.threads = 2 → tally Thread.raised v.threads = 2 →
      tally Thread.kept v.threads = 1 → tally Thread.copying v.threads = 0 →
      tally Thread.restoring v.threads = 0 → v.kernel.counter g Mailbox.gate = 1) := by
  obtain ⟨hm, -⟩ := hf.course hr
  have hgate := hm.gate
  rw [Thread.tally_taken] at hgate
  refine ⟨by omega, hm.count, fun th hth m restore span ho out hout => ?_, by omega⟩
  obtain ⟨t, ht⟩ := List.mem_iff_getElem?.mp hth
  exact (hm.shares ht).rendezvous_over ho hout

def handle : Mailbox := ⟨⟨0, Mailbox.semaphoreCount, 1, true⟩, 0, ⟨"/m"⟩, 16⟩

def vacant : World :=
  { empty with kernel := ⟨[⟨1, [0, 1, 0], [], false⟩], .empty, .standard⟩ }

/-- Two sides attach. The first is too early with its rendezvous and the second too late, and then
they meet; at the end one message is published. -/
def meeting : List Input :=
  [.request (.attach handle), .run 0, .run 0,
    .request (.rendezvous handle true (.ofMillis 10)), .run 1, .run 1, .expire 1,
    .request (.attach handle), .run 2, .run 2,
    .request (.rendezvous handle false (.ofMillis 10)), .run 3, .run 3, .run 3, .expire 3,
    .request (.rendezvous handle true (.ofMillis 10)), .run 4, .run 4, .run 4, .run 4,
    .request (.rendezvous handle false (.ofMillis 10)), .run 5, .run 5, .run 5, .run 4,
    .request (.publish handle [1, 2]), .run 6, .run 6, .run 6, .run 6]

theorem vacant_fresh : vacant.Fresh 0 where
  set := ⟨_, 1, rfl, rfl, by decide⟩
  threads := rfl
  waiters := by simp [vacant]

theorem gate_after_meeting : (vacant.play meeting).kernel.counter 0 Mailbox.gate = 1 := by
  have hr : Course (Input.Shares 0) vacant (vacant.play meeting) :=
    Course.refl.play (by decide +kernel)
  exact (gate_accounting vacant_fresh hr).2.2.2 (by decide +kernel) (by decide +kernel)
    (by decide +kernel) (by decide +kernel) (by decide +kernel)

end World

end QueuePair
