import QueuePair.Proofs.Pair.Growth

namespace QueuePair

open World

def Event.isCopy : Event → Bool
  | .stored .. | .loaded .. => true
  | .noted .. => false

namespace Mailbox

def Rendezvous.met : Rendezvous → Bool
  | .takeGate _ | .awaitZero _ | .giveBack | .undo _ | .takeLast _ => true
  | _ => false

end Mailbox

namespace Task

def copied : Task → Bool
  | .sender _ _ (.publish _ _ .giveGate) => true
  | .receiver _ _ (.discard (.giveGate _)) => true
  | .receiver _ _ (.collect _ _ (.giveGate _)) => true
  | _ => false

def unchecked : Task → Bool
  | .call _ (.finalizing _ .check) => true
  | _ => false

def met : Task → Bool
  | .call _ (.finalizing _ (.rendezvous _ s)) => s.met
  | _ => false

def failed (task : Task) : Bool :=
  task.outcome?.any fun o => !o.isOk

def passed (task : Task) : Bool :=
  task.outcome?.any Outcome.isOk

def crossed : Task → Bool
  | .call _ (.finalizing _ (.rendezvous _ .giveBack)) => true
  | task => task.passed

end Task

namespace World

def Copied (w : World) : Prop :=
  ∃ e ∈ w.history, e.isCopy = true

end World

namespace Pair

variable {P : Pair} {w v u : World} {t : ThreadId} {th th' : Thread} {r : Role} {x x' : Endpoint}

/-- What can have brought the gate to zero under a waiting server. -/
inductive Crossed (w : World) : Prop
  -- the client took its raise
  | passed {t : ThreadId} {th : Thread} : w.threads[t]? = some th → th.passed = 1 → Crossed w
  -- a worker took the gate for a copy
  | copies {t : ThreadId} {th : Thread} : w.threads[t]? = some th → th.task.copies = true →
      Crossed w
  | copied : w.Copied → Crossed w
  -- two threads finalized the server at once
  | twice {t u : ThreadId} {th th' : Thread} : t ≠ u → w.threads[t]? = some th →
      w.threads[u]? = some th' → th.origin.finalizes = some .server →
      th'.origin.finalizes = some .server → Crossed w

structure Sound (P : Pair) (w : World) (th : Thread) : Prop where
  connected : ∀ r, th.origin.finalizes = some r →
    th.task.unchecked = true ∨ th.task.failed = true ∨ 1 ≤ P.connected w r
  met : th.task.met = true → 2 ≤ w.kernel.gauge P.keys .attached
  copied : th.task.copied = true → w.Copied
  crossed : th.origin.finalizes = some .server → th.task.crossed = true → Crossed w

structure Grows (P : Pair) (w v : World) : Prop where
  connected : ∀ r, P.connected w r ≤ P.connected v r
  attached : w.kernel.gauge P.keys .attached ≤ v.kernel.gauge P.keys .attached
  copied : w.Copied → v.Copied
  threads : ∀ {t : ThreadId} {th : Thread}, w.threads[t]? = some th →
    ∃ th', v.threads[t]? = some th' ∧ th'.origin = th.origin ∧ (th.passed = 1 → th'.passed = 1) ∧
      (th.task.copies = true → th'.task.copies = true ∨ v.Copied)

theorem Grows.crossed (h : P.Grows w v) (hc : Crossed w) : Crossed v := by
  cases hc with
  | passed ht hp =>
    obtain ⟨th', ht', -, hp', -⟩ := h.threads ht
    exact .passed ht' (hp' hp)
  | copies ht hc =>
    obtain ⟨th', ht', -, -, hc'⟩ := h.threads ht
    rcases hc' hc with hc' | hc'
    · exact .copies ht' hc'
    · exact .copied hc'
  | copied hc => exact .copied (h.copied hc)
  | twice hne ht hu hot hou =>
    obtain ⟨th', ht', ho, -⟩ := h.threads ht
    obtain ⟨uh', hu', ho', -⟩ := h.threads hu
    exact .twice hne ht' hu' (ho ▸ hot) (ho' ▸ hou)

theorem Sound.mono (h : P.Sound w th) (hg : P.Grows w v) : P.Sound v th where
  connected := fun r ho => by
    rcases h.connected r ho with hu | hf | hc
    · exact .inl hu
    · exact .inr (.inl hf)
    · exact .inr (.inr (Nat.le_trans hc (hg.connected r)))
  met := fun hm => Nat.le_trans (h.met hm) hg.attached
  copied := fun hc => hg.copied (h.copied hc)
  crossed := fun ho hc => hg.crossed (h.crossed ho hc)

theorem sound_of_origin (ho : th.origin.finalizes = none) (hm : th.task.met = false)
    (hc : th.task.copied = false) : P.Sound w th where
  connected := fun r h => by rw [ho] at h; cases h
  met := fun h => by rw [hm] at h; cases h
  copied := fun h => by rw [hc] at h; cases h
  crossed := fun h => by rw [ho] at h; cases h

theorem Rises.copied (h : P.Rises w v) (hc : w.Copied) : v.Copied := by
  obtain ⟨e, he, hcopy⟩ := hc
  exact ⟨e, h.history.subset he, hcopy⟩

theorem Rises.thread (h : P.Rises w v) (ht : w.threads[t]? = some th) :
    v.threads[t]? = some th := by
  obtain ⟨news, hv, -⟩ := h.threads
  rw [hv, List.getElem?_append_left (List.getElem?_eq_some_iff.mp ht).1, ht]

theorem Rises.grows (h : P.Rises w v) (ht : w.threads[t]? = some th)
    (ho : th'.origin = th.origin) (hp : th.passed = 1 → th'.passed = 1)
    (hc : th.task.copies = true → th'.task.copies = true ∨ v.Copied) :
    P.Grows w (v.putThread t th') where
  connected := h.connected
  attached := h.attached
  copied := h.copied
  threads := by
    intro u thu hu
    have hvu := h.thread hu
    by_cases hut : u = t
    · subst hut
      obtain rfl := Option.some.inj (hu.symm.trans ht)
      exact ⟨th', by simp [putThread, (List.getElem?_eq_some_iff.mp hvu).1], ho, hp, hc⟩
    · exact ⟨thu, by simpa [putThread, Ne.symm hut] using hvu, rfl, fun h => h, fun h => .inl h⟩

theorem Rises.grows_all (h : P.Rises w v) : P.Grows w v where
  connected := h.connected
  attached := h.attached
  copied := h.copied
  threads := fun ht => ⟨_, h.thread ht, rfl, fun h => h, fun h => .inl h⟩

theorem Connecting.gate_le (s : Connecting) : s.gate ≤ s.attached := by
  cases s with
  | attach l s => cases s <;> exact of_decide_eq_true rfl
  | _ => exact of_decide_eq_true rfl

/-- With both sides attached, a gate at zero is held by the server and by somebody else. -/
theorem Law.crossed {l : Link} {d : Instant} (h : P.Law w)
    (ht : w.threads[t]? = some ⟨.call (some (P.id .server)) (.finalizing (P.party .server) .check),
      .call (some (P.id .server)) (.finalizing (P.party .server) (.rendezvous l (.awaitZero d))),
      []⟩) (ha : 2 ≤ w.kernel.gauge P.keys .attached) (hz : w.kernel.gauge P.keys .gate = 0) :
    Crossed w := by
  have hs := connected_le (P := P) w .server
  have hc := connected_le (P := P) w .client
  have hattached := h.ledger .attached
  have hgate := h.ledger .gate
  simp only [stock, total] at hattached hgate
  have hlt : P.due ⟨.call (some (P.id .server)) (.finalizing (P.party .server) .check),
      .call (some (P.id .server)) (.finalizing (P.party .server) (.rendezvous l (.awaitZero d))),
      []⟩ .gate < tally (P.due · .gate) w.threads := by
    rw [due_finalizing]
    simp only [Finalizing.gate, Mailbox.Rendezvous.gate]
    omega
  obtain ⟨u, thu, hne, hu, hpos⟩ := exists_of_lt_tally (f := (P.due · .gate)) ht hlt
  have hnot : thu.task.attached = 0 := by
    have hle := le_tally (f := (P.due · .attached)) (List.mem_of_getElem? hu)
    simp only [due] at hle hattached
    omega
  have hfit := h.fit hu
  cases hfit with
  | @sender r l s cs hl hs _ _ =>
    refine .copies hu ?_
    rw [due_sender] at hpos
    exact decide_eq_true (Nat.le_antisymm s.gate_le hpos)
  | @receiver r l s cs hl hs _ _ =>
    refine .copies hu ?_
    rw [due_receiver] at hpos
    exact decide_eq_true (Nat.le_antisymm s.gate_le hpos)
  | @connecting r s hs =>
    rw [due_connecting] at hpos
    have hle := Connecting.gate_le s
    simp only [Task.attached] at hnot
    simp only at hpos
    omega
  | @finalizing r s hs =>
    rw [due_finalizing] at hpos
    have hserver : r = .server := by
      cases s with
      | rendezvous l s =>
        cases r with
        | server => rfl
        | client =>
          cases s with
          | awaitZero | giveBack | undo => exact hs.2.elim
          | _ => cases hpos
      | _ => cases hpos
    subst hserver
    exact .twice hne hu ht (congrArg some (P.role_settings _)) (congrArg some (P.role_settings _))
  | @call o r c ho hc =>
    rw [Pair.due, Thread.passed, ho] at hpos
    cases c with
    | posting | waiting | readingState | holding => simp [Task.gate] at hpos
    | _ => exact hc.elim
  | leaving | ended =>
    refine .passed hu (Nat.le_antisymm ?_ ?_)
    · unfold Thread.passed
      split <;> omega
    · exact Nat.succ_le_of_lt (by simpa [Pair.due, Task.gate] using hpos)

theorem Moves.keeps (hm : P.Moves w t th v th') : th'.origin = th.origin ∧
    (th.passed = 1 → th'.passed = 1) ∧
    (th.task.copies = true → th'.task.copies = true ∨ th.task.copied = true) := by
  cases hm with
  | sender _ _ hs =>
    refine ⟨rfl, (by rintro ⟨⟩), fun hc => ?_⟩
    cases hs with
    | copy => exact .inl rfl
    | giveGate => exact .inr rfl
    | _ => cases hc
  | receiver _ _ hs =>
    refine ⟨rfl, (by rintro ⟨⟩), fun hc => ?_⟩
    cases hs with
    | discard h | collect h =>
      cases h with
      | copy => exact .inl rfl
      | giveGate => exact .inr rfl
      | _ => cases hc
    | discarded h | collected h => cases h; cases hc
    | _ => cases hc
  | connect | connected | finalize | finalized | call | called =>
    exact ⟨rfl, fun h => absurd h (by simp [Thread.passed, Task.outcome?]), (by rintro ⟨⟩)⟩
  | callback | ended | acted => exact ⟨rfl, fun h => h, fun h => .inl h⟩
  | release => exact ⟨rfl, fun h => h, (by rintro ⟨⟩)⟩

theorem Sound.congr (h : P.Sound w th) (ho : th'.origin = th.origin) (ht : th'.task = th.task) :
    P.Sound w th' :=
  ⟨ho ▸ ht ▸ h.connected, ht ▸ h.met, ht ▸ h.copied, ho ▸ ht ▸ h.crossed⟩

theorem connected_of_state (hx : w.endpoints[P.id r]? = some x) (hs : x.state = .connected) :
    1 ≤ P.connected w r := by
  simp [connected_eq hx, hs]

theorem Sound.finishes {s s' : Finalizing} (hl : P.Law w)
    (ht : w.threads[t]? = some ⟨.call (some (P.id r)) (.finalizing (P.party r) .check),
      .call (some (P.id r)) (.finalizing (P.party r) s), []⟩)
    (hs : P.Sound w ⟨.call (some (P.id r)) (.finalizing (P.party r) .check),
      .call (some (P.id r)) (.finalizing (P.party r) s), []⟩)
    (hfit : P.FinalizingFit w.kernel r s) (hf : P.Finishes r w s v (.more s')) :
    P.Sound w ⟨.call (some (P.id r)) (.finalizing (P.party r) .check),
      .call (some (P.id r)) (.finalizing (P.party r) s'), []⟩ := by
  have hr : (P.party r).settings.role = r := P.role_settings r
  have hc : s ≠ .check → 1 ≤ P.connected w r := fun hne => by
    rcases hs.connected r (congrArg some hr) with hu | hfail | hc
    · cases s <;> first | exact absurd rfl hne | cases hu
    · cases hfail
    · exact hc
  refine ⟨fun r' ho => ?_, fun hm => ?_, nofun, fun ho hx => ?_⟩
  · obtain rfl : r = r' := hr.symm.trans (Option.some.inj ho)
    cases hf with
    | ready hx hst => exact .inr (.inr (connected_of_state hx hst))
    | linked | unlinked | meet => exact .inr (.inr (hc nofun))
  · cases hf with
    | ready | linked | unlinked => cases hm
    | meet h =>
      cases h with
      | both ha => exact ha
      | clock | noClock => cases hm
      | takeGate | zero | zeroLate => exact hs.met rfl
  · cases hf with
    | ready | linked | unlinked => cases hx
    | meet h =>
      cases h with
      | both => cases r <;> cases hx
      | zero hz =>
        cases r with
        | server => exact hl.crossed ht (hs.met rfl) hz
        | client => exact hfit.2.elim
      | clock | noClock | takeGate | zeroLate => cases hx

theorem Sound.finished {s : Finalizing} {e : Except Error Unit}
    (hs : P.Sound w ⟨.call (some (P.id r)) (.finalizing (P.party r) .check),
      .call (some (P.id r)) (.finalizing (P.party r) s), []⟩)
    (hfit : P.FinalizingFit w.kernel r s) (hf : P.Finishes r w s v (.done e)) :
    P.Sound w ⟨.call (some (P.id r)) (.finalizing (P.party r) .check),
      .leaving (P.id r) .release (.returned (Call.unit e)), []⟩ := by
  have hr : (P.party r).settings.role = r := P.role_settings r
  refine ⟨fun r' ho => ?_, nofun, nofun, fun ho hx => ?_⟩
  · obtain rfl : r = r' := hr.symm.trans (Option.some.inj ho)
    cases e with
    | error e => exact .inr (.inl rfl)
    | ok a =>
      rcases hs.connected r ho with hu | hfail | hc
      · cases hf with
        | met h => cases hu
      · cases hfail
      · exact .inr (.inr hc)
  · cases e with
    | error e => cases hx
    | ok a =>
      cases hf with
      | met h =>
        cases h with
        | giveBack => exact hs.crossed ho rfl
        | takeLast hclient =>
          rw [hclient] at ho
          cases (P.role_settings .client).symm.trans (Option.some.inj ho)

theorem opened_sound (e : Except Error Unit) : P.Sound w
    ⟨.call (some (P.id r)) (.connecting (P.party r) .lock), P.opened r e, []⟩ := by
  cases e with
  | error e => exact sound_of_origin rfl rfl rfl
  | ok a => cases r <;> exact sound_of_origin rfl rfl rfl

theorem Sends.copied {l : Link} {s s' : Sender} (h : P.Sends r l w t s v s')
    (hc : (Task.sender (P.party r) l s').copied = true) : v.Copied := by
  cases h with
  | copy => exact ⟨_, List.mem_cons_self, rfl⟩
  | _ => cases hc

theorem Receives.copied {l : Link} {s s' : Receiver} (h : P.Receives r l w t s v s')
    (hc : (Task.receiver (P.party r) l s').copied = true) : v.Copied := by
  cases h with
  | discard h | collect h =>
    cases h with
    | copy => exact ⟨_, List.mem_cons_self, rfl⟩
    | _ => cases hc
  | @collected slot job s v c h =>
    cases hr : c.result with
    | _ => simp [Receiver.collected, hr, Task.copied] at hc
  | _ => cases hc

theorem Sound.moves (hl : P.Law w) (ht : w.threads[t]? = some th) (hs : P.Sound w th)
    (hm : P.Moves w t th v th') (hg : P.Grows w (v.putThread t th')) :
    P.Sound (v.putThread t th') th' := by
  cases hm with
  | sender _ _ h => exact ⟨nofun, nofun, h.copied, nofun⟩
  | receiver _ _ h => exact ⟨nofun, nofun, h.copied, nofun⟩
  | connect => exact sound_of_origin rfl rfl rfl
  | connected => exact opened_sound _
  | finalize hfit h => exact (hs.finishes hl ht hfit h).mono hg
  | finalized hfit h => exact (hs.finished hfit h).mono hg
  | @call o r c c' v ho hc h =>
    cases h with
    | post | wait => exact sound_of_origin ho rfl rfl
  | called ho => exact sound_of_origin ho rfl rfl
  | callback | ended | acted => exact (hs.mono hg).congr rfl rfl
  | release => exact Sound.mono ⟨hs.connected, nofun, nofun, hs.crossed⟩ hg

theorem sound_fresh {k : Kernel} (hf : P.Fit k th) (h : th.task = th.origin) : P.Sound w th := by
  cases hf with
  | sender | receiver | connecting => cases h; exact sound_of_origin rfl rfl rfl
  | finalizing => cases h; exact ⟨fun _ _ => .inl rfl, nofun, nofun, nofun⟩
  | @call o r c ho hc =>
    cases c with
    | posting | waiting | readingState | holding => exact sound_of_origin ho rfl rfl
    | _ => exact hc.elim
  | @leaving o r out =>
    change Task.leaving _ _ _ = o at h
    subst h
    exact sound_of_origin rfl rfl rfl
  | @ended o out =>
    change Task.ended _ = o at h
    subst h
    exact sound_of_origin rfl rfl rfl

theorem sound_put (hl : P.Law (v.putThread t th'))
    (hs : ∀ {t : ThreadId} {th : Thread}, w.threads[t]? = some th → P.Sound w th)
    (hr : P.Rises w v) (hg : P.Grows w (v.putThread t th'))
    (hth : P.Sound (v.putThread t th') th') {u : ThreadId} {thu : Thread}
    (hu : (v.putThread t th').threads[u]? = some thu) : P.Sound (v.putThread t th') thu := by
  obtain ⟨news, hv, hnews⟩ := hr.threads
  have hu' := hu
  simp only [putThread, List.getElem?_set] at hu
  split at hu
  · split at hu
    · exact Option.some.inj hu ▸ hth
    · cases hu
  · rw [hv] at hu
    by_cases hlt : u < w.threads.length
    · rw [List.getElem?_append_left hlt] at hu
      exact (hs hu).mono hg
    · rw [List.getElem?_append_right (Nat.le_of_not_lt hlt)] at hu
      exact sound_fresh (hl.fit hu') (hnews _ (List.mem_of_getElem? hu))

theorem sound_all (hl : P.Law v)
    (hs : ∀ {t : ThreadId} {th : Thread}, w.threads[t]? = some th → P.Sound w th)
    (hr : P.Rises w v) {u : ThreadId} {thu : Thread} (hu : v.threads[u]? = some thu) :
    P.Sound v thu := by
  obtain ⟨news, hv, hnews⟩ := hr.threads
  have hu' := hu
  rw [hv] at hu
  by_cases hlt : u < w.threads.length
  · rw [List.getElem?_append_left hlt] at hu
    exact (hs hu).mono hr.grows_all
  · rw [List.getElem?_append_right (Nat.le_of_not_lt hlt)] at hu
    exact sound_fresh (hl.fit hu') (hnews _ (List.mem_of_getElem? hu))

theorem Law.rises_resolve (h : P.Law w) (d : Direction) (job : Job) (e : Option Error) :
    P.Rises w (w.resolve (P.party r) d job e).1 := by
  obtain ⟨serial, data, handler⟩ := job
  cases handler with
  | callbacks id onDone onError => exact (Rises.refl w).note _ _
  | caller =>
    obtain ⟨a, ha⟩ := resolve_caller (w := w) (P.party r) d serial data e
    obtain ⟨x, hx, -⟩ := h.ends r
    have hput : (w.note (P.id r) (.resolved d ⟨serial, data, .caller⟩ e)).modifyEndpoint (P.id r)
        (·.putReply serial a) = (w.putEndpoint (P.id r) (x.putReply serial a)).note (P.id r)
          (.resolved d ⟨serial, data, .caller⟩ e) := by
      simp only [modifyEndpoint, World.note, World.record, modify_of_getElem? hx]
      rfl
    rw [ha, party_id, hput]
    exact .note (.of_put (y := x.putReply serial a) hx fun h => h) _ _

theorem Returns.keeps {k : Kernel} {p : Party} {i : Invocation} (hr : P.Returns k th p i th')
    (c : Option Callback) : (th'.push c).origin = th.origin ∧ th.origin.finalizes = none ∧
      th.passed = 0 ∧ th.task.copies = false ∧ (th'.push c).task.met = false ∧
      (th'.push c).task.copied = false := by
  cases hr <;> exact ⟨rfl, rfl, rfl, rfl, rfl, rfl⟩

theorem Panics.keeps {k : Kernel} (hp : P.Panics k th) :
    th.passed = 0 ∧ th.task.copies = false ∧ P.Sound w th.unwound := by
  obtain ⟨r, ho⟩ := hp.owner
  have hgate := hp.due .gate
  have htask : th.unwound.task = .leaving (P.id r) .release .panicked := by
    simp [Thread.unwound, ho, Task.finish]
  have hzero : th.unwound.task.gate + th.unwound.passed = 0 := by
    simp [htask, Task.gate, Thread.passed, Task.outcome?, Outcome.isOk]
  simp only [Pair.due, hzero] at hgate
  refine ⟨by omega, ?_, ⟨fun _ _ => .inr (.inl (by rw [htask]; rfl)), ?_, ?_, ?_⟩⟩
  · cases htask' : th.task with
    | sender p l s | receiver p l s =>
      simp only [htask', Task.gate] at hgate
      exact decide_eq_false (by omega)
    | _ => rfl
  · rw [htask]
    rintro ⟨⟩
  · rw [htask]
    rintro ⟨⟩
  · rw [htask]
    rintro _ ⟨⟩

/-- Every smallest change keeps what is known of the threads. -/
theorem Law.sound (hl : P.Law w)
    (hs : ∀ {t : ThreadId} {th : Thread}, w.threads[t]? = some th → P.Sound w th)
    (ha : P.Acts w v) {u : ThreadId} {thu : Thread} (hu : v.threads[u]? = some thu) :
    P.Sound v thu := by
  have hlv := hl.of_acts ha
  cases ha with
  | @move t th th' v ht hm =>
    obtain ⟨ho, hp, hc⟩ := hm.keeps
    have hr := hm.rises hl
    have hg := hr.grows ht ho hp fun h =>
      (hc h).imp_right fun h => hr.copied ((hs ht).copied h)
    exact sound_put hlv hs hr hg ((hs ht).moves hl ht hm hg) hu
  | @back t th p i after ht hret =>
    obtain ⟨ho, hnone, hp, hc, hm, hcopied⟩ := hret.keeps (w.invoke p i).2
    have hr : P.Rises w (w.invoke p i).1 := by
      cases hret <;> exact hl.rises_resolve _ _ _
    have hg := hr.grows ht ho (fun h => by omega) fun h => absurd h (by simp [hc])
    exact sound_put hlv hs hr hg (sound_of_origin (ho ▸ hnone) hm hcopied) hu
  | @panic t th ht hp =>
    obtain ⟨hpassed, hc, hsound⟩ := hp.keeps (w := w)
    have hg : P.Grows w (w.putThread t th.unwound) := (Rises.refl w).grows ht rfl
      (fun h => by omega) fun h => absurd h (by simp [hc])
    exact sound_put hlv hs (.refl w) hg (hsound.mono hg) hu
  | @operate r x op hx hp =>
    exact sound_all hlv hs (.of_ends ⟨_, rfl, by simp [operation, Thread.ofTask]⟩ rfl rfl hx rfl
      fun h => h) hu
  | register hx => exact sound_all hlv hs (.of_put hx fun h => h) hu
  | release => exact sound_all hlv hs ⟨no_news _, fun _ => Nat.le_refl _, Nat.le_refl _,
      List.suffix_rfl⟩ hu
  | settle ha =>
    refine sound_all hlv hs ⟨ha.threads ▸ no_news _, fun r => ?_, ?_, ?_⟩ hu
    · simp [Pair.connected, ha.endpoints]
    · have hk := (Kernel.shifts_of_waiters (K := P.keys) (g := .gate) ha.files ha.limits
        ha.sets).gauge
        .attached
      simp only [reduceCtorEq, if_false] at hk
      omega
    · exact ha.history ▸ List.suffix_rfl

theorem Begins.sound (hb : P.Begins w) (hr : Run Input.Peaceful w v) {t : ThreadId} {th : Thread}
    (ht : v.threads[t]? = some th) : P.Sound v th := by
  have hbase : ∀ {t : ThreadId} {th : Thread}, w.threads[t]? = some th → P.Sound w th := by
    simp [hb.threads]
  exact (hb.induction (motive := fun u => ∀ {t : ThreadId} {th : Thread},
    u.threads[t]? = some th → P.Sound u th) hr hbase fun hl ha hs => hl.sound hs ha).2.2 ht

end Pair

end QueuePair
