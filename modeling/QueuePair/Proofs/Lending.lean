import QueuePair.Proofs.Founding
import QueuePair.Proofs.Removed

namespace QueuePair

open World

def Link.handles (l : Link) : List SemaphoreHandle :=
  [l.mailbox.semaphores, l.signals.outbound, l.signals.inbound]

def Mailbox.Opening.handles : Mailbox.Opening → List SemaphoreHandle
  | .markVacant m => [m.semaphores]
  | _ => []

def Signals.Opening.handles : Signals.Opening → List SemaphoreHandle
  | .inbound out _ => [out]
  | _ => []

def Connecting.handles : Connecting → List SemaphoreHandle
  | .mailbox s => s.handles
  | .signals m s => m.semaphores :: s.handles
  | .storeConnected l | .spawnSender l | .spawnReceiver l | .attach l _ | .unlock (some l) _ =>
    l.handles
  | _ => []

def Connecting.link? : Connecting → Option Link
  | .storeConnected l | .spawnSender l | .spawnReceiver l | .attach l _ => some l
  | .unlock l _ => l
  | _ => none

def Connecting.opens : Connecting → Bool
  | .mailbox _ | .signals .. => true
  | _ => false

theorem Connecting.handles_eq {s : Connecting} (h : s.opens = false) :
    s.handles = s.link?.elim [] Link.handles := by
  cases s with
  | mailbox | signals => cases h
  | unlock l r => cases l <;> rfl
  | _ => rfl

namespace Kernel

variable {k k' : Kernel} {hs : List SemaphoreHandle}

def LendsAll (k : Kernel) (hs : List SemaphoreHandle) : Prop :=
  ∀ h ∈ hs, k.Lends h

theorem LendsAll.mono (h : k.LendsAll hs) (hk : k.Lasts k') : k'.LendsAll hs :=
  fun s hs => (h s hs).mono hk

theorem lendsAll_nil : k.LendsAll [] :=
  fun _ h => by cases h

theorem LendsAll.cons {h : SemaphoreHandle} (hl : k.Lends h) (hs' : k.LendsAll hs) :
    k.LendsAll (h :: hs) :=
  List.forall_mem_cons.mpr ⟨hl, hs'⟩

end Kernel

namespace World

variable {w v : World} {t : ThreadId} {e : EndpointId} {p : Party} {allowed : Input → Prop}

theorem opening_lends {s : Mailbox.Opening} {path : Path} {capacity : Nat} {key : Key}
    {f : Flow Mailbox.Opening (Except Error Mailbox)} (h : w.After t (s.next path capacity key) v f)
    (hs : w.kernel.LendsAll s.handles) (hk : w.kernel.Lasts v.kernel) :
    v.kernel.LendsAll (f.elim Mailbox.Opening.handles
      fun r => r.toOption.elim [] fun m => [m.semaphores]) := by
  cases s with
  | map s =>
    obtain ⟨s', -, rfl⟩ | ⟨r, -, rfl⟩ := h.of_through
    · exact Kernel.lendsAll_nil
    · cases r <;> exact Kernel.lendsAll_nil
  | semaphores m s =>
    obtain ⟨s', -, rfl⟩ | ⟨r, hr, rfl⟩ := h.of_through
    · exact Kernel.lendsAll_nil
    · cases r with
      | error => exact Kernel.lendsAll_nil
      | ok g =>
        have hg : v.kernel.LendsAll [g] := .cons (OpenSet.lends hr) Kernel.lendsAll_nil
        cases hc : g.created <;> simp only [hc] <;> exact hg
  | unlink e =>
    obtain ⟨a, -, rfl⟩ := h
    exact Kernel.lendsAll_nil
  | markVacant m =>
    obtain ⟨a, -, rfl⟩ := h
    cases a with
    | error => exact Kernel.lendsAll_nil
    | ok => exact hs.mono hk

theorem signalsOpening_lends {s : Signals.Opening} {keys : Keys} {role : Role}
    {f : Flow Signals.Opening (Except Error Signals)} (h : w.After t (s.next keys role) v f)
    (hs : w.kernel.LendsAll s.handles) (hk : w.kernel.Lasts v.kernel) :
    v.kernel.LendsAll (f.elim Signals.Opening.handles
      fun r => r.toOption.elim [] fun g => [g.outbound, g.inbound]) := by
  cases s with
  | outbound s =>
    obtain ⟨s', -, rfl⟩ | ⟨r, hr, rfl⟩ := h.of_through
    · exact Kernel.lendsAll_nil
    · cases r with
      | error => exact Kernel.lendsAll_nil
      | ok out => exact .cons (OpenSet.lends hr) Kernel.lendsAll_nil
  | inbound out s =>
    obtain ⟨s', -, rfl⟩ | ⟨r, hr, rfl⟩ := h.of_through
    · exact hs.mono hk
    · cases r with
      | error => cases out.created <;> exact Kernel.lendsAll_nil
      | ok inn =>
        exact .cons (hs.mono hk out List.mem_cons_self)
          (.cons (OpenSet.lends hr) Kernel.lendsAll_nil)
  | discard out e =>
    obtain ⟨a, -, rfl⟩ := h
    exact Kernel.lendsAll_nil

/-- What holds at the start of the opening, and of every other place according to its link, is kept
where nothing is being opened. -/
theorem After.keeps_link {P : Connecting → Prop} {s : Connecting}
    {f : Flow Connecting (Except Error Unit)} (h : w.After t (s.next p) v f) (hs : s.opens = false)
    (hstart : P (.mailbox .start))
    (hlink : ∀ s' : Connecting, s'.opens = false → (∀ l ∈ s'.link?, s.link? = some l) → P s') :
    f.elim P fun _ => True := by
  have hbare : ∀ s' : Connecting, s'.opens = false → s'.link? = none → P s' := fun s' ho hl =>
    hlink s' ho fun l hl' => by cases hl.symm.trans hl'
  have hfrom : ∀ s' : Connecting, s'.opens = false → s'.link? = s.link? → P s' := fun s' ho hl =>
    hlink s' ho fun l hl' => hl.symm.trans hl'
  refine h.into ?_
  cases s with
  | mailbox | signals => cases hs
  | check busy =>
    intro state
    dsimp only
    split
    · exact hstart
    · exact hbare _ rfl rfl
  | removeMailbox | removeLink =>
    refine Move.into_map.mpr (Move.into_of_forall fun f => ?_)
    cases f <;> exact hbare _ rfl rfl
  | attach l s =>
    refine Move.into_map.mpr (Move.into_of_forall fun f => ?_)
    cases f with
    | more => exact hfrom _ rfl rfl
    | done r =>
      cases r with
      | ok => exact hfrom _ rfl rfl
      | error => exact hbare _ rfl rfl
  | takeWorkers e =>
    intro ts
    cases ts <;> exact hbare _ rfl rfl
  | join e i rest =>
    intro _
    cases rest <;> exact hbare _ rfl rfl
  | storeConnected | spawnSender | spawnReceiver => exact fun _ => hfrom _ rfl rfl
  | unlock => exact fun _ => trivial
  | _ => exact fun _ => hbare _ rfl rfl

/-- A connecting thread keeps the handles of the sets that it has opened. -/
theorem connecting_lends {s : Connecting} {f : Flow Connecting (Except Error Unit)}
    (h : w.After t (s.next p) v f) (hs : w.kernel.LendsAll s.handles)
    (hk : w.kernel.Lasts v.kernel) :
    f.elim (fun s' => v.kernel.LendsAll s'.handles) fun _ => True := by
  cases ho : s.opens with
  | false =>
    refine h.keeps_link ho Kernel.lendsAll_nil fun s' ho' hlink => ?_
    rw [Connecting.handles_eq ho']
    rw [Connecting.handles_eq ho] at hs
    cases hl : s'.link? with
    | none => exact Kernel.lendsAll_nil
    | some l =>
      rw [hlink l hl] at hs
      exact hs.mono hk
  | true =>
    cases s with
    | mailbox s =>
      obtain ⟨s', hs', rfl⟩ | ⟨r, hr, rfl⟩ := h.of_through
      · exact opening_lends hs' hs hk
      · have hopened := opening_lends hr hs hk
        cases r with
        | error => exact Kernel.lendsAll_nil
        | ok m => exact hopened
    | signals m s =>
      have hm : v.kernel.Lends m.semaphores := (hs _ List.mem_cons_self).mono hk
      have hs' : w.kernel.LendsAll s.handles := fun g hg => hs g (List.mem_cons_of_mem _ hg)
      obtain ⟨s', hnext, rfl⟩ | ⟨r, hr, rfl⟩ := h.of_through
      · exact .cons hm (signalsOpening_lends hnext hs' hk)
      · have hopened := signalsOpening_lends hr hs' hk
        cases r with
        | error => exact Kernel.lendsAll_nil
        | ok pair => exact .cons hm hopened
    | _ => cases ho

structure Lent (w : World) (e : EndpointId) : Prop where
  placed : ∀ {t : ThreadId} {s : Connecting}, w.place e t = some s → w.kernel.LendsAll s.handles
  linked : ∀ {x : Endpoint} {l : Link}, w.endpoints[e]? = some x → x.link = some l →
    w.kernel.LendsAll l.handles

theorem Lent.atom (h : w.Lent e) (hk : w.Keeps e) (ha : Atom allowed w v) : v.Lent e := by
  obtain ⟨hplaced, hlinked⟩ := Atom.onward (P := fun s => v.kernel.LendsAll s.handles)
    (Q := fun l => v.kernel.LendsAll l.handles) hk ha (fun hs => (h.placed hs).mono ha.lasts)
    (fun hx hl => (h.linked hx hl).mono ha.lasts) Kernel.lendsAll_nil id fun _ _ hs hafter hu =>
      hu ▸ connecting_lends hafter (h.placed hs) (hu ▸ ha.lasts)
  exact ⟨hplaced, hlinked⟩

theorem Run.lent (hr : Run allowed empty w) (e : EndpointId) : w.Lent e :=
  (hr.induction (m := fun u => u.Lent e ∧ u.Keeps e) (queued_of_new rfl)
    ⟨⟨fun h => by simp [place, empty] at h, fun h => by simp [empty] at h⟩, empty_keeps e⟩
    fun h ha => ⟨h.1.atom h.2 ha, h.2.atom ha⟩).1.1

end World

end QueuePair
