import QueuePair.Proofs.Lending
import QueuePair.Proofs.Settlement
import QueuePair.Proofs.Tenure

namespace QueuePair

namespace Kernel

variable {k k' : Kernel} {K : Keys} {m : Mailbox} {signals : List (Role × SemaphoreHandle)}

/-- As long as the set of a mailbox is there, the keys of the pair lead to its file and to the
signals that were opened along with it. -/
structure Meets (k : Kernel) (K : Keys) (m : Mailbox) (signals : List (Role × SemaphoreHandle)) :
    Prop where
  key : ∃ s, k.sets[m.semaphores.set]? = some s ∧ s.key = K.mailbox
  file : k.live? m.semaphores.set ≠ none → k.fileOf? K = some m.file
  signal : k.live? m.semaphores.set ≠ none → ∀ g ∈ signals,
    k.setOf? (K.outbound g.1) = some g.2.set

theorem live?_before {set : SetId} {s : SemaphoreSet} (hk : k.Lasts k') (hs : k.sets[set]? = some s)
    (hl : k'.live? set ≠ none) : k.live? set ≠ none := by
  obtain ⟨s', hs', -, -, hgone⟩ := hk set s hs
  intro hnone
  refine hl (Option.filter_eq_none_iff.mpr fun r hr => ?_)
  obtain rfl := Option.some.inj (hs'.symm.trans hr)
  cases hr : s.removed with
  | false => cases hnone.symm.trans (live?_eq_some.mpr ⟨hs, hr⟩)
  | true => simp [hgone hr]

theorem setOf?_ne_none {set : SetId} {s : SemaphoreSet} (hs : k.live? set = some s)
    (hz : s.key ≠ 0) : k.setOf? s.key ≠ none := by
  obtain ⟨hset, hl⟩ := live?_eq_some.mp hs
  rw [setOf?, if_neg hz, ne_eq, List.findIdx?_eq_none_iff]
  intro h
  simpa [hl] using h s (List.mem_of_getElem? hset)

theorem Meets.mono (h : k.Meets K m signals) (hz : K.mailbox ≠ 0) (hk : k.Lasts k')
    (hr : Retains K k k' ∨ k.setOf? K.mailbox = none) : k'.Meets K m signals := by
  obtain ⟨s, hs, hkey⟩ := h.key
  obtain ⟨s', hs', hkey', -, -⟩ := hk _ s hs
  have hlive : k'.live? m.semaphores.set ≠ none →
      Retains K k k' ∧ k.live? m.semaphores.set ≠ none := fun hl => by
    have hbefore := live?_before hk hs hl
    refine ⟨hr.resolve_right fun hnone => ?_, hbefore⟩
    obtain ⟨r, hr⟩ := Option.ne_none_iff_exists'.mp hbefore
    obtain rfl := Option.some.inj (hs.symm.trans (live?_eq_some.mp hr).1)
    exact setOf?_ne_none hr (hkey ▸ hz) (hkey ▸ hnone)
  refine ⟨⟨s', hs', hkey'.trans hkey⟩, fun hl => ?_, fun hl g hg => ?_⟩
  · obtain ⟨hretains, hbefore⟩ := hlive hl
    exact hretains.file _ (h.file hbefore)
  · obtain ⟨hretains, hbefore⟩ := hlive hl
    exact hretains.signal _ _ (h.signal hbefore g hg)

theorem Meets.open_signal {r : Role} {h : SemaphoreHandle} (hm : k.Meets K m signals)
    (hs : k.setOf? (K.outbound r) = some h.set) : k.Meets K m (signals ++ [(r, h)]) :=
  ⟨hm.key, hm.file, fun hl g hg => by
    rcases List.mem_append.mp hg with hg | hg
    · exact hm.signal hl g hg
    · obtain rfl := List.mem_singleton.mp hg
      exact hs⟩

end Kernel

namespace Link

def signal (l : Link) (own side : Role) : SemaphoreHandle :=
  if side = own then l.signals.outbound else l.signals.inbound

def raised (l : Link) (own : Role) : List (Role × SemaphoreHandle) :=
  [(own, l.signals.outbound), (own.peer, l.signals.inbound)]

theorem signal_mem (l : Link) (own side : Role) : (side, l.signal own side) ∈ l.raised own := by
  cases own <;> cases side <;> simp [signal, raised, Role.peer]

def Meets (k : Kernel) (K : Keys) (r : Role) (l : Link) : Prop :=
  k.Meets K l.mailbox (l.raised r)

end Link

def Mailbox.Opening.Meets (k : Kernel) (K : Keys) : Mailbox.Opening → Prop
  | .map (.measure file) | .map (.extend file) | .map (.map file) => k.fileOf? K = some file
  | .semaphores m _ => k.fileOf? K = some m.file
  | .markVacant m => k.Meets K m []
  | _ => True

def Signals.Opening.Meets (k : Kernel) (K : Keys) (r : Role) (m : Mailbox) :
    Signals.Opening → Prop
  | .outbound _ => k.Meets K m []
  | .inbound out _ => k.Meets K m [(r, out)]
  | .discard .. => True

def Connecting.Meets (k : Kernel) (K : Keys) (r : Role) : Connecting → Prop
  | .mailbox s => s.Meets k K
  | .signals m s => s.Meets k K r m
  | .storeConnected l | .spawnSender l | .spawnReceiver l | .attach l _ | .unlock (some l) _ =>
    l.Meets k K r
  | _ => True

theorem Connecting.Meets.of_link? {k : Kernel} {K : Keys} {r : Role} {s : Connecting} {l : Link}
    (h : s.Meets k K r) (hl : s.link? = some l) : l.Meets k K r := by
  cases s with
  | storeConnected | spawnSender | spawnReceiver | attach =>
    cases hl
    exact h
  | unlock l' r =>
    obtain rfl : l' = some l := hl
    exact h
  | _ => cases hl

theorem Connecting.meets_of_link? {k : Kernel} {K : Keys} {r : Role} {s : Connecting}
    (ho : s.opens = false) (h : ∀ l ∈ s.link?, l.Meets k K r) : s.Meets k K r := by
  cases s with
  | mailbox | signals => cases ho
  | storeConnected l | spawnSender l | spawnReceiver l | attach l s => exact h l rfl
  | unlock l r =>
    cases l with
    | none => trivial
    | some l => exact h l rfl
  | _ => trivial

theorem Connecting.Meets.mono {k k' : Kernel} {K : Keys} {r : Role} {s : Connecting}
    (h : s.Meets k K r) (hz : K.mailbox ≠ 0) (hk : k.Lasts k')
    (hr : Kernel.Retains K k k' ∨ k.setOf? K.mailbox = none ∧ s.between = false) :
    s.Meets k' K r := by
  have hopen : ∀ {m : Mailbox} {signals}, k.Meets K m signals → k'.Meets K m signals := fun hm =>
    hm.mono hz hk (hr.imp_right And.left)
  -- of the places between the file and the mailbox
  have hfile : ∀ {file : FileId}, s.between = true → k.fileOf? K = some file →
      k'.fileOf? K = some file := fun hb hf => by
    obtain hr | ⟨-, hno⟩ := hr
    · exact hr.file _ hf
    · cases hb.symm.trans hno
  cases ho : s.opens with
  | false => exact meets_of_link? ho fun l hl => hopen (h.of_link? hl)
  | true =>
    cases s with
    | mailbox s =>
      cases s with
      | map s =>
        cases s with
        | openFile => trivial
        | measure file | extend file | map file => exact hfile rfl h
      | semaphores m s => exact hfile rfl h
      | unlink => trivial
      | markVacant m => exact hopen h
    | signals m s =>
      cases s with
      | outbound | inbound => exact hopen h
      | discard => trivial
    | _ => cases ho

namespace World

variable {w v : World} {t : ThreadId} {e : EndpointId} {s : Settings} {p : Party} {l : Link}
  {K : Keys} {r : Role} {key : Key} {count : Nat} {allowed : Input → Prop}

/-- Whoever opens a set has the one that is found under the key. -/
theorem opened_set {s : OpenSet} {h : SemaphoreHandle}
    (ha : w.After t (s.next key count) v (.done (.ok h))) (hz : key ≠ 0) :
    v.kernel.setOf? key = some h.set := by
  cases s with
  | create =>
    obtain ⟨a, ⟨k, ends, hk, rfl⟩, he⟩ := ha
    cases a with
    | error e => cases e <;> cases he
    | ok set =>
      cases he
      have hmade : w.kernel.createSet key count = (k, .ok set) :=
        Prod.ext (congrArg Called.kernel hk) (Option.some.inj (congrArg Called.answer hk))
      unfold Kernel.createSet at hmade
      split at hmade
      · cases hmade
      · split at hmade
        · cases hmade
        · rename_i hnone
          split at hmade <;> cases hmade
          have hadd := Kernel.setOf?_addSet (k := w.kernel) (s := .create key count) rfl key
          rw [Option.not_isSome_iff_eq_none.mp hnone, if_pos ⟨hz, rfl⟩] at hadd
          exact hadd
  | join =>
    obtain ⟨a, ⟨k, ends, hk, rfl⟩, he⟩ := ha
    cases a with
    | error e => cases he
    | ok set =>
      cases he
      obtain ⟨rfl, -, hjoined⟩ := (Called.mk.injEq ..).mp hk
      have hjoined := Option.some.inj hjoined
      unfold Kernel.joinSet at hjoined
      split at hjoined
      · cases hjoined
      · rename_i set' hset
        split at hjoined <;> cases hjoined
        exact hset

/-- Mapping the file of a pair leads to the file under its path. -/
theorem mapping_meets {s : MapFile} {size : Nat} {f : Flow MapFile (Except SystemError Mapping)}
    (h : w.After t (s.next K.path size true) v f)
    (hs : (Mailbox.Opening.map s).Meets v.kernel K) :
    f.elim (fun s => (Mailbox.Opening.map s).Meets v.kernel K) fun r =>
      ∀ m, r = .ok m → v.kernel.fileOf? K = some m.file := by
  cases s with
  | openFile =>
    obtain ⟨a, ⟨k, ends, hk, rfl⟩, rfl⟩ := h
    cases a with
    | error e => exact fun m hm => by cases hm
    | ok file =>
      have ho : w.kernel.files.openFile K.path true = (k.files, .ok file) :=
        Prod.ext (congrArg (·.kernel.files) hk) (Option.some.inj (congrArg Called.answer hk))
      exact Kernel.fileOf?_eq_some.mpr (FileTree.lookup_of_openFile ho)
  | measure file =>
    obtain ⟨length, -, rfl⟩ := h
    by_cases hlt : length < size
    · simp only [hlt, if_true]
      exact hs
    · simp only [hlt, if_false]
      exact hs
  | extend file =>
    obtain ⟨a, -, rfl⟩ := h
    cases a with
    | ok => exact hs
    | error => exact fun m hm => by cases hm
  | map file =>
    obtain ⟨a, -, rfl⟩ := h
    cases a with
    | ok =>
      rintro m hm
      cases hm
      exact hs
    | error => exact fun m hm => by cases hm

/-- Opening the mailbox of a pair leads to a mailbox with the file under its path. -/
theorem opening_meets {s : Mailbox.Opening} {capacity : Nat}
    {f : Flow Mailbox.Opening (Except Error Mailbox)}
    (h : w.After t (s.next K.path capacity K.mailbox) v f) (hz : K.mailbox ≠ 0)
    (hs : s.Meets v.kernel K) :
    f.elim (Mailbox.Opening.Meets v.kernel K) fun r =>
      ∀ m, r = .ok m → v.kernel.Meets K m [] := by
  cases s with
  | map s =>
    obtain ⟨s', hs', rfl⟩ | ⟨r, hr, rfl⟩ := h.of_through
    · exact mapping_meets hs' hs
    · have hmapped := mapping_meets hr hs
      cases r with
      | error => exact fun m hm => by cases hm
      | ok m => exact hmapped m rfl
  | semaphores m s =>
    obtain ⟨s', -, rfl⟩ | ⟨r, hr, rfl⟩ := h.of_through
    · exact hs
    · cases r with
      | error => trivial
      | ok g =>
        obtain ⟨s, hset, hkey, -⟩ := Kernel.setOf?_spec (opened_set hr hz)
        have hmeets : v.kernel.Meets K ⟨g, m.file, K.path, capacity⟩ [] :=
          ⟨⟨s, hset, hkey⟩, fun _ => hs, fun _ _ hg => by cases hg⟩
        cases hc : g.created <;> simp only [hc]
        · rintro m' hm'
          cases hm'
          exact hmeets
        · exact hmeets
  | unlink e =>
    obtain ⟨a, -, rfl⟩ := h
    exact fun m hm => by cases hm
  | markVacant m =>
    obtain ⟨a, -, rfl⟩ := h
    cases a with
    | error => exact fun m hm => by cases hm
    | ok =>
      rintro m' hm'
      cases hm'
      exact hs

/-- Opening the signals of a pair leads to those under its keys. -/
theorem signalsOpening_meets {s : Signals.Opening} {m : Mailbox}
    {f : Flow Signals.Opening (Except Error Signals)} (h : w.After t (s.next K r) v f)
    (hz : ∀ r, K.outbound r ≠ 0) (hs : s.Meets v.kernel K r m) :
    f.elim (Signals.Opening.Meets v.kernel K r m) fun a =>
      ∀ g, a = .ok g → Link.Meets v.kernel K r ⟨m, g⟩ := by
  cases s with
  | outbound s =>
    obtain ⟨s', -, rfl⟩ | ⟨a, ha, rfl⟩ := h.of_through
    · exact hs
    · cases a with
      | error => exact fun g hg => by cases hg
      | ok out => exact hs.open_signal (opened_set ha (hz r))
  | inbound out s =>
    obtain ⟨s', -, rfl⟩ | ⟨a, ha, rfl⟩ := h.of_through
    · exact hs
    · cases a with
      | error =>
        cases out.created
        · exact fun g hg => by cases hg
        · trivial
      | ok inn =>
        rintro g hg
        cases hg
        exact hs.open_signal (opened_set ha (hz r.peer))
  | discard out e =>
    obtain ⟨a, -, rfl⟩ := h
    exact fun g hg => by cases hg

theorem connecting_meets {s : Connecting} {f : Flow Connecting (Except Error Unit)}
    (h : w.After t (s.next p) v f) (hz : p.keys.mailbox ≠ 0) (hz' : ∀ r, p.keys.outbound r ≠ 0)
    (hs : s.Meets v.kernel p.keys p.settings.role) :
    f.elim (Connecting.Meets v.kernel p.keys p.settings.role) fun _ => True := by
  cases ho : s.opens with
  | false =>
    exact h.keeps_link ho trivial fun s' ho' hlink =>
      Connecting.meets_of_link? ho' fun l hl => hs.of_link? (hlink l hl)
  | true =>
    cases s with
    | mailbox s =>
      obtain ⟨s', hs', rfl⟩ | ⟨a, ha, rfl⟩ := h.of_through
      · exact opening_meets hs' hz hs
      · have hopened := opening_meets ha hz hs
        cases a with
        | error => trivial
        | ok m => exact hopened m rfl
    | signals m s =>
      obtain ⟨s', hs', rfl⟩ | ⟨a, ha, rfl⟩ := h.of_through
      · exact signalsOpening_meets hs' hz' hs
      · have hopened := signalsOpening_meets ha hz' hs
        cases a with
        | error => trivial
        | ok pair => exact hopened pair rfl
    | _ => cases ho

/-- What an endpoint has opened belongs together, whether it is on the way or in place: whoever
connects finds under the keys of the namespace the file and the signals of the mailbox whose set it
finds. -/
structure Coherent (w : World) (e : EndpointId) (s : Settings) : Prop where
  placed : ∀ {t : ThreadId} {c : Connecting}, w.place e t = some c →
    c.Meets w.kernel s.keys s.role
  linked : ∀ {x : Endpoint} {l : Link}, w.endpoints[e]? = some x → x.link = some l →
    l.Meets w.kernel s.keys s.role

theorem Spares.of_place {c : Connecting} (h : Spares s.keys w v) (hf : w.Furnished e s)
    (hp : w.place e t = some c) : Kernel.Retains s.keys w.kernel v.kernel ∨
      w.kernel.setOf? s.keys.mailbox = none ∧ c.between = false := by
  obtain hr | hv := h
  · exact .inl hr
  · obtain ⟨th, hm, hc⟩ := hf.of_place hp
    exact .inr ⟨hv.mailbox, hv.between th hm _ hc rfl⟩

theorem Coherent.atom (h : w.Coherent e s) (hf : w.Furnished e s) (hk : w.Keeps e)
    (ha : Atom allowed w v) (hspares : Spares s.keys w v) : v.Coherent e s := by
  have hz : s.keys.mailbox ≠ 0 := Keys.mailbox_derive_ne_zero _ _
  have hplaced : ∀ {t : ThreadId} {c : Connecting}, w.place e t = some c →
      c.Meets v.kernel s.keys s.role := fun hp =>
    (h.placed hp).mono hz ha.lasts (hspares.of_place hf hp)
  obtain ⟨hplaced, hlinked⟩ := Atom.onward (P := fun c => c.Meets v.kernel s.keys s.role)
    (Q := fun l => l.Meets v.kernel s.keys s.role) hk ha hplaced
    (fun hx hl => (h.linked hx hl).mono hz ha.lasts (hspares.imp_right Vacant.mailbox))
    trivial id fun {_ _ _ q c c' u} ht hq hp hafter hu => by
      obtain rfl : q.settings = s := hf _ (List.mem_of_getElem? ht) _ rfl hq
      have hheld := hplaced hp
      rw [← hu] at hheld ⊢
      exact connecting_meets hafter hz (Keys.outbound_derive_ne_zero _ _) hheld
  exact ⟨hplaced, hlinked⟩

theorem Orderly.coherent (h : Orderly s.keys w) (hs : w.Suits e s) : w.Coherent e s := by
  have hempty : World.empty.Furnished e s ∧ World.empty.Coherent e s := by
    refine ⟨fun th hm => ?_, fun hp => ?_, fun hx => ?_⟩
    · cases hm
    · simp [World.place, World.empty] at hp
    · simp [World.empty] at hx
  have hkept := h.induction
    (m := fun u => u.Keeps e ∧ (u.Suits e s → u.Furnished e s ∧ u.Coherent e s))
    ⟨empty_keeps e, fun _ => hempty⟩ fun hx ha hspares => ⟨hx.1.atom ha, fun hy => by
      have hsuits := hy.atom ha
      obtain ⟨hf, hc⟩ := hx.2 hsuits
      exact ⟨hf.atom hsuits ha, hc.atom hf hx.1 ha hspares⟩⟩
  exact (hkept.2 hs).2

/-- An endpoint has a link: it is in place, or in the hands of a thread that connects the
endpoint. -/
def Holds (w : World) (e : EndpointId) (l : Link) : Prop :=
  (∃ x, w.endpoints[e]? = some x ∧ x.link = some l) ∨
    ∃ t c, w.place e t = some c ∧ c.link? = some l

theorem Orderly.holds (h : Orderly s.keys w) (hs : w.Suits e s) (hl : w.Holds e l) :
    l.Meets w.kernel s.keys s.role := by
  have hcoherent := h.coherent hs
  obtain ⟨x, hx, hl⟩ | ⟨t, c, hp, hl⟩ := hl
  · exact hcoherent.linked hx hl
  · exact (hcoherent.placed hp).of_link? hl

/-- Endpoints of one namespace that have come to one mailbox set share all the rest, the file and
the signal of either side, as long as nothing of it was lost while there was a session. It is lost
only if a thread takes it away. -/
theorem session_coherent {e' : EndpointId} {x y : Endpoint} {l m : Link}
    (h : Orderly x.settings.keys w) (hx : w.endpoints[e]? = some x) (hy : w.endpoints[e']? = some y)
    (hkeys : y.settings.keys = x.settings.keys) (hl : w.Holds e l) (hm : w.Holds e' m)
    (hset : m.mailbox.semaphores.set = l.mailbox.semaphores.set)
    (hlive : w.kernel.live? l.mailbox.semaphores.set ≠ none) :
    (m.mailbox.file = l.mailbox.file ∧
      ∀ r, (m.signal y.settings.role r).set = (l.signal x.settings.role r).set) ∧
    ∀ i v, w.apply i = some v → Orderly x.settings.keys v ∨ ¬ w.Vacant x.settings.keys ∧
      ∃ t th, i = .run t ∧ w.threads[t]? = some th ∧ th.next.Takes w.kernel x.settings.keys := by
  have hmine := h.holds (suits_of_some hx) hl
  have hother := (hkeys ▸ h : Orderly y.settings.keys w).holds (suits_of_some hy) hm
  rw [hkeys] at hother
  refine ⟨⟨?_, fun r => ?_⟩, fun i v ha => h.or_takes ha⟩
  · exact Option.some.inj ((hother.file (hset ▸ hlive)).symm.trans (hmine.file hlive))
  · exact Option.some.inj ((hother.signal (hset ▸ hlive) _ (m.signal_mem _ r)).symm.trans
      (hmine.signal hlive _ (l.signal_mem _ r)))

def deserted : World :=
  accepting.play ([.operate 1 .connect] ++ List.replicate 18 (.run 3) ++ [.operate 0 .destroy] ++
    [6, 1, 2, 6].flatMap fun t => List.replicate 12 (.run t))

/-- The client is destroyed, and then another server and another client connect. -/
def resumed : World :=
  deserted.play ([.operate 1 .destroy] ++
    ([7, 4, 5, 7].flatMap fun t => List.replicate 12 (.run t)) ++
    [.make (attributes .server), .operate 2 .accept] ++ List.replicate 18 (.run 8) ++
    [.make (attributes .client), .operate 3 .connect] ++ List.replicate 18 (.run 11))

/-- The server and the client of the second session share the file and both signals. -/
theorem second_session_shared : ∃ x y l m, Orderly x.settings.keys resumed ∧
    resumed.endpoints[2]? = some x ∧ resumed.endpoints[3]? = some y ∧
    y.settings.keys = x.settings.keys ∧ x.link = some l ∧ y.link = some m ∧
    m.mailbox.semaphores.set = l.mailbox.semaphores.set ∧
    resumed.kernel.live? l.mailbox.semaphores.set ≠ none ∧ m.mailbox.file = l.mailbox.file ∧
    ∀ r, (m.signal y.settings.role r).set = (l.signal x.settings.role r).set := by
  have horderly : Orderly (Keys.derive "n" ⟨"/"⟩) resumed :=
    ((Orderly.empty.play (by decide +kernel) : Orderly _ accepting).play (by decide +kernel) :
      Orderly _ deserted).play (by decide +kernel)
  obtain ⟨x, hx, y, hy, l, hl, m, hm, hspace, hkeys, hset, hlive⟩ : ∃ x,
      resumed.endpoints[2]? = some x ∧ ∃ y, resumed.endpoints[3]? = some y ∧ ∃ l, x.link = some l ∧
      ∃ m, y.link = some m ∧ x.settings.keys = .derive "n" ⟨"/"⟩ ∧
      y.settings.keys = x.settings.keys ∧
      m.mailbox.semaphores.set = l.mailbox.semaphores.set ∧
      (resumed.kernel.live? l.mailbox.semaphores.set).isSome = true := by
    have hany : (resumed.endpoints[2]?.any fun x => resumed.endpoints[3]?.any fun y =>
        x.link.any fun l => y.link.any fun m => x.settings.keys = .derive "n" ⟨"/"⟩ ∧
          y.settings.keys = x.settings.keys ∧
          m.mailbox.semaphores.set = l.mailbox.semaphores.set ∧
          (resumed.kernel.live? l.mailbox.semaphores.set).isSome) = true := by
      decide +kernel
    simpa only [Option.any_eq_true, decide_eq_true_eq] using hany
  have hlive := Option.isSome_iff_ne_none.mp hlive
  have horderly : Orderly x.settings.keys resumed := hspace ▸ horderly
  obtain ⟨⟨hfile, hsignals⟩, -⟩ := session_coherent horderly hx hy hkeys (.inl ⟨x, hx, hl⟩)
    (.inl ⟨y, hy, hm⟩) hset hlive
  exact ⟨x, y, l, m, horderly, hx, hy, hkeys, hl, hm, hset, hlive, hfile, hsignals⟩

/-- Another server accepts, and then the client is destroyed and another client connects. -/
def mingled : World :=
  deserted.play ([.make (attributes .server), .operate 2 .accept] ++ List.replicate 18 (.run 7) ++
    [.operate 1 .destroy] ++ ([10, 4, 5, 10].flatMap fun t => List.replicate 12 (.run t)) ++
    [.make (attributes .client), .operate 3 .connect] ++ List.replicate 18 (.run 11))

/-- The other server and the other client have the same mailbox set, but not the same file. -/
theorem late_teardown_splits : Reachable mingled ∧ ∃ x, mingled.endpoints[2]? = some x ∧
    ∃ y, mingled.endpoints[3]? = some y ∧ ∃ l, x.link = some l ∧ ∃ m, y.link = some m ∧
      x.state = .connected ∧ y.state = .connected ∧ y.settings.keys = x.settings.keys ∧
      m.mailbox.semaphores.set = l.mailbox.semaphores.set ∧
      (mingled.kernel.live? l.mailbox.semaphores.set).isSome = true ∧
      m.mailbox.file ≠ l.mailbox.file := by
  have hr : Reachable mingled :=
    ((Run.refl.play (by simp) : Run _ empty accepting).play (by simp) : Run _ empty deserted).play
      (by simp)
  have hany : (mingled.endpoints[2]?.any fun x => mingled.endpoints[3]?.any fun y =>
      x.link.any fun l => y.link.any fun m =>
        x.state = .connected ∧ y.state = .connected ∧ y.settings.keys = x.settings.keys ∧
        m.mailbox.semaphores.set = l.mailbox.semaphores.set ∧
        (mingled.kernel.live? l.mailbox.semaphores.set).isSome ∧
        m.mailbox.file ≠ l.mailbox.file) = true := by
    decide +kernel
  refine ⟨hr, ?_⟩
  simpa only [Option.any_eq_true, decide_eq_true_eq] using hany

end World

end QueuePair
