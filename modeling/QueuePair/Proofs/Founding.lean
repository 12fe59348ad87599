import QueuePair.Proofs.After
import QueuePair.Proofs.Standing

namespace QueuePair

def EndpointCall.waits {α : Type} : EndpointCall α → Bool
  | .awaitReply .. => true
  | _ => false

namespace World

variable {w v : World} {e : EndpointId} {d : Direction} {t : ThreadId} {th th' : Thread}
  {x y : Endpoint} {s s' : Connecting} {allowed : Input → Prop}

theorem After.outward {σ : Type} {mv : Move σ} {f : σ} (h : w.After t mv v f) (hm : mv.Outward) :
    v.endpoints = w.endpoints ∧ v.threads = w.threads := by
  cases mv with
  | invoke | panic | halt => exact h.elim
  | @perform α p next =>
    obtain ⟨a, ha, -⟩ := h
    cases p with
    | clock => exact ⟨ha.1 ▸ rfl, ha.1 ▸ rfl⟩
    | system c =>
      cases c with
      | change set changes deadline =>
        rcases ha with ⟨s, values, -, -, rfl, -⟩ | ⟨s, -, -, rfl, -⟩ | ⟨-, rfl, -⟩ | ⟨-, rfl, -⟩ <;>
          exact ⟨rfl, rfl⟩
      | _ =>
        obtain ⟨k, ends, -, rfl⟩ := ha
        exact ⟨observe_endpoints _ _, observe_threads _ _⟩
    | _ => cases hm

theorem After.into {σ : Type} {mv : Move σ} {f : σ} {Q : σ → Prop} (h : w.After t mv v f)
    (hinto : mv.Into Q) : Q f := by
  cases mv with
  | perform p next =>
    obtain ⟨a, -, rfl⟩ := h
    exact hinto a
  | invoke | panic | halt => exact h.elim

/-- The steps of a connecting thread, as far as its endpoint can tell. -/
inductive Founds (e : EndpointId) (w : World) (t : ThreadId) :
    Connecting → World → Option Connecting → Prop
  | lock {x : Endpoint} {v : World} {busy : Bool} : w.endpoints[e]? = some x →
      x.linkHolder = none → v.endpoints = w.endpoints.set e { x with linkHolder := some t } →
      v.threads = w.threads → Founds e w t .lock v (some (.check busy))
  -- nothing becomes of the endpoint, and only an unconnected one is opened
  | rest {s s' : Connecting} {v : World} : s.locks = true → s'.locks = true →
      v.endpoints = w.endpoints → v.threads = w.threads → (s'.stored = true → s.stored = true) →
      (∀ d, s'.manned d = true → s.manned d = true) → (s'.alters = true → s.alters = true ∨
        ∃ x, w.endpoints[e]? = some x ∧ x.state = .init) → Founds e w t s v (some s')
  | store {x : Endpoint} {l : Link} {v : World} : w.endpoints[e]? = some x →
      v.endpoints = w.endpoints.set e { x with state := .connected } → v.threads = w.threads →
      Founds e w t (.storeConnected l) v (some (.spawnSender l))
  | spawn {p : Party} {l : Link} {d : Direction} {s s' : Connecting} : p.id = e →
      s.stored = true → s'.stored = true → s.alters = true → s'.locks = true →
      (∀ d', s'.manned d' = true → d' = d ∨ s.manned d' = true) →
      Founds e w t s (w.spawnWorker p l d) (some s')
  -- the connection is taken back
  | undo {x y : Endpoint} {s s' : Connecting} {v : World} : s.alters = true → s'.locks = true →
      s'.stored = false → (∀ d, s'.manned d = false) → w.endpoints[e]? = some x →
      v.endpoints = w.endpoints.set e y → y.linkHolder = x.linkHolder → y.link = x.link →
      v.threads = w.threads → Founds e w t s v (some s')
  | unlock {x : Endpoint} {link : Option Link} {r : Except Error Unit} {v : World} :
      w.endpoints[e]? = some x → v.endpoints = w.endpoints.set e
        { x with link := link.orElse fun _ => x.link, linkHolder := none } →
      v.threads = w.threads → Founds e w t (.unlock link r) v none

def goesOn : Flow Connecting (Except Error Unit) → Option Connecting
  | .more s => some s
  | .done _ => none

theorem after_access {α σ : Type} {p : Party} {c : EndpointCall α} {next : α → σ} {f : σ}
    (hc : c.waits = false) (h : w.After t (.access p c next) v f) :
    ∃ x s, w.endpoints[p.id]? = some x ∧ x.call t c = some s ∧
      v.endpoints = w.endpoints.set p.id s.endpoint ∧ v.threads = w.threads ∧
      f = next s.answer := by
  obtain ⟨a, ha, rfl⟩ := h
  cases c with
  | awaitReply => cases hc
  | _ =>
    obtain ⟨x, s, hx, hs, rfl, rfl⟩ := ha
    exact ⟨x, s, hx, hs, (notes_same _ _).2, (notes_same _ _).1, rfl⟩

theorem founds_of_outward {σ ρ : Type} {mv : Move (Flow σ ρ)} {more : σ → Connecting}
    {done : ρ → Flow Connecting (Except Error Unit)} {f : Flow Connecting (Except Error Unit)}
    (hm : mv.Outward) (hl : s.locks = true) (ha : s.alters = true)
    (hf : w.After t (mv.through (fun s => .more (more s)) done) v f)
    (hto : ∀ f', (∃ s', f' = .more (more s')) ∨ (∃ r, f' = done r) → ∃ s', f' = .more s' ∧
      s'.locks = true ∧ (s'.stored = true → s.stored = true) ∧
      ∀ d, s'.manned d = true → s.manned d = true) : Founds e w t s v (goesOn f) := by
  obtain ⟨he, ht⟩ := hf.outward (Move.outward_through.mpr hm)
  obtain ⟨s', rfl, hl', hst, hman⟩ := hto f <| by
    rcases hf.of_through with ⟨s', -, rfl⟩ | ⟨r, -, rfl⟩
    · exact .inl ⟨s', rfl⟩
    · exact .inr ⟨r, rfl⟩
  exact .rest hl hl' he ht hst hman fun _ => .inl ha

theorem founds_of_undo {α : Type} {p : Party} {c : EndpointCall α}
    {next : α → Flow Connecting (Except Error Unit)} {f : Flow Connecting (Except Error Unit)}
    (hw : c.waits = false) (ha : s.alters = true) (hf : w.After t (.access p c next) v f)
    (hto : ∀ a, ∃ s', next a = .more s' ∧ s'.locks = true ∧ s'.stored = false ∧
      ∀ d, s'.manned d = false)
    (hsame : ∀ {x : Endpoint} {r : Section α}, x.call t c = some r →
      r.endpoint.linkHolder = x.linkHolder ∧ r.endpoint.link = x.link) :
    Founds p.id w t s v (goesOn f) := by
  obtain ⟨x, r, hx, hc, he, ht, rfl⟩ := after_access hw hf
  obtain ⟨s', hs', hl, hst, hman⟩ := hto r.answer
  rw [hs']
  exact .undo ha hl hst hman hx he (hsame hc).1 (hsame hc).2 ht

/-- Every step of a connecting thread is one of these. -/
theorem founds_of_after {p : Party} {f : Flow Connecting (Except Error Unit)} (hp : p.id = e)
    (h : w.After t (s.next p) v f) : Founds e w t s v (goesOn f) := by
  subst hp
  cases s with
  | lock =>
    obtain ⟨x, s, hx, hc, he, ht, rfl⟩ := after_access rfl h
    simp only [Endpoint.call, Endpoint.underLink] at hc
    split at hc
    · cases hc
    · rename_i hn
      cases hc
      exact .lock hx (by simpa using hn) he ht
  | check busy =>
    obtain ⟨x, s, hx, hc, he, ht, rfl⟩ := after_access rfl h
    cases hc
    have he' : v.endpoints = w.endpoints := he.trans (set_of_getElem? hx)
    split
    · rename_i hi
      exact .rest rfl rfl he' ht (fun h => by cases h) (fun _ h => by cases h)
        fun _ => .inr ⟨x, hx, hi.1⟩
    · exact .rest rfl rfl he' ht (fun h => by cases h) (fun _ h => by cases h)
        fun h => by cases h
  | mailbox s =>
    refine founds_of_outward (opening_outward _ _ _ s).1 rfl rfl h ?_
    rintro f (⟨s', rfl⟩ | ⟨r, rfl⟩)
    · exact ⟨_, rfl, rfl, fun h => (by cases h), fun _ h => by cases h⟩
    · cases r <;> exact ⟨_, rfl, rfl, fun h => (by cases h), fun _ h => by cases h⟩
  | signals m s =>
    refine founds_of_outward (signalsOpening_outward _ _ s).1 rfl rfl h ?_
    rintro f (⟨s', rfl⟩ | ⟨r, rfl⟩)
    · exact ⟨_, rfl, rfl, fun h => (by cases h), fun _ h => by cases h⟩
    · cases r <;> exact ⟨_, rfl, rfl, fun h => (by cases h), fun _ h => by cases h⟩
  | removeMailbox e m s =>
    refine founds_of_outward (mailboxRemoval_confined _ s).1.outward rfl rfl h ?_
    rintro f (⟨s', rfl⟩ | ⟨r, rfl⟩)
    all_goals exact ⟨_, rfl, rfl, fun h => (by cases h), fun _ h => by cases h⟩
  | storeConnected link =>
    obtain ⟨x, s, hx, hc, he, ht, rfl⟩ := after_access rfl h
    cases hc
    exact .store hx he ht
  | spawnSender link =>
    obtain ⟨a, rfl, rfl⟩ := h
    exact .spawn rfl rfl rfl rfl rfl fun d hd => .inl (of_decide_eq_true hd)
  | spawnReceiver link =>
    obtain ⟨a, rfl, rfl⟩ := h
    refine .spawn rfl rfl rfl rfl rfl fun d _ => ?_
    cases d
    · exact .inr rfl
    · exact .inl rfl
  | attach link s =>
    refine founds_of_outward (attaching_confined _ s).1.outward rfl rfl h ?_
    rintro f (⟨s', rfl⟩ | ⟨r, rfl⟩)
    · exact ⟨_, rfl, rfl, fun _ => rfl, fun _ _ => rfl⟩
    · cases r <;> exact ⟨_, rfl, rfl, fun _ => rfl, fun _ _ => rfl⟩
  | removeLink e link s =>
    refine founds_of_outward (removal_confined _ s).1.outward rfl rfl h ?_
    rintro f (⟨s', rfl⟩ | ⟨r, rfl⟩)
    all_goals exact ⟨_, rfl, rfl, fun h => (by cases h), fun _ h => by cases h⟩
  | takeWorkers e =>
    refine founds_of_undo rfl rfl h (fun ts => ?_) fun hc => ?_
    · cases ts <;> exact ⟨_, rfl, rfl, rfl, fun _ => rfl⟩
    · cases hc
      exact ⟨rfl, rfl⟩
  | join e u rest =>
    obtain ⟨a, ⟨rfl, -⟩, rfl⟩ := h
    cases rest <;> refine .rest rfl rfl rfl rfl (fun hst => ?_) (fun d hman => ?_) fun _ => .inl rfl
    all_goals contradiction
  | markStopping | stop | resume | unmarkStopping | storeInit =>
    refine founds_of_undo rfl rfl h (fun _ => ⟨_, rfl, rfl, rfl, fun _ => rfl⟩) fun hc => ?_
    cases hc
    exact ⟨rfl, rfl⟩
  | unlock link r =>
    obtain ⟨x, s, hx, hc, he, ht, rfl⟩ := after_access rfl h
    cases hc
    exact .unlock hx he ht

theorem worker_watch {p : Party} (hp : p.id = e) (l : Link) (d : Direction) :
    (Thread.ofTask (worker p l d)).watch e d = .awake := by
  cases d <;> simp [worker, Thread.watch, Thread.ofTask, Task.watch, hp, Sender.watch,
    Receiver.watch]

section

variable {u : World} (ht : w.threads[t]? = some th) (hc : th.connecting? e = some s)
  (hg : Goes th th') (hw : ∀ d, th'.watch e d = th.watch e d)
  (hf : Founds e w t s u (th'.connecting? e))

include ht hf

theorem Founds.threads : ∃ news, (u.putThread t th').threads = w.threads.set t th' ++ news ∧
    ∀ b ∈ news, b.connecting? e = none := by
  have hlt := (List.getElem?_eq_some_iff.mp ht).1
  have hnone : u.threads = w.threads → ∃ news,
      (u.putThread t th').threads = w.threads.set t th' ++ news ∧
        ∀ b ∈ news, b.connecting? e = none := fun he => ⟨[], by simp [putThread, he], by simp⟩
  generalize th'.connecting? e = s' at hf
  cases hf with
  | spawn =>
    refine ⟨[_], List.set_append_left _ _ hlt, fun b hb => ?_⟩
    obtain rfl := List.mem_singleton.mp hb
    rename Direction => d
    cases d <;> rfl
  | lock _ _ _ h | rest _ _ _ h | store _ _ h | undo _ _ _ _ _ _ _ _ h | unlock _ _ h =>
    exact hnone h

theorem Founds.places (n : ThreadId) :
    (u.putThread t th').place e n = if n = t then th'.connecting? e else w.place e n := by
  obtain ⟨news, hv, hnews⟩ := Founds.threads ht hf
  exact place_go ht hv hnews n

include hc

omit hf in
theorem Founded.others (h : Founded w e) (hx : w.endpoints[e]? = some x)
    (hs : s.locks = true ∨ x.linkHolder = none) {n : ThreadId} {c : Connecting} (hn : n ≠ t)
    (hp : w.place e n = some c) : c.locks = false := by
  by_contra hl
  have hholder := (h.holder hx n).mpr ⟨c, hp, (Bool.not_eq_false _).mp hl⟩
  rcases hs with hs | hs
  · have hmine := (h.holder hx t).mpr ⟨s, by simp [place, ht, hc], hs⟩
    exact hn (Option.some.inj (hholder.symm.trans hmine))
  · rw [hs] at hholder
    cases hholder

/-- After a step it is enough to look at the endpoint, and at the place of the thread. -/
theorem Founded.of_place (h : Founded w e) (hx : w.endpoints[e]? = some x)
    (hs : s.locks = true ∨ x.linkHolder = none) (hy : u.endpoints[e]? = some y)
    (hholder : ∀ n, y.linkHolder = some n ↔
      n = t ∧ ∃ c, th'.connecting? e = some c ∧ c.locks = true)
    (hstored : ∀ c, th'.connecting? e = some c → c.stored = true → y.Opened)
    (hmanned : ∀ c d, th'.connecting? e = some c → c.manned d = true →
      (u.putThread t th').Guarded e d)
    (hlinked : y.link.isSome = true → (u.putThread t th').Settled e) :
    Founded (u.putThread t th') e := by
  have hplaces := Founds.places ht hf
  have hothers : ∀ {n c}, n ≠ t → w.place e n = some c → c.locks = false := fun hn hp =>
    h.others ht hc hx hs hn hp
  refine ⟨fun hn => ?_, fun hy' n => ?_, fun hy' hn hst => ?_, fun {n c d} hn hm => ?_,
    fun hy' hl => ?_⟩
  · rw [show (u.putThread t th').endpoints = u.endpoints from rfl, hy] at hn
    cases hn
  · obtain rfl := Option.some.inj (hy.symm.trans hy')
    rw [hholder, hplaces]
    by_cases hn : n = t
    · simp [hn]
    · simp only [hn, false_and, if_false, false_iff, not_exists, not_and]
      intro c hp
      simp [hothers hn hp]
  · obtain rfl := Option.some.inj (hy.symm.trans hy')
    rw [hplaces] at hn
    split at hn
    · exact hstored _ hn hst
    · rename_i hne
      have hl := hothers hne hn
      rw [stored_locks hst] at hl
      cases hl
  · rw [hplaces] at hn
    split at hn
    · exact hmanned c d hn hm
    · rename_i hne
      have hl := hothers hne hn
      rw [manned_locks hm] at hl
      cases hl
  · obtain rfl := Option.some.inj (hy.symm.trans hy')
    exact hlinked hl

include hg hw

omit hc in
theorem Founds.guarded (hx : w.endpoints[e]? = some x) (hy : u.endpoints[e]? = some y)
    (hxy : x.Lasts y) (h : w.Guarded e d) : (u.putThread t th').Guarded e d := by
  obtain ⟨news, hv, -⟩ := Founds.threads ht hf
  exact h.go ht hv hg (fun hz => ⟨y, hy, Option.some.inj (hx.symm.trans hz) ▸ hxy⟩) (.stay (hw d))

/-- Nobody connects an endpoint that is settled. -/
theorem Settled.found (h : w.Settled e) : (u.putThread t th').Settled e := by
  have hcalm : s.alters = false := h.calm (t := t) (by simp [place, ht, hc])
  obtain ⟨x, hx, ho⟩ := h.opened
  have hlt := (List.getElem?_eq_some_iff.mp hx).1
  -- the endpoint changes at most its link and who holds the lock
  have hsettle : ∀ {y : Endpoint}, u.endpoints[e]? = some y → y.state = x.state →
      y.stopped = x.stopped → y.queue = x.queue →
      (∀ s', th'.connecting? e = some s' → s'.alters = false) →
      (u.putThread t th').Settled e := by
    intro y hy hs hst hq hs'
    refine ⟨⟨y, hy, (Endpoint.lasts_of_same hs hst hq).opened ho⟩, fun d => ?_, fun {n c} hn => ?_⟩
    · exact Founds.guarded ht hg hw hf hx hy (Endpoint.lasts_of_same hs hst hq) (h.guarded d)
    · rw [Founds.places ht hf] at hn
      split at hn
      · exact hs' c hn
      · exact h.calm hn
  have hf' := hf
  generalize hp : th'.connecting? e = s' at hf' hsettle
  cases hf' with
  | @lock z _ busy hz _ he =>
    obtain rfl := Option.some.inj (hx.symm.trans hz)
    refine hsettle (y := { x with linkHolder := some t }) ?_ rfl rfl rfl ?_
    · rw [he]
      exact List.getElem?_set_self hlt
    · intro c hs'
      obtain rfl := Option.some.inj hs'
      rfl
  | @rest _ s' _ _ _ he _ _ _ ha =>
    refine hsettle (he ▸ hx) rfl rfl rfl fun c hs' => ?_
    obtain rfl := Option.some.inj hs'
    by_contra hn
    rcases ha ((Bool.not_eq_false _).mp hn) with ha | ⟨z, hz, hi⟩
    · rw [hcalm] at ha
      cases ha
    · obtain rfl := Option.some.inj (hx.symm.trans hz)
      exact ho.state hi
  | store => cases hcalm
  | spawn _ _ _ ha | undo ha =>
    rw [hcalm] at ha
    cases ha
  | @unlock z link r _ hz he =>
    obtain rfl := Option.some.inj (hx.symm.trans hz)
    refine hsettle (y := { x with link := link.orElse fun _ => x.link, linkHolder := none }) ?_ rfl
      rfl rfl fun _ hs' => by cases hs'
    rw [he]
    exact List.getElem?_set_self hlt

omit hg hw hf in
theorem Founded.present (h : Founded w e) : ∃ x, w.endpoints[e]? = some x := by
  cases hx : w.endpoints[e]? with
  | some x => exact ⟨x, rfl⟩
  | none =>
    have hplace : w.place e t = some s := by simp [place, ht, hc]
    rw [h.absent hx] at hplace
    cases hplace

omit hg hw hf in
theorem Founded.holds (h : Founded w e) (hx : w.endpoints[e]? = some x) (hs : s.locks = true) :
    x.linkHolder = some t :=
  (h.holder hx t).mpr ⟨s, by simp [place, ht, hc], hs⟩

theorem Founded.linked_still (h : Founded w e) (hx : w.endpoints[e]? = some x)
    (hl : y.link = x.link) (hy : y.link.isSome = true) : (u.putThread t th').Settled e :=
  (h.linked hx (hl ▸ hy)).found ht hc hg hw hf

/-- A worker watches over its queue from its start. -/
theorem Founded.spawn {p : Party} {l : Link} (h : Founded w e) (hu : u = w.spawnWorker p l d)
    (hp : th'.connecting? e = some s') (hpe : p.id = e) (hst : s.stored = true)
    (ha : s.alters = true) (hs' : s'.locks = true)
    (hman : ∀ d', s'.manned d' = true → d' = d ∨ s.manned d' = true) :
    Founded (u.putThread t th') e := by
  have hplace : w.place e t = some s := by simp [place, ht, hc]
  obtain ⟨x, hx⟩ := h.present ht hc
  have hy : u.endpoints[e]? =
      some { x with workers := x.workers ++ [w.threads.length], owners := x.owners + 1 } := by
    rw [hu]
    show (w.endpoints.modify p.id _)[e]? = _
    rw [List.getElem?_modify, hx, hpe]
    simp
  have hlasts : x.Lasts
      { x with workers := x.workers ++ [w.threads.length], owners := x.owners + 1 } :=
    Endpoint.lasts_of_same rfl rfl rfl
  refine h.of_place ht hc hf hx (.inl (alters_locks ha)) hy (fun n => ?_) (fun c hc' hst' => ?_)
    (fun c d' hc' hm => ?_) (h.linked_still ht hc hg hw hf hx rfl)
  · simpa [h.holds ht hc hx (alters_locks ha), hp, hs'] using eq_comm
  · exact hlasts.opened (h.stored hx hplace hst)
  · obtain rfl := Option.some.inj (hp.symm.trans hc')
    rcases hman d' hm with rfl | hm
    · refine .inr (.inl ⟨Thread.ofTask (worker p l d'), ?_, worker_watch hpe l d'⟩)
      have hlt := (List.getElem?_eq_some_iff.mp ht).1
      rw [hu]
      show _ ∈ (w.threads ++ [Thread.ofTask (worker p l d')]).set t th'
      rw [List.set_append_left _ _ hlt]
      exact List.mem_append_right _ (List.mem_singleton.mpr rfl)
    · exact Founds.guarded ht hg hw hf hx hy hlasts (h.manned hplace hm)

/-- A link is put in place by whoever has both workers, and nobody else is past the lock. -/
theorem Founded.unlock {link : Option Link} {r : Except Error Unit} (h : Founded w e)
    (hs : s = .unlock link r) (hx : w.endpoints[e]? = some x)
    (he : u.endpoints = w.endpoints.set e
      { x with link := link.orElse fun _ => x.link, linkHolder := none })
    (hp : th'.connecting? e = none) : Founded (u.putThread t th') e := by
  have hplace : w.place e t = some s := by simp [place, ht, hc]
  subst hs
  have hy : u.endpoints[e]? =
      some { x with link := link.orElse fun _ => x.link, linkHolder := none } :=
    he ▸ List.getElem?_set_self (List.getElem?_eq_some_iff.mp hx).1
  refine h.of_place ht hc hf hx (.inl rfl) hy (fun n => by simp [hp])
    (fun _ hc' => by cases hp.symm.trans hc') (fun _ _ hc' => by cases hp.symm.trans hc') ?_
  cases link with
  | none => exact h.linked_still ht hc hg hw hf hx rfl
  | some l =>
    have hlasts : x.Lasts { x with link := some l, linkHolder := none } :=
      Endpoint.lasts_of_same rfl rfl rfl
    refine fun _ => ⟨⟨_, hy, hlasts.opened (h.stored hx hplace rfl)⟩,
      fun d => Founds.guarded ht hg hw hf hx hy hlasts (h.manned hplace rfl), fun {n c} hn => ?_⟩
    rw [Founds.places ht hf, hp] at hn
    split at hn
    · cases hn
    · rename_i hne
      by_contra ha
      have hl := h.others ht hc hx (.inl rfl) hne hn
      rw [alters_locks ((Bool.not_eq_false _).mp ha)] at hl
      cases hl

/-- Whoever connects founds what it promises. -/
theorem Founded.found (h : Founded w e) : Founded (u.putThread t th') e := by
  have hplace : w.place e t = some s := by simp [place, ht, hc]
  obtain ⟨x, hx⟩ := h.present ht hc
  have hmine := h.holds ht hc hx
  have hput : ∀ {y : Endpoint}, u.endpoints = w.endpoints.set e y → u.endpoints[e]? = some y :=
    fun he => he ▸ List.getElem?_set_self (List.getElem?_eq_some_iff.mp hx).1
  have hlinked : ∀ {y : Endpoint}, y.link = x.link → y.link.isSome = true →
      (u.putThread t th').Settled e := h.linked_still ht hc hg hw hf hx
  have hmain := fun {y : Endpoint} (hs : s.locks = true ∨ x.linkHolder = none)
    (hy : u.endpoints[e]? = some y) => h.of_place ht hc hf hx hs hy
  have hf' := hf
  generalize hp : th'.connecting? e = s' at hf' hmain
  cases hf' with
  | @lock z _ busy hz hnone he =>
    obtain rfl := Option.some.inj (hx.symm.trans hz)
    refine hmain (.inr hnone) (hput he) (fun n => ?_) (fun c hc => ?_) (fun c d hc => ?_)
      (hlinked rfl)
    · simpa [Connecting.locks] using eq_comm
    · obtain rfl := Option.some.inj hc
      intro h
      cases h
    · obtain rfl := Option.some.inj hc
      intro h
      cases h
  | @rest _ s' _ hs hs' he _ hst hman _ =>
    have hy : u.endpoints[e]? = some x := he ▸ hx
    refine hmain (.inl hs) hy (fun n => ?_) (fun c hc hc' => ?_) (fun c d hc hc' => ?_)
      (hlinked rfl)
    · simpa [hmine hs, hs'] using eq_comm
    · obtain rfl := Option.some.inj hc
      exact h.stored hx hplace (hst hc')
    · obtain rfl := Option.some.inj hc
      exact Founds.guarded ht hg hw hf hx hy (Endpoint.lasts_of_same rfl rfl rfl)
        (h.manned hplace (hman d hc'))
  | @store z l _ hz he =>
    obtain rfl := Option.some.inj (hx.symm.trans hz)
    refine hmain (.inl rfl) (hput he) (fun n => ?_)
      (fun c hc hc' => ⟨fun h => (by cases h), fun h => by cases h⟩) (fun c d hc => ?_)
        (hlinked rfl)
    · simpa [hmine rfl, Connecting.locks] using eq_comm
    · obtain rfl := Option.some.inj hc
      intro h
      cases h
  | spawn hpe hst _ ha hs' hman => exact h.spawn ht hc hg hw hf rfl hp hpe hst ha hs' hman
  | @undo z y _ s' _ ha hs' hst hman hz he hh hl =>
    obtain rfl := Option.some.inj (hx.symm.trans hz)
    refine hmain (.inl (alters_locks ha)) (hput he) (fun n => ?_) (fun c hc hc' => ?_)
      (fun c d hc hc' => ?_) (hlinked hl)
    · simpa [hh, hmine (alters_locks ha), hs'] using eq_comm
    · obtain rfl := Option.some.inj hc
      rw [hst] at hc'
      cases hc'
    · obtain rfl := Option.some.inj hc
      rw [hman] at hc'
      cases hc'
  | unlock hz he => exact h.unlock ht hc hg hw hf rfl hz he hp

end

theorem After.connecting {origin : Task} {o : Option EndpointId} {q : Party} (hq : q.id = e)
    (h : w.After t (Thread.next ⟨origin, .call o (.connecting q s), []⟩) v th') :
    ∃ f, w.After t (s.next q) v f ∧ th'.connecting? e = goesOn f := by
  simp only [Thread.next, Task.next, Call.next] at h
  obtain ⟨task, htask, rfl⟩ := After.of_map h
  rcases htask.of_through with ⟨c, hcall, rfl⟩ | ⟨r, hcall, rfl⟩
  · rcases hcall.of_through with ⟨s', hs', hc'⟩ | ⟨r, hr, hc'⟩
    · cases hc'
      exact ⟨_, hs', by simp [Thread.connecting?, Task.connecting?, hq, goesOn]⟩
    · refine ⟨_, hr, ?_⟩
      cases r with
      | error => cases hc'
      | ok =>
        cases hr : q.settings.role.isServer <;> simp [hr] at hc'
        subst hc'
        rfl
  · rcases hcall.of_through with ⟨s', -, hc'⟩ | ⟨r', hr, -⟩
    · cases hc'
    · exact ⟨_, hr, by simp [Thread.connecting?, Task.connecting?_finish, goesOn]⟩

theorem founds_act {α : Type} {p : Primitive α} {next : α → Thread} {a : α}
    (hs : th.Shaped) (hc : th.connecting? e = some s) (hn : th.next = .perform p next)
    (ha : w.Answers t p v a) : Founds e w t s v ((next a).connecting? e) := by
  obtain ⟨origin, o, q, hq, rfl⟩ := hs.connecting_cases hc
  have hafter : w.After t (Thread.next ⟨origin, .call o (.connecting q s), []⟩) v (next a) := by
    rw [hn]
    exact ⟨a, ha.answered, rfl⟩
  obtain ⟨f, hf, hplace⟩ := hafter.connecting hq
  rw [hplace]
  exact founds_of_after hq hf

theorem connecting_performs (hs : th.Shaped) (hc : th.connecting? e = some s) :
    th.next.Acts := by
  obtain ⟨origin, o, q, hq, rfl⟩ := hs.connecting_cases hc
  simp [Thread.next, Task.next, Call.next, connecting_acts]

theorem watch_connecting (hs : th.Shaped) (hc : th.connecting? e = some s) {α : Type}
    {p : Primitive α} {next : α → Thread} (hn : th.next = .perform p next) (a : α)
    (d : Direction) : (next a).watch e d = th.watch e d := by
  have hw := th.watches e d
  obtain ⟨origin, o, q, hq, rfl⟩ := hs.connecting_cases hc
  rw [hn] at hw
  have hturn := hw a
  generalize (next a).watch e d = later at hturn
  generalize hnow : Thread.watch e d _ = now at hturn
  cases hturn with
  | stay => rfl
  | close | drain => cases hnow

/-- A thread goes on connecting an endpoint. -/
structure Connects (w v : World) (e : EndpointId) (t : ThreadId) (th th' : Thread) (s : Connecting)
    (u : World) : Prop where
  thread : w.threads[t]? = some th
  place : th.connecting? e = some s
  goes : Goes th th'
  watch : ∀ d, th'.watch e d = th.watch e d
  founds : Founds e w t s u (th'.connecting? e)
  after : w.After t th.next u th'
  world : v = u.putThread t th'

theorem connects_act {α : Type} {p : Primitive α} {next : α → Thread} {a : α} {u : World}
    (ht : w.threads[t]? = some th) (hs : th.Shaped) (hc : th.connecting? e = some s)
    (hn : th.next = .perform p next) (ha : w.Answers t p u a) :
    Connects w (u.putThread t (next a)) e t th (next a) s u := by
  have hinto := th.next_into
  rw [hn] at hinto
  refine ⟨ht, hc, ⟨(hinto a).1, (hinto a).2⟩, watch_connecting hs hc hn a, founds_act hs hc hn ha,
    ?_, rfl⟩
  rw [hn]
  exact ⟨a, ha.answered, rfl⟩

theorem atom_cases (hk : w.Keeps e) (ha : Atom allowed w v) : Passes w v e ∨
    ∃ t th th' s u, Connects w v e t th th' s u := by
  cases ha with
  | @act t th α p next u a ht hn hans =>
    have hs := hk.shaped th (List.mem_of_getElem? ht)
    cases hc : th.connecting? e with
    | none => exact .inl (passes_act ht hs hc hn hans)
    | some s => exact .inr ⟨t, th, _, s, u, connects_act ht hs hc hn hans⟩
  | @invoke t th p i after ht hn =>
    have hs := hk.shaped th (List.mem_of_getElem? ht)
    cases hc : th.connecting? e with
    | none => exact .inl (passes_invoke ht hc hn)
    | some s =>
      have hacts := connecting_performs hs hc
      rw [hn] at hacts
      exact hacts.elim
  | @panic t th ht hn =>
    have hs := hk.shaped th (List.mem_of_getElem? ht)
    cases hc : th.connecting? e with
    | none => exact .inl (passes_panic ht hs hc)
    | some s =>
      have hacts := connecting_performs hs hc
      rw [hn] at hacts
      exact hacts.elim
  | outside _ hi ha => exact .inl (passes_outside hi ha)
  | settle ha => exact .inl (passes_settle ha)

theorem Passes.link {l : Link} (h : Passes w v e) (hy : v.endpoints[e]? = some y)
    (hl : y.link = some l) : ∃ x, w.endpoints[e]? = some x ∧ x.link = some l := by
  cases hx : w.endpoints[e]? with
  | none =>
    obtain hy' | ⟨s, f, hy'⟩ := h.absent hx
    · cases hy.symm.trans hy'
    · obtain rfl := Option.some.inj (hy.symm.trans hy')
      cases hl
  | some x =>
    obtain ⟨z, hz, htames⟩ := h.ends hx
    obtain rfl := Option.some.inj (hy.symm.trans hz)
    obtain he | he := htames.link
    · exact ⟨x, rfl, he.symm.trans hl⟩
    · cases he.symm.trans hl

/-- A link that is in place was so before, or was put there. -/
theorem Connects.link {l : Link} {u : World} (h : Connects w v e t th th' s u)
    (hy : v.endpoints[e]? = some y) (hl : y.link = some l) :
    (∃ x, w.endpoints[e]? = some x ∧ x.link = some l) ∨ ∃ r, s = .unlock (some l) r := by
  have hends : u.endpoints[e]? = some y := by
    rw [h.world] at hy
    exact hy
  have hset : ∀ {x z : Endpoint}, w.endpoints[e]? = some x → u.endpoints = w.endpoints.set e z →
      z = y := fun hx he => by
    rw [he, List.getElem?_set_self (List.getElem?_eq_some_iff.mp hx).1] at hends
    exact Option.some.inj hends
  have hf := h.founds
  generalize th'.connecting? e = s' at hf
  cases hf with
  | lock hx _ he | store hx he =>
    obtain rfl := hset hx he
    exact .inl ⟨_, hx, hl⟩
  | rest _ _ he => exact .inl ⟨y, he ▸ hends, hl⟩
  | spawn hq =>
    subst hq
    obtain ⟨x, hx, rfl⟩ : ∃ x, w.endpoints[_]? = some x ∧ _ = y := by
      simpa [spawnWorker, spawn, modifyEndpoint] using hends
    exact .inl ⟨x, hx, hl⟩
  | undo _ _ _ _ hx he _ hlink =>
    obtain rfl := hset hx he
    exact .inl ⟨_, hx, hlink ▸ hl⟩
  | @unlock x link r _ hx he =>
    obtain rfl := hset hx he
    cases link with
    | none => exact .inl ⟨x, hx, hl⟩
    | some l' =>
      cases hl
      exact .inr ⟨r, rfl⟩

/-- What holds of every place on the way to a link and goes on to the next place, and holds of every
link in place, does so after an atom. -/
theorem Atom.onward {P : Connecting → Prop} {Q : Link → Prop} (hk : w.Keeps e)
    (ha : Atom allowed w v)
    (hplaced : ∀ {t : ThreadId} {s : Connecting}, w.place e t = some s → P s)
    (hlinked : ∀ {x : Endpoint} {l : Link}, w.endpoints[e]? = some x → x.link = some l → Q l)
    (hlock : P .lock) (hunlock : ∀ {l : Link} {r : Except Error Unit}, P (.unlock (some l) r) → Q l)
    (hnext : ∀ {t : ThreadId} {origin : Task} {o : Option EndpointId} {q : Party}
      {s s' : Connecting} {u : World},
      w.threads[t]? = some ⟨origin, .call o (.connecting q s), []⟩ → q.id = e →
      w.place e t = some s → w.After t (s.next q) u (.more s') → u.kernel = v.kernel → P s') :
    (∀ {t : ThreadId} {s : Connecting}, v.place e t = some s → P s) ∧
      ∀ {y : Endpoint} {l : Link}, v.endpoints[e]? = some y → y.link = some l → Q l := by
  obtain hp | ⟨t, th, th', s, u, hc⟩ := atom_cases hk ha
  · refine ⟨fun {t s} hs => ?_, fun {y l} hy hl => ?_⟩
    · obtain he | ⟨-, he, -⟩ := hp.places t
      · exact hplaced (he ▸ hs)
      · obtain rfl := Option.some.inj (hs.symm.trans he)
        exact hlock
    · obtain ⟨x, hx, hxl⟩ := hp.link hy hl
      exact hlinked hx hxl
  · obtain ⟨origin, o, q, hq, rfl⟩ :=
      (hk.shaped th (List.mem_of_getElem? hc.thread)).connecting_cases hc.place
    have hplace : w.place e t = some s := by simp [place, hc.thread, hc.place]
    refine ⟨fun {n s'} hs' => ?_, fun {y l} hy hl => ?_⟩
    · rw [hc.world, Founds.places hc.thread hc.founds] at hs'
      split at hs'
      · obtain ⟨f, hafter, hf⟩ := hc.after.connecting hq
        cases f with
        | more s'' =>
          obtain rfl := Option.some.inj (hs'.symm.trans hf)
          exact hnext hc.thread hq hplace hafter (by rw [hc.world]; rfl)
        | done r => cases hs'.symm.trans hf
      · exact hplaced hs'
    · obtain ⟨x, hx, hxl⟩ | ⟨r, rfl⟩ := hc.link hy hl
      · exact hlinked hx hxl
      · exact hunlock (hplaced hplace)

theorem Founded.atom (h : Founded w e) (hk : w.Keeps e) (ha : Atom allowed w v) : Founded v e := by
  obtain hp | ⟨t, th, th', s, u, ht, hc, hg, hw, hf, -, rfl⟩ := atom_cases hk ha
  · exact h.pass hp
  · exact h.found ht hc hg hw hf

theorem Settled.atom (h : w.Settled e) (hk : w.Keeps e) (ha : Atom allowed w v) :
    v.Settled e := by
  obtain hp | ⟨t, th, th', s, u, ht, hc, hg, hw, hf, -, rfl⟩ := atom_cases hk ha
  · exact h.pass hp
  · exact h.found ht hc hg hw hf

theorem Settled.run (h : w.Settled e) (hk : w.Keeps e) (hq : w.Queued) (hr : Run allowed w v) :
    v.Settled e :=
  (hr.induction (m := fun u => u.Settled e ∧ u.Keeps e) hq ⟨h, hk⟩
    fun h ha => ⟨h.1.atom h.2 ha, h.2.atom ha⟩).1.1

theorem Founded.run (h : Founded w e) (hk : w.Keeps e) (hq : w.Queued) (hr : Run allowed w v) :
    Founded v e :=
  (hr.induction (m := fun u => Founded u e ∧ u.Keeps e) hq ⟨h, hk⟩
    fun h ha => ⟨h.1.atom h.2 ha, h.2.atom ha⟩).1.1

theorem founded_of_new (ht : w.threads = [])
    (hx : ∀ x, w.endpoints[e]? = some x → ∃ s f, x = .ofSettings s f) : Founded w e := by
  have hplace : ∀ t, w.place e t = none := fun t => by simp [place, ht]
  refine ⟨fun _ => hplace, fun h t => ?_, fun _ hs => ?_, fun hs => ?_, fun h hl => ?_⟩
  · obtain ⟨s, f, rfl⟩ := hx _ h
    simp [Endpoint.ofSettings, hplace]
  · rw [hplace] at hs
    cases hs
  · rw [hplace] at hs
    cases hs
  · obtain ⟨s, f, rfl⟩ := hx _ h
    cases hl

end World

end QueuePair
