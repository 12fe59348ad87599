import QueuePair.Proofs.Kinds
import QueuePair.Proofs.Range
import QueuePair.Proofs.Removed

namespace QueuePair

namespace Move

variable {σ ρ τ : Type} {mv : Move σ}

/-- The key of the set that a move makes or finds, and the number of semaphores that it asks for. -/
def opens? : Move σ → Option (Key × Nat)
  | .perform (.system (.createSet key count)) _ => some (key, count)
  | .perform (.system (.joinSet key count)) _ => some (key, count)
  | _ => none

@[simp] theorem opens?_map {f : τ → σ} {mv : Move τ} : (mv.map f).opens? = mv.opens? := by
  cases mv with
  | perform p next =>
    cases p with
    | system c => cases c <;> rfl
    | _ => rfl
  | _ => rfl

@[simp] theorem opens?_through {more : σ → τ} {done : ρ → τ} {mv : Move (Flow σ ρ)} :
    (mv.through more done).opens? = mv.opens? :=
  opens?_map

theorem Common.opens (h : mv.Common) : mv.opens? = none := by
  cases mv with
  | perform p next =>
    cases p with
    | system c => cases c <;> first | rfl | cases h
    | _ => rfl
  | _ => rfl

theorem of_opens? {key : Key} {count : Nat} (h : mv.opens? = some (key, count)) :
    ∃ next, mv = .call (.createSet key count) next ∨ mv = .call (.joinSet key count) next := by
  unfold opens? at h
  split at h <;> cases h
  · exact ⟨_, .inl rfl⟩
  · exact ⟨_, .inr rfl⟩

end Move

def Connecting.kind? (r : Role) : Connecting → Option Keys.Kind
  | .mailbox (.semaphores _ _) => some .mailbox
  | .signals _ (.outbound _) => some (.outbound r)
  | .signals _ (.inbound _ _) => some (.outbound r.peer)
  | _ => none

/-- The party that a thread connects and is about to open a set for, and the kind of the set. -/
def Thread.opening? (th : Thread) : Option (Party × Keys.Kind) :=
  match th.callbacks, th.task with
  | [], .call _ (.connecting p s) => (s.kind? p.settings.role).map fun kind => (p, kind)
  | _, _ => none

section

variable {p : Party}

@[simp] theorem openSet_opens (key : Key) (count : Nat) (s : OpenSet) :
    (s.next key count).opens? = some (key, count) := by
  cases s <;> rfl

theorem connecting_opens (s : Connecting) : (s.next p).opens? =
    (s.kind? p.settings.role).map fun kind => (p.keys.key kind, kind.count) := by
  cases s with
  | mailbox s =>
    cases s with
    | map s =>
      exact (Move.opens?_through.trans Move.opens?_through).trans
        (mapFile_confined ..).1.common.opens
    | semaphores =>
      simp only [Connecting.next, Mailbox.Opening.next, Move.opens?_through, openSet_opens]
      rfl
    | unlink | markVacant => rfl
  | signals m s =>
    cases s with
    | outbound | inbound =>
      simp only [Connecting.next, Signals.Opening.next, Move.opens?_through, openSet_opens]
      rfl
    | discard => rfl
  | removeMailbox e m s =>
    exact Move.opens?_through.trans (mailboxRemoval_confined m s).1.common.opens
  | attach l s => exact Move.opens?_through.trans (attaching_confined l.mailbox s).1.common.opens
  | removeLink e l s => exact Move.opens?_through.trans (removal_confined l s).1.common.opens
  | _ => rfl

end

namespace Thread

variable {p q : Party} {late : Prop} {th : Thread} {kind : Keys.Kind}

theorem opens_of_opening (h : th.opening? = some (p, kind)) :
    th.next.opens? = some (p.keys.key kind, kind.count) := by
  obtain ⟨o, task, cs⟩ := th
  unfold opening? at h
  split at h
  · rename_i owner q s hcs htask
    obtain ⟨kind', hkind, he⟩ := Option.map_eq_some_iff.mp h
    cases he
    obtain rfl : cs = [] := hcs
    obtain rfl : task = .call owner (.connecting p s) := htask
    simp only [next, Task.next, Call.next, Move.opens?_map, Move.opens?_through, connecting_opens,
      hkind, Option.map_some]
  · cases h

/-- A thread of a party opens sets for that party, and only as one of the kinds. -/
theorem Shaped.opening (h : th.Shaped) (hf : th.Fits p late) (ho : th.next.opens?.isSome = true) :
    ∃ kind, th.opening? = some (p, kind) := by
  have hnone : ∀ {σ : Type} {mv : Move σ}, mv.Common → mv.opens?.isSome = true → False :=
    fun hc hs => by simp [hc.opens] at hs
  obtain ⟨o, task, cs⟩ := th
  cases cs with
  | cons c cs =>
    obtain ⟨q, hq⟩ := h.callbacks List.mem_cons_self
    simp only [next, Move.opens?_map] at ho
    exact (hnone (callback_common hq) ho).elim
  | nil =>
    simp only [next, Move.opens?_map] at ho
    have htask := hf.task
    cases task with
    | sender q l s => exact (hnone (Move.common_through.mpr (sender_common q l s)) ho).elim
    | receiver q l s => exact (hnone (Move.common_through.mpr (receiver_common q l s)) ho).elim
    | leaving e s out => exact (hnone (Move.common_through.mpr (leaving_common e s)) ho).elim
    | ended => cases ho
    | call owner c =>
      simp only [Task.next, Move.opens?_through] at ho
      cases c with
      | connecting q s =>
        obtain rfl : q = p := htask.2.1
        simp only [Call.next, Move.opens?_through, connecting_opens, Option.isSome_map] at ho
        obtain ⟨kind, hkind⟩ := Option.isSome_iff_exists.mp ho
        exact ⟨kind, by simp [opening?, hkind]⟩
      | finalizing q s => exact (hnone (Move.common_through.mpr (finalizing_common q s)) ho).elim
      | posting q d data handler s =>
        exact (hnone (Move.common_through.mpr (posting_common q d data handler s)) ho).elim
      | waiting q d data s =>
        exact (hnone (Move.common_through.mpr (waiting_common q d data s)) ho).elim
      | destroying q s => exact (hnone (Move.common_through.mpr (destroying_common q s)) ho).elim
      | readingState | holding => cases ho
      | _ => exact htask.2.elim

end Thread

namespace World

variable {w u v v' : World} {t t' : ThreadId} {th : Thread} {key key' : Key} {set : SetId}

/-- A step in which a thread makes or finds a set under a key. -/
def Opens (w : World) (t : ThreadId) (key : Key) (set : SetId) (v : World) : Prop :=
  w.step t = some v ∧ ∃ th c next count, w.threads[t]? = some th ∧ th.next = .call c next ∧
    th.next.opens? = some (key, count) ∧
    (w.kernel.call t c).answer = some (.ok set : Except SystemError SetId)

theorem step_kernel {α : Type} {c : SystemCall α} {next : α → Thread}
    (ht : w.threads[t]? = some th) (hn : th.next = .call c next) (hs : w.step t = some v) :
    v.kernel = (w.kernel.call t c).kernel := by
  obtain ⟨th', ht', -, hcases⟩ := step_cases hs
  obtain rfl := Option.some.inj (ht.symm.trans ht')
  rcases hcases with ⟨β, a, next', hn', hp⟩ | ⟨_, _, _, hn', -⟩ | ⟨hn', -⟩
  · cases hn.symm.trans hn'
    simp only [perform] at hp
    split at hp
    · rcases hp with hp | ⟨_, _, hp, -⟩ <;> cases hp
      exact observe_kernel _ _
    · rcases hp with hp | ⟨_, _, hp, rfl⟩ <;> cases hp
      exact observe_kernel _ _
  · cases hn.symm.trans hn'
  · cases hn.symm.trans hn'

theorem Opens.lends (h : w.Opens t key set v) :
    ∃ count, v.kernel.Lends ⟨set, count, key, false⟩ := by
  obtain ⟨hstep, th, c, next, count, ht, hn, hopens, hanswer⟩ := h
  have hkernel := step_kernel ht hn hstep
  refine ⟨count, ?_⟩
  obtain ⟨next', hn' | hn'⟩ := Move.of_opens? hopens
  · cases hn.symm.trans hn'
    have hmade : w.kernel.createSet key count = (v.kernel, .ok set) :=
      Prod.ext hkernel.symm (Option.some.inj hanswer)
    exact Kernel.lends_createSet hmade false
  · cases hn.symm.trans hn'
    have hjoined : v.kernel = w.kernel := hkernel
    exact hjoined ▸ Kernel.lends_joinSet (Option.some.inj hanswer) false

theorem Opens.key_eq (h : w.Opens t key set u) (hq : u.Queued) (hr : Run (fun _ => True) u v)
    (h' : v.Opens t' key' set v') : key = key' := by
  have hlasts : u.kernel.Lasts v'.kernel := Run.lasts (.step (.run t') hr trivial h'.1) hq
  obtain ⟨_, hlends⟩ := h.lends
  obtain ⟨_, s', hs', hkey', -⟩ := h'.lends
  obtain ⟨s, hs, hkey, -⟩ := hlends.mono hlasts
  obtain rfl := Option.some.inj (hs.symm.trans hs')
  exact hkey.symm.trans hkey'

/-- What keeps sets of different kinds apart, whatever namespaces there are. Every key is the first
key of its namespace plus the offset of its kind, positive and within 31 bits, and it tells the kind
and the first key. Whatever set a thread of an endpoint makes or finds, it does so while it connects
the endpoint, as a set of one of the kinds, under the endpoint's key of that kind and with as many
semaphores as the kind has. Whoever opens a set under the key of a kind, nobody opens it later under
the key of another kind. -/
theorem kinds_kept_apart :
    (∀ (space : String) (dir : Path),
      (∀ kind, ((Keys.derive space dir).key kind).toInt =
          (Keys.derive space dir).base.toInt + kind.offset ∧
        0x10 ≤ ((Keys.derive space dir).key kind).toInt ∧
        ((Keys.derive space dir).key kind).toInt ≤ 0x7ffffff2) ∧
      ∀ r, (Keys.derive space dir).inbound r = (Keys.derive space dir).key (.outbound r.peer)) ∧
    (∀ (a b : String) (dir dir' : Path) (kind kind' : Keys.Kind),
      (Keys.derive a dir).key kind = (Keys.derive b dir').key kind' ↔
        kind = kind' ∧ (Keys.derive a dir).base = (Keys.derive b dir').base) ∧
    ∀ w, Reachable w →
      (∀ (t : ThreadId) (th : Thread) (e : EndpointId) (x : Endpoint) (key : Key) (count : Nat),
        w.threads[t]? = some th → th.origin.owner? = some e → w.endpoints[e]? = some x →
        th.next.opens? = some (key, count) → ∃ kind, th.opening? = some (⟨e, x.settings⟩, kind) ∧
          key = x.settings.keys.key kind ∧ count = kind.count) ∧
      ∀ (t t' : ThreadId) (a b : String) (dir dir' : Path) (kind kind' : Keys.Kind) (set : SetId)
        (u v v' : World), w.Opens t ((Keys.derive a dir).key kind) set u →
        Run (fun _ => True) u v → v.Opens t' ((Keys.derive b dir').key kind') set v' →
        kind = kind' ∧ (Keys.derive a dir).base = (Keys.derive b dir').base := by
  refine ⟨fun space dir => ⟨fun kind => ⟨Keys.key_toInt space dir kind,
    Keys.key_bounds space dir kind⟩, (Keys.derive space dir).inbound_eq⟩,
    fun a b dir dir' kind kind' => Keys.key_inj, fun w hr => ⟨?_, ?_⟩⟩
  · intro t th e x key count ht ho hx hopens
    have hshaped : th.Shaped := ((empty_keeps 0).run (queued_of_new rfl) hr).shaped th
      (List.mem_of_getElem? ht)
    have hfits : th.Fits ⟨e, x.settings⟩ (w.Late x.settings) := hr.fitted.fits ht ho fun y hy =>
      congrArg _ (Option.some.inj (hy.symm.trans hx))
    obtain ⟨kind, hkind⟩ := hshaped.opening hfits (by rw [hopens]; rfl)
    have hkey := hopens.symm.trans (Thread.opens_of_opening hkind)
    obtain ⟨rfl, rfl⟩ := Prod.mk.inj (Option.some.inj hkey)
    exact ⟨kind, hkind, rfl, rfl⟩
  · intro t t' a b dir dir' kind kind' set u v v' hu hv hv'
    have hreach : Reachable u := .step (.run t) hr trivial hu.1
    exact Keys.key_inj.mp (hu.key_eq hreach.queued hv hv')

/-- Somebody is about to make the mailbox set of a namespace. -/
def founding : World :=
  empty.play ([.make { Attributes.named "dsbj" with dir := ⟨"/"⟩ }, .operate 0 .accept] ++
    List.replicate 6 (.run 0))

/-- Somebody else is about to find it, under the keys of another namespace. -/
def joining : World :=
  (founding.play [.run 0]).play
    ([.make { Attributes.ofRole .client with space := "hrab", dir := ⟨"/"⟩ },
      .operate 1 .connect] ++ List.replicate 7 (.run 1))

theorem neighbours_share_mailbox : Reachable founding ∧
    (∃ th x kind, founding.threads[0]? = some th ∧ founding.endpoints[0]? = some x ∧
      th.next.opens? = some ((Keys.derive "dsbj" ⟨"/"⟩).mailbox, 3) ∧
      th.opening? = some (⟨0, x.settings⟩, kind)) ∧
    founding.Opens 0 ((Keys.derive "dsbj" ⟨"/"⟩).key .mailbox) 0 (founding.play [.run 0]) ∧
    Run (fun _ => True) (founding.play [.run 0]) joining ∧
    joining.Opens 1 ((Keys.derive "hrab" ⟨"/"⟩).key .mailbox) 0 (joining.play [.run 1]) ∧
    (Keys.derive "dsbj" ⟨"/"⟩).base = (Keys.derive "hrab" ⟨"/"⟩).base := by
  have hr : Reachable founding := Run.refl.play fun _ _ => trivial
  have hv : Run (fun _ => True) (founding.play [.run 0]) joining :=
    Run.refl.play fun _ _ => trivial
  have hu : founding.Opens 0 ((Keys.derive "dsbj" ⟨"/"⟩).key .mailbox) 0
      (founding.play [.run 0]) := ⟨rfl, _, _, _, _, rfl, rfl, rfl, rfl⟩
  have hv' : joining.Opens 1 ((Keys.derive "hrab" ⟨"/"⟩).key .mailbox) 0
      (joining.play [.run 1]) := ⟨rfl, _, _, _, _, rfl, rfl, rfl, rfl⟩
  obtain ⟨hplace, hkind⟩ := kinds_kept_apart.2.2 founding hr
  obtain ⟨kind, hopening, -⟩ := hplace 0 _ 0 _ _ _ rfl rfl rfl rfl
  exact ⟨hr, ⟨_, _, kind, rfl, rfl, rfl, hopening⟩, hu, hv, hv',
    (hkind 0 1 _ _ _ _ _ _ 0 _ _ _ hu hv hv').2⟩

end World

end QueuePair
