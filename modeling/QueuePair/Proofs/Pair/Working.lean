import QueuePair.Proofs.Pair.Dealing

namespace QueuePair

open World

namespace Pair

open Kernel (Shifts)

variable {P : Pair} {capacity : Nat} {w v : World} {t : ThreadId} {th' : Thread} {r : Role}
  {o : Task} {l : Link} {cs : List Callback} {queue : Direction → WorkQueue Job}

namespace Stride

theorem quiet_sender {a : Sender} (s : P.Stride w v t ⟨o, .sender (P.party r) l a, cs⟩ th')
    (hc : P.Calm capacity w v) (ha : a.Alike ((th'.task.sender? r).getD .fetch))
    (hs : ∀ r', r' ≠ r → th'.task.sender? r' = none) (hr : ∀ r', th'.task.receiver? r' = none)
    (hn : ∀ r d n, th'.numbers (P.id r) d n = 0)
    (hh : v.history = w.history ∨ ∃ e n, v.history = .noted e n :: w.history ∧
      ∀ r, (Event.noted e n).Aside (P.id r)) : P.Carries capacity w (v.putThread t th') := by
  refine s.quiet hc (fun r' => ?_) (fun r' => ?_) (fun r d n => by simp [hn]) hh
  · by_cases hrr : r' = r
    · subst hrr
      obtain ⟨hw, hv⟩ := s.sender_of (r := r') (a := a) (by simp)
      rw [hw, hv]
      exact ha
    · rw [s.sender_same (by rw [hs r' hrr, sender?_party, if_neg (Ne.symm hrr)])]
      exact .refl _
  · rw [s.receiver_same (hr r')]
    exact .refl _

theorem quiet_receiver {a : Receiver} (s : P.Stride w v t ⟨o, .receiver (P.party r) l a, cs⟩ th')
    (hc : P.Calm capacity w v) (ha : a.Alike ((th'.task.receiver? r).getD .await))
    (hs : ∀ r', th'.task.sender? r' = none) (hr : ∀ r', r' ≠ r → th'.task.receiver? r' = none)
    (hn : ∀ r d n, th'.numbers (P.id r) d n = 0)
    (hh : v.history = w.history ∨ ∃ e n, v.history = .noted e n :: w.history ∧
      ∀ r, (Event.noted e n).Aside (P.id r)) : P.Carries capacity w (v.putThread t th') := by
  refine s.quiet hc (fun r' => ?_) (fun r' => ?_) (fun r d n => by simp [hn]) hh
  · rw [s.sender_same (hs r')]
    exact .refl _
  · by_cases hrr : r' = r
    · subst hrr
      obtain ⟨hw, hv⟩ := s.receiver_of (r := r') (a := a) (by simp)
      rw [hw, hv]
      exact ha
    · rw [s.receiver_same (by rw [hr r' hrr, receiver?_party, if_neg (Ne.symm hrr)])]
      exact .refl _

theorem side_sender {a a' : Sender} {published : List Bytes}
    (s : P.Stride w v t ⟨o, .sender (P.party r) l a, []⟩ ⟨o, .sender (P.party r) l a', []⟩)
    (he : ∀ r', r' ≠ r → P.endpoint v r' = P.endpoint w r')
    (hq : (P.endpoint v r).queue = queue)
    (hx : (P.endpoint v r).nextSerial = (P.endpoint w r).nextSerial)
    (hp : (v.putThread t ⟨o, .sender (P.party r) l a', []⟩).published r = published)
    (hpo : ∀ r', r' ≠ r →
      (v.putThread t ⟨o, .sender (P.party r) l a', []⟩).published r' = w.published r')
    (hpr : ∀ r', (v.putThread t ⟨o, .sender (P.party r) l a', []⟩).processed r' = w.processed r') :
    P.side (v.putThread t ⟨o, .sender (P.party r) l a', []⟩) =
      Function.update (P.side w) r { P.side w r with queue, sender := a', published } := by
  refine s.sides (Side.ext hq hx ?_ ?_ ?_ hp (hpr r)) he (fun r' hne => ?_) (fun _ _ => rfl)
    (fun _ _ _ _ => rfl) hpo fun r' _ => hpr r'
  · funext d n
    exact s.posting r d n
  · exact (s.sender_of (r := r) (a := a) (by simp)).2.trans (by simp)
  · exact s.receiver_same rfl
  · simp [Ne.symm hne]

theorem side_receiver {a a' : Receiver} {processed : List (Except Error Bytes)}
    (s : P.Stride w v t ⟨o, .receiver (P.party r) l a, []⟩ ⟨o, .receiver (P.party r) l a', cs⟩)
    (hn : ∀ e d n, Thread.numbers e d n ⟨o, .receiver (P.party r) l a', cs⟩ = 0)
    (he : ∀ r', r' ≠ r → P.endpoint v r' = P.endpoint w r')
    (hq : (P.endpoint v r).queue = queue)
    (hx : (P.endpoint v r).nextSerial = (P.endpoint w r).nextSerial)
    (hp : (v.putThread t ⟨o, .receiver (P.party r) l a', cs⟩).processed r = processed)
    (hpo : ∀ r', r' ≠ r →
      (v.putThread t ⟨o, .receiver (P.party r) l a', cs⟩).processed r' = w.processed r')
    (hpr : ∀ r', (v.putThread t ⟨o, .receiver (P.party r) l a', cs⟩).published r' =
      w.published r') :
    P.side (v.putThread t ⟨o, .receiver (P.party r) l a', cs⟩) =
      Function.update (P.side w) r { P.side w r with queue, receiver := a', processed } := by
  refine s.sides (Side.ext hq hx ?_ ?_ ?_ (hpr r) hp) he (fun _ _ => rfl) (fun r' hne => ?_)
    (fun r' _ d n => hn (P.id r') d n) (fun r' _ => hpr r') hpo
  · funext d n
    have hp := s.posting r d n
    rw [hn] at hp
    exact hp
  · exact s.sender_same rfl
  · exact (s.receiver_of (r := r) (a := a) (by simp)).2.trans (by simp)
  · simp [Ne.symm hne]

theorem side_sends {a a' : Sender} {x : Endpoint} {q : WorkQueue Job}
    (s : P.Stride w v t ⟨o, .sender (P.party r) l a, []⟩ ⟨o, .sender (P.party r) l a', []⟩)
    (hx : w.endpoints[P.id r]? = some x)
    (he : v.endpoints = w.endpoints.set (P.id r) (x.withQueue .send q))
    (hh : v.history = w.history ∨ ∃ e n, v.history = .noted e n :: w.history) :
    P.side (v.putThread t ⟨o, .sender (P.party r) l a', []⟩) =
      Function.update (P.side w) r { P.side w r with
        queue := Function.update (P.side w r).queue .send q, sender := a' } := by
  have hend := endpoint_set hx he
  have hp : v.history = w.history ∨ ∃ ev, v.history = ev :: w.history ∧ ∀ f, ev.stored? f = none :=
    hh.imp_right fun ⟨e, n, hh⟩ => ⟨_, hh, fun _ => rfl⟩
  have hq : v.history = w.history ∨ ∃ ev, v.history = ev :: w.history ∧ ∀ f, ev.loaded? f = none :=
    hh.imp_right fun ⟨e, n, hh⟩ => ⟨_, hh, fun _ => rfl⟩
  refine s.side_sender (fun r' hne => by rw [hend, if_neg hne]) ?_ ?_ (s.published_same hp r)
    (fun r' _ => s.published_same hp r') (s.processed_same hq)
  · rw [hend, if_pos rfl, queue_update]
    simp only [side, endpoint_eq hx]
  · rw [hend, if_pos rfl, nextSerial_withQueue, endpoint_eq hx]

theorem side_receives {a a' : Receiver} {x : Endpoint} {q : WorkQueue Job}
    (s : P.Stride w v t ⟨o, .receiver (P.party r) l a, []⟩ ⟨o, .receiver (P.party r) l a', []⟩)
    (hx : w.endpoints[P.id r]? = some x)
    (he : v.endpoints = w.endpoints.set (P.id r) (x.withQueue .receive q))
    (hh : v.history = w.history ∨ ∃ e n, v.history = .noted e n :: w.history) :
    P.side (v.putThread t ⟨o, .receiver (P.party r) l a', []⟩) =
      Function.update (P.side w) r { P.side w r with
        queue := Function.update (P.side w r).queue .receive q, receiver := a' } := by
  have hend := endpoint_set hx he
  have hp : v.history = w.history ∨ ∃ ev, v.history = ev :: w.history ∧ ∀ f, ev.stored? f = none :=
    hh.imp_right fun ⟨e, n, hh⟩ => ⟨_, hh, fun _ => rfl⟩
  have hq : v.history = w.history ∨ ∃ ev, v.history = ev :: w.history ∧ ∀ f, ev.loaded? f = none :=
    hh.imp_right fun ⟨e, n, hh⟩ => ⟨_, hh, fun _ => rfl⟩
  refine s.side_receiver (fun _ _ _ => rfl) (fun r' hne => by rw [hend, if_neg hne]) ?_ ?_
    (s.processed_same hq r)
    (fun r' _ => s.processed_same hq r') (s.published_same hp)
  · rw [hend, if_pos rfl, queue_update]
    simp only [side, endpoint_eq hx]
  · rw [hend, if_pos rfl, nextSerial_withQueue, endpoint_eq hx]

end Stride

theorem deals_of_side {side : Role → Side} {file : File} {signal : Role → Nat}
    (hs : P.side v = side) (hf : P.boxFile v.kernel = file)
    (hg : (fun r => v.kernel.gauge P.keys (.signal r)) = signal)
    (hd : P.Deals capacity (P.traffic w) ⟨v.history, file, signal, side⟩) :
    P.Deals capacity (P.traffic w) (P.traffic v) := by
  subst hs hf hg
  exact hd

theorem queue_eq {x : Endpoint} (hx : w.endpoints[P.id r]? = some x) (d : Direction) :
    ((P.traffic w).side r).queue d = x.queue d :=
  congrArg (fun x : Endpoint => x.queue d) (endpoint_eq hx)

theorem Stride.side_step {a a' : Sender}
    (s : P.Stride w v t ⟨o, .sender (P.party r) l a, []⟩ ⟨o, .sender (P.party r) l a', []⟩)
    (he : v.endpoints = w.endpoints) (hh : v.history = w.history) :
    P.side (v.putThread t ⟨o, .sender (P.party r) l a', []⟩) =
      Function.update (P.side w) r { P.side w r with sender := a' } := by
  have hend : ∀ r', P.endpoint v r' = P.endpoint w r' := fun r' => by simp only [endpoint, he]
  exact s.side_sender (fun r' _ => hend r') (congrArg Endpoint.queue (hend r))
    (congrArg Endpoint.nextSerial (hend r)) (s.published_same (.inl hh) r)
    (fun r' _ => s.published_same (.inl hh) r') (s.processed_same (.inl hh))

theorem Stride.sends {a a' : Sender}
    (s : P.Stride w v t ⟨.sender (P.party r) l .fetch, .sender (P.party r) l a, []⟩
      ⟨.sender (P.party r) l .fetch, .sender (P.party r) l a', []⟩)
    (hl : P.Bound w.kernel r l) (hs : P.SenderFit r a) (hcap : (P.settings r).capacity = capacity)
    (hm : P.Sends r l w t a v a') :
    P.Carries capacity w
      (v.putThread t ⟨.sender (P.party r) l .fetch, .sender (P.party r) l a', []⟩) := by
  have hw : ((P.traffic w).side r).sender = a := (s.sender_of (r := r) (by simp)).1
  have hquiet : P.Calm capacity w v → v.history = w.history → a.Alike a' →
      P.Carries capacity w
        (v.putThread t ⟨.sender (P.party r) l .fetch, .sender (P.party r) l a', []⟩) :=
    fun hc hh ha => s.quiet_sender hc (by simpa using ha) (fun r' hne => by simp [Ne.symm hne])
      (fun _ => rfl) (fun _ _ _ => rfl) (.inl hh)
  cases hm with
  | @dry x q hx hq =>
    have hside := s.side_sends hx rfl (.inl rfl)
    refine ⟨?_, s.signed_after (.inl rfl), s.housed⟩
    exact deals_of_side hside rfl rfl (.dry hw (by rw [queue_eq hx]; exact hq))
  | @take x q slot job hx hq =>
    have hside := s.side_sends hx rfl (.inr ⟨_, _, rfl⟩)
    refine ⟨?_, s.signed_after (.inr ⟨_, rfl, (by rintro _ ⟨⟩)⟩), s.housed⟩
    exact deals_of_side hside rfl rfl (.take hw (by rw [queue_eq hx]; exact hq))
  | wake => exact hquiet (.refl w) rfl ⟨rfl, rfl, (by rintro _ ⟨⟩)⟩
  | takeVacancy hk | takeGate hk | giveGate hk =>
    exact hquiet (.of_shift hk (by rintro _ ⟨⟩)) rfl ⟨rfl, rfl, fun _ h => h⟩
  | @copy slot job =>
    have hworks : ∀ r',
        (Task.sender (P.party r) l .fetch).works .send r' = if r = r' then 1 else 0 := by
      simp [Task.works]
    have hpub := s.published_stored rfl
    have hside := s.side_sender (fun _ _ => rfl) rfl rfl 
      ((hpub r).trans (by rw [if_pos (by simp [hworks])]))
      (fun r' hne => (hpub r').trans (by simp [hworks, Ne.symm hne]))
      (s.processed_same (.inr ⟨_, rfl, fun _ => rfl⟩))
    have hfile := boxFile_modify (f := (Record.store · job.data.payload)) s.housed hl.box.file
    refine ⟨?_, s.signed_after (.inr ⟨_, rfl, ?_⟩), s.housed.modify⟩
    · have hpublish := Deals.publish (P := P) (t := t) (f := l.mailbox.file) hw
        (hcap ▸ hs.fits rfl) (s.law.transit_eq_zero s.thread rfl ?_ (by rintro _ _ ⟨⟩))
      · exact deals_of_side hside hfile rfl hpublish
      · intro r' b hb
        simp only [sender?_party, Option.ite_none_right_eq_some, Option.some.injEq] at hb
        rw [← hb.2]
        rfl
    · rintro u ⟨⟩
      rfl
  | @signal slot job k hk =>
    have hside := s.side_step rfl rfl
    refine ⟨?_, s.signed_after (.inl rfl), ?_⟩
    · have hsig : (fun r' => k.gauge P.keys (.signal r')) = Function.update
          (fun r' => w.kernel.gauge P.keys (.signal r')) r
            (w.kernel.gauge P.keys (.signal r) + 1) := by
        funext r'
        have hg := hk.gauge (.signal r')
        rw [Function.update_apply]
        split
        · rename_i hr
          subst hr
          rw [if_pos rfl] at hg
          omega
        · rename_i hr
          rw [if_neg (by simpa using hr)] at hg
          omega
      have hfile : P.boxFile k = P.boxFile w.kernel := by simp only [boxFile, hk.files]
      exact deals_of_side hside hfile hsig (.announce hw)
    · exact s.housed.of_files hk.files
  | @recycle slot x hx =>
    have hside := s.side_sends (q := x.sends.complete slot) hx rfl (.inl rfl)
    have hreuse : P.Deals capacity _ _ := .reuse hw
    rw [queue_eq hx .send] at hreuse
    exact ⟨deals_of_side hside rfl rfl hreuse, s.signed_after (.inl rfl), s.housed⟩

theorem recordOf_eq {m : Mailbox} (hb : P.Box w.kernel r m) :
    w.recordOf m.file m.capacity = Record.load (P.boxFile w.kernel) (P.settings r).capacity := by
  rw [World.recordOf, boxFile_eq hb.file, hb.capacity]

theorem Stride.side_hears {a a' : Receiver}
    (s : P.Stride w v t ⟨o, .receiver (P.party r) l a, []⟩ ⟨o, .receiver (P.party r) l a', []⟩)
    (he : v.endpoints = w.endpoints) (hh : v.history = w.history) :
    P.side (v.putThread t ⟨o, .receiver (P.party r) l a', []⟩) =
      Function.update (P.side w) r { P.side w r with receiver := a' } := by
  have hend : ∀ r', P.endpoint v r' = P.endpoint w r' := fun r' => by simp only [endpoint, he]
  exact s.side_receiver (fun _ _ _ => rfl) (fun r' _ => hend r') (congrArg Endpoint.queue (hend r))
    (congrArg Endpoint.nextSerial (hend r)) (s.processed_same (.inl hh) r)
    (fun r' _ => s.processed_same (.inl hh) r') (s.published_same (.inl hh))

theorem Stride.side_reads {a a' : Receiver} {file : FileId} {m : Except Error Bytes}
    (s : P.Stride w (w.record (.loaded t file m)) t
      ⟨.receiver (P.party r) l .await, .receiver (P.party r) l a, []⟩
      ⟨.receiver (P.party r) l .await, .receiver (P.party r) l a', []⟩) :
    P.side ((w.record (.loaded t file m)).putThread t
        ⟨.receiver (P.party r) l .await, .receiver (P.party r) l a', []⟩) =
      Function.update (P.side w) r { P.side w r with
        receiver := a', processed := (P.side w r).processed ++ [m] } := by
  have hworks : ∀ r', (Task.receiver (P.party r) l .await).works .receive r' =
      if r = r' then 1 else 0 := by
    simp [Task.works]
  have hread := s.processed_loaded (m := m) rfl
  exact s.side_receiver (fun _ _ _ => rfl) (fun _ _ => rfl) rfl rfl
    ((hread r).trans (by rw [if_pos (by simp [hworks])]; rfl))
    (fun r' hne => (hread r').trans (by simp [hworks, Ne.symm hne]))
    (s.published_same (.inr ⟨_, rfl, fun _ => rfl⟩))

theorem collected_alike (slot : Nat) (job : Job) (c : Mailbox.Collected) :
    (Receiver.collect slot job (.giveVacancy c)).Alike (.collected slot job c) := by
  simp only [Receiver.collected]
  cases hr : c.result with
  | ok n =>
    exact ⟨rfl, rfl, by simp [Receiver.pending, Mailbox.Collecting.read?, Receiver.handed, hr],
      fun _ h => h⟩
  | error e =>
    exact ⟨rfl, rfl, by simp [Receiver.pending, Mailbox.Collecting.read?, Receiver.handed, hr],
      fun _ h => h⟩

theorem Stride.receives {a a' : Receiver}
    (s : P.Stride w v t ⟨.receiver (P.party r) l .await, .receiver (P.party r) l a, []⟩
      ⟨.receiver (P.party r) l .await, .receiver (P.party r) l a', []⟩)
    (hl : P.Bound w.kernel r l) (hcap : (P.settings r).capacity = capacity)
    (hm : P.Receives r l w t a v a') :
    P.Carries capacity w
      (v.putThread t ⟨.receiver (P.party r) l .await, .receiver (P.party r) l a', []⟩) := by
  have hw : ((P.traffic w).side r).receiver = a := (s.receiver_of (r := r) (by simp)).1
  have hquiet : P.Calm capacity w v → v.history = w.history → a.Alike a' →
      P.Carries capacity w
        (v.putThread t ⟨.receiver (P.party r) l .await, .receiver (P.party r) l a', []⟩) :=
    fun hc hh ha => s.quiet_receiver hc (by simpa using ha) (fun _ => rfl)
      (fun r' hne => by simp [Ne.symm hne]) (fun _ _ _ => rfl) (.inl hh)
  have hrec : w.recordOf l.mailbox.file l.mailbox.capacity =
      Record.load (P.traffic w).file capacity := hcap ▸ recordOf_eq hl.box
  cases hm with
  | @await k hk =>
    have hside := s.side_hears rfl rfl
    have hg := hk.gauge (.signal r.peer)
    rw [if_pos rfl] at hg
    have hsig : (fun r' => k.gauge P.keys (.signal r')) = Function.update
        (fun r' => w.kernel.gauge P.keys (.signal r')) r.peer
          (k.gauge P.keys (.signal r.peer)) := by
      funext r'
      rw [Function.update_apply]
      split
      · rename_i hr
        rw [hr]
      · rename_i hr
        have hg' := hk.gauge (.signal r')
        rw [if_neg (by simpa using hr)] at hg'
        omega
    have hfile : P.boxFile k = P.boxFile w.kernel := by simp only [boxFile, hk.files]
    refine ⟨deals_of_side hside hfile hsig (.hear hw ?_), s.signed_after (.inl rfl),
      s.housed.of_files hk.files⟩
    change w.kernel.gauge P.keys (.signal r.peer) = _
    omega
  | @miss x q hx hq =>
    have hside := s.side_receives hx rfl (.inr ⟨_, _, rfl⟩)
    refine ⟨?_, s.signed_after (.inr ⟨_, rfl, (by rintro _ ⟨⟩)⟩), s.housed⟩
    exact deals_of_side hside rfl rfl (.miss hw (by rw [queue_eq hx]; exact hq))
  | @take x q slot job hx hq =>
    have hside := s.side_receives hx rfl (.inr ⟨_, _, rfl⟩)
    refine ⟨?_, s.signed_after (.inr ⟨_, rfl, (by rintro _ ⟨⟩)⟩), s.housed⟩
    exact deals_of_side hside rfl rfl (.find hw (by rw [queue_eq hx]; exact hq))
  | discard hc =>
    cases hc with
    | takeGate hk => exact hquiet (.of_shift hk (by rintro _ ⟨⟩)) rfl ⟨rfl, rfl, rfl, fun _ h => h⟩
    | giveGate hk => exact hquiet (.of_shift hk (by rintro _ ⟨⟩)) rfl ⟨rfl, rfl, rfl, fun _ h => h⟩
    | copy =>
      have hdiscard : P.Deals capacity _ _ := .discard (t := t) (f := l.mailbox.file) hw
      rw [← hrec] at hdiscard
      exact ⟨deals_of_side s.side_reads rfl rfl hdiscard,
        s.signed_after (.inr ⟨_, rfl, fun u hu => (Option.some.inj hu).symm⟩), s.housed⟩
  | discarded hc =>
    cases hc with
    | giveVacancy hk =>
      exact hquiet (.of_shift hk (by rintro _ ⟨⟩)) rfl ⟨rfl, rfl, rfl, fun _ h => h⟩
  | @collect slot job s₀ s₁ v hc =>
    cases hc with
    | takeGate hk => exact hquiet (.of_shift hk (by rintro _ ⟨⟩)) rfl ⟨rfl, rfl, rfl, fun _ h => h⟩
    | giveGate hk => exact hquiet (.of_shift hk (by rintro _ ⟨⟩)) rfl ⟨rfl, rfl, rfl, fun _ h => h⟩
    | copy =>
      have hcollect : P.Deals capacity _ _ := .collect (t := t) (f := l.mailbox.file) hw
      rw [← hrec] at hcollect
      exact ⟨deals_of_side s.side_reads rfl rfl hcollect,
        s.signed_after (.inr ⟨_, rfl, fun u hu => (Option.some.inj hu).symm⟩), s.housed⟩
  | collected hc =>
    cases hc with
    | giveVacancy hk => exact hquiet (.of_shift hk (by rintro _ ⟨⟩)) rfl (collected_alike _ _ _)
  | @recycle slot x hx =>
    have hside := s.side_receives (q := x.receives.complete slot) hx rfl (.inl rfl)
    have hrefill : P.Deals capacity _ _ := .refill hw
    rw [queue_eq hx .receive] at hrefill
    exact ⟨deals_of_side hside rfl rfl hrefill, s.signed_after (.inl rfl), s.housed⟩

end Pair

end QueuePair
