import QueuePair.Proofs.Atom

namespace QueuePair

open Relation (ReflTransGen)

namespace Kernel

structure Maintains (k k' : Kernel) : Prop where
  sets : k'.sets.map (fun s => (s.key, s.removed)) = k.sets.map (fun s => (s.key, s.removed))
  files : k'.files = k.files

theorem Maintains.refl (k : Kernel) : k.Maintains k := ⟨rfl, rfl⟩

theorem maintains_putSet {k : Kernel} {set : SetId} {s s' : SemaphoreSet}
    (hs : k.live? set = some s) (hkey : s'.key = s.key) (hr : s'.removed = s.removed) :
    k.Maintains (k.putSet set s') := by
  refine ⟨?_, rfl⟩
  have hset : (k.sets.map fun s => (s.key, s.removed))[set]? = some (s.key, s.removed) := by
    simp [(live?_eq_some.mp hs).1]
  obtain ⟨hlt, he⟩ := List.getElem?_eq_some_iff.mp hset
  simp only [putSet, List.map_set, hkey, hr]
  exact he ▸ List.set_getElem_self hlt

end Kernel

namespace World

variable {allowed : Input → Prop} {w v : World} {t : ThreadId}

theorem set_of_getElem? {α : Type} {l : List α} {i : Nat} {a : α} (h : l[i]? = some a) :
    l.set i a = l := by
  obtain ⟨hi, rfl⟩ := List.getElem?_eq_some_iff.mp h
  exact List.set_getElem_self hi

theorem modify_of_getElem? {α : Type} {l : List α} {i : Nat} {a : α} {f : α → α}
    (h : l[i]? = some a) : l.modify i f = l.set i (f a) := by
  obtain ⟨hi, rfl⟩ := List.getElem?_eq_some_iff.mp h
  apply List.ext_getElem?
  intro j
  by_cases hj : i = j
  · subst hj
    simp [hi]
  · simp [hj]

theorem complete_eq {th : Thread} {set : SetId} {changes : List Change} {d : Option Instant}
    {next : Except Error Unit → Thread}
    (h : th.next = .perform (.system (.change set changes d)) next)
    (r : Except Error Unit) : th.complete r = next r := by
  simp only [Thread.complete, h]

theorem change_inj {set set' : SetId} {changes changes' : List Change} {d d' : Option Instant}
    {next next' : Except Error Unit → Thread}
    (h : Move.perform (.system (.change set changes d)) next =
      .perform (.system (.change set' changes' d')) next') : set = set' ∧ changes = changes' := by
  cases h
  exact ⟨rfl, rfl⟩

theorem complete_getElem? (ends : List Completion) (ths : List Thread) (u : ThreadId)
    (h : ∀ c ∈ ends, c.thread ≠ u) :
    (ends.foldl (fun ths c => ths.modify c.thread (·.complete c.result)) ths)[u]? = ths[u]? := by
  induction ends generalizing ths with
  | nil => rfl
  | cons c ends ih =>
    rw [List.foldl_cons, ih _ (fun d hd => h d (by simp [hd])),
      List.getElem?_modify_ne _ _ (h c (by simp))]

theorem complete_set (ends : List Completion) (ths : List Thread) (u : ThreadId) (th : Thread)
    (h : ∀ c ∈ ends, c.thread ≠ u) :
    ends.foldl (fun ths c => ths.modify c.thread (·.complete c.result)) (ths.set u th) =
      (ends.foldl (fun ths c => ths.modify c.thread (·.complete c.result)) ths).set u th := by
  induction ends generalizing ths with
  | nil => rfl
  | cons c ends ih =>
    have hc : c.thread ≠ u := h c (by simp)
    have hm : (ths.set u th).modify c.thread (·.complete c.result) =
        (ths.modify c.thread (·.complete c.result)).set u th := by
      apply List.ext_getElem?
      intro j
      by_cases hj : u = j
      · subst hj
        simp [List.getElem?_modify_ne _ _ hc, List.getElem?_set]
      · rw [List.getElem?_set_ne hj, List.getElem?_modify, List.getElem?_modify,
          List.getElem?_set_ne hj]
    rw [List.foldl_cons, List.foldl_cons, hm, ih _ (fun d hd => h d (by simp [hd]))]

theorem thread_ne_of_erase {ws : List Waiter} {q : Waiter} (hn : (ws.map (·.thread)).Nodup)
    (hq : q ∈ ws) : ∀ r ∈ ws.erase q, q.thread ≠ r.thread := by
  intro r hr he
  have hp := ((List.perm_cons_erase hq).map (·.thread)).nodup_iff.mp hn
  simp only [List.map_cons, List.nodup_cons, List.mem_map, not_exists, not_and] at hp
  exact hp.1 r hr he.symm

/-- What every served waiter keeps is kept by serving a queue. -/
theorem serves_induction {m : World → Prop} {set : SetId} {s : SemaphoreSet}
    {values after : List Nat} {ws rest : List Waiter} {ends : List Completion}
    (h : SemaphoreSet.Serves values ws after rest ends) (hs : w.kernel.live? set = some s)
    (hv : s.values = values) (hn : (ws.map (·.thread)).Nodup)
    (hw : ∀ q ∈ ws, ∃ th d next, w.threads[q.thread]? = some th ∧
      th.next = .perform (.system (.change set q.changes d)) next)
    (hgrant : ∀ {x : World} {q : Waiter} {th : Thread} {d : Option Instant}
      {next : Except Error Unit → Thread} {s : SemaphoreSet} {values : List Nat}, q ∈ ws → m x →
      x.threads[q.thread]? = some th → th.next = .perform (.system (.change set q.changes d)) next →
      x.kernel.live? set = some s → attempt s.values q.changes = .done values →
      m (({ x with kernel := x.kernel.putSet set { s with values } }).putThread q.thread
        (next (.ok ()))))
    (hrefuse : ∀ {x : World} {q : Waiter} {th : Thread} {d : Option Instant}
      {next : Except Error Unit → Thread} {s : SemaphoreSet}, q ∈ ws → m x →
      x.threads[q.thread]? = some th → th.next = .perform (.system (.change set q.changes d)) next →
      x.kernel.live? set = some s → attempt s.values q.changes = .overflows →
      m (x.putThread q.thread (next (.error (.ofSystem .outOfRange)))))
    (hm : m w) :
    m (({ w with kernel := w.kernel.putSet set { s with values := after } }).complete ends) := by
  induction h generalizing w s with
  | stop values ws =>
    obtain ⟨hset, -⟩ := Kernel.live?_eq_some.mp hs
    have he : w.kernel.putSet set { s with values } = w.kernel := by
      subst hv
      simp [Kernel.putSet, set_of_getElem? hset]
    rw [he]
    exact hm
  | grant q hq ha hserve ih =>
    rename_i values next after ws rest ends
    obtain ⟨hset, hl⟩ := Kernel.live?_eq_some.mp hs
    obtain ⟨hlt, -⟩ := List.getElem?_eq_some_iff.mp hset
    obtain ⟨th, d, nx, hth, hnext⟩ := hw q hq
    have hn' := hn.sublist (List.erase_sublist.map _ : ((ws.erase q).map (·.thread)).Sublist _)
    have hne := thread_ne_of_erase hn hq
    have hgo := ih (w :=
      ({ w with kernel := w.kernel.putSet set { s with values := next } }).putThread
      q.thread (nx (.ok ()))) (s := { s with values := next })
      (Kernel.live?_eq_some.mpr ⟨by simp [putThread, Kernel.putSet, hlt], hl⟩) rfl hn' (by
        intro r hr
        obtain ⟨th', d', nx', hth', hnext'⟩ := hw r (List.mem_of_mem_erase hr)
        exact ⟨th', d', nx', by simpa [putThread, hne r hr] using hth', hnext'⟩)
      (fun hr => hgrant (List.mem_of_mem_erase hr)) (fun hr => hrefuse (List.mem_of_mem_erase hr))
      (hgrant hq hm hth hnext hs (by rw [hv]; exact ha))
    have he : ({ ({ w with kernel := w.kernel.putSet set { s with values := next } }).putThread
          q.thread (nx (.ok ())) with
          kernel := (({ w with kernel := w.kernel.putSet set { s with values := next } }).putThread
            q.thread (nx (.ok ()))).kernel.putSet set { s with values := after } } :
              World).complete ends =
        ({ w with kernel := w.kernel.putSet set { s with values := after } } : World).complete
          (⟨q.thread, .ok ()⟩ :: ends) := by
      simp [complete, putThread, Kernel.putSet, modify_of_getElem? hth, complete_eq hnext]
    rw [← he]
    exact hgo
  | refuse q hq ha hserve ih =>
    rename_i values after ws rest ends
    obtain ⟨th, d, nx, hth, hnext⟩ := hw q hq
    have hn' := hn.sublist (List.erase_sublist.map _ : ((ws.erase q).map (·.thread)).Sublist _)
    have hne := thread_ne_of_erase hn hq
    have hgo := ih (w := w.putThread q.thread (nx (.error (.ofSystem .outOfRange)))) (s := s)
      hs hv hn' (by
        intro r hr
        obtain ⟨th', d', nx', hth', hnext'⟩ := hw r (List.mem_of_mem_erase hr)
        exact ⟨th', d', nx', by simpa [putThread, hne r hr] using hth', hnext'⟩)
      (fun hr => hgrant (List.mem_of_mem_erase hr)) (fun hr => hrefuse (List.mem_of_mem_erase hr))
      (hrefuse hq hm hth hnext hs (by rw [hv]; exact ha))
    have he : ({ w.putThread q.thread (nx (.error (.ofSystem .outOfRange))) with
          kernel := (w.putThread q.thread (nx (.error (.ofSystem .outOfRange)))).kernel.putSet set
            { s with values := after } } : World).complete ends =
        ({ w with kernel := w.kernel.putSet set { s with values := after } } : World).complete
          (⟨q.thread, .error (.ofSystem .outOfRange)⟩ :: ends) := by
      simp [complete, putThread, modify_of_getElem? hth, complete_eq hnext]
    rw [← he]
    exact hgo

theorem Alike.maintains (h : w.Alike v) : w.kernel.Maintains v.kernel where
  sets := by simpa [Function.comp_def] using congrArg (List.map fun s => (s.key, s.removed)) h.sets
  files := h.files

def Ripple (allowed : Input → Prop) (w v : World) : Prop :=
  Atom allowed w v ∧ w.kernel.Maintains v.kernel

def Steps (allowed : Input → Prop) (w v : World) : Prop :=
  ∃ u, (u = w ∨ Atom allowed w u) ∧ ReflTransGen (Ripple allowed) u v

theorem Steps.of_atom (h : Atom allowed w v) : Steps allowed w v :=
  ⟨v, .inr h, .refl⟩

theorem Steps.of_ripples (h : ReflTransGen (Ripple allowed) w v) : Steps allowed w v :=
  ⟨w, .inl rfl, h⟩

theorem Steps.atoms (h : Steps allowed w v) : ReflTransGen (Atom allowed) w v := by
  obtain ⟨u, hu, hv⟩ := h
  have hchain : ReflTransGen (Atom allowed) u v := hv.lift id fun _ _ h => h.1
  obtain rfl | hu := hu
  · exact hchain
  · exact .head hu hchain

theorem gone_ripples {set : SetId} {ws : List Waiter} (hs : w.kernel.live? set = none)
    (hn : (ws.map (·.thread)).Nodup)
    (hw : ∀ q ∈ ws, ∃ th d next, w.threads[q.thread]? = some th ∧
      th.next = .perform (.system (.change set q.changes d)) next) :
    ReflTransGen (Ripple allowed) w
      (w.complete (ws.map fun q => ⟨q.thread, .error .connectionClosed⟩)) := by
  induction ws generalizing w with
  | nil => exact .refl
  | cons q ws ih =>
    obtain ⟨th, d, nx, hth, hnext⟩ := hw q (by simp)
    simp only [List.map_cons, List.nodup_cons, List.mem_map, not_exists, not_and] at hn
    have hstep : Ripple allowed w (w.putThread q.thread (nx (.error .connectionClosed))) :=
      ⟨.act hth hnext (.gone hs), .refl _⟩
    refine .head hstep ?_
    have hgo := ih (w := w.putThread q.thread (nx (.error .connectionClosed))) hs hn.2 (by
      intro r hr
      obtain ⟨th', d', nx', hth', hnext'⟩ := hw r (by simp [hr])
      have hne : q.thread ≠ r.thread := fun he => hn.1 r hr he.symm
      exact ⟨th', d', nx', by simpa [putThread, hne] using hth', hnext'⟩)
    have he : (w.putThread q.thread (nx (.error .connectionClosed))).complete
          (ws.map fun q => ⟨q.thread, .error .connectionClosed⟩) =
        w.complete ((q :: ws).map fun q => ⟨q.thread, .error .connectionClosed⟩) := by
      simp [complete, putThread, modify_of_getElem? hth, complete_eq hnext]
    rw [← he]
    exact hgo

def wakeFirst (w : World) (e : EndpointId) (n : Nat) : World :=
  { w with threads := w.threads.mapIdx fun i th => if i < n then th.wake e else th }

theorem wakeFirst_succ (e : EndpointId) (n : Nat) :
    w.wakeFirst e (n + 1) =
      { w.wakeFirst e n with threads := (w.wakeFirst e n).threads.modify n (·.wake e) } := by
  simp only [wakeFirst, World.mk.injEq, true_and, and_true]
  apply List.ext_getElem?
  intro j
  simp only [List.getElem?_mapIdx, List.getElem?_modify]
  cases w.threads[j]? with
  | none => simp
  | some th =>
    by_cases hj : n = j
    · subst hj
      simp
    · have hlt : j < n + 1 ↔ j < n := by omega
      simp [hj, hlt]

theorem wakeFirst_ripples (e : EndpointId) (n : Nat) :
    ReflTransGen (Ripple allowed) w (w.wakeFirst e n) := by
  induction n with
  | zero =>
    have he : w.wakeFirst e 0 = w := by
      have hm : w.threads.mapIdx (fun _ th => th) = w.threads := by
        apply List.ext_getElem?
        simp
      simp [wakeFirst, hm]
    rw [he]
  | succ n ih =>
    refine ih.trans ?_
    rw [wakeFirst_succ]
    generalize w.wakeFirst e n = u
    cases hth : u.threads[n]? with
    | none =>
      rw [List.modify_eq_self (List.getElem?_eq_none_iff.mp hth)]
    | some th =>
      rw [modify_of_getElem? hth]
      unfold Thread.wake
      split
      · rename_i e' d next hnext
        split
        · exact .single ⟨.act hth hnext .notified, .refl _⟩
        · rw [set_of_getElem? hth]
      · rw [set_of_getElem? hth]

theorem wake_ripples (e : EndpointId) : ReflTransGen (Ripple allowed) w (w.wake e) := by
  have he : w.wakeFirst e w.threads.length = w.wake e := by
    simp only [wakeFirst, wake, World.mk.injEq, true_and, and_true]
    apply List.ext_getElem?
    intro j
    simp only [List.getElem?_mapIdx, List.getElem?_map]
    cases hj : w.threads[j]? with
    | none => rfl
    | some th =>
      obtain ⟨hlt, -⟩ := List.getElem?_eq_some_iff.mp hj
      simp [hlt]
  rw [← he]
  exact wakeFirst_ripples e _

/-- What a step of a thread is. -/
theorem step_cases (h : w.step t = some v) :
    ∃ th, w.threads[t]? = some th ∧ w.kernel.holds t = false ∧
      ((∃ (α : Type) (p : Primitive α) (next : α → Thread), th.next = .perform p next ∧
          (w.perform t p = .queued v ∨ ∃ u a, w.perform t p = .done u a ∧
            v = u.putThread t (next a))) ∨
        (∃ p i after, th.next = .invoke p i after ∧
          v = (w.invoke p i).1.putThread t (after.push (w.invoke p i).2)) ∨
        (th.next = .panic ∧ v = w.panic t th)) := by
  unfold step at h
  split at h
  · cases h
  · rename_i th hth
    split at h
    · cases h
    · rename_i hh
      refine ⟨th, hth, by simpa using hh, ?_⟩
      split at h
      · rename_i α p next hnext
        split at h
        · cases h
        · rename_i u hp
          cases h
          exact .inl ⟨α, p, next, hnext, .inl hp⟩
        · rename_i u a hp
          cases h
          exact .inl ⟨α, p, next, hnext, .inr ⟨u, a, hp, rfl⟩⟩
      · rename_i p i after hnext
        cases h
        exact .inr (.inl ⟨p, i, after, hnext, rfl⟩)
      · rename_i hnext
        cases h
        exact .inr (.inr ⟨hnext, rfl⟩)
      · cases h

theorem change_cases (k : Kernel) (set : SetId) (changes : List Change) :
    (k.live? set = none ∧ k.change t set changes = ⟨k, [], some (.error .connectionClosed)⟩) ∨
    ∃ s, k.live? set = some s ∧
      ((∃ values, attempt s.values changes = .done values ∧
          k.change t set changes = ⟨k.putSet set (s.assign values).1, (s.assign values).2,
            some (.ok ())⟩) ∨
        (attempt s.values changes = .overflows ∧
          k.change t set changes = ⟨k, [], some (.error (.ofSystem .outOfRange))⟩) ∨
        (attempt s.values changes = .blocks ∧
          k.change t set changes = ⟨k.putSet set (s.enqueue t changes), [], none⟩)) := by
  unfold Kernel.change
  cases k.live? set with
  | none => exact .inl ⟨rfl, rfl⟩
  | some s =>
    refine .inr ⟨s, rfl, ?_⟩
    cases h : attempt s.values changes with
    | done values => exact .inl ⟨values, rfl, by simp [h]⟩
    | overflows => exact .inr (.inl ⟨rfl, by simp [h]⟩)
    | blocks => exact .inr (.inr ⟨rfl, by simp [h]⟩)

theorem thread_ne {set : SetId} {s : SemaphoreSet} {q : Waiter}
    (hs : w.kernel.sets[set]? = some s) (hq : q ∈ s.waiters) (hh : w.kernel.holds t = false) :
    q.thread ≠ t := by
  rintro rfl
  rw [holds_iff.mpr ⟨set, s, q, hs, hq, rfl⟩] at hh
  cases hh

/-- What every served thread keeps is kept by a change that can be made. -/
theorem assign_induction {m : World → Prop} {set : SetId} {s : SemaphoreSet} {values : List Nat}
    {th : Thread} {changes : List Change} {d : Option Instant} {next : Except Error Unit → Thread}
    (hq : w.Queued) (hth : w.threads[t]? = some th) (hh : w.kernel.holds t = false)
    (hnext : th.next = .perform (.system (.change set changes d)) next)
    (hs : w.kernel.live? set = some s) (ha : attempt s.values changes = .done values)
    (hgrant : ∀ {x : World} {u : ThreadId} {th : Thread} {changes : List Change}
      {d : Option Instant} {next : Except Error Unit → Thread} {s : SemaphoreSet}
      {values : List Nat}, m x → x.threads[u]? = some th →
      th.next = .perform (.system (.change set changes d)) next → x.kernel.live? set = some s →
      attempt s.values changes = .done values →
      m (({ x with kernel := x.kernel.putSet set { s with values } }).putThread u (next (.ok ()))))
    (hrefuse : ∀ {x : World} {q : Waiter} {th : Thread} {d : Option Instant}
      {next : Except Error Unit → Thread} {r : SemaphoreSet}, q ∈ s.waiters → m x →
      x.threads[q.thread]? = some th → th.next = .perform (.system (.change set q.changes d)) next →
      x.kernel.live? set = some r → attempt r.values q.changes = .overflows →
      m (x.putThread q.thread (next (.error (.ofSystem .outOfRange)))))
    (halike : ∀ {x y : World}, m x → x.Alike y → m y) (hm : m w) :
    m ((({ w with kernel := w.kernel.putSet set (s.assign values).1 } : World).complete
      (s.assign values).2).putThread t (next (.ok ()))) := by
  obtain ⟨hset, hl⟩ := Kernel.live?_eq_some.mp hs
  obtain ⟨hlt, -⟩ := List.getElem?_eq_some_iff.mp hset
  have hserve := SemaphoreSet.serves_serve s.waiters.length values s.waiters
  have hn := hq.nodup hset
  have hlive : (w.kernel.putSet set { s with values }).live? set = some { s with values } :=
    Kernel.live?_eq_some.mpr ⟨by simp [Kernel.putSet, hlt], hl⟩
  have hgo := serves_induction (m := m)
    (w := ({ w with kernel := w.kernel.putSet set { s with values } }).putThread t (next (.ok ())))
    hserve hlive rfl hn (by
      intro q hqm
      obtain ⟨th', d', nx', hth', hnext'⟩ := hq.waits hset hqm
      have hne : t ≠ q.thread := fun he => thread_ne hset hqm hh he.symm
      exact ⟨th', d', nx', by simpa [putThread, hne] using hth', hnext'⟩)
    (fun _ => hgrant) hrefuse (hgrant hm hth hnext hs ha)
  have hne : ∀ c ∈ (s.assign values).2, c.thread ≠ t := by
    intro c hc
    obtain ⟨⟨q, hqm, hqc⟩, -⟩ := hserve.thread_not_mem hn c hc
    rw [← hqc]
    exact thread_ne hset hqm hh
  refine halike hgo ?_
  constructor
  · simp [complete, putThread, Kernel.putSet, SemaphoreSet.assign, List.map_set]
  · simp [complete, putThread, Kernel.putSet]
  · simp [complete, putThread, Kernel.putSet]
  · simp [complete, putThread]
  · simp only [complete, putThread]
    exact (complete_set _ _ _ _ hne).symm
  · simp [complete, putThread]
  · simp [complete, putThread]

theorem assign_ripples {set : SetId} {s : SemaphoreSet} {values : List Nat} {th : Thread}
    {changes : List Change} {d : Option Instant} {next : Except Error Unit → Thread}
    (hq : w.Queued) (hth : w.threads[t]? = some th) (hh : w.kernel.holds t = false)
    (hnext : th.next = .perform (.system (.change set changes d)) next)
    (hs : w.kernel.live? set = some s) (ha : attempt s.values changes = .done values) :
    ReflTransGen (Ripple allowed) w
      ((({ w with kernel := w.kernel.putSet set (s.assign values).1 } : World).complete
        (s.assign values).2).putThread t (next (.ok ()))) :=
  assign_induction (m := ReflTransGen (Ripple allowed) w) hq hth hh hnext hs ha
    (fun hm hth hnext hs ha =>
      hm.tail ⟨.act hth hnext (.grant hs ha), Kernel.maintains_putSet hs rfl rfl⟩)
    (fun _ hm hth hnext hs ha => hm.tail ⟨.act hth hnext (.overflow hs ha), .refl _⟩)
    (fun hm he => hm.tail ⟨.settle he, he.maintains⟩) .refl

/-- Removing a set and ending all waits in its queue. -/
theorem remove_steps {set : SetId} {s : SemaphoreSet} {th : Thread}
    {next : Except Error Unit → Thread} (hq : w.Queued) (hth : w.threads[t]? = some th)
    (hh : w.kernel.holds t = false) (hnext : th.next = .perform (.system (.removeSet set)) next)
    (hs : w.kernel.live? set = some s) :
    Steps allowed w
      ((({ w with kernel := w.kernel.putSet set s.remove.1 } : World).complete
        s.remove.2).putThread t (next (.ok ()))) := by
  obtain ⟨hset, hl⟩ := Kernel.live?_eq_some.mp hs
  obtain ⟨hlt, -⟩ := List.getElem?_eq_some_iff.mp hset
  have hcall : w.kernel.call t (.removeSet set) =
      ⟨w.kernel.putSet set s.remove.1, s.remove.2, some (.ok ())⟩ := by
    simp [Kernel.call, Kernel.removeSet, hs]
  refine ⟨_, .inr (.act hth hnext (.system rfl hcall)), ?_⟩
  have hgone : (w.kernel.putSet set s.remove.1).live? set = none := by
    simp [Kernel.live?, Kernel.putSet, hlt, SemaphoreSet.remove]
  have hgo : ReflTransGen (Ripple allowed) _ _ := gone_ripples
    (w := ({ w with kernel := w.kernel.putSet set s.remove.1 } : World).putThread t (next (.ok ())))
    hgone
    (hq.nodup hset) (by
      intro q hqm
      obtain ⟨th', d', nx', hth', hnext'⟩ := hq.waits hset hqm
      have hne : t ≠ q.thread := fun he => thread_ne hset hqm hh he.symm
      exact ⟨th', d', nx', by simpa [putThread, hne] using hth', hnext'⟩)
  have he : ((({ w with kernel := w.kernel.putSet set s.remove.1 } : World).complete
      s.remove.2).putThread t (next (.ok ()))) =
      (({ w with kernel := w.kernel.putSet set s.remove.1 } : World).putThread t
        (next (.ok ()))).complete
          (s.waiters.map fun q => ⟨q.thread, .error .connectionClosed⟩) := by
    simp only [complete, putThread, World.mk.injEq, true_and, and_true]
    refine (complete_set _ _ _ _ fun c hc => ?_).symm
    obtain ⟨q, hqm, rfl⟩ := List.mem_map.mp hc
    exact thread_ne hset hqm hh
  rw [he]
  exact hgo

/-- Queues stay in order when they only shrink and nobody who is left in them is moved. -/
theorem Queued.keep (hq : w.Queued)
    (h : ∀ (set : SetId) (s' : SemaphoreSet), v.kernel.sets[set]? = some s' → s'.waiters = [] ∨
      ∃ s : SemaphoreSet, w.kernel.sets[set]? = some s ∧ s'.removed = s.removed ∧
      s'.waiters.Sublist s.waiters ∧
        ∀ q ∈ s'.waiters, attempt s'.values q.changes = .blocks ∧
          v.threads[q.thread]? = w.threads[q.thread]?) : v.Queued where
  waits := by
    intro set s' q hs' hm
    rcases h set s' hs' with h0 | ⟨s, hs, -, hsub, hw⟩
    · simp [h0] at hm
    · rw [(hw q hm).2]
      exact hq.waits hs (hsub.subset hm)
  nodup := by
    intro set s' hs'
    rcases h set s' hs' with h0 | ⟨s, hs, -, hsub, -⟩
    · simp [h0]
    · exact (hq.nodup hs).sublist (hsub.map _)
  blocks := by
    intro set s' q hs' hm
    rcases h set s' hs' with h0 | ⟨s, hs, -, -, hw⟩
    · simp [h0] at hm
    · exact (hw q hm).1
  gone := by
    intro set s' hs' hr
    rcases h set s' hs' with h0 | ⟨s, hs, he, hsub, -⟩
    · exact h0
    · have h0 := hq.gone hs (he ▸ hr)
      exact List.sublist_nil.mp (h0 ▸ hsub)

theorem Queued.of_sets_eq (hq : w.Queued) (hk : v.kernel.sets = w.kernel.sets)
    (ht : ∀ u, w.kernel.holds u = true → v.threads[u]? = w.threads[u]?) : v.Queued :=
  hq.keep fun set s' hs' => .inr ⟨s', hk ▸ hs', rfl, List.Sublist.refl _, fun q hm =>
    ⟨hq.blocks (hk ▸ hs') hm, ht _ (holds_iff.mpr ⟨set, s', q, hk ▸ hs', hm, rfl⟩)⟩⟩

theorem Queued.putThread (hq : w.Queued) (hh : w.kernel.holds t = false) (th : Thread) :
    (w.putThread t th).Queued :=
  hq.of_sets_eq rfl fun u hu => by
    have hne : t ≠ u := by
      rintro rfl
      rw [hh] at hu
      cases hu
    simp [World.putThread, hne]

theorem Queued.of_kernel (hq : w.Queued) {k : Kernel} {key : Key} {count : Nat}
    (hk : k.sets = w.kernel.sets ∨ k.sets = w.kernel.sets ++ [.create key count]) :
    ({ w with kernel := k } : World).Queued := by
  rcases hk with hk | hk
  · exact hq.of_sets_eq hk fun _ _ => rfl
  · refine hq.keep fun set s' hs' => ?_
    simp only [hk, List.getElem?_append] at hs'
    split at hs'
    · exact .inr ⟨s', hs', rfl, List.Sublist.refl _, fun q hm => ⟨hq.blocks hs' hm, rfl⟩⟩
    · left
      rw [List.getElem?_singleton] at hs'
      split at hs'
      · cases hs'
        rfl
      · cases hs'

theorem wake_of_change {th : Thread} {set : SetId} {changes : List Change} {d : Option Instant}
    {next : Except Error Unit → Thread}
    (h : th.next = .perform (.system (.change set changes d)) next)
    (e : EndpointId) : th.wake e = th := by
  simp only [Thread.wake, h]

theorem Queued.wake (hq : w.Queued) (e : EndpointId) : (w.wake e).Queued :=
  hq.of_sets_eq rfl fun u hu => by
    obtain ⟨set, s, q, hs, hm, rfl⟩ := holds_iff.mp hu
    obtain ⟨th, d, next, hth, hnext⟩ := hq.waits hs hm
    simp [World.wake, hth, wake_of_change hnext]

theorem Queued.assign {set : SetId} {s : SemaphoreSet} (hq : w.Queued)
    (hs : w.kernel.live? set = some s) (values : List Nat) :
    (({ w with kernel := w.kernel.putSet set (s.assign values).1 } : World).complete
      (s.assign values).2).Queued := by
  obtain ⟨hset, hl⟩ := Kernel.live?_eq_some.mp hs
  have hserve := SemaphoreSet.serves_serve s.waiters.length values s.waiters
  have hn := hq.nodup hset
  have hends := hserve.thread_not_mem hn
  refine hq.keep fun i s' hs' => ?_
  simp only [complete, Kernel.putSet, List.getElem?_set] at hs'
  split at hs'
  · rename_i hi
    subst hi
    split at hs'
    · cases hs'
      refine .inr ⟨s, hset, rfl, hserve.sublist, fun q hm => ⟨?_, ?_⟩⟩
      · exact SemaphoreSet.serve_blocks _ values s.waiters (Nat.le_refl _) q hm
      · exact complete_getElem? _ _ _ fun c hc => ((hends c hc).2 q hm).symm
    · cases hs'
  · rename_i hi
    refine .inr ⟨s', hs', rfl, List.Sublist.refl _, fun q hm => ⟨hq.blocks hs' hm, ?_⟩⟩
    refine complete_getElem? _ _ _ fun c hc hcq => hi ?_
    obtain ⟨⟨r, hr, hrc⟩, -⟩ := hends c hc
    obtain ⟨th, d, next, hth, hnext⟩ := hq.waits hset hr
    obtain ⟨th', d', next', hth', hnext'⟩ := hq.waits hs' hm
    rw [hrc, hcq, hth'] at hth
    cases hth
    exact (change_inj (hnext.symm.trans hnext')).1

theorem Queued.remove {set : SetId} {s : SemaphoreSet} (hq : w.Queued)
    (hs : w.kernel.live? set = some s) :
    (({ w with kernel := w.kernel.putSet set s.remove.1 } : World).complete s.remove.2).Queued := by
  obtain ⟨hset, hl⟩ := Kernel.live?_eq_some.mp hs
  refine hq.keep fun i s' hs' => ?_
  simp only [complete, Kernel.putSet, List.getElem?_set] at hs'
  split at hs'
  · split at hs'
    · cases hs'
      exact .inl rfl
    · cases hs'
  · rename_i hi
    refine .inr ⟨s', hs', rfl, List.Sublist.refl _, fun q hm => ⟨hq.blocks hs' hm, ?_⟩⟩
    refine complete_getElem? _ _ _ fun c hc hcq => hi ?_
    obtain ⟨r, hr, rfl⟩ := List.mem_map.mp hc
    obtain ⟨th, d, next, hth, hnext⟩ := hq.waits hset hr
    obtain ⟨th', d', next', hth', hnext'⟩ := hq.waits hs' hm
    rw [show r.thread = q.thread from hcq, hth'] at hth
    cases hth
    exact (change_inj (hnext.symm.trans hnext')).1

theorem Queued.enqueue {set : SetId} {s : SemaphoreSet} {th : Thread} {changes : List Change}
    {d : Option Instant} {next : Except Error Unit → Thread} (hq : w.Queued)
    (hth : w.threads[t]? = some th) (hh : w.kernel.holds t = false)
    (hnext : th.next = .perform (.system (.change set changes d)) next)
    (hs : w.kernel.live? set = some s) (ha : attempt s.values changes = .blocks) :
    ({ w with kernel := w.kernel.putSet set (s.enqueue t changes) } : World).Queued := by
  obtain ⟨hset, hl⟩ := Kernel.live?_eq_some.mp hs
  have hcases : ∀ {i : SetId} {s' : SemaphoreSet},
      (w.kernel.sets.set set (s.enqueue t changes))[i]? = some s' →
      (i = set ∧ s' = s.enqueue t changes) ∨ w.kernel.sets[i]? = some s' := by
    intro i s' hs'
    rw [List.getElem?_set] at hs'
    split at hs'
    · rename_i hi
      split at hs'
      · cases hs'
        exact .inl ⟨hi.symm, rfl⟩
      · cases hs'
    · exact .inr hs'
  constructor
  · intro i s' q hs' hm
    rcases hcases hs' with ⟨rfl, rfl⟩ | hs'
    · simp only [SemaphoreSet.enqueue, List.mem_append, List.mem_singleton] at hm
      rcases hm with hm | rfl
      · exact hq.waits hset hm
      · exact ⟨th, d, next, hth, hnext⟩
    · exact hq.waits hs' hm
  · intro i s' hs'
    rcases hcases hs' with ⟨rfl, rfl⟩ | hs'
    · simp only [SemaphoreSet.enqueue, List.map_append, List.map_cons, List.map_nil,
        List.nodup_append]
      refine ⟨hq.nodup hset, by simp, ?_⟩
      intro u hu u' hu' he
      obtain ⟨q, hm, rfl⟩ := List.mem_map.mp hu
      simp only [List.mem_singleton] at hu'
      exact thread_ne hset hm hh (he.trans hu')
    · exact hq.nodup hs'
  · intro i s' q hs' hm
    rcases hcases hs' with ⟨rfl, rfl⟩ | hs'
    · simp only [SemaphoreSet.enqueue, List.mem_append, List.mem_singleton] at hm
      rcases hm with hm | rfl
      · have hb := hq.blocks hset hm
        exact hb
      · exact ha
    · exact hq.blocks hs' hm
  · intro i s' hs' hr
    rcases hcases hs' with ⟨rfl, rfl⟩ | hs'
    · simp [SemaphoreSet.enqueue, hl] at hr
    · exact hq.gone hs' hr

theorem not_holds_putSet {k : Kernel} {set : SetId} {s s' : SemaphoreSet}
    (hs : k.sets[set]? = some s) (hsub : s'.waiters.Sublist s.waiters) (hh : k.holds t = false) :
    (k.putSet set s').holds t = false := by
  rw [Bool.eq_false_iff, ne_eq, holds_iff] at hh ⊢
  rintro ⟨i, r, q, hr, hm, rfl⟩
  simp only [Kernel.putSet, List.getElem?_set] at hr
  split at hr
  · split at hr
    · cases hr
      exact hh ⟨set, s, q, hs, hsub.subset hm, rfl⟩
    · cases hr
  · exact hh ⟨i, r, q, hr, hm, rfl⟩

theorem observe_kernel {α : Type} (a : Option α) (c : SystemCall α) :
    (w.observe t a c).kernel = w.kernel := by
  cases c <;> try rfl
  cases a <;> rfl

theorem observe_threads {α : Type} (a : Option α) (c : SystemCall α) :
    (w.observe t a c).threads = w.threads := by
  cases c <;> try rfl
  cases a <;> rfl

theorem observe_endpoints {α : Type} (a : Option α) (c : SystemCall α) :
    (w.observe t a c).endpoints = w.endpoints := by
  cases c with
  | loadRecord => cases a <;> rfl
  | _ => rfl

theorem notes_same {e : EndpointId} (ns : List Note) (w : World) :
    (ns.foldl (·.note e ·) w).threads = w.threads ∧
      (ns.foldl (·.note e ·) w).endpoints = w.endpoints := by
  induction ns generalizing w with
  | nil => exact ⟨rfl, rfl⟩
  | cons n ns ih => exact ih (w.note e n)

theorem Queued.same (hq : w.Queued) (hk : v.kernel = w.kernel) (ht : v.threads = w.threads) :
    v.Queued :=
  hq.of_sets_eq (by rw [hk]) fun _ _ => by rw [ht]

theorem quiet_spec {α : Type} {c : SystemCall α} {next : α → Thread} {th : Thread} {u : World}
    {k : Kernel} {a b : α} (hq : w.Queued) (hth : w.threads[t]? = some th)
    (hh : w.kernel.holds t = false) (hnext : th.next = .perform (.system c) next)
    (hp : w.perform t (.system c) = .done u a) (hc : c.waits = false)
    (he : w.kernel.call t c = ⟨k, [], some b⟩)
    (hk : k.sets = w.kernel.sets ∨ ∃ key count, k.sets = w.kernel.sets ++ [.create key count]) :
    Steps allowed w (u.putThread t (next a)) ∧ (u.putThread t (next a)).Queued := by
  simp only [perform, he, complete, List.foldl_nil] at hp
  cases hp
  refine ⟨.of_atom (.act hth hnext (.system hc he)), ?_⟩
  have hw : ({ w with kernel := k } : World).Queued := by
    rcases hk with hk | ⟨key, count, hk⟩
    · exact hq.of_sets_eq hk fun _ _ => rfl
    · exact hq.of_kernel (.inr hk)
  refine (hw.same (observe_kernel _ c) (observe_threads _ c)).putThread ?_ _
  rw [observe_kernel]
  rcases hk with hk | ⟨key, count, hk⟩
  · simpa [Kernel.holds, hk] using hh
  · simp only [Kernel.holds, hk, List.any_append, List.any_cons, List.any_nil, Bool.or_false,
      Bool.or_eq_false_iff]
    exact ⟨hh, rfl⟩

theorem createSet_sets (k : Kernel) (key : Key) (count : Nat) :
    (k.createSet key count).1.sets = k.sets ∨
      ∃ key' count', (k.createSet key count).1.sets = k.sets ++ [.create key' count'] := by
  unfold Kernel.createSet
  split
  · exact .inl rfl
  · split
    · exact .inl rfl
    · split
      · exact .inl rfl
      · exact .inr ⟨key, count, rfl⟩

section

variable {th : Thread} {u : World}

theorem change_spec {set : SetId} {changes : List Change} {d : Option Instant}
    {next : Except Error Unit → Thread} {a : Except Error Unit} (hq : w.Queued)
    (hth : w.threads[t]? = some th) (hh : w.kernel.holds t = false)
    (hnext : th.next = .perform (.system (.change set changes d)) next)
    (hp : w.perform t (.system (.change set changes d)) = .done u a) :
    Steps allowed w (u.putThread t (next a)) ∧ (u.putThread t (next a)).Queued := by
  simp only [perform, Kernel.call] at hp
  rcases change_cases (t := t) w.kernel set changes with
    ⟨hs, he⟩ | ⟨s, hs, ⟨values, ha, he⟩ | ⟨ha, he⟩ | ⟨ha, he⟩⟩
  · rw [he] at hp
    cases hp
    exact ⟨.of_atom (.act hth hnext (.gone hs)), hq.putThread hh _⟩
  · rw [he] at hp
    cases hp
    refine ⟨.of_ripples (assign_ripples hq hth hh hnext hs ha),
      (hq.assign hs values).putThread ?_ _⟩
    exact not_holds_putSet (Kernel.live?_eq_some.mp hs).1
      (SemaphoreSet.serves_serve _ values s.waiters).sublist hh
  · rw [he] at hp
    cases hp
    exact ⟨.of_atom (.act hth hnext (.overflow hs ha)), hq.putThread hh _⟩
  · rw [he] at hp
    cases hp

theorem removeSet_spec {set : SetId} {next : Except Error Unit → Thread} {a : Except Error Unit}
    (hq : w.Queued) (hth : w.threads[t]? = some th) (hh : w.kernel.holds t = false)
    (hnext : th.next = .perform (.system (.removeSet set)) next)
    (hp : w.perform t (.system (.removeSet set)) = .done u a) :
    Steps allowed w (u.putThread t (next a)) ∧ (u.putThread t (next a)).Queued := by
  cases hs : w.kernel.live? set with
  | none =>
    exact quiet_spec hq hth hh hnext hp rfl (by simp [Kernel.call, Kernel.removeSet, hs]; rfl)
      (.inl rfl)
  | some s =>
    have hcall : w.kernel.call t (.removeSet set) =
        ⟨w.kernel.putSet set s.remove.1, s.remove.2, some (.ok ())⟩ := by
      simp [Kernel.call, Kernel.removeSet, hs]
    simp only [perform, hcall] at hp
    cases hp
    refine ⟨remove_steps hq hth hh hnext hs, (hq.remove hs).putThread ?_ _⟩
    exact not_holds_putSet (Kernel.live?_eq_some.mp hs).1 (List.nil_sublist _) hh

theorem call_spec {α : Type} {c : SystemCall α} {next : α → Thread} {a : α} (hq : w.Queued)
    (hth : w.threads[t]? = some th) (hh : w.kernel.holds t = false)
    (hnext : th.next = .perform (.system c) next) (hp : w.perform t (.system c) = .done u a) :
    Steps allowed w (u.putThread t (next a)) ∧ (u.putThread t (next a)).Queued := by
  cases c with
  | change => exact change_spec hq hth hh hnext hp
  | removeSet => exact removeSet_spec hq hth hh hnext hp
  | createSet key count =>
    exact quiet_spec hq hth hh hnext hp rfl rfl (createSet_sets w.kernel key count)
  | joinSet | openFile | fileLength | setFileLength | mapFile | unlink | storeRecord
  | loadRecord => exact quiet_spec hq hth hh hnext hp rfl rfl (.inl rfl)

theorem notes_kernel (e : EndpointId) (notes : List Note) (z : World) :
    (notes.foldl (·.note e ·) z).kernel = z.kernel := by
  induction notes generalizing z with
  | nil => rfl
  | cons n ns ih => exact ih (z.note e n)

theorem notes_wake (e : EndpointId) (notes : List Note) (z : World) :
    notes.foldl (·.note e ·) (z.wake e) = (notes.foldl (·.note e ·) z).wake e := by
  induction notes generalizing z with
  | nil => rfl
  | cons n ns ih => exact ih (z.note e n)

/-- An access may wake those who are parked, and does so after its own work. -/
theorem access_spec {α : Type} {e : EndpointId} {c : EndpointCall α} {next : α → Thread} {a : α}
    (hq : w.Queued) (hth : w.threads[t]? = some th) (hh : w.kernel.holds t = false)
    (hnext : th.next = .perform (.endpoint e c) next)
    (hp : w.perform t (.endpoint e c) = .done u a) :
    Steps allowed w (u.putThread t (next a)) ∧ (u.putThread t (next a)).Queued := by
  simp only [perform] at hp
  split at hp
  · cases hp
  rename_i s hs
  obtain ⟨x, hx, hxs⟩ := Option.bind_eq_some_iff.mp hs
  have hkernel := notes_kernel e s.notes (w.putEndpoint e s.endpoint)
  have hthreads := (notes_same (e := e) s.notes (w.putEndpoint e s.endpoint)).1
  cases hwakes : s.wakes with
  | false =>
    simp only [hwakes, Bool.false_eq_true, if_false] at hp
    cases hp
    refine ⟨.of_atom (.act hth hnext (.access hx hxs)), (hq.same hkernel hthreads).putThread ?_ _⟩
    rw [hkernel]
    exact hh
  | true =>
    simp only [hwakes, if_true] at hp
    cases hp
    have ht : (w.wake e).threads[t]? = some th := by simp [World.wake, hth, Thread.wake, hnext]
    have hact : Atom allowed (w.wake e)
        ((s.notes.foldl (·.note e ·) ((w.wake e).putEndpoint e s.endpoint)).putThread t
          (next s.answer)) :=
      .act ht hnext (.access hx hxs)
    have hput : (w.wake e).putEndpoint e s.endpoint = (w.putEndpoint e s.endpoint).wake e := rfl
    rw [hput, notes_wake] at hact
    have hsame : ((s.notes.foldl (·.note e ·) (w.putEndpoint e s.endpoint)).wake e).kernel =
        w.kernel := hkernel
    refine ⟨.of_ripples ((wake_ripples e).tail ⟨hact, ?_⟩),
      ((hq.same hkernel hthreads).wake e).putThread ?_ _⟩
    · rw [putThread, hsame]
      exact .refl _
    · rw [hsame]
      exact hh

theorem Queued.spawnWorker (hq : w.Queued) (p : Party) (link : Link) (d : Direction) :
    (w.spawnWorker p link d).Queued :=
  hq.of_sets_eq rfl fun u hu => by
    obtain ⟨set, s, q, hs, hm, rfl⟩ := holds_iff.mp hu
    obtain ⟨th', d', next', hth', -⟩ := hq.waits hs hm
    obtain ⟨hlt, -⟩ := List.getElem?_eq_some_iff.mp hth'
    exact List.getElem?_append_left hlt

theorem join_spec {i : ThreadId} {next : Unit → Thread} {a : Unit} (hq : w.Queued)
    (hth : w.threads[t]? = some th) (hh : w.kernel.holds t = false)
    (hnext : th.next = .perform (.join i) next) (hp : w.perform t (.join i) = .done u a) :
    Steps allowed w (u.putThread t (next a)) ∧ (u.putThread t (next a)).Queued := by
  simp only [perform] at hp
  split at hp
  · rename_i hnone
    cases hp
    exact ⟨.of_atom (.act hth hnext (.join fun th h => by simp [hnone] at h)), hq.putThread hh _⟩
  · rename_i th' hth'
    split at hp
    · rename_i hend
      cases hp
      refine ⟨.of_atom (.act hth hnext (.join fun th h => ?_)), hq.putThread hh _⟩
      rw [hth'] at h
      cases h
      exact hend
    · cases hp

/-- An answered action of a thread that is not queued. -/
theorem perform_spec {α : Type} {p : Primitive α} {next : α → Thread} {a : α} (hq : w.Queued)
    (hth : w.threads[t]? = some th) (hh : w.kernel.holds t = false)
    (hnext : th.next = .perform p next) (hp : w.perform t p = .done u a) :
    Steps allowed w (u.putThread t (next a)) ∧ (u.putThread t (next a)).Queued := by
  cases p with
  | system c => exact call_spec hq hth hh hnext hp
  | endpoint e c => exact access_spec hq hth hh hnext hp
  | clock span =>
    simp only [perform] at hp
    cases hp
    exact ⟨.of_atom (.act hth hnext .clock), hq.putThread hh _⟩
  | park e d => simp [perform] at hp
  | spawn p link d =>
    simp only [perform] at hp
    cases hp
    exact ⟨.of_atom (.act hth hnext .spawn), (hq.spawnWorker p link d).putThread hh _⟩
  | join i => exact join_spec hq hth hh hnext hp
  | hold id =>
    simp only [perform] at hp
    split at hp
    · rename_i hid
      cases hp
      exact ⟨.of_atom (.act hth hnext (.hold hid)), hq.putThread hh _⟩
    · cases hp
  | note e n =>
    simp only [perform] at hp
    cases hp
    exact ⟨.of_atom (.act hth hnext .note), (hq.same rfl rfl : (w.note e n).Queued).putThread hh _⟩

end

theorem invoke_kernel (p : Party) (i : Invocation) : (w.invoke p i).1.kernel = w.kernel := by
  rcases i with ⟨d, job, e⟩ | ⟨script⟩
  · simp only [invoke, resolve]
    split <;> rfl
  · rfl

theorem invoke_threads (p : Party) (i : Invocation) : (w.invoke p i).1.threads = w.threads := by
  rcases i with ⟨d, job, e⟩ | ⟨script⟩
  · simp only [invoke, resolve]
    split <;> rfl
  · rfl

def abandon (w : World) (th : Thread) : World :=
  match th.task.owner? with
  | none => w
  | some e => w.modifyEndpoint e fun x =>
    th.held.foldl (fun (x : Endpoint) (job : Job) => x.putReply job.serial .abandoned) x

theorem panic_eq (th : Thread) : w.panic t th = (w.abandon th).putThread t th.unwound := rfl

theorem abandon_kernel (th : Thread) : (w.abandon th).kernel = w.kernel := by
  unfold abandon
  split <;> rfl

theorem abandon_threads (th : Thread) : (w.abandon th).threads = w.threads := by
  unfold abandon
  split <;> rfl

theorem panic_threads (t : ThreadId) (th : Thread) :
    (w.panic t th).threads = w.threads.set t th.unwound := by
  rw [panic_eq, putThread, abandon_threads]

theorem alike_enqueue {set : SetId} {s : SemaphoreSet} {changes : List Change}
    (hs : w.kernel.live? set = some s) :
    w.Alike { w with kernel := w.kernel.putSet set (s.enqueue t changes) } := by
  obtain ⟨hset, -⟩ := Kernel.live?_eq_some.mp hs
  have hmap : (w.kernel.sets.set set (s.enqueue t changes)).map
      (fun s => { s with waiters := [] }) =
      w.kernel.sets.map (fun s => { s with waiters := [] }) := by
    rw [List.map_set]
    exact set_of_getElem? (by simp [hset, SemaphoreSet.enqueue])
  exact ⟨hmap, rfl, rfl, rfl, rfl, rfl, rfl⟩

theorem alike_forget (now : Instant) :
    w.Alike { w with kernel := w.kernel.forget t, now := now } where
  sets := by simp [Kernel.forget, SemaphoreSet.dequeue]
  files := rfl
  limits := rfl
  endpoints := rfl
  threads := rfl
  released := rfl
  history := rfl

/-- Every step is made of atoms and keeps the queues in order. -/
theorem step_spec (hq : w.Queued) (h : w.step t = some v) : Steps allowed w v ∧ v.Queued := by
  obtain ⟨th, hth, hh, hcase⟩ := step_cases h
  rcases hcase with ⟨α, p, next, hnext, hp | ⟨u, a, hp, rfl⟩⟩ | ⟨p, i, after, hnext, rfl⟩ |
    ⟨hnext, rfl⟩
  · cases p with
    | system c =>
      cases c with
      | change set changes d =>
        simp only [perform, Kernel.call] at hp
        rcases change_cases (t := t) w.kernel set changes with
          ⟨hs, he⟩ | ⟨s, hs, ⟨values, ha, he⟩ | ⟨ha, he⟩ | ⟨ha, he⟩⟩
        · rw [he] at hp
          cases hp
        · rw [he] at hp
          cases hp
        · rw [he] at hp
          cases hp
        · rw [he] at hp
          cases hp
          exact ⟨.of_atom (.settle (alike_enqueue hs)), hq.enqueue hth hh hnext hs ha⟩
      | removeSet set =>
        simp only [perform, Kernel.call] at hp
        cases hs : w.kernel.live? set <;> simp [Kernel.removeSet, hs] at hp
      | createSet | joinSet | openFile | fileLength | setFileLength | mapFile | unlink | storeRecord
      | loadRecord => simp [perform, Kernel.call, Kernel.withFiles] at hp
    | endpoint e c =>
      simp only [perform] at hp
      split at hp <;> cases hp
    | join u =>
      simp only [perform] at hp
      split at hp
      · cases hp
      · split at hp <;> cases hp
    | hold id =>
      simp only [perform] at hp
      split at hp <;> cases hp
    | clock | park | spawn | note => simp [perform] at hp
  · exact perform_spec hq hth hh hnext hp
  · refine ⟨.of_atom (.invoke hth hnext),
      (hq.same (invoke_kernel p i) (invoke_threads p i)).putThread ?_ _⟩
    rw [invoke_kernel]
    exact hh
  · refine ⟨.of_atom (.panic hth hnext), ?_⟩
    rw [panic_eq]
    refine (hq.same (abandon_kernel th) (abandon_threads th)).putThread ?_ _
    rw [abandon_kernel]
    exact hh

/-- Giving up is one of the answers. -/
theorem expired_answer {α : Type} {p : Primitive α} {a : α} (h : p.expired? = some a) :
    w.Answers t p w a := by
  cases p with
  | system c =>
    cases c with
    | change set changes d =>
      cases d with
      | none => cases h
      | some d =>
        cases h
        exact .late
    | _ => cases h
  | endpoint e c =>
    cases c with
    | awaitReply serial d =>
      cases d with
      | none => cases h
      | some d =>
        cases h
        exact .unanswered
    | _ => cases h
  | park e d =>
    cases d with
    | none => cases h
    | some d =>
      cases h
      exact .timedOut
  | clock | spawn | join | hold | note => cases h

theorem expire_spec (hq : w.Queued) (h : w.expire t = some v) :
    Steps allowed w v ∧ v.Queued := by
  unfold expire at h
  split at h
  · rename_i deadline th' hd hth'
    cases h
    obtain ⟨th, hth, hx⟩ := Option.bind_eq_some_iff.mp hth'
    have hact : Atom allowed w (w.putThread t th') := by
      unfold Thread.expire? at hx
      split at hx
      · rename_i α p next hnext
        obtain ⟨a, ha, rfl⟩ := Option.map_eq_some_iff.mp hx
        exact .act hth hnext (expired_answer ha)
      · cases hx
    have hforget := alike_forget (w := w.putThread t th') (t := t) (max w.now deadline)
    refine ⟨⟨_, .inr hact, .single ⟨.settle hforget, hforget.maintains⟩⟩, ?_⟩
    refine hq.keep fun set s' hs' => ?_
    simp only [Kernel.forget, List.getElem?_map, Option.map_eq_some_iff] at hs'
    obtain ⟨s, hs, rfl⟩ := hs'
    refine .inr ⟨s, hs, rfl, List.filter_sublist, fun q hm => ?_⟩
    simp only [SemaphoreSet.dequeue, List.mem_filter, decide_eq_true_eq] at hm
    have hb := hq.blocks hs hm.1
    exact ⟨hb, by simp [putThread, Ne.symm hm.2]⟩
  · cases h

theorem Queued.append (hq : w.Queued) (hk : v.kernel = w.kernel) {ths : List Thread}
    (ht : v.threads = w.threads ++ ths) : v.Queued :=
  hq.of_sets_eq (by rw [hk]) fun u hu => by
    obtain ⟨set, s, q, hs, hm, rfl⟩ := holds_iff.mp hu
    obtain ⟨th, d, next, hth, -⟩ := hq.waits hs hm
    obtain ⟨hlt, -⟩ := List.getElem?_eq_some_iff.mp hth
    rw [ht]
    exact List.getElem?_append_left hlt

theorem outside_spec {i : Input} (hq : w.Queued) (hi : i.outside = true)
    (h : w.apply i = some v) : v.Queued := by
  cases outside_of_apply hi h with
  | make | register | release => exact hq.same rfl rfl
  | operate | request | drop => exact hq.append rfl rfl

theorem apply_steps {i : Input} (hq : w.Queued) (hi : allowed i) (h : w.apply i = some v) :
    Steps allowed w v ∧ v.Queued := by
  by_cases ho : i.outside = true
  · exact ⟨.of_atom (.outside hi ho h), outside_spec hq ho h⟩
  · cases i with
    | run t => exact step_spec hq h
    | expire t => exact expire_spec hq h
    | make | operate | request | drop | register | release => exact absurd rfl ho

theorem apply_spec {i : Input} (hq : w.Queued) (hi : allowed i) (h : w.apply i = some v) :
    ReflTransGen (Atom allowed) w v ∧ v.Queued :=
  (apply_steps hq hi h).imp_left Steps.atoms

theorem Run.induction {m : World → Prop} (hr : Run allowed w v) (hq : w.Queued) (hw : m w)
    (hkeep : ∀ {x y : World}, m x → Atom allowed x y → m y) : m v ∧ v.Queued := by
  induction hr with
  | refl => exact ⟨hw, hq⟩
  | step i hrun hi happly ih =>
    obtain ⟨hlaw, hqueued⟩ := ih
    obtain ⟨hchain, hqueued'⟩ := apply_spec hqueued hi happly
    refine ⟨?_, hqueued'⟩
    clear happly hqueued'
    induction hchain with
    | refl => exact hlaw
    | tail _ hatom ih => exact hkeep ih hatom

theorem Run.queued (hr : Run allowed w v) (hq : w.Queued) : v.Queued :=
  (hr.induction (m := fun _ => True) hq trivial fun _ _ => trivial).2

theorem Run.mono {more : Input → Prop} (hr : Run allowed w v) (h : ∀ i, allowed i → more i) :
    Run more w v := by
  induction hr with
  | refl => exact .refl
  | step i _ hi ha ih => exact ih.step i (h i hi) ha

theorem Run.trans {u : World} (hr : Run allowed w u) (hr' : Run allowed u v) : Run allowed w v := by
  induction hr' with
  | refl => exact hr
  | step i _ hi ha ih => exact ih.step i hi ha

theorem queued_of_new (h : w.kernel.sets = []) : w.Queued := by
  constructor <;> simp [h]

theorem Reachable.queued (hr : Reachable w) : w.Queued :=
  Run.queued hr (queued_of_new rfl)

def play (w : World) (is : List Input) : World :=
  is.foldl (fun w i => (w.apply i).getD w) w

theorem Run.play {u : World} {is : List Input}
    (hr : Run allowed w u) (h : ∀ i ∈ is, allowed i) : Run allowed w (u.play is) := by
  induction is generalizing u with
  | nil => exact hr
  | cons i is ih =>
    have hrest : ∀ j ∈ is, allowed j := fun j hj => h j (List.mem_cons_of_mem i hj)
    cases ha : u.apply i with
    | none => simpa [World.play, ha] using ih hr hrest
    | some v =>
      simpa [World.play, ha] using ih (.step i hr (h i List.mem_cons_self) ha) hrest

end World

end QueuePair
