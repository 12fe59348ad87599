import QueuePair.Proofs.Alone
import QueuePair.Proofs.Gauge
import QueuePair.Proofs.Reuse

namespace QueuePair

namespace Kernel

/-- What a change of a set may be told, with or without a time limit, the system being as it is
then. -/
inductive Verdict (k : Kernel) (set : SetId) (limited : Bool) : Except Error Unit → Prop
  | closed : k.live? set = none → Verdict k set limited (.error .connectionClosed)
  | done : k.live? set ≠ none → Verdict k set limited (.ok ())
  | overflow : k.live? set ≠ none → Verdict k set limited (.error (.ofSystem .outOfRange))
  | late : k.live? set ≠ none → limited = true → Verdict k set limited (.error .timeout)

theorem Verdict.closed_iff {k : Kernel} {set : SetId} {limited : Bool} {r : Except Error Unit}
    (h : k.Verdict set limited r) : r = .error .connectionClosed ↔ k.live? set = none := by
  cases h with
  | closed hs => exact iff_of_true rfl hs
  | done hs | overflow hs | late hs => exact iff_of_false nofun hs

def Tells (k : Kernel) (th th' : Thread) : Prop :=
  ∃ (set : SetId) (changes : List Change) (d : Option Instant)
    (next : Except Error Unit → Thread) (r : Except Error Unit),
    th.next = .perform (.system (.change set changes d)) next ∧ th' = next r ∧
    k.Verdict set d.isSome r

end Kernel

namespace SemaphoreSet

variable {values after : List Nat} {ws rest : List Waiter} {ends : List Completion}

theorem Serves.nodup (h : Serves values ws after rest ends) (hn : (ws.map (·.thread)).Nodup) :
    (ends.map (·.thread)).Nodup := by
  induction h with
  | stop => exact List.nodup_nil
  | grant q hm _ hs ih | refuse q hm _ hs ih =>
    have hsub : ((List.erase _ q).map (·.thread)).Nodup := hn.sublist (List.erase_sublist.map _)
    refine List.nodup_cons.mpr ⟨fun hmem => ?_, ih hsub⟩
    obtain ⟨c, hc, hthread⟩ := List.mem_map.mp hmem
    obtain ⟨⟨r, hr, hrc⟩, -⟩ := hs.thread_not_mem hsub c hc
    exact World.thread_ne_of_erase hn hm r hr (hthread.symm.trans hrc.symm)

theorem Serves.verdict {k : Kernel} {set : SetId} {limited : Bool}
    (h : Serves values ws after rest ends) (hs : k.live? set ≠ none) :
    ∀ c ∈ ends, k.Verdict set limited c.result := by
  induction h with
  | stop => exact fun c hc => by cases hc
  | grant q _ _ _ ih => exact List.forall_mem_cons.mpr ⟨.done hs, ih⟩
  | refuse q _ _ _ ih => exact List.forall_mem_cons.mpr ⟨.overflow hs, ih⟩

end SemaphoreSet

def Move.parks {σ : Type} : Move σ → Bool
  | .perform (.park _ _) _ => true
  | _ => false

theorem Move.of_set? {σ : Type} {mv : Move σ} {set : SetId} (h : mv.set? = some set) :
    ∃ changes d next, mv = .perform (.system (.change set changes d)) next := by
  unfold Move.set? at h
  split at h <;> cases h
  exact ⟨_, _, _, rfl⟩

theorem Thread.next_origin (th : Thread) : th.next.Into fun b => b.origin = th.origin := by
  unfold Thread.next
  split <;> exact Move.into_map.mpr (Move.into_of_forall fun _ => rfl)

namespace World

variable {w v u : World} {t : ThreadId} {th : Thread} {i : Input} {set : SetId}

theorem complete_of_mem {ends : List Completion} {c : Completion} (ths : List Thread)
    (hn : (ends.map (·.thread)).Nodup) (hc : c ∈ ends) :
    (ends.foldl (fun ths c => ths.modify c.thread (·.complete c.result)) ths)[c.thread]? =
      ths[c.thread]?.map (·.complete c.result) := by
  induction ends generalizing ths with
  | nil => cases hc
  | cons d ends ih =>
    obtain ⟨hd, hn⟩ := List.nodup_cons.mp hn
    rw [List.foldl_cons]
    rcases List.mem_cons.mp hc with rfl | hc
    · rw [complete_getElem? _ _ _ fun b hb he => hd (List.mem_map.mpr ⟨b, hb, he⟩),
        List.getElem?_modify_eq]
      rfl
    · have hne : d.thread ≠ c.thread := fun he => hd (List.mem_map.mpr ⟨c, hc, he.symm⟩)
      rw [ih _ hn hc, List.getElem?_modify_ne _ _ hne]

/-- What becomes of a thread with the waits that a call ends. -/
theorem call_thread {α : Type} (c : SystemCall α) (hq : w.Queued) (ht : w.threads[t]? = some th)
    (u : ThreadId) :
    ∃ th', (w.complete (w.kernel.call u c).ends).threads[t]? = some th' ∧
      (th' = th ∨ (w.kernel.call u c).kernel.Tells th th') := by
  -- of the waits that end, each is that of a waiter of the set
  have hends : ∀ {set : SetId} {s : SemaphoreSet} {ends : List Completion} {k : Kernel},
      w.kernel.sets[set]? = some s → (ends.map (·.thread)).Nodup →
      (∀ c ∈ ends, ∃ q ∈ s.waiters, q.thread = c.thread) →
      (∀ c ∈ ends, ∀ limited, k.Verdict set limited c.result) →
      ∃ th', (w.complete ends).threads[t]? = some th' ∧ (th' = th ∨ k.Tells th th') := by
    intro set s ends k hs hn hw hv
    by_cases hmem : ∃ c ∈ ends, c.thread = t
    · obtain ⟨c, hc, rfl⟩ := hmem
      obtain ⟨q, hqm, hqc⟩ := hw c hc
      obtain ⟨th', d, next, hth', hnext⟩ := hq.waits hs hqm
      obtain rfl := Option.some.inj (ht.symm.trans (hqc ▸ hth'))
      refine ⟨next c.result, ?_, .inr ⟨set, q.changes, d, next, _, hnext, rfl, hv c hc _⟩⟩
      rw [complete, complete_of_mem _ hn hc, ht, Option.map_some, complete_eq hnext]
    · exact ⟨th, (complete_getElem? _ _ _ fun c hc he => hmem ⟨c, hc, he⟩).trans ht, .inl rfl⟩
  cases c with
  | change set changes d =>
    simp only [Kernel.call]
    rcases change_cases (t := u) w.kernel set changes with
      ⟨-, he⟩ | ⟨s, hs, ⟨values, -, he⟩ | ⟨-, he⟩ | ⟨-, he⟩⟩
    · rw [he]
      exact ⟨th, ht, .inl rfl⟩
    · rw [he]
      obtain ⟨hset, hl⟩ := Kernel.live?_eq_some.mp hs
      have hserve := SemaphoreSet.serves_serve s.waiters.length values s.waiters
      have hnodup := hq.nodup hset
      have hlive : (w.kernel.putSet set (s.assign values).1).live? set ≠ none := by
        rw [Kernel.live?_putSet_self (r := (s.assign values).1) hs hl]
        exact Option.some_ne_none _
      exact hends hset (hserve.nodup hnodup) (fun c hc => (hserve.thread_not_mem hnodup c hc).1)
        fun c hc limited => hserve.verdict hlive c hc
    · rw [he]
      exact ⟨th, ht, .inl rfl⟩
    · rw [he]
      exact ⟨th, ht, .inl rfl⟩
  | removeSet set =>
    simp only [Kernel.call, Kernel.removeSet]
    cases hs : w.kernel.live? set with
    | none => exact ⟨th, ht, .inl rfl⟩
    | some s =>
      obtain ⟨hset, -⟩ := Kernel.live?_eq_some.mp hs
      have hlt := (List.getElem?_eq_some_iff.mp hset).1
      refine hends (s := s) hset ?_ ?_ ?_
      · simpa [SemaphoreSet.remove, Function.comp_def] using hq.nodup hset
      · intro c hc
        obtain ⟨q, hqm, rfl⟩ := List.mem_map.mp hc
        exact ⟨q, hqm, rfl⟩
      · intro c hc limited
        obtain ⟨q, -, rfl⟩ := List.mem_map.mp hc
        exact .closed (by simp [Kernel.live?, Kernel.putSet, hlt, SemaphoreSet.remove])
  | _ => exact ⟨th, ht, .inl rfl⟩

/-- What one input may make of a thread. It is moved by a step of its own, by the end of its
patience, by whoever lets its semaphore change proceed or removes the set, and by whoever wakes
it. -/
inductive Fate (w v : World) (i : Input) (t : ThreadId) (th : Thread) : Thread → Prop
  | rest : Fate w v i t th th
  | told {th' : Thread} : v.kernel.Tells th th' → Fate w v i t th th'
  | woken {e : EndpointId} {d : Option Instant} {next : Waking → Thread} :
      th.next = .perform (.park e d) next → Fate w v i t th (next .notified)
  -- any other action of the thread is answered
  | answered {α : Type} {p : Primitive α} {next : α → Thread} {u : World} {a : α} : i = .run t →
      th.next = .perform p next → th.next.set? = none → w.perform t p = .done u a →
      v = u.putThread t (next a) → Fate w v i t th (next a)
  | expired {α : Type} {p : Primitive α} {next : α → Thread} {a : α} : i = .expire t →
      th.next = .perform p next → th.next.set? = none → p.expired? = some a →
      Fate w v i t th (next a)
  | invoked {p : Party} {c : Invocation} {after : Thread} : i = .run t →
      th.next = .invoke p c after → Fate w v i t th (after.push (w.invoke p c).2)
  | panicked : i = .run t → th.next = .panic → Fate w v i t th th.unwound

/-- What an action of some thread makes of a thread, before it is answered itself. -/
theorem perform_thread {α : Type} {p : Primitive α} {u : ThreadId} (hq : w.Queued)
    (ht : w.threads[t]? = some th)
    (hp : w.perform u p = .queued v ∨ ∃ a, w.perform u p = .done v a) :
    ∃ th', v.threads[t]? = some th' ∧ (th' = th ∨ v.kernel.Tells th th' ∨
      ∃ e d next, th.next = .perform (.park e d) next ∧ th' = next .notified) := by
  cases p with
  | system c =>
    have hv : v = ({ w with kernel := (w.kernel.call u c).kernel }.complete
        (w.kernel.call u c).ends).observe u (w.kernel.call u c).answer c := by
      simp only [perform] at hp
      split at hp <;> rcases hp with hp | ⟨a, hp⟩ <;> cases hp <;> rfl
    have hthreads : v.threads = (w.complete (w.kernel.call u c).ends).threads := by
      rw [hv, observe_threads]
      rfl
    have hkernel : v.kernel = (w.kernel.call u c).kernel := by
      rw [hv, observe_kernel]
      rfl
    rw [hthreads, hkernel]
    obtain ⟨th', h, hth'⟩ := call_thread c hq ht u
    exact ⟨th', h, hth'.imp_right .inl⟩
  | endpoint e c =>
    simp only [perform] at hp
    split at hp
    · rcases hp with hp | ⟨a, hp⟩ <;> cases hp
    · rename_i s _
      have hsame := (notes_same (e := e) s.notes (w.putEndpoint e s.endpoint)).1
      rcases hp with hp | ⟨a, hp⟩ <;> cases hp
      split
      · refine ⟨th.wake e, ?_, ?_⟩
        · rw [wake, List.getElem?_map, hsame]
          exact congrArg _ ht
        unfold Thread.wake
        split
        · rename_i e' d next hn
          split
          · exact .inr (.inr ⟨e', d, next, hn, rfl⟩)
          · exact .inl rfl
        · exact .inl rfl
      · exact ⟨th, hsame ▸ ht, .inl rfl⟩
  | spawn q l d =>
    rcases hp with hp | ⟨a, hp⟩ <;> cases hp
    exact ⟨th, (List.getElem?_append_left (List.getElem?_eq_some_iff.mp ht).1).trans ht, .inl rfl⟩
  | clock | note =>
    rcases hp with hp | ⟨a, hp⟩ <;> cases hp
    exact ⟨th, ht, .inl rfl⟩
  | park => rcases hp with hp | ⟨a, hp⟩ <;> cases hp
  | join j =>
    simp only [perform] at hp
    split at hp
    · rcases hp with hp | ⟨a, hp⟩ <;> cases hp
      exact ⟨th, ht, .inl rfl⟩
    · split at hp <;> rcases hp with hp | ⟨a, hp⟩ <;> cases hp
      exact ⟨th, ht, .inl rfl⟩
  | hold id =>
    simp only [perform] at hp
    split at hp <;> rcases hp with hp | ⟨a, hp⟩ <;> cases hp
    exact ⟨th, ht, .inl rfl⟩

theorem perform_verdict {changes : List Change} {d : Option Instant} {r : Except Error Unit}
    (hp : w.perform t (.system (.change set changes d)) = .done u r) :
    u.kernel.Verdict set d.isSome r := by
  simp only [perform, Kernel.call] at hp
  rcases change_cases (t := t) w.kernel set changes with
    ⟨hs, he⟩ | ⟨s, hs, ⟨values, -, he⟩ | ⟨-, he⟩ | ⟨-, he⟩⟩
  · rw [he] at hp
    cases hp
    exact .closed hs
  · rw [he] at hp
    cases hp
    have hl := (Kernel.live?_eq_some.mp hs).2
    have hlive := Kernel.live?_putSet_self (r := (s.assign values).1) hs hl
    exact .done fun hnone => Option.some_ne_none _ (hlive.symm.trans hnone)
  · rw [he] at hp
    cases hp
    exact .overflow fun hnone => Option.some_ne_none _ (hs.symm.trans hnone)
  · rw [he] at hp
    cases hp

theorem waitsUntil_step {deadline : Instant} (h : w.waitsUntil t = some deadline) :
    w.step t = none := by
  unfold waitsUntil at h
  split at h
  · cases h
  · simpa using ‹¬ (w.step t).isSome = true›

theorem live?_forget (k : Kernel) (t : ThreadId) (set : SetId) :
    (k.forget t).live? set = none ↔ k.live? set = none := by
  simp [Kernel.live?, Kernel.forget, Option.filter_eq_none_iff, SemaphoreSet.dequeue]

theorem not_holds (hq : w.Queued) (ht : w.threads[t]? = some th)
    (hs : ∀ set, th.next.set? = some set → w.kernel.live? set = none) :
    w.kernel.holds t = false := by
  by_contra hh
  obtain ⟨set, s, q, hset, hm, rfl⟩ := holds_iff.mp (by simpa using hh)
  obtain ⟨th', d, next, hth', hn⟩ := hq.waits hset hm
  obtain rfl := Option.some.inj (ht.symm.trans hth')
  have hnone := hs set (congrArg Move.set? hn)
  cases hr : s.removed with
  | false => exact Option.some_ne_none _ ((Kernel.live?_eq_some.mpr ⟨hset, hr⟩).symm.trans hnone)
  | true =>
    rw [hq.gone hset hr] at hm
    cases hm

theorem step_gone {changes : List Change} {d : Option Instant} {next : Except Error Unit → Thread}
    (hq : w.Queued) (ht : w.threads[t]? = some th)
    (hn : th.next = .perform (.system (.change set changes d)) next)
    (hs : w.kernel.live? set = none) :
    w.step t = some (w.putThread t (next (.error .connectionClosed))) := by
  have hh : w.kernel.holds t = false := not_holds hq ht fun set' he => by
    obtain rfl : set = set' := Option.some.inj ((congrArg Move.set? hn).symm.trans he)
    exact hs
  simp only [step, ht, hh, hn, perform, Kernel.call, Kernel.change, hs]
  rfl

theorem expire_live {changes : List Change} {d : Option Instant}
    {next : Except Error Unit → Thread} (hq : w.Queued) (ht : w.threads[t]? = some th)
    (hn : th.next = .perform (.system (.change set changes d)) next) (hs : w.step t = none) :
    w.kernel.live? set ≠ none := fun hnone => by
  rw [step_gone hq ht hn hnone] at hs
  cases hs

/-- Every thread lives on, and what becomes of it is one of these. -/
theorem fate_of_apply (hq : w.Queued) (ht : w.threads[t]? = some th) (ha : w.apply i = some v) :
    ∃ th', v.threads[t]? = some th' ∧ Fate w v i t th th' := by
  have hlt := (List.getElem?_eq_some_iff.mp ht).1
  -- another thread has its turn, and is put back into its place
  have hother : ∀ {x : World} {b : Thread} {u : ThreadId}, u ≠ t →
      (x.putThread u b).threads[t]? = x.threads[t]? := fun hne => List.getElem?_set_ne hne
  have hmoved : ∀ {α : Type} {p : Primitive α} {x y : World} {u : ThreadId},
      (w.perform u p = .queued x ∨ ∃ a, w.perform u p = .done x a) →
      y.threads[t]? = x.threads[t]? → y.kernel = x.kernel →
      ∃ th', y.threads[t]? = some th' ∧ Fate w y i t th th' := by
    intro α p x y u hp hthreads hkernel
    rw [hthreads]
    obtain ⟨th', hth', rfl | htold | ⟨_, _, next, hn, rfl⟩⟩ := perform_thread hq ht hp
    · exact ⟨_, hth', .rest⟩
    · exact ⟨_, hth', .told (hkernel ▸ htold)⟩
    · exact ⟨_, hth', .woken hn⟩
  cases i with
  | run u =>
    obtain ⟨b, hb, -, hcases⟩ := step_cases ha
    by_cases hut : u = t
    · subst hut
      obtain rfl := Option.some.inj (hb.symm.trans ht)
      rcases hcases with ⟨α, p, next, hn, hp | ⟨x, a, hp, rfl⟩⟩ | ⟨p, c, after, hn, rfl⟩ | ⟨hn, rfl⟩
      · exact hmoved (.inl hp) rfl rfl
      · obtain ⟨_, hx, -⟩ := perform_thread hq ht (.inr ⟨a, hp⟩)
        refine ⟨next a, List.getElem?_set_self (List.getElem?_eq_some_iff.mp hx).1, ?_⟩
        cases hset : b.next.set? with
        | none => exact .answered rfl hn hset hp rfl
        | some set =>
          obtain ⟨changes, d, next', hn'⟩ := Move.of_set? hset
          cases hn.symm.trans hn'
          have hverdict : x.kernel.Verdict set d.isSome a := perform_verdict hp
          exact .told ⟨_, _, _, _, _, hn, rfl, hverdict⟩
      · refine ⟨_, List.getElem?_set_self ?_, .invoked rfl hn⟩
        rwa [invoke_threads]
      · refine ⟨_, ?_, .panicked rfl hn⟩
        rw [panic_threads]
        exact List.getElem?_set_self hlt
    · rcases hcases with ⟨α, p, next, hn, hp | ⟨x, a, hp, rfl⟩⟩ | ⟨p, c, after, hn, rfl⟩ | ⟨hn, rfl⟩
      · exact hmoved (.inl hp) rfl rfl
      · exact hmoved (.inr ⟨a, hp⟩) (hother hut) rfl
      · exact ⟨th, by rw [hother hut, invoke_threads, ht], .rest⟩
      · exact ⟨th, by rw [panic_threads, List.getElem?_set_ne hut, ht], .rest⟩
  | expire u =>
    simp only [apply, World.expire] at ha
    split at ha
    · rename_i deadline th' hd hth'
      cases ha
      by_cases hut : u = t
      · subst hut
        refine ⟨th', List.getElem?_set_self hlt, ?_⟩
        rw [ht, Option.bind_some] at hth'
        unfold Thread.expire? at hth'
        split at hth'
        · rename_i α p next hn
          obtain ⟨a, hp, rfl⟩ := Option.map_eq_some_iff.mp hth'
          cases hset : th.next.set? with
          | none => exact .expired rfl hn hset hp
          | some set =>
            obtain ⟨changes, d, next', hn'⟩ := Move.of_set? hset
            cases hn.symm.trans hn'
            have hlive := mt (live?_forget _ u _).mp (expire_live hq ht hn (waitsUntil_step hd))
            cases d with
            | none => cases hp
            | some d =>
              cases hp
              exact .told ⟨_, _, _, _, _, hn, rfl, .late hlive rfl⟩
        · cases hth'
      · exact ⟨th, (List.getElem?_set_ne hut).trans ht, .rest⟩
    · cases ha
  | _ =>
    obtain ⟨news, hv, -⟩ := outside_threads rfl ha
    exact ⟨th, by rw [hv, List.getElem?_append_left hlt, ht], .rest⟩

namespace Fate

variable {b : Thread}

theorem of_change {changes : List Change} {d : Option Instant}
    {next : Except Error Unit → Thread} (hf : Fate w v i t th b)
    (hn : th.next = .perform (.system (.change set changes d)) next) :
    b = th ∨ ∃ r, b = next r ∧ v.kernel.Verdict set d.isSome r := by
  have hset : th.next.set? = some set := congrArg Move.set? hn
  cases hf with
  | rest => exact .inl rfl
  | told htold =>
    obtain ⟨_, _, _, _, r, hn', rfl, hverdict⟩ := htold
    cases hn.symm.trans hn'
    exact .inr ⟨r, rfl, hverdict⟩
  | woken hn' | invoked _ hn' | panicked _ hn' =>
    rw [hn'] at hset
    cases hset
  | answered _ _ hnone | expired _ _ hnone => cases hset.symm.trans hnone

theorem of_clock {span : Span} {next : Option Instant → Thread} (hf : Fate w v i t th b)
    (hn : th.next = .perform (.clock span) next) :
    b = th ∨ b = next (w.deadline? span) := by
  have hset : th.next.set? = none := congrArg Move.set? hn
  have hparks : th.next.parks = false := congrArg Move.parks hn
  cases hf with
  | rest => exact .inl rfl
  | told htold =>
    obtain ⟨_, _, _, _, _, hn', -⟩ := htold
    rw [hn'] at hset
    cases hset
  | woken hn' =>
    rw [hn'] at hparks
    cases hparks
  | invoked _ hn' | panicked _ hn' => cases hn.symm.trans hn'
  | answered _ hn' _ hp =>
    cases hn.symm.trans hn'
    cases hp
    exact .inr rfl
  | expired _ hn' _ hp =>
    cases hn.symm.trans hn'
    cases hp

/-- What holds wherever the next action leads, and does not depend on the callbacks, holds of
whatever becomes of a thread. -/
theorem into {Q : Thread → Prop} (hf : Fate w v i t th b) (hrest : Q th) (hinto : th.next.Into Q)
    (hpush : ∀ b c, Q b → Q (b.push c)) (hunwound : Q th.unwound) : Q b := by
  cases hf with
  | rest => exact hrest
  | panicked => exact hunwound
  | told htold =>
    obtain ⟨_, _, _, _, r, hn, rfl, -⟩ := htold
    rw [hn] at hinto
    exact hinto r
  | woken hn | answered _ hn | expired _ hn =>
    rw [hn] at hinto
    exact hinto _
  | invoked _ hn =>
    rw [hn] at hinto
    exact hpush _ _ hinto

theorem origin (hf : Fate w v i t th b) : b.origin = th.origin :=
  hf.into (Q := fun b => b.origin = th.origin) rfl th.next_origin (fun _ _ => id) rfl

theorem of_panic (hf : Fate w v i t th b) (hn : th.next = .panic) : b = th ∨ b = th.unwound := by
  cases hf with
  | rest => exact .inl rfl
  | panicked => exact .inr rfl
  | told htold =>
    obtain ⟨_, _, _, _, _, hn', -⟩ := htold
    cases hn.symm.trans hn'
  | woken hn' | invoked _ hn' | answered _ hn' | expired _ hn' => cases hn.symm.trans hn'

theorem of_halt (hf : Fate w v i t th b) (hn : th.next = .halt) : b = th := by
  cases hf with
  | rest => rfl
  | told htold =>
    obtain ⟨_, _, _, _, _, hn', -⟩ := htold
    cases hn.symm.trans hn'
  | woken hn' | invoked _ hn' | answered _ hn' | expired _ hn' | panicked _ hn' =>
    cases hn.symm.trans hn'

end Fate

theorem step_deadline {span : Span} {next : Option Instant → Thread} (hq : w.Queued)
    (ht : w.threads[t]? = some th) (hn : th.next = .perform (.clock span) next) :
    w.step t = some (w.putThread t (next (w.deadline? span))) := by
  have hh : w.kernel.holds t = false := not_holds hq ht fun set he => by
    cases (congrArg Move.set? hn).symm.trans he
  simp only [step, ht, hh, hn, perform]
  rfl

theorem step_panic (hq : w.Queued) (ht : w.threads[t]? = some th) (hn : th.next = .panic) :
    w.step t = some (w.panic t th) := by
  have hh : w.kernel.holds t = false := not_holds hq ht fun set he => by
    cases (congrArg Move.set? hn).symm.trans he
  simp only [step, ht, hh, hn]
  rfl

/-- How a thread begins: as a worker that another thread starts, with an operation, or to give up a
handle. -/
inductive Starts (w : World) : Thread → Prop
  | worker {u : ThreadId} {th : Thread} {α : Type} {p : Primitive α} {next : α → Thread} {q : Party}
      {l : Link} {d : Direction} : w.threads[u]? = some th → th.next = .perform p next →
      p.worker? = some (q, l, d) → Starts w (.ofTask (worker q l d))
  | operation {e : EndpointId} {x : Endpoint} {op : Operation} : w.endpoints[e]? = some x →
      Starts w (.ofTask (.ofStarted (some e) (Call.ofOperation ⟨e, x.settings⟩ op)))
  | request {op : ObjectOperation} : Starts w (.ofTask (.ofStarted none (Call.ofObject op)))
  | leaving {e : EndpointId} : Starts w (.ofTask (.leaving e .release (.returned (.ok .unit))))

theorem Starts.ofTask {b : Thread} (h : w.Starts b) : ∃ task, b = .ofTask task := by
  cases h <;> exact ⟨_, rfl⟩

/-- At most one thread is started from outside at a time. -/
theorem Outside.threads (ho : w.Outside i v) :
    v.threads = w.threads ∨ ∃ b, w.Starts b ∧ v.threads = w.threads ++ [b] := by
  cases ho with
  | make | register | release => exact .inl rfl
  | operate op hx => exact .inr ⟨_, .operation hx, rfl⟩
  | request op => exact .inr ⟨_, .request, rfl⟩
  | drop e => exact .inr ⟨_, .leaving, rfl⟩

theorem Outside.starts {b : Thread} (ho : w.Outside i v) (hb : v.threads[t]? = some b)
    (hle : w.threads.length ≤ t) : w.Starts b := by
  rcases ho.threads with he | ⟨c, hc, he⟩
  · rw [he] at hb
    exact absurd (List.getElem?_eq_some_iff.mp hb).1 (Nat.not_lt.mpr hle)
  · rw [he, List.getElem?_append_right hle, List.getElem?_singleton] at hb
    split at hb <;> cases hb
    exact hc

theorem Outside.mem_or_starts {b : Thread} (ho : w.Outside i v) (hb : b ∈ v.threads) :
    b ∈ w.threads ∨ w.Starts b := by
  rcases ho.threads with he | ⟨c, hc, he⟩
  · exact .inl (he ▸ hb)
  · rw [he] at hb
    exact (List.mem_append.mp hb).imp id fun h => by rwa [List.mem_singleton.mp h]

/-- Whoever is new begins in one of these ways. -/
theorem apply_new {b : Thread} (ha : w.apply i = some v) (hb : v.threads[t]? = some b)
    (hle : w.threads.length ≤ t) : w.Starts b := by
  have hold : ∀ {th : Thread}, w.threads[t]? ≠ some th := fun h =>
    absurd (List.getElem?_eq_some_iff.mp h).1 (Nat.not_lt.mpr hle)
  have hperform : ∀ {α : Type} {p : Primitive α} {next : α → Thread} {x : World} {u : ThreadId}
      {c : Thread}, w.threads[u]? = some c → c.next = .perform p next →
      (w.perform u p = .queued x ∨ ∃ a, w.perform u p = .done x a) → x.threads[t]? = some b →
      w.Starts b := fun hc hn hp hx => by
    obtain ⟨th, hth, -⟩ | ⟨q, l, d, hworker, rfl⟩ := perform_drifts hp hx
    · exact absurd hth hold
    · exact .worker hc hn hworker
  cases i with
  | run u =>
    obtain ⟨c, hc, -, hcases⟩ := step_cases ha
    have hne : u ≠ t := fun he => hold (he ▸ hc)
    rcases hcases with ⟨α, p, next, hn, hp | ⟨x, a, hp, rfl⟩⟩ | ⟨p, c, after, -, rfl⟩ | ⟨-, rfl⟩
    · exact hperform hc hn (.inl hp) hb
    · exact hperform hc hn (.inr ⟨a, hp⟩) ((List.getElem?_set_ne hne).symm.trans hb)
    · rw [putThread, List.getElem?_set_ne hne, invoke_threads] at hb
      exact absurd hb hold
    · rw [panic_threads, List.getElem?_set_ne hne] at hb
      exact absurd hb hold
  | expire u =>
    simp only [apply, World.expire] at ha
    split at ha <;> cases ha
    have hb : (w.threads.set u _)[t]? = some b := hb
    rw [List.getElem?_set] at hb
    split at hb
    · rename_i hut
      split at hb
      · omega
      · cases hb
    · exact absurd hb hold
  | make | operate | request | drop | register | release =>
    exact (outside_of_apply rfl ha).starts hb hle

theorem notes_rest {e : EndpointId} (ns : List Note) (w : World) :
    (ns.foldl (·.note e ·) w).kernel = w.kernel ∧ (ns.foldl (·.note e ·) w).now = w.now := by
  induction ns generalizing w with
  | nil => exact ⟨rfl, rfl⟩
  | cons n ns ih => exact ih (w.note e n)

theorem outside_rest (hi : i.outside = true) (ha : w.apply i = some v) :
    v.kernel = w.kernel ∧ v.now = w.now := by
  cases outside_of_apply hi ha <;> exact ⟨rfl, rfl⟩

theorem deadline?_eq_none {span : Span} (h : w.deadline? span = none) :
    lastInstant < w.now + span.nanos := by
  simpa [deadline?] using h

/-- Time passes only with the end of somebody's patience. -/
theorem perform_now {α : Type} {p : Primitive α}
    (hp : w.perform t p = .queued v ∨ ∃ a, w.perform t p = .done v a) : v.now = w.now := by
  cases p with
  | system c =>
    have hobserve : ∀ (x : World) (a : Option α), (x.observe t a c).now = x.now := fun x a => by
      cases c with
      | loadRecord => cases a <;> rfl
      | _ => rfl
    simp only [perform] at hp
    split at hp <;> rcases hp with hp | ⟨a, hp⟩ <;> cases hp <;> exact hobserve _ _
  | endpoint e c =>
    simp only [perform] at hp
    split at hp
    · rcases hp with hp | ⟨a, hp⟩ <;> cases hp
    · rcases hp with hp | ⟨a, hp⟩ <;> cases hp
      split <;> exact (notes_rest _ _).2
  | clock | spawn | note =>
    rcases hp with hp | ⟨a, hp⟩ <;> cases hp
    rfl
  | park => rcases hp with hp | ⟨a, hp⟩ <;> cases hp
  | join j =>
    simp only [perform] at hp
    split at hp
    · rcases hp with hp | ⟨a, hp⟩ <;> cases hp
      rfl
    · split at hp <;> rcases hp with hp | ⟨a, hp⟩ <;> cases hp
      rfl
  | hold id =>
    simp only [perform] at hp
    split at hp <;> rcases hp with hp | ⟨a, hp⟩ <;> cases hp
    rfl

theorem now_le (ha : w.apply i = some v) : w.now ≤ v.now := by
  cases i with
  | run t =>
    obtain ⟨th, -, -, ⟨α, p, next, -, hp | ⟨x, a, hp, rfl⟩⟩ | ⟨p, c, after, -, rfl⟩ | ⟨-, rfl⟩⟩ :=
      step_cases ha
    · exact Nat.le_of_eq (perform_now (.inl hp)).symm
    · exact Nat.le_of_eq (perform_now (.inr ⟨a, hp⟩)).symm
    · refine Nat.le_of_eq (Eq.symm ?_)
      cases c with
      | resolve d job error =>
        simp only [World.invoke, resolve, putThread]
        split <;> rfl
      | disconnect => rfl
    · refine Nat.le_of_eq (Eq.symm ?_)
      simp only [World.panic, putThread]
      split <;> rfl
  | expire t =>
    simp only [apply, World.expire] at ha
    split at ha <;> cases ha
    exact Nat.le_max_left _ _
  | _ => exact Nat.le_of_eq (outside_rest rfl ha).2.symm

end World

end QueuePair
