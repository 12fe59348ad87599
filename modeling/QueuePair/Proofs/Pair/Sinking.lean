import QueuePair.Proofs.Pair.Fading

namespace QueuePair

open World

def World.accessed {α : Type} (v : World) (e : EndpointId) (sec : Section α) : World :=
  let u := sec.notes.foldl (·.note e ·) (v.putEndpoint e sec.endpoint)
  if sec.wakes then u.wake e else u

def World.removed (v : World) (set : SetId) (s : SemaphoreSet) : World :=
  ({ v with kernel := v.kernel.putSet set s.remove.1 } : World).complete s.remove.2

namespace Teardown

variable (T : Teardown)

/-- What the actions of threads lead to. -/
inductive Ripples (s : Role) (t : ThreadId) (lc : Licence) (v : World) :
    {α : Type} → Primitive α → World → α → Prop
  | gone {set : SetId} {changes : List Change} {d : Option Instant} :
      v.kernel.live? set = none →
      Ripples s t lc v (.system (.change set changes d)) v (.error .connectionClosed)
  | absent {set : SetId} : v.kernel.live? set = none →
      Ripples s t lc v (.system (.removeSet set)) v (.error .connectionClosed)
  | remove {set : SetId} {a : SemaphoreSet} : v.kernel.live? set = some a → s = T.side →
      T.before.kernel.setOf? T.pair.keys.mailbox = some set ∨ T.Cut v .gate →
      Ripples s t lc v (.system (.removeSet set)) (v.removed set a) (.ok ())
  | unlink {path : Path} {files : FileTree} {a : Except SystemError Unit} : T.Cut v .gate →
      Ripples s t lc v (.system (.unlink path))
        { v with kernel := { v.kernel with files := files } } a
  | access {α : Type} {c : EndpointCall α} {x : Endpoint} {sec : Section α} : T.Modest s t lc c →
      v.endpoints[T.pair.id s]? = some x → x.call t c = some sec →
      Ripples s t lc v (.endpoint (T.pair.id s) c) (v.accessed (T.pair.id s) sec) sec.answer
  | clock {span : Span} {a : Option Instant} : Ripples s t lc v (.clock span) v a
  | join {b : ThreadId} : Ripples s t lc v (.join b) v ()
  | hold {id : String} : Ripples s t lc v (.hold id) v ()
  | note {n : Note} : n.acts = true →
      Ripples s t lc v (.note (T.pair.id s) n) (v.note (T.pair.id s) n) ()

/-- Another thread that is moved on: it is woken, or its set is gone. -/
inductive MovedOn (e : EndpointId) (k : Kernel) (th : Thread) : Thread → Prop
  | same : MovedOn e k th th
  | woken {d : Option Instant} {next : Waking → Thread} : th.next = .perform (.park e d) next →
      MovedOn e k th (next .notified)
  | failed {set : SetId} {changes : List Change} {d : Option Instant}
      {next : Except Error Unit → Thread} :
      th.next = .perform (.system (.change set changes d)) next → k.live? set = none →
      MovedOn e k th (next (.error .connectionClosed))

variable {T} {s : Role} {t : ThreadId} {v u : World} {lc : Licence} {th : Thread}

theorem live?_eq {k : Kernel} {set : SetId} {a : SemaphoreSet} (h : k.live? set = some a) :
    k.sets[set]? = some a ∧ a.removed = false := by
  simpa [Kernel.live?, Option.filter_eq_some_iff] using h

theorem gone_of_waitsWhileLive {set : SetId} (hm : v.kernel.WaitsWhileLive t set)
    (hh : v.kernel.holds t = false) : v.kernel.live? set = none := by
  cases hl : v.kernel.live? set with
  | none => rfl
  | some a =>
    have hholds : v.kernel.holds t = true :=
      List.any_eq_true.mpr ⟨a, List.mem_of_getElem? (live?_eq hl).1, hm a hl⟩
    rw [hh] at hholds
    cases hholds

theorem ripples_of_perform {α : Type} {p : Primitive α} {a : α} (hh : v.kernel.holds t = false)
    (ha : T.Asks s t v lc p) (hp : v.perform t p = .done u a) : T.Ripples s t lc v p u a := by
  cases p with
  | system c =>
    cases c with
    | change set changes d =>
      have hnone := gone_of_waitsWhileLive ha hh
      simp only [perform, Kernel.call, Kernel.change, hnone, observe, complete, List.foldl_nil,
        Effect.done.injEq] at hp
      obtain ⟨rfl, rfl⟩ := hp
      exact .gone hnone
    | removeSet set =>
      obtain ⟨hs, -, hcase⟩ := ha
      cases hl : v.kernel.live? set with
      | none =>
        simp only [perform, Kernel.call, Kernel.removeSet, hl, observe, complete, List.foldl_nil,
          Effect.done.injEq] at hp
        obtain ⟨rfl, rfl⟩ := hp
        exact .absent hl
      | some b =>
        simp only [perform, Kernel.call, Kernel.removeSet, hl, observe, Effect.done.injEq] at hp
        obtain ⟨rfl, rfl⟩ := hp
        exact .remove hl hs hcase
    | unlink path =>
      simp only [perform, Kernel.call, Kernel.withFiles, observe, complete, List.foldl_nil,
        Effect.done.injEq] at hp
      obtain ⟨rfl, rfl⟩ := hp
      exact .unlink ha
    | _ => exact ha.elim
  | endpoint e c =>
    obtain ⟨rfl, hm⟩ := ha
    simp only [perform] at hp
    split at hp
    · cases hp
    · rename_i sec hsec
      obtain ⟨x, hx, hc⟩ := Option.bind_eq_some_iff.mp hsec
      cases hp
      exact .access hm hx hc
  | clock span =>
    cases hp
    exact .clock
  | park => cases hp
  | spawn => exact ha.elim
  | join b =>
    simp only [perform] at hp
    split at hp
    · cases hp
      exact .join
    · split at hp
      · cases hp
        exact .join
      · cases hp
  | hold id =>
    simp only [perform] at hp
    split at hp
    · cases hp
      exact .hold
    · cases hp
  | note e n =>
    obtain ⟨rfl, hn⟩ := ha
    cases hp
    exact .note hn

theorem not_queued {α : Type} {p : Primitive α} (hh : v.kernel.holds t = false)
    (ha : T.Asks s t v lc p) : v.perform t p ≠ .queued u := by
  intro hp
  cases p with
  | system c =>
    cases c with
    | change set changes d =>
      simp [perform, Kernel.call, Kernel.change, gone_of_waitsWhileLive ha hh] at hp
    | removeSet set =>
      cases hl : v.kernel.live? set <;>
        simp [perform, Kernel.call, Kernel.removeSet, hl] at hp
    | unlink => simp [perform, Kernel.call, Kernel.withFiles] at hp
    | _ => exact ha.elim
  | endpoint e c =>
    simp only [perform] at hp
    split at hp <;> cases hp
  | join b =>
    simp only [perform] at hp
    split at hp
    · cases hp
    · split at hp <;> cases hp
  | hold id =>
    simp only [perform] at hp
    split at hp <;> cases hp
  | clock | park | note => cases hp
  | spawn => exact ha.elim

section

variable {α : Type} {e : EndpointId} {sec : Section α}

@[simp] theorem accessed_kernel : (v.accessed e sec).kernel = v.kernel := by
  unfold accessed
  split <;> exact notes_kernel e sec.notes _

@[simp] theorem accessed_released : (v.accessed e sec).released = v.released := by
  have hnotes : ∀ (ns : List Note) (w : World),
      (ns.foldl (·.note e ·) w).released = w.released := by
    intro ns
    induction ns with
    | nil => exact fun _ => rfl
    | cons n ns ih => exact fun w => ih _
  unfold accessed
  split <;> exact hnotes _ _

@[simp] theorem accessed_endpoints :
    (v.accessed e sec).endpoints = v.endpoints.set e sec.endpoint := by
  unfold accessed
  split <;> exact (notes_same _ _).2

theorem accessed_threads : (v.accessed e sec).threads =
    if sec.wakes then v.threads.map (·.wake e) else v.threads := by
  have hnotes := (notes_same (e := e) sec.notes (v.putEndpoint e sec.endpoint)).1
  unfold accessed
  split
  · exact congrArg (List.map (·.wake e)) hnotes
  · exact hnotes

theorem accessed_history : (v.accessed e sec).history =
    sec.notes.reverse.map (.noted e ·) ++ v.history := by
  have hnotes : ∀ (ns : List Note) (w : World), (ns.foldl (·.note e ·) w).history =
      ns.reverse.map (.noted e ·) ++ w.history := by
    intro ns
    induction ns with
    | nil => exact fun _ => rfl
    | cons n ns ih =>
      intro w
      rw [List.foldl_cons, ih]
      simp [note, record]
  unfold accessed
  split <;> exact hnotes _ _

end

theorem live?_putSet {k : Kernel} {set set' : SetId} {a b : SemaphoreSet}
    (ha : k.live? set = some a) (hb : b.removed = true) :
    (k.putSet set b).live? set' = if set' = set then none else k.live? set' := by
  have hlt := (List.getElem?_eq_some_iff.mp (live?_eq ha).1).1
  by_cases hs : set' = set
  · subst hs
    simp [Kernel.live?, Kernel.putSet, List.getElem?_set_self hlt, hb]
  · simp [Kernel.live?, Kernel.putSet, List.getElem?_set_ne (Ne.symm hs), hs]

theorem live?_removed {set set' : SetId} {a : SemaphoreSet} (ha : v.kernel.live? set = some a) :
    (v.removed set a).kernel.live? set' = if set' = set then none else v.kernel.live? set' :=
  live?_putSet (b := a.remove.1) ha rfl

theorem Ripples.recedes {α : Type} {p : Primitive α} {a : α} (h : T.Ripples s t lc v p u a) :
    v.Recedes u := by
  cases h with
  | remove hl =>
    refine ⟨fun set' b hb => ?_, fun _ h => h⟩
    rw [live?_removed hl] at hb
    split at hb
    · cases hb
    · exact hb
  | access => exact ⟨fun _ _ h => by simpa using h, fun _ h => by simp [accessed_history, h]⟩
  | note => exact ⟨fun _ _ h => h, fun _ h => List.mem_cons_of_mem _ h⟩
  | _ => exact ⟨fun _ _ h => h, fun _ h => h⟩

@[simp] theorem Ripples.released {α : Type} {p : Primitive α} {a : α}
    (h : T.Ripples s t lc v p u a) : u.released = v.released := by
  cases h with
  | access => exact accessed_released
  | _ => rfl

theorem Ripples.kernel {α : Type} {p : Primitive α} {a : α} (h : T.Ripples s t lc v p u a) :
    T.Cut u .gate ∨ u.kernel = v.kernel := by
  have hu := h.recedes
  cases h with
  | @remove set b hl hs hcase =>
    rcases hcase with hset | hcut
    · refine .inl fun set' hset' => ?_
      obtain rfl := Option.some.inj (hset.symm.trans hset')
      rw [live?_removed hl, if_pos rfl]
    · exact .inl (hcut.mono hu)
  | unlink hcut => exact .inl (hcut.mono hu)
  | access => exact .inr accessed_kernel
  | _ => exact .inr rfl

theorem Ripples.elsewhere {α : Type} {p : Primitive α} {a : α} {q : Role}
    (h : T.Ripples s t lc v p u a) (hq : q ≠ s) :
    u.endpoints[T.pair.id q]? = v.endpoints[T.pair.id q]? := by
  cases h with
  | access =>
    rw [accessed_endpoints, List.getElem?_set_ne fun hid => hq (Pair.id_inj.mp hid).symm]
  | _ => rfl

theorem movedOn_wake (th : Thread) (e : EndpointId) (k : Kernel) : MovedOn e k th (th.wake e) := by
  unfold Thread.wake
  split
  · rename_i e' d next hn
    split
    · rename_i he
      exact .woken (he ▸ hn)
    · exact .same
  · exact .same

theorem complete_cases (ends : List Completion) (ths : List Thread) {i : ThreadId} {th' : Thread}
    (hn : (ends.map (·.thread)).Nodup)
    (h : (ends.foldl (fun ths c => ths.modify c.thread (·.complete c.result)) ths)[i]? =
      some th') : ths[i]? = some th' ∨
        ∃ c ∈ ends, ∃ th, c.thread = i ∧ ths[i]? = some th ∧ th' = th.complete c.result := by
  induction ends generalizing ths with
  | nil => exact .inl h
  | cons c ends ih =>
    obtain ⟨hc, hn⟩ := List.nodup_cons.mp hn
    rcases ih _ hn h with hi | ⟨d, hd, th, rfl, hth, rfl⟩
    · rw [List.getElem?_modify] at hi
      split at hi
      · rename_i hci
        obtain ⟨th, hth, rfl⟩ := Option.map_eq_some_iff.mp hi
        exact .inr ⟨c, List.mem_cons_self, th, hci, hth, rfl⟩
      · exact .inl (by simpa using hi)
    · have hne : c.thread ≠ d.thread := fun he => hc (List.mem_map.mpr ⟨d, hd, he.symm⟩)
      rw [List.getElem?_modify_ne _ _ hne] at hth
      exact .inr ⟨d, List.mem_cons_of_mem _ hd, th, rfl, hth, rfl⟩

theorem Ripples.movedOn {α : Type} {p : Primitive α} {a : α} (h : T.Ripples s t lc v p u a)
    (hq : v.Queued) {i : ThreadId} {th' : Thread} (hi : u.threads[i]? = some th') :
    ∃ th, v.threads[i]? = some th ∧ MovedOn (T.pair.id s) u.kernel th th' := by
  cases h with
  | @remove set b hl =>
    have hset := (live?_eq hl).1
    have hnodup : (b.remove.2.map (·.thread)).Nodup := by
      have hnodup := hq.nodup hset
      simpa [SemaphoreSet.remove, Function.comp_def] using hnodup
    rcases complete_cases _ _ hnodup hi with hi | ⟨c, hc, th, rfl, hth, rfl⟩
    · exact ⟨th', hi, .same⟩
    · obtain ⟨q, hq', rfl⟩ := List.mem_map.mp hc
      obtain ⟨th₂, d, next, hth₂, hn⟩ := hq.waits hset hq'
      obtain rfl := Option.some.inj (hth.symm.trans hth₂)
      refine ⟨th, hth, ?_⟩
      rw [complete_eq hn]
      refine .failed hn ?_
      rw [live?_removed hl, if_pos rfl]
  | access =>
    rw [accessed_threads] at hi
    split at hi
    · rw [List.getElem?_map] at hi
      obtain ⟨th, hth, rfl⟩ := Option.map_eq_some_iff.mp hi
      exact ⟨th, hth, movedOn_wake _ _ _⟩
    · exact ⟨th', hi, .same⟩
  | _ => exact ⟨th', hi, .same⟩

theorem Ripples.length {α : Type} {p : Primitive α} {a : α} (h : T.Ripples s t lc v p u a) :
    u.threads.length = v.threads.length := by
  cases h with
  | @remove set b hl =>
    have hall : ∀ (ends : List Completion) (ths : List Thread),
        (ends.foldl (fun ths c => ths.modify c.thread (·.complete c.result)) ths).length =
          ths.length := by
      intro ends
      induction ends with
      | nil => exact fun _ => rfl
      | cons c ends ih => exact fun ths => (ih _).trans (List.length_modify _ _ _)
    exact hall _ _
  | access =>
    rw [accessed_threads]
    split <;> simp
  | _ => rfl

end Teardown

end QueuePair
