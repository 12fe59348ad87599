import QueuePair.Proofs.Alone

namespace QueuePair

/-- What a routine makes of the system, and its result, if each of its calls is answered at once and
moves nobody else on. -/
inductive Executes {σ ρ : Type} (t : ThreadId) (next : σ → Move (Flow σ ρ)) :
    Kernel → Flow σ ρ → Kernel → ρ → Prop
  | done {k : Kernel} {r : ρ} : Executes t next k (.done r) k r
  | call {k u v : Kernel} {s : σ} {α : Type} {c : SystemCall α} {g : α → Flow σ ρ} {a : α}
      {r : ρ} : next s = .call c g → k.call t c = ⟨u, [], some a⟩ →
      Executes t next u (g a) v r → Executes t next k (.more s) v r

section

variable {σ τ ρ ρ' : Type} {t : ThreadId} {k k' k'' : Kernel} {r : ρ} {r' : ρ'}

theorem Executes.through {next : σ → Move (Flow σ ρ)} {outer : τ → Move (Flow τ ρ')}
    {more : σ → τ} {done : ρ → Flow τ ρ'} {f : Flow σ ρ}
    (ho : ∀ s, outer (more s) = (next s).through (fun s => .more (more s)) done)
    (h : Executes t next k f k' r) (hd : Executes t outer k' (done r) k'' r') :
    Executes t outer k (f.elim (fun s => .more (more s)) done) k'' r' := by
  induction h with
  | done => exact hd
  | @call k k₁ k₂ s α c g a r hn hc _ ih =>
    refine .call (g := fun a => (g a).elim (fun s => .more (more s)) done) ?_ hc (ih hd)
    rw [ho, hn]
    rfl

end

namespace Kernel

variable {k k' : Kernel} {t : ThreadId} {α : Type} {c : SystemCall α} {a : α}

/-- A thread whose call is answered at once waits nowhere. -/
theorem holds_of_call (h : k.call t c = ⟨k', [], some a⟩) (hh : k.holds t = false) :
    k'.holds t = false := by
  have hsets : k'.sets = k.sets → k'.holds t = false := fun he => by
    rw [holds, he]
    exact hh
  cases c with
  | createSet key count =>
    obtain rfl : (k.createSet key count).1 = k' := congrArg Called.kernel h
    rcases World.createSet_sets k key count with he | ⟨_, _, he⟩
    · exact hsets he
    · rw [holds, he, List.any_append, ← holds, hh]
      rfl
  | change set changes d =>
    simp only [call] at h
    rcases World.change_cases (t := t) k set changes with
      ⟨-, he⟩ | ⟨s, hs, ⟨values, -, he⟩ | ⟨-, he⟩ | ⟨-, he⟩⟩ <;> rw [he] at h
    · cases h
      exact hh
    · obtain ⟨rfl, -, -⟩ := (Called.mk.injEq ..).mp h
      exact World.not_holds_putSet (live?_eq_some.mp hs).1
        (SemaphoreSet.serves_serve _ values s.waiters).sublist hh
    · cases h
      exact hh
    · cases h
  | removeSet set =>
    simp only [call, removeSet] at h
    split at h
    · cases h
      exact hh
    · rename_i s hs
      obtain ⟨rfl, -, -⟩ := (Called.mk.injEq ..).mp h
      exact World.not_holds_putSet (live?_eq_some.mp hs).1 (List.nil_sublist _) hh
  | _ =>
    cases h
    exact hh

theorem call_change {set : SetId} {s : SemaphoreSet} {changes : List Change} {values : List Nat}
    (hs : k.live? set = some s) (hw : s.waiters = []) (ha : attempt s.values changes = .done values)
    (d : Option Instant) :
    k.call t (.change set changes d) = ⟨k.putSet set { s with values }, [], some (.ok ())⟩ := by
  simp only [call, change, hs, ha, World.assign_nil hw]

end Kernel

namespace World

variable {w : World} {t : ThreadId} {o : Task}

theorem step_of_call {α : Type} {th : Thread} {c : SystemCall α} {next : α → Thread} {k : Kernel}
    {a : α} (ht : w.threads[t]? = some th) (hh : w.kernel.holds t = false)
    (hn : th.next = .perform (.system c) next) (hc : w.kernel.call t c = ⟨k, [], some a⟩) :
    w.step t = some ((({ w with kernel := k } : World).observe t (some a) c).putThread t
    (next a)) := by
  simp only [step, ht, hh, Bool.false_eq_true, if_false, hn, perform, hc, complete, List.foldl_nil]

theorem follow_cons {v u : World} {ts : List ThreadId} (h : w.step t = some u)
    (hu : u.follow ts = some v) : w.follow (t :: ts) = some v := by
  rw [follow, List.foldlM_cons, h]
  exact hu

/-- A thread whose call is carried out alone comes to its end, and everything but the system and the
record is as before. -/
theorem follow_of_executes {k k' : Kernel} {f : Call.Started} {r : Result}
    (h : Executes t Call.next k f k' r) (hk : w.kernel = k) (hh : w.kernel.holds t = false)
    (ht : w.threads[t]? = some ⟨o, .ofStarted none f, []⟩) :
    ∃ n v, w.follow (List.replicate n t) = some v ∧ v.kernel = k' ∧
      v.threads = w.threads.set t ⟨o, .ended (.returned r), []⟩ ∧
      v.endpoints = w.endpoints := by
  induction h generalizing w with
  | done => exact ⟨0, w, rfl, hk, (set_of_getElem? ht).symm, rfl⟩
  | @call k k₁ k₂ s α c go a r hn hc hrest ih =>
    subst hk
    have hnext : (⟨o, .call none s, []⟩ : Thread).next = .perform (.system c) fun a =>
        ⟨o, .ofStarted none (go a), []⟩ := by
      simp only [Thread.next, Task.next, hn, Move.call, Move.through, Move.map]
      congr 1
      funext a
      cases go a <;> rfl
    let u := (({ w with kernel := k₁ } : World).observe t (some a) c).putThread t
      ⟨o, .ofStarted none (go a), []⟩
    have huk : u.kernel = k₁ := observe_kernel _ c
    have hut : u.threads = w.threads.set t ⟨o, .ofStarted none (go a), []⟩ :=
      congrArg (List.set · t _) (observe_threads (w := { w with kernel := k₁ }) _ c)
    have hue : u.endpoints = w.endpoints := observe_endpoints _ c
    have hlt := (List.getElem?_eq_some_iff.mp ht).1
    obtain ⟨n, v, hv, hkv, htv, hev⟩ := ih (w := u) huk (huk ▸ Kernel.holds_of_call hc hh)
      (by rw [hut, List.getElem?_set_self hlt])
    refine ⟨n + 1, v, follow_cons (step_of_call ht hh hnext hc) hv, hkv, ?_, hev.trans hue⟩
    rw [htv, hut, List.set_set]

theorem Queued.not_holds_length (hq : w.Queued) : w.kernel.holds w.threads.length = false := by
  rw [Bool.eq_false_iff, ne_eq, holds_iff]
  rintro ⟨set, s, q, hs, hm, hlen⟩
  obtain ⟨th, _, _, ht, -⟩ := hq.waits hs hm
  rw [hlen, List.getElem?_eq_none (Nat.le_refl _)] at ht
  cases ht

theorem follow_request {op : ObjectOperation} {k' : Kernel} {r : Result} (hq : w.Queued)
    (h : Executes w.threads.length Call.next w.kernel (Call.ofObject op) k' r) :
    ∃ n v, (w.request op).1.follow (List.replicate n w.threads.length) = some v ∧
      v.kernel = k' ∧ v.outcome? w.threads.length = some (.returned r) ∧
      v.endpoints = w.endpoints := by
  obtain ⟨n, v, hv, hk, ht, he⟩ := follow_of_executes (w := (w.request op).1)
    (o := .ofStarted none (Call.ofObject op)) h rfl hq.not_holds_length
    (by simp [request, spawn, Thread.ofTask])
  refine ⟨n, v, hv, hk, ?_, he⟩
  simp [outcome?, ht, request, spawn, Thread.outcome?]

end World

end QueuePair
