import QueuePair.Proofs.After
import QueuePair.Proofs.Idle

namespace QueuePair

def Move.set? {σ : Type} : Move σ → Option SetId
  | .perform (.system (.change set _ _)) _ => some set
  | _ => none

namespace World

variable {w u v : World} {t : ThreadId} {th : Thread} {α : Type} {p : Primitive α} {a : α}

def follow (w : World) (ts : List ThreadId) : Option World :=
  ts.foldlM step w

def Lone (w : World) (t : ThreadId) : {α : Type} → Primitive α → Prop
  | _, .system (.change set _ _) => ∀ s, w.kernel.live? set = some s → s.waiters = []
  | _, .system (.removeSet _) => False
  | _, .endpoint e c => ∀ x s, w.endpoints[e]? = some x → x.call t c = some s → s.wakes = false
  | _, _ => True

def Alone {σ : Type} (w : World) (t : ThreadId) : Move σ → Prop
  | .perform p _ => w.Lone t p
  | .invoke .. | .panic => False
  | .halt => True

@[simp] theorem alone_map {σ τ : Type} {m : Move σ} {f : σ → τ} :
    w.Alone t (m.map f) ↔ w.Alone t m := by
  cases m <;> exact Iff.rfl

theorem assign_nil {s : SemaphoreSet} (h : s.waiters = []) (values : List Nat) :
    s.assign values = ({ s with values }, []) := by
  simp [SemaphoreSet.assign, SemaphoreSet.serve, h]

theorem complete_nil (w : World) : w.complete [] = w := rfl

/-- Carrying out such an action is one answer. -/
theorem Lone.answers (h : w.Lone t p) (hp : w.perform t p = .done u a) : w.Answers t p u a := by
  cases p with
  | system c =>
    cases c with
    | change set changes deadline =>
      simp only [perform, Kernel.call, Kernel.change] at hp
      cases hlive : w.kernel.live? set with
      | none =>
        simp only [hlive] at hp
        cases hp
        exact .gone hlive
      | some s =>
        cases hatt : attempt s.values changes with
        | done values =>
          simp only [hlive, hatt, assign_nil (h s hlive)] at hp
          cases hp
          exact .grant hlive hatt
        | overflows =>
          simp only [hlive, hatt] at hp
          cases hp
          exact .overflow hlive hatt
        | blocks =>
          simp only [hlive, hatt] at hp
          cases hp
    | removeSet => exact h.elim
    | _ =>
      simp only [perform, Kernel.call, Kernel.withFiles, complete_nil] at hp
      cases hp
      exact .system rfl rfl
  | endpoint e c =>
    simp only [perform] at hp
    cases hc : w.endpoints[e]?.bind (·.call t c) with
    | none => simp [hc] at hp
    | some s =>
      obtain ⟨x, hx, hs⟩ := Option.bind_eq_some_iff.mp hc
      simp only [hc, h x s hx hs, Bool.false_eq_true, if_false] at hp
      cases hp
      exact .access hx hs
  | clock =>
    cases hp
    exact .clock
  | park => cases hp
  | spawn =>
    cases hp
    exact .spawn
  | join n =>
    simp only [perform] at hp
    split at hp
    · rename_i hnone
      cases hp
      exact .join fun b hb => by simp [hnone] at hb
    · rename_i b hsome
      split at hp
      · rename_i hended
        cases hp
        refine .join fun b' hb => ?_
        obtain rfl := Option.some.inj (hsome.symm.trans hb)
        exact hended
      · cases hp
  | hold =>
    simp only [perform] at hp
    split at hp
    · rename_i hr
      cases hp
      exact .hold hr
    · cases hp
  | note =>
    cases hp
    exact .note

theorem refuses_of_queued (hp : w.perform t p = .queued v) : w.Refuses t p := by
  cases p with
  | system c =>
    cases c with
    | change set changes deadline =>
      simp only [perform, Kernel.call, Kernel.change] at hp
      cases hlive : w.kernel.live? set with
      | none =>
        simp only [hlive] at hp
        cases hp
      | some s =>
        cases hatt : attempt s.values changes with
        | done values | overflows =>
          simp only [hlive, hatt] at hp
          cases hp
        | blocks => exact ⟨s, hlive, hatt⟩
    | removeSet set =>
      simp only [perform, Kernel.call, Kernel.removeSet] at hp
      split at hp
      · rename_i hnone
        split at hnone <;> cases hnone
      · cases hp
    | _ => cases hp
  | endpoint e c =>
    simp only [perform] at hp
    split at hp <;> cases hp
  | join n =>
    simp only [perform] at hp
    split at hp
    · cases hp
    · split at hp <;> cases hp
  | hold =>
    simp only [perform] at hp
    split at hp <;> cases hp
  | clock | park | spawn | note => cases hp

theorem Alone.step (ha : w.Alone t th.next) (hg : ¬ w.Stands t th.next)
    (ht : w.threads[t]? = some th) (hs : w.step t = some v) :
    ∃ u th', w.After t th.next u th' ∧ v = u.putThread t th' := by
  cases hh : w.kernel.holds t with
  | true => simp [World.step, ht, hh] at hs
  | false =>
    simp only [World.step, ht, hh, Bool.false_eq_true, if_false] at hs
    cases hn : th.next with
    | perform p next =>
      simp only [hn] at hs hg ha
      cases hp : w.perform t p with
      | refused => simp [hp] at hs
      | queued u => exact (hg (refuses_of_queued hp)).elim
      | done u a =>
        simp only [hp, Option.some.injEq] at hs
        exact ⟨u, next a, ⟨a, (Lone.answers ha hp).answered, rfl⟩, hs.symm⟩
    | invoke | panic =>
      rw [hn] at ha
      exact ha.elim
    | halt => simp [hn] at hs

theorem step_of_goes (hg : ¬ w.Stands t th.next) (hq : w.Queued) (ht : w.threads[t]? = some th) :
    (w.step t).isSome = true := by
  cases hs : w.step t with
  | none => exact (hg (stands_of_step hs hq ht)).elim
  | some v => rfl

end World

end QueuePair
