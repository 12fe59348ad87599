import QueuePair.Proofs.Atom

namespace QueuePair

namespace World

/-- Whether a thread has to wait with an action. -/
def Refuses (w : World) (t : ThreadId) : {α : Type} → Primitive α → Prop
  | _, .system (.change set changes _) =>
    ∃ s, w.kernel.live? set = some s ∧ attempt s.values changes = .blocks
  | _, .system _ => False
  | _, .endpoint e c => (w.endpoints[e]?.bind (·.call t c)) = none
  | _, .park .. => True
  | _, .join u => ∃ th, w.threads[u]? = some th ∧ th.isEnded = false
  | _, .hold id => w.released.contains id = false
  | _, .clock _ | _, .spawn .. | _, .note .. => False

def Stands {σ : Type} (w : World) (t : ThreadId) : Move σ → Prop
  | .perform p _ => w.Refuses t p
  | .invoke .. | .panic => False
  | .halt => True

variable {w : World} {t : ThreadId} {th : Thread}

theorem stands_map {σ τ : Type} {m : Move σ} {f : σ → τ} :
    w.Stands t (m.map f) ↔ w.Stands t m := by
  cases m <;> exact Iff.rfl

theorem refuses_of_refused {α : Type} {p : Primitive α} (h : w.perform t p = .refused) :
    w.Refuses t p := by
  cases p with
  | system c =>
    simp only [perform] at h
    split at h <;> cases h
  | endpoint e c =>
    simp only [perform] at h
    split at h
    · assumption
    · cases h
  | park => trivial
  | join u =>
    simp only [perform] at h
    split at h
    · cases h
    · rename_i th hu
      split at h
      · cases h
      · rename_i he
        exact ⟨th, hu, (Bool.not_eq_true _).mp he⟩
  | hold id =>
    simp only [perform] at h
    split at h
    · cases h
    · rename_i hr
      exact (Bool.not_eq_true _).mp hr
  | clock | spawn | note => cases h

theorem Queued.stands (hq : w.Queued) (ht : w.threads[t]? = some th)
    (hh : w.kernel.holds t = true) : w.Stands t th.next := by
  obtain ⟨set, s, q, hs, hm, rfl⟩ := holds_iff.mp hh
  obtain ⟨th', d, next, ht', hn⟩ := hq.waits hs hm
  obtain rfl := Option.some.inj (ht.symm.trans ht')
  rw [hn]
  refine ⟨s, Kernel.live?_eq_some.mpr ⟨hs, ?_⟩, hq.blocks hs hm⟩
  cases hr : s.removed with
  | false => rfl
  | true =>
    rw [hq.gone hs hr] at hm
    cases hm

theorem stands_of_step (hs : w.step t = none) (hq : w.Queued) (ht : w.threads[t]? = some th) :
    w.Stands t th.next := by
  cases hh : w.kernel.holds t with
  | true => exact hq.stands ht hh
  | false =>
    simp only [step, ht, hh, Bool.false_eq_true, if_false] at hs
    cases hn : th.next with
    | perform p next =>
      simp only [hn] at hs
      refine refuses_of_refused ?_
      cases hp : w.perform t p with
      | refused => rfl
      | queued | done => simp [hp] at hs
    | invoke | panic => simp [hn] at hs
    | halt => trivial

theorem Idle.stands (hi : w.Idle) (hq : w.Queued) (ht : w.threads[t]? = some th) :
    w.Stands t th.next :=
  stands_of_step (hi t) hq ht

theorem idle_iff : w.Idle ↔ ∀ t < w.threads.length, w.step t = none := by
  refine ⟨fun h t _ => h t, fun h t => ?_⟩
  by_cases ht : t < w.threads.length
  · exact h t ht
  · simp [step, List.getElem?_eq_none (Nat.le_of_not_lt ht)]

instance : Decidable w.Idle :=
  decidable_of_iff (∀ t < w.threads.length, (w.step t).isNone = true) <| by
    simp only [Option.isNone_iff_eq_none]
    exact idle_iff.symm

end World

end QueuePair
