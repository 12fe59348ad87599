import Mathlib.Algebra.GroupWithZero.Nat
import Mathlib.Tactic.ByContra
import QueuePair.Thread

namespace QueuePair

def tally (f : Thread → Nat) (ths : List Thread) : Nat :=
  (ths.map f).sum

@[simp] theorem tally_nil (f : Thread → Nat) : tally f [] = 0 := rfl

@[simp] theorem tally_append (f : Thread → Nat) (ths : List Thread) (th : Thread) :
    tally f (ths ++ [th]) = tally f ths + f th := by
  simp [tally]

theorem tally_set {f : Thread → Nat} {ths : List Thread} {t : ThreadId} {th : Thread}
    (h : ths[t]? = some th) (th' : Thread) :
    tally f (ths.set t th') + f th = tally f ths + f th' := by
  induction ths generalizing t with
  | nil => simp at h
  | cons a ths ih =>
    cases t with
    | zero =>
      obtain rfl : a = th := by simpa using h
      simp only [tally, List.set_cons_zero, List.map_cons, List.sum_cons]
      omega
    | succ t =>
      have hi := ih (by simpa using h)
      simp only [tally, List.set_cons_succ, List.map_cons, List.sum_cons] at hi ⊢
      omega

theorem le_tally {f : Thread → Nat} {ths : List Thread} {th : Thread} (h : th ∈ ths) :
    f th ≤ tally f ths := by
  induction ths with
  | nil => cases h
  | cons a ths ih =>
    simp only [tally, List.map_cons, List.sum_cons]
    rcases List.mem_cons.mp h with rfl | h
    · exact Nat.le_add_right _ _
    · exact Nat.le_trans (ih h) (Nat.le_add_left _ _)

theorem tally_eq_zero {f : Thread → Nat} {ths : List Thread} (h : ∀ th ∈ ths, f th = 0) :
    tally f ths = 0 := by
  induction ths with
  | nil => rfl
  | cons a ths ih =>
    have hrest := ih fun th ht => h th (List.mem_cons_of_mem a ht)
    simpa only [tally, List.map_cons, List.sum_cons, h a List.mem_cons_self, Nat.zero_add]

theorem add_le_tally {f : Thread → Nat} {ths : List Thread} {t u : ThreadId} {th th' : Thread}
    (h : ths[t]? = some th) (h' : ths[u]? = some th') (hne : t ≠ u) :
    f th + f th' ≤ tally f ths := by
  induction ths generalizing t u with
  | nil => simp at h
  | cons a ths ih =>
    simp only [tally, List.map_cons, List.sum_cons]
    cases t with
    | zero =>
      cases u with
      | zero => exact absurd rfl hne
      | succ u =>
        obtain rfl : a = th := by simpa using h
        have hu := le_tally (f := f) (List.mem_of_getElem? (i := u) (by simpa using h'))
        exact Nat.add_le_add_left hu _
    | succ t =>
      cases u with
      | zero =>
        obtain rfl : a = th' := by simpa using h'
        have ht := le_tally (f := f) (List.mem_of_getElem? (i := t) (by simpa using h))
        rw [Nat.add_comm]
        exact Nat.add_le_add_left ht _
      | succ u =>
        have hi := ih (t := t) (u := u) (by simpa using h) (by simpa using h') (by simpa using hne)
        exact Nat.le_trans hi (Nat.le_add_left _ _)

theorem tally_single {f : Thread → Nat} {ths : List Thread} {t : ThreadId} {th : Thread}
    (h : ths[t]? = some th)
    (ho : ∀ u th', u ≠ t → ths[u]? = some th' → f th' = 0) : tally f ths = f th := by
  induction ths generalizing t with
  | nil => simp at h
  | cons a ths ih =>
    simp only [tally, List.map_cons, List.sum_cons]
    cases t with
    | zero =>
      obtain rfl : a = th := by simpa using h
      have hrest : tally f ths = 0 := tally_eq_zero fun th' hm => by
        obtain ⟨u, hu⟩ := List.mem_iff_getElem?.mp hm
        exact ho (u + 1) th' (by simp) (by simpa using hu)
      exact congrArg (f a + ·) hrest
    | succ t =>
      have ha := ho 0 a (by simp) (by simp)
      have hi := ih (t := t) (by simpa using h) fun u th' hne hu =>
        ho (u + 1) th' (by simpa using hne) (by simpa using hu)
      rw [ha, Nat.zero_add]
      exact hi

/-- Only two threads count. -/
theorem tally_pair {f : Thread → Nat} {ths : List Thread} {t u : ThreadId} {th th' : Thread}
    (ht : ths[t]? = some th) (hu : ths[u]? = some th') (hne : t ≠ u)
    (ho : ∀ n thn, n ≠ t → n ≠ u → ths[n]? = some thn → f thn = 0) :
    tally f ths = f th + f th' := by
  induction ths generalizing t u with
  | nil => simp at ht
  | cons a ths ih =>
    simp only [tally, List.map_cons, List.sum_cons]
    cases t with
    | zero =>
      obtain rfl : a = th := by simpa using ht
      cases u with
      | zero => exact absurd rfl hne
      | succ u =>
        have hone := tally_single (f := f) (t := u) (by simpa using hu) fun n thn hn hget =>
          ho (n + 1) thn (by simp) (by simpa using hn) (by simpa using hget)
        exact congrArg (f a + ·) hone
    | succ t =>
      cases u with
      | zero =>
        obtain rfl : a = th' := by simpa using hu
        have hone := tally_single (f := f) (t := t) (by simpa using ht) fun n thn hn hget =>
          ho (n + 1) thn (by simpa using hn) (by simp) (by simpa using hget)
        rw [Nat.add_comm (f th)]
        exact congrArg (f a + ·) hone
      | succ u =>
        have ha := ho 0 a (by simp) (by simp) (by simp)
        have hi := ih (t := t) (u := u) (by simpa using ht) (by simpa using hu)
          (by simpa using hne) fun n thn hn hn' hget =>
            ho (n + 1) thn (by simpa using hn) (by simpa using hn') (by simpa using hget)
        rw [ha, Nat.zero_add]
        exact hi

theorem exists_of_lt_tally {f : Thread → Nat} {ths : List Thread} {t : ThreadId} {th : Thread}
    (h : ths[t]? = some th) (hlt : f th < tally f ths) :
    ∃ u th', u ≠ t ∧ ths[u]? = some th' ∧ 0 < f th' := by
  by_contra hnone
  have hone := tally_single h fun u th' hne hu =>
    Nat.eq_zero_of_not_pos fun hpos => hnone ⟨u, th', hne, hu, hpos⟩
  omega

end QueuePair
