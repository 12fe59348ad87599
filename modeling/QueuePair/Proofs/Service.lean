import Mathlib.Algebra.GroupWithZero.Nat
import Mathlib.Algebra.Ring.Int.Defs
import QueuePair.Kernel.Calls

namespace QueuePair

def added (i : Nat) (changes : List Change) : Int :=
  (changes.map fun c => if c.index = i then c.delta else 0).sum

@[simp] theorem added_nil (i : Nat) : added i [] = 0 := rfl

@[simp] theorem added_cons (i : Nat) (c : Change) (cs : List Change) :
    added i (c :: cs) = (if c.index = i then c.delta else 0) + added i cs := by
  simp [added]

theorem attempt_spec {values after : List Nat} {changes : List Change}
    (h : attempt values changes = .done after) :
    after.length = values.length ∧
      ∀ i, i < values.length → (after.getD i 0 : Int) = values.getD i 0 + added i changes := by
  induction changes generalizing values with
  | nil =>
    simp only [attempt, Attempt.done.injEq] at h
    subst h
    exact ⟨rfl, fun i _ => by simp⟩
  | cons c cs ih =>
    simp only [attempt] at h
    split at h
    · rename_i hz
      split at h
      · obtain ⟨hl, hv⟩ := ih h
        refine ⟨hl, fun i hi => ?_⟩
        rw [hv i hi, added_cons, hz]
        simp
      · cases h
    · split at h
      · cases h
      · rename_i hn
        split at h
        · cases h
        · obtain ⟨hl, hv⟩ := ih h
          refine ⟨by simpa using hl, fun i hi => ?_⟩
          rw [hv i (by simpa using hi), added_cons]
          by_cases hc : c.index = i
          · subst hc
            simp only [List.getD_eq_getElem?_getD, List.getElem?_set_self hi, Option.getD_some,
              if_true] at hn ⊢
            omega
          · simp [List.getD_eq_getElem?_getD, List.getElem?_set_ne hc, hc]

/-- Small additions to small values never overflow. -/
theorem attempt_ne_overflows {values : List Nat} {changes : List Change} {b : Nat}
    (hv : ∀ i, values.getD i 0 ≤ b) (hc : ∀ c ∈ changes, c.delta ≤ 2)
    (hb : b + 2 * changes.length ≤ semaphoreMax) :
    attempt values changes ≠ .overflows := by
  induction changes generalizing values b with
  | nil => simp [attempt]
  | cons c cs ih =>
    have hd := hc c (by simp)
    have hi := hv c.index
    have hrest : ∀ c ∈ cs, c.delta ≤ 2 := fun c hm => hc c (by simp [hm])
    simp only [List.length_cons] at hb
    simp only [attempt]
    split
    · split
      · exact ih hv hrest (by omega)
      · simp
    · split
      · simp
      · split
        · omega
        · refine ih (b := b + 2) (fun i => ?_) hrest (by omega)
          have hvi := hv i
          simp only [List.getD_eq_getElem?_getD, List.getElem?_set] at hvi hi ⊢
          split
          · split
            · simp only [Option.getD_some]; omega
            · simp
          · omega

section

variable {values : List Nat} {i : Nat}

theorem raise_ne_blocks : attempt values [⟨i, 1⟩] ≠ .blocks := by
  have hone : (1 : Int) ≠ 0 := by decide
  simp only [attempt, if_neg hone]
  split
  · omega
  · split <;> rintro ⟨⟩

theorem take_blocks (h : attempt values [⟨i, -1⟩] = .blocks) : values.getD i 0 = 0 := by
  have hone : (-1 : Int) ≠ 0 := by decide
  simp only [attempt, if_neg hone] at h
  split at h
  · omega
  · split at h <;> cases h

theorem zero_blocks (h : attempt values [⟨i, 0⟩] = .blocks) : values.getD i 0 ≠ 0 := by
  simp only [attempt, if_true] at h
  split at h
  · cases h
  · omega

theorem both_blocks (h : attempt values [⟨i, -2⟩, ⟨i, 2⟩] = .blocks) : values.getD i 0 < 2 := by
  have htwo : (-2 : Int) ≠ 0 := by decide
  have htwo' : (2 : Int) ≠ 0 := by decide
  simp only [attempt, if_neg htwo, if_neg htwo'] at h
  split at h
  · omega
  · split at h
    · cases h
    · split at h
      · omega
      · split at h <;> cases h

theorem last_blocks (hi : i < values.length) (h : attempt values [⟨i, -1⟩, ⟨i, 0⟩] = .blocks) :
    values.getD i 0 ≠ 1 := by
  have hone : (-1 : Int) ≠ 0 := by decide
  intro hv
  simp only [attempt, if_neg hone, hv, if_true] at h
  split at h
  · omega
  · split at h
    · cases h
    · split at h
      · cases h
      · rename_i hz
        simp [List.getD_eq_getElem?_getD, hi] at hz

end

namespace SemaphoreSet

/-- Waiters leave a queue one after the other, each with what comes of its change at its turn. -/
inductive Serves : List Nat → List Waiter → List Nat → List Waiter → List Completion → Prop
  | stop (values : List Nat) (ws : List Waiter) : Serves values ws values ws []
  | grant {values next after : List Nat} {ws rest : List Waiter} {ends : List Completion}
      (q : Waiter) : q ∈ ws → attempt values q.changes = .done next →
      Serves next (ws.erase q) after rest ends →
      Serves values ws after rest (⟨q.thread, .ok ()⟩ :: ends)
  | refuse {values after : List Nat} {ws rest : List Waiter} {ends : List Completion}
      (q : Waiter) : q ∈ ws → attempt values q.changes = .overflows →
      Serves values (ws.erase q) after rest ends →
      Serves values ws after rest (⟨q.thread, .error (.ofSystem .outOfRange)⟩ :: ends)

theorem firstReady_spec {values : List Nat} {ws rest : List Waiter} {q : Waiter} {a : Attempt}
    (h : firstReady values ws = some (q, a, rest)) :
    q ∈ ws ∧ a = attempt values q.changes ∧ a ≠ .blocks ∧ rest = ws.erase q := by
  induction ws generalizing rest with
  | nil => simp [firstReady] at h
  | cons w ws ih =>
    cases hw : attempt values w.changes with
    | blocks =>
      simp only [firstReady, hw, Option.map_eq_some_iff, Prod.mk.injEq, Prod.exists] at h
      obtain ⟨q', a', rest', h', rfl, rfl, rfl⟩ := h
      obtain ⟨hm, ha, hb, rfl⟩ := ih h'
      have hne : w ≠ q' := by
        rintro rfl
        exact hb (ha.trans hw)
      exact ⟨by simp [hm], ha, hb, by simp [hne]⟩
    | done after | overflows =>
      simp only [firstReady, hw, Option.some.injEq, Prod.mk.injEq] at h
      obtain ⟨rfl, rfl, rfl⟩ := h
      simp [hw]

theorem nextReady_spec {values : List Nat} {ws rest : List Waiter} {q : Waiter} {a : Attempt}
    (h : nextReady values ws = some (q, a, rest)) :
    q ∈ ws ∧ a = attempt values q.changes ∧ a ≠ .blocks ∧ rest = ws.erase q := by
  simp only [nextReady] at h
  split at h
  · rename_i w hf
    simp only [Option.some.injEq, Prod.mk.injEq] at h
    obtain ⟨rfl, rfl, rfl⟩ := h
    have hw := List.find?_some hf
    simp only [Bool.and_eq_true, decide_eq_true_eq] at hw
    exact ⟨List.mem_of_find?_eq_some hf, rfl, hw.2, rfl⟩
  · exact firstReady_spec h

theorem firstReady_eq_none {values : List Nat} {ws : List Waiter}
    (h : firstReady values ws = none) : ∀ q ∈ ws, attempt values q.changes = .blocks := by
  induction ws with
  | nil => simp
  | cons w ws ih =>
    cases hw : attempt values w.changes with
    | blocks =>
      simp only [firstReady, hw, Option.map_eq_none_iff] at h
      simpa [hw] using ih h
    | done after | overflows => simp [firstReady, hw] at h

theorem nextReady_eq_none {values : List Nat} {ws : List Waiter}
    (h : nextReady values ws = none) : ∀ q ∈ ws, attempt values q.changes = .blocks := by
  simp only [nextReady] at h
  split at h
  · cases h
  · exact firstReady_eq_none h

theorem serves_serve (n : Nat) (values : List Nat) (ws : List Waiter) :
    Serves values ws (serve n values ws).1 (serve n values ws).2.1 (serve n values ws).2.2 := by
  induction n generalizing values ws with
  | zero => exact .stop values ws
  | succ n ih =>
    cases hr : nextReady values ws with
    | none =>
      simp only [serve, hr]
      exact .stop values ws
    | some r =>
      obtain ⟨q, a, rest⟩ := r
      obtain ⟨hm, ha, hb, rfl⟩ := nextReady_spec hr
      cases a with
      | done next =>
        simp only [serve, hr]
        exact .grant q hm ha.symm (ih next _)
      | overflows =>
        simp only [serve, hr]
        exact .refuse q hm ha.symm (ih values _)
      | blocks => exact absurd rfl hb

theorem serve_blocks (n : Nat) (values : List Nat) (ws : List Waiter) (hn : ws.length ≤ n) :
    ∀ q ∈ (serve n values ws).2.1, attempt (serve n values ws).1 q.changes = .blocks := by
  induction n generalizing values ws with
  | zero =>
    have hw : ws = [] := List.length_eq_zero_iff.mp (by omega)
    simp [serve, hw]
  | succ n ih =>
    cases hr : nextReady values ws with
    | none =>
      simp only [serve, hr]
      exact nextReady_eq_none hr
    | some r =>
      obtain ⟨q, a, rest⟩ := r
      obtain ⟨hm, -, -, rfl⟩ := nextReady_spec hr
      have hl : (ws.erase q).length ≤ n := by
        rw [List.length_erase_of_mem hm]
        omega
      cases a <;> simp only [serve, hr] <;> exact ih _ _ hl

theorem Serves.sublist {values after : List Nat} {ws rest : List Waiter} {ends : List Completion}
    (h : Serves values ws after rest ends) : rest.Sublist ws := by
  induction h with
  | stop => exact List.Sublist.refl _
  | grant q hm ha hs ih | refuse q hm ha hs ih => exact ih.trans (List.erase_sublist)

theorem Serves.thread_not_mem {values after : List Nat} {ws rest : List Waiter}
    {ends : List Completion} (h : Serves values ws after rest ends)
    (hn : (ws.map (·.thread)).Nodup) :
    ∀ c ∈ ends, (∃ q ∈ ws, q.thread = c.thread) ∧ ∀ q ∈ rest, q.thread ≠ c.thread := by
  induction h with
  | stop => simp
  | grant q hm ha hs ih | refuse q hm ha hs ih =>
    rename_i ws rest ends
    have hsub : ((ws.erase q).map (·.thread)).Nodup :=
      hn.sublist (List.erase_sublist.map _)
    have hq : ∀ r ∈ ws.erase q, r.thread ≠ q.thread := by
      intro r hr he
      have hp := (List.perm_cons_erase hm).map (·.thread)
      have hnd := hp.nodup_iff.mp hn
      simp only [List.map_cons, List.nodup_cons, List.mem_map, not_exists, not_and] at hnd
      exact hnd.1 r hr he
    intro c hc
    rcases List.mem_cons.mp hc with rfl | hc
    · exact ⟨⟨q, hm, rfl⟩, fun r hr => hq r (hs.sublist.subset hr)⟩
    · obtain ⟨⟨r, hr, hrc⟩, hrest⟩ := ih hsub c hc
      exact ⟨⟨r, List.mem_of_mem_erase hr, hrc⟩, hrest⟩

end SemaphoreSet

theorem Kernel.live?_eq_some {k : Kernel} {set : SetId} {s : SemaphoreSet} :
    k.live? set = some s ↔ k.sets[set]? = some s ∧ s.removed = false := by
  simp [Kernel.live?, Option.filter_eq_some_iff]

end QueuePair
