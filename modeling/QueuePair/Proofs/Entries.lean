import QueuePair.Proofs.Queue

namespace QueuePair

def Slot.inUse {α : Type} : Slot α → Nat
  | .inFlight => 1
  | .free | .posted _ => 0

namespace WorkQueue

variable {α : Type} {q q' : WorkQueue α} {a : α} {i j : Nat}

def reserves (q : WorkQueue α) (i : Nat) : Nat :=
  (q.slab.slots[i]?.map Slot.inUse).getD 0

theorem reserves_pos (h : 0 < q.reserves i) : q.Reserved i := by
  unfold reserves at h
  unfold Reserved
  cases hs : q.slab.slots[i]? with
  | none => simp [hs] at h
  | some s =>
    cases s with
    | inFlight => rfl
    | free | posted => simp [hs, Slot.inUse] at h

@[simp] theorem reserves_ofDepth (depth : Nat) : (ofDepth depth : WorkQueue α).reserves i = 0 := by
  unfold reserves
  simp only [ofDepth, Slab.ofDepth, List.getElem?_replicate]
  split <;> simp [Slot.inUse]

theorem reserves_set {s x : Slot α} (hs : q.slab.slots[i]? = some s) (free : List Nat)
    (pending : Fifo) (j : Nat) :
    (⟨⟨q.slab.slots.set i x, free⟩, pending⟩ : WorkQueue α).reserves j +
      (if j = i then s.inUse else 0) = q.reserves j + if j = i then x.inUse else 0 := by
  unfold reserves
  by_cases hj : j = i
  · subst hj
    obtain ⟨hlt, hget⟩ := List.getElem?_eq_some_iff.mp hs
    simp [hlt, hget, Nat.add_comm]
  · simp [hj, List.getElem?_set_ne (Ne.symm hj)]

theorem Tidy.post_reserves (ht : q.Tidy) (h : q.post a = some q') (j : Nat) :
    q'.reserves j = q.reserves j := by
  obtain ⟨i, rest, hf, rfl⟩ := post_eq h
  have hfree : q.slab.slots[i]? = some .free := (ht.free i).mp (by simp [hf])
  have hset := reserves_set (x := .posted a) hfree rest ⟨q.pending.indices ++ [i]⟩ j
  simpa [Slot.inUse] using hset

theorem Tidy.next_reserves {r : Option (Nat × α)} (ht : q.Tidy) (h : q.next = (r, q')) (j : Nat) :
    q'.reserves j = q.reserves j + if (r.map Prod.fst) = some j then 1 else 0 := by
  obtain ⟨⟨slots, free⟩, ⟨is⟩⟩ := q
  cases is with
  | nil =>
    obtain ⟨rfl, rfl⟩ := Prod.mk.inj h
    rfl
  | cons i is =>
    obtain ⟨a, ha⟩ := (ht.posted i).mp (by simp)
    have hget : Slab.get? ⟨slots, free⟩ i = some a := Slab.get?_eq_some.mpr ha
    simp only [WorkQueue.next, takeFirst, Slab.take, hget, Option.map_some] at h
    obtain ⟨rfl, rfl⟩ := Prod.mk.inj h
    have hset := reserves_set (x := .inFlight) ha free ⟨is⟩ j
    simpa [Slot.inUse, eq_comm] using hset

theorem complete_reserves (h : q.Reserved i) (j : Nat) :
    (q.complete i).reserves j + (if j = i then 1 else 0) = q.reserves j := by
  rw [release_eq h]
  have hset := reserves_set (x := .free) h (i :: q.slab.free) q.pending j
  simpa [Slot.inUse] using hset

theorem Tidy.cancel_reserves {p : α → Bool} {r : Option α} (ht : q.Tidy)
    (h : q.cancel p = (r, q')) (j : Nat) : q'.reserves j = q.reserves j := by
  cases r with
  | none => rw [cancel_none h]
  | some b =>
    simp only [WorkQueue.cancel] at h
    cases hf : q.pending.indices.find? fun i => (q.slab.get? i).any p with
    | none => simp [hf] at h
    | some i =>
      obtain ⟨a, ha⟩ := (ht.posted i).mp (List.mem_of_find?_eq_some hf)
      have hget : q.slab.get? i = some a := Slab.get?_eq_some.mpr ha
      have hself : (q.slab.slots.set i .inFlight)[i]? = some .inFlight :=
        List.getElem?_set_self (List.getElem?_eq_some_iff.mp ha).1
      simp only [hf, Slab.take, hget, Option.map_some, Slab.release, hself, List.set_set] at h
      obtain ⟨-, rfl⟩ := Prod.mk.inj h
      have hset := reserves_set (x := .free) ha (i :: q.slab.free) (q.pending.remove i).2 j
      simpa [Slot.inUse] using hset

theorem drainFrom_cons {slab : Slab α} {is : List Nat} (ha : slab.get? i = some a) :
    drainFrom slab (i :: is) =
      (a :: (drainFrom ((⟨slab, ⟨i :: is⟩⟩ : WorkQueue α).next.2.complete i).slab is).1,
        (drainFrom ((⟨slab, ⟨i :: is⟩⟩ : WorkQueue α).next.2.complete i).slab is).2) := by
  simp [drainFrom, WorkQueue.next, takeFirst, Slab.take, ha, complete]

/-- Draining takes every item and frees its entry. -/
theorem Tidy.drain {as : List α} (ht : q.Tidy) (h : q.drain = (as, q')) :
    q'.Tidy ∧ as = q.items ∧ q'.pending = .empty ∧ ∀ j, q'.reserves j = q.reserves j := by
  obtain ⟨slab, ⟨is⟩⟩ := q
  induction is generalizing slab as with
  | nil =>
    obtain ⟨rfl, rfl⟩ := Prod.mk.inj h
    exact ⟨ht, rfl, rfl, fun _ => rfl⟩
  | cons i is ih =>
    obtain ⟨a, ha⟩ := (ht.posted i).mp (by simp)
    have hget : slab.get? i = some a := Slab.get?_eq_some.mpr ha
    have hnext : (⟨slab, ⟨i :: is⟩⟩ : WorkQueue α).next =
        (some (i, a), ⟨⟨slab.slots.set i .inFlight, slab.free⟩, ⟨is⟩⟩) := by
      simp [WorkQueue.next, takeFirst, Slab.take, hget]
    have hres := ht.next_reserves hnext
    obtain ⟨ht', -, hcase⟩ := ht.next hnext
    obtain ⟨i', a', hr, hitems, hin⟩ := hcase.resolve_left (by simp)
    cases hr
    obtain ⟨ht₂, hitems₂, -⟩ := ht'.complete hin
    have hres₂ := complete_reserves hin
    simp only [WorkQueue.drain, drainFrom_cons hget, hnext] at h
    obtain ⟨rfl, rfl⟩ := Prod.mk.inj h
    obtain ⟨h₁, h₂, h₃, h₄⟩ := ih _ ht₂ rfl
    refine ⟨h₁, ?_, rfl, fun j => ?_⟩
    · rw [hitems, ← hitems₂]
      exact congrArg (a :: ·) h₂
    · have hj := hres j
      have hj₂ := hres₂ j
      have hj₃ : _ = (WorkQueue.complete _ i).reserves j := h₄ j
      simp only [Option.map_some, Option.some.injEq] at hj
      by_cases hij : j = i
      · subst hij
        simp at hj hj₂
        omega
      · simp [hij, Ne.symm hij] at hj hj₂
        omega

theorem release_depth (slab : Slab α) (i : Nat) : (slab.release i).2.depth = slab.depth := by
  unfold Slab.release
  split <;> simp [Slab.depth]

theorem take_depth {slab slab' : Slab α} (h : slab.take i = some (a, slab')) :
    slab'.depth = slab.depth := by
  obtain ⟨-, rfl⟩ := take_eq h
  simp [Slab.depth]

theorem post_depth (h : q.post a = some q') : q'.depth = q.depth := by
  obtain ⟨i, rest, -, rfl⟩ := post_eq h
  simp [depth, Slab.depth]

theorem next_depth (q : WorkQueue α) : q.next.2.depth = q.depth := by
  have hall : ∀ (is : List Nat) (slab : Slab α), (takeFirst slab is).2.depth = slab.depth := by
    intro is
    induction is with
    | nil => exact fun _ => rfl
    | cons i is ih =>
      intro slab
      unfold takeFirst
      split
      · rename_i ht
        exact take_depth ht
      · exact ih slab
  exact hall _ _

theorem complete_depth (q : WorkQueue α) (i : Nat) : (q.complete i).depth = q.depth :=
  release_depth _ _

theorem cancel_depth (q : WorkQueue α) (p : α → Bool) : (q.cancel p).2.depth = q.depth := by
  unfold cancel
  split
  · rfl
  · split
    · exact release_depth _ _
    · rename_i ht
      exact (release_depth _ _).trans (take_depth ht)

theorem drain_depth (q : WorkQueue α) : q.drain.2.depth = q.depth := by
  have hall : ∀ (is : List Nat) (slab : Slab α), (drainFrom slab is).2.depth = slab.depth := by
    intro is
    induction is with
    | nil => exact fun _ => rfl
    | cons i is ih =>
      intro slab
      unfold drainFrom
      split
      · rename_i ht
        exact (ih _).trans ((release_depth _ _).trans (take_depth ht))
      · exact ih slab
  exact hall _ _

theorem Tidy.free_of_idle (ht : q.Tidy) (hp : q.pending = .empty) (hr : ∀ i, q.reserves i = 0)
    {s : Slot α} (hs : s ∈ q.slab.slots) : s = .free := by
  obtain ⟨i, hi⟩ := List.mem_iff_getElem?.mp hs
  cases s with
  | free => rfl
  | posted a =>
    have hm := (ht.posted i).mpr ⟨a, hi⟩
    simp [hp, Fifo.empty] at hm
  | inFlight =>
    have hone := hr i
    simp [reserves, hi, Slot.inUse] at hone

theorem items_nil (h : q.pending = .empty) : q.items = [] := by
  simp [items, h, Fifo.empty]

end WorkQueue

end QueuePair
