import Mathlib.Data.List.Basic
import QueuePair.Queue.Work

namespace QueuePair

namespace Slab

variable {α : Type} {s : Slab α} {i : Nat} {a : α}

theorem get?_eq_some : s.get? i = some a ↔ s.slots[i]? = some (.posted a) := by
  simp only [get?, Option.bind_eq_some_iff]
  constructor
  · rintro ⟨x, hx, hv⟩
    cases x <;> simp only [Slot.value?, reduceCtorEq, Option.some.injEq] at hv
    rw [hx, hv]
  · exact fun h => ⟨_, h, rfl⟩

end Slab

namespace WorkQueue

variable {α : Type} {q q' : WorkQueue α} {i : Nat} {a b : α}

def Keeps (q : WorkQueue α) (a : α) : Prop :=
  .posted a ∈ q.slab.slots

def items (q : WorkQueue α) : List α :=
  q.pending.indices.filterMap q.slab.get?

def Reserved (q : WorkQueue α) (i : Nat) : Prop :=
  q.slab.slots[i]? = some .inFlight

structure Tidy (q : WorkQueue α) : Prop where
  order : q.pending.indices.Nodup
  posted : ∀ i, i ∈ q.pending.indices ↔ ∃ a, q.slab.slots[i]? = some (.posted a)
  stack : q.slab.free.Nodup
  free : ∀ i, i ∈ q.slab.free ↔ q.slab.slots[i]? = some .free

theorem not_keeps_ofDepth (depth : Nat) : ¬ (ofDepth depth).Keeps a := by
  simp [Keeps, ofDepth, Slab.ofDepth]

theorem tidy_ofDepth (depth : Nat) : (ofDepth depth : WorkQueue α).Tidy where
  order := List.nodup_nil
  posted := fun i => by
    simp [ofDepth, Slab.ofDepth, Fifo.empty, List.getElem?_replicate]
  stack := List.nodup_range
  free := fun i => by
    simp [ofDepth, Slab.ofDepth, List.getElem?_replicate]

theorem items_ofDepth (depth : Nat) : (ofDepth depth : WorkQueue α).items = [] := rfl

theorem post_eq (h : q.post a = some q') : ∃ i rest, q.slab.free = i :: rest ∧
    q' = ⟨⟨q.slab.slots.set i (.posted a), rest⟩, ⟨q.pending.indices ++ [i]⟩⟩ := by
  simp only [post, Slab.acquire] at h
  cases hf : q.slab.free with
  | nil => simp [hf] at h
  | cons i rest =>
    simp only [hf, Option.map_some, Option.some.injEq] at h
    exact ⟨i, rest, rfl, h.symm⟩

theorem Keeps.of_post (h : q.post a = some q') (hb : q'.Keeps b) : q.Keeps b ∨ b = a := by
  obtain ⟨i, rest, -, rfl⟩ := post_eq h
  rcases List.mem_or_eq_of_mem_set hb with hm | he
  · exact .inl hm
  · exact .inr (Slot.posted.inj he)

theorem filterMap_set {l : List (Slot α)} {f g : List Nat} {is : List Nat} {x : Slot α}
    (hi : i ∉ is) : is.filterMap (Slab.get? ⟨l.set i x, g⟩) = is.filterMap (Slab.get? ⟨l, f⟩) := by
  refine List.filterMap_congr fun j hj => ?_
  have hne : i ≠ j := by
    rintro rfl
    exact hi hj
  simp only [Slab.get?, List.getElem?_set_ne hne]

theorem Tidy.post (ht : q.Tidy) (h : q.post a = some q') :
    q'.Tidy ∧ q'.items = q.items ++ [a] ∧ ∀ j, q.Reserved j → q'.Reserved j := by
  obtain ⟨i, rest, hf, rfl⟩ := post_eq h
  have hfree : q.slab.slots[i]? = some .free := (ht.free i).mp (by simp [hf])
  have hlt := (List.getElem?_eq_some_iff.mp hfree).1
  have hnot : i ∉ q.pending.indices := fun hm => by
    obtain ⟨b, hb⟩ := (ht.posted i).mp hm
    cases hfree.symm.trans hb
  have hstack := ht.stack
  rw [hf, List.nodup_cons] at hstack
  refine ⟨⟨?_, fun j => ?_, hstack.2, fun j => ?_⟩, ?_, fun j hj => ?_⟩
  · exact List.nodup_append.mpr ⟨ht.order, by simp, by
      rintro x hx y hy rfl
      obtain rfl := List.mem_singleton.mp hy
      exact hnot hx⟩
  · simp only [List.mem_append, List.mem_singleton, ht.posted]
    by_cases hj : i = j
    · subst hj
      simp [hlt]
    · simp [List.getElem?_set_ne hj, Ne.symm hj]
  · have hj := ht.free j
    rw [hf, List.mem_cons] at hj
    by_cases hij : i = j
    · subst hij
      simp [hlt, hstack.1]
    · rw [List.getElem?_set_ne hij, ← hj]
      simp [Ne.symm hij]
  · have hold := filterMap_set (l := q.slab.slots) (f := q.slab.free) (g := rest) (x := .posted a)
      hnot
    simp only [items, List.filterMap_append, hold]
    simp [Slab.get?, hlt, Slot.value?]
  · have hne : i ≠ j := by
      rintro rfl
      cases hfree.symm.trans hj
    simpa [Reserved, List.getElem?_set_ne hne] using hj

theorem take_eq {slab slab' : Slab α} (h : slab.take i = some (a, slab')) :
    slab.slots[i]? = some (.posted a) ∧ slab' = ⟨slab.slots.set i .inFlight, slab.free⟩ := by
  simp only [Slab.take, Option.map_eq_some_iff, Prod.mk.injEq] at h
  obtain ⟨b, hb, rfl, rfl⟩ := h
  exact ⟨Slab.get?_eq_some.mp hb, rfl⟩

theorem takeFirst_keeps {slab : Slab α} {is : List Nat} {r : Option (Nat × α)}
    (h : takeFirst slab is = (r, q')) :
    (∀ i a, r = some (i, a) → .posted a ∈ slab.slots) ∧
      ∀ b, q'.Keeps b → .posted b ∈ slab.slots := by
  induction is with
  | nil =>
    obtain ⟨rfl, rfl⟩ := Prod.mk.inj h
    exact ⟨by simp, fun b hb => hb⟩
  | cons i is ih =>
    simp only [takeFirst] at h
    split at h
    · rename_i a slab' ht
      obtain ⟨rfl, rfl⟩ := Prod.mk.inj h
      obtain ⟨hi, rfl⟩ := take_eq ht
      refine ⟨fun j b hr => ?_, fun b hb => ?_⟩
      · obtain ⟨rfl, rfl⟩ := Prod.mk.inj (Option.some.inj hr)
        exact List.mem_of_getElem? hi
      · exact (List.mem_or_eq_of_mem_set hb).resolve_right (by simp)
    · exact ih h

theorem Keeps.of_next {r : Option (Nat × α)} (h : q.next = (r, q')) (hb : q'.Keeps b) :
    q.Keeps b :=
  (takeFirst_keeps h).2 b hb

theorem keeps_of_next (h : q.next = (some (i, a), q')) : q.Keeps a :=
  (takeFirst_keeps h).1 i a rfl

theorem mem_release {slab : Slab α} (h : .posted b ∈ (slab.release i).2.slots) :
    .posted b ∈ slab.slots := by
  simp only [Slab.release] at h
  split at h
  · exact h
  · exact h
  · exact (List.mem_or_eq_of_mem_set h).resolve_right (by simp)

theorem Keeps.of_complete (hb : (q.complete i).Keeps b) : q.Keeps b :=
  mem_release hb

theorem Keeps.of_cancel {p : α → Bool} {r : Option α} (h : q.cancel p = (r, q'))
    (hb : q'.Keeps b) : q.Keeps b := by
  simp only [cancel] at h
  split at h
  · obtain ⟨rfl, rfl⟩ := Prod.mk.inj h
    exact hb
  · split at h
    · obtain ⟨rfl, rfl⟩ := Prod.mk.inj h
      exact mem_release hb
    · rename_i a slab ht
      obtain ⟨rfl, rfl⟩ := Prod.mk.inj h
      obtain ⟨-, rfl⟩ := take_eq ht
      exact (List.mem_or_eq_of_mem_set (mem_release hb)).resolve_right (by simp)

theorem drain_keeps {as : List α} (h : q.drain = (as, q')) :
    (∀ a ∈ as, q.Keeps a) ∧ ∀ b, q'.Keeps b → q.Keeps b := by
  obtain ⟨slab, ⟨is⟩⟩ := q
  induction is generalizing slab as with
  | nil =>
    obtain ⟨rfl, rfl⟩ := Prod.mk.inj h
    exact ⟨by simp, fun b hb => hb⟩
  | cons i is ih =>
    simp only [drain, drainFrom] at h
    split at h
    · rename_i a slab' ht
      obtain ⟨rfl, rfl⟩ := Prod.mk.inj h
      obtain ⟨hi, rfl⟩ := take_eq ht
      obtain ⟨hall, hkeep⟩ := ih _ rfl
      have hback : ∀ b, (⟨(Slab.release ⟨slab.slots.set i .inFlight, slab.free⟩ i).2, ⟨is⟩⟩ :
          WorkQueue α).Keeps b → (⟨slab, ⟨i :: is⟩⟩ : WorkQueue α).Keeps b := fun b hb =>
        (List.mem_or_eq_of_mem_set (mem_release hb)).resolve_right (by simp)
      refine ⟨fun b hb => ?_, fun b hb => hback b (hkeep b hb)⟩
      rcases List.mem_cons.mp hb with rfl | hb
      · exact List.mem_of_getElem? hi
      · exact hback b (hall b hb)
    · exact ih slab h

theorem cancel_none {p : α → Bool} (h : q.cancel p = (none, q')) : q' = q := by
  simp only [WorkQueue.cancel] at h
  split at h
  · exact (Prod.mk.inj h).2.symm
  · rename_i i hf
    have hp := List.find?_some hf
    cases hg : q.slab.get? i with
    | none => simp [hg] at hp
    | some a => simp [Slab.take, hg] at h

theorem Tidy.reserved (ht : q.Tidy) (h : q.Reserved i) :
    i ∉ q.pending.indices ∧ i ∉ q.slab.free := by
  constructor
  · intro hm
    obtain ⟨a, ha⟩ := (ht.posted i).mp hm
    cases h.symm.trans ha
  · intro hm
    cases h.symm.trans ((ht.free i).mp hm)

/-- Taking from a tidy queue takes its first item. -/
theorem Tidy.next {r : Option (Nat × α)} (ht : q.Tidy) (h : q.next = (r, q')) :
    q'.Tidy ∧ (∀ j, q.Reserved j → q'.Reserved j) ∧
      ((r = none ∧ q.items = [] ∧ q'.items = []) ∨
        ∃ i a, r = some (i, a) ∧ q.items = a :: q'.items ∧ q'.Reserved i) := by
  obtain ⟨⟨slots, free⟩, ⟨is⟩⟩ := q
  cases is with
  | nil =>
    obtain ⟨rfl, rfl⟩ := Prod.mk.inj h
    exact ⟨ht, fun j hj => hj, .inl ⟨rfl, rfl, rfl⟩⟩
  | cons i is =>
    obtain ⟨a, ha⟩ := (ht.posted i).mp (by simp)
    have hget : Slab.get? ⟨slots, free⟩ i = some a := Slab.get?_eq_some.mpr ha
    simp only [WorkQueue.next, takeFirst, Slab.take, hget, Option.map_some] at h
    obtain ⟨rfl, rfl⟩ := Prod.mk.inj h
    have hlt := (List.getElem?_eq_some_iff.mp ha).1
    have ho := List.nodup_cons.mp ht.order
    refine ⟨⟨ho.2, fun j => ?_, ht.stack, fun j => ?_⟩, fun j hj => ?_,
      .inr ⟨i, a, rfl, ?_, by simp [Reserved, hlt]⟩⟩
    · have hj := ht.posted j
      simp only [List.mem_cons] at hj
      by_cases hij : i = j
      · subst hij
        simp [hlt, ho.1]
      · rw [List.getElem?_set_ne hij, ← hj]
        simp [Ne.symm hij]
    · have hj := ht.free j
      by_cases hij : i = j
      · subst hij
        simp only [hj, ha, List.getElem?_set_self hlt]
        simp
      · rw [List.getElem?_set_ne hij, hj]
    · have hne : i ≠ j := by
        rintro rfl
        cases ha.symm.trans hj
      simpa [Reserved, List.getElem?_set_ne hne] using hj
    · have hrest := filterMap_set (l := slots) (f := free) (g := free) (x := .inFlight) ho.1
      simp only [items, List.filterMap_cons, hget, hrest]

theorem release_eq (h : q.Reserved i) :
    q.complete i = ⟨⟨q.slab.slots.set i .free, i :: q.slab.free⟩, q.pending⟩ := by
  have hs : q.slab.slots[i]? = some .inFlight := h
  simp only [complete, Slab.release, hs]

theorem Tidy.complete (ht : q.Tidy) (h : q.Reserved i) :
    (q.complete i).Tidy ∧ (q.complete i).items = q.items ∧
      ∀ j, j ≠ i → q.Reserved j → (q.complete i).Reserved j := by
  obtain ⟨hp, hf⟩ := ht.reserved h
  have hlt := (List.getElem?_eq_some_iff.mp h).1
  rw [release_eq h]
  refine ⟨⟨ht.order, fun j => ?_, List.nodup_cons.mpr ⟨hf, ht.stack⟩, fun j => ?_⟩, ?_,
    fun j hj hr => ?_⟩
  · by_cases hij : i = j
    · subst hij
      simp [hlt, hp]
    · rw [List.getElem?_set_ne hij]
      exact ht.posted j
  · by_cases hij : i = j
    · subst hij
      simp [hlt]
    · rw [List.getElem?_set_ne hij, ← ht.free j]
      simp [Ne.symm hij]
  · exact filterMap_set hp
  · simpa [Reserved, List.getElem?_set_ne (Ne.symm hj)] using hr

/-- The first index whose value has a property, in terms of the values. -/
theorem filterMap_erase_find {get? : Nat → Option α} {p : α → Bool} {is : List Nat} (hi : i ∈ is)
    (h : is.find? (fun j => (get? j).any p) = some i) :
    (is.filterMap get?).find? p = get? i ∧
      (is.erase i).filterMap get? = (is.filterMap get?).eraseP p := by
  induction is with
  | nil => cases hi
  | cons j is ih =>
    rw [List.find?_cons] at h
    cases hj : get? j with
    | none =>
      simp only [hj, Option.any_none] at h
      have hne : j ≠ i := by
        rintro rfl
        simpa [hj] using List.find?_some h
      have hrest := ih (List.mem_of_find?_eq_some h) h
      rw [List.erase_cons_tail (by simpa using hne)]
      simpa only [List.filterMap_cons, hj] using hrest
    | some a =>
      simp only [hj, Option.any_some] at h
      cases hp : p a with
      | true =>
        simp only [hp, Option.some.injEq] at h
        subst h
        simp [hj, hp]
      | false =>
        simp only [hp] at h
        have hne : j ≠ i := by
          rintro rfl
          simpa [hj, hp] using List.find?_some h
        have hrest := ih (List.mem_of_find?_eq_some h) h
        rw [List.erase_cons_tail (by simpa using hne)]
        simp [hj, hp, hrest]

/-- A withdrawn value is the first item with the property. -/
theorem Tidy.cancel {p : α → Bool} {r : Option α} (ht : q.Tidy) (h : q.cancel p = (r, q')) :
    q'.Tidy ∧ (∀ j, q.Reserved j → q'.Reserved j) ∧ r = q.items.find? p ∧
      q'.items = q.items.eraseP p := by
  simp only [WorkQueue.cancel] at h
  cases hf : q.pending.indices.find? fun i => (q.slab.get? i).any p with
  | none =>
    simp only [hf] at h
    obtain ⟨rfl, rfl⟩ := Prod.mk.inj h
    have hnone : ∀ a ∈ q.items, p a = false := by
      intro a ha
      obtain ⟨i, hi, hget⟩ := List.mem_filterMap.mp ha
      simpa [hget] using List.find?_eq_none.mp hf i hi
    refine ⟨ht, fun j hj => hj, ?_, ?_⟩
    · exact (List.find?_eq_none.mpr fun a ha => by simp [hnone a ha]).symm
    · exact (List.eraseP_of_forall_not fun a ha => by simp [hnone a ha]).symm
  | some i =>
    have hi := List.mem_of_find?_eq_some hf
    obtain ⟨a, ha⟩ := (ht.posted i).mp hi
    have hget : q.slab.get? i = some a := Slab.get?_eq_some.mpr ha
    have hlt := (List.getElem?_eq_some_iff.mp ha).1
    have hself : (q.slab.slots.set i .inFlight)[i]? = some .inFlight :=
      List.getElem?_set_self hlt
    simp only [hf, Slab.take, hget, Option.map_some, Slab.release, hself, Fifo.remove] at h
    obtain ⟨rfl, rfl⟩ := Prod.mk.inj h
    have hnot : i ∉ q.pending.indices.erase i := ht.order.not_mem_erase
    have hfree : i ∉ q.slab.free := fun hm => by
      cases ha.symm.trans ((ht.free i).mp hm)
    obtain ⟨hfind, herase⟩ := filterMap_erase_find hi hf
    rw [List.set_set]
    refine ⟨⟨ht.order.erase i, fun j => ?_, List.nodup_cons.mpr ⟨hfree, ht.stack⟩, fun j => ?_⟩,
      fun j hj => ?_, (hfind.trans hget).symm, ?_⟩
    · by_cases hij : i = j
      · subst hij
        simp [hlt, hnot]
      · rw [List.getElem?_set_ne hij, ← ht.posted j]
        simp [List.mem_erase_of_ne (Ne.symm hij)]
    · by_cases hij : i = j
      · subst hij
        simp [hlt]
      · rw [List.getElem?_set_ne hij, ← ht.free j]
        simp [Ne.symm hij]
    · have hne : i ≠ j := by
        rintro rfl
        cases ha.symm.trans hj
      simpa [Reserved, List.getElem?_set_ne hne] using hj
    · exact (filterMap_set hnot).trans herase

end WorkQueue

end QueuePair
