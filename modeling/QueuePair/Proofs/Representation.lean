import Mathlib.Algebra.Order.Group.Multiset
import QueuePair.Proofs.Backlog

namespace QueuePair

namespace Slab

variable {α : Type} {s s' : Slab α} {a b : α} {i j : Nat} {x y : Slot α}

def stored (s : Slab α) : List α :=
  s.slots.filterMap Slot.value?

def posted (s : Slab α) : List Nat :=
  (List.range s.depth).filter fun i => (s.get? i).isSome

structure Sound (s : Slab α) : Prop where
  nodup : s.free.Nodup
  free : ∀ i, i ∈ s.free ↔ s.slots[i]? = some .free

theorem mem_posted : i ∈ s.posted ↔ ∃ a, s.slots[i]? = some (.posted a) := by
  simp only [posted, List.mem_filter, List.mem_range, Option.isSome_iff_exists, get?_eq_some]
  exact and_iff_right_of_imp fun ⟨a, ha⟩ => (List.getElem?_eq_some_iff.mp ha).1

theorem perm_set (hx : s.slots[i]? = some x) (free : List Nat) :
    (x.value?.toList ++ stored ⟨s.slots.set i y, free⟩).Perm (y.value?.toList ++ s.stored) := by
  obtain ⟨hi, rfl⟩ := List.getElem?_eq_some_iff.mp hx
  have hold := List.getElem_cons_eraseIdx_perm hi
  have hnew := List.set_perm_cons_eraseIdx hi y
  have hboth : (s.slots[i] :: s.slots.set i y).Perm (y :: s.slots) :=
    (hnew.cons _).trans ((List.Perm.swap _ _ _).trans (hold.cons y))
  have hvalues : ∀ (z : Slot α) (l : List (Slot α)),
      (z :: l).filterMap Slot.value? = z.value?.toList ++ l.filterMap Slot.value? := by
    intro z l
    cases h : z.value? <;> simp [h]
  simpa only [stored, hvalues] using hboth.filterMap Slot.value?

theorem get?_set (hy : y.value? = none) {free : List Nat}
    (h : get? ⟨s.slots.set i y, free⟩ j = some a) : j ≠ i ∧ s.get? j = some a := by
  rw [get?_eq_some, List.getElem?_set] at h
  split at h
  · split at h
    · obtain rfl := Option.some.inj h
      cases hy
    · cases h
  · exact ⟨Ne.symm ‹_›, get?_eq_some.mpr h⟩

theorem sound_ofDepth (depth : Nat) : (ofDepth depth : Slab α).Sound where
  nodup := List.nodup_range
  free := fun i => by simp [ofDepth, List.getElem?_replicate]

theorem Sound.set (h : s.Sound) (hx : s.slots[i]? = some x) (hfree : x ≠ .free) (hy : y ≠ .free) :
    Sound ⟨s.slots.set i y, s.free⟩ where
  nodup := h.nodup
  free := fun j => by
    rw [h.free]
    by_cases hj : i = j
    · subst hj
      rw [hx, List.getElem?_set_self (List.getElem?_eq_some_iff.mp hx).1]
      simp [hfree, hy]
    · rw [List.getElem?_set_ne hj]

theorem Sound.acquire (h : s.Sound) (ha : s.acquire a = some (i, s')) :
    s.slots[i]? = some .free ∧ s'.Sound ∧ s'.stored.Perm (a :: s.stored) ∧
      ∀ j b, s'.get? j = some b → j = i ∨ s.get? j = some b := by
  simp only [Slab.acquire] at ha
  cases hf : s.free with
  | nil => simp [hf] at ha
  | cons k rest =>
    simp only [hf, Option.some.injEq, Prod.mk.injEq] at ha
    obtain ⟨rfl, rfl⟩ := ha
    have hfree : s.slots[k]? = some .free := (h.free k).mp (by simp [hf])
    have hlt := (List.getElem?_eq_some_iff.mp hfree).1
    have hnodup := h.nodup
    rw [hf, List.nodup_cons] at hnodup
    refine ⟨hfree, ⟨hnodup.2, fun j => ?_⟩, perm_set hfree rest, fun j b hj => ?_⟩
    · have hj := h.free j
      rw [hf, List.mem_cons] at hj
      by_cases hkj : k = j
      · subst hkj
        simp [hlt, hnodup.1]
      · rw [List.getElem?_set_ne hkj, ← hj]
        simp [Ne.symm hkj]
    · rw [get?_eq_some, List.getElem?_set] at hj
      split at hj
      · exact .inl (Eq.symm ‹_›)
      · exact .inr (get?_eq_some.mpr hj)

theorem Sound.take (h : s.Sound) (ht : s.take i = some (a, s')) :
    s'.Sound ∧ s.stored.Perm (a :: s'.stored) ∧
      ∀ j b, s'.get? j = some b → j ≠ i ∧ s.get? j = some b := by
  obtain ⟨hi, rfl⟩ := WorkQueue.take_eq ht
  have hvalues := perm_set (y := .inFlight) hi s.free
  exact ⟨h.set hi nofun nofun, hvalues.symm, fun j b => get?_set rfl⟩

/-- An entry becomes free, whatever it was used for; a value in it is gone. -/
theorem Sound.release (h : s.Sound) (i : Nat) :
    (s.release i).2.Sound ∧ s.stored.Perm ((s.get? i).toList ++ (s.release i).2.stored) ∧
      ∀ j b, (s.release i).2.get? j = some b → s.get? j = some b := by
  have hsame : s.get? i = none → (s.release i).2 = s → (s.release i).2.Sound ∧
      s.stored.Perm ((s.get? i).toList ++ (s.release i).2.stored) ∧
      ∀ j b, (s.release i).2.get? j = some b → s.get? j = some b := by
    intro hnone he
    rw [he, hnone]
    exact ⟨h, List.Perm.refl _, fun j b => id⟩
  cases hi : s.slots[i]? with
  | none => exact hsame (by simp [get?, hi]) (by simp [Slab.release, hi])
  | some x =>
    by_cases hfree : x = .free
    · subst hfree
      exact hsame (by simp [get?, hi, Slot.value?]) (by simp [Slab.release, hi])
    · have hlt := (List.getElem?_eq_some_iff.mp hi).1
      have hout : i ∉ s.free := fun hm => hfree (Option.some.inj (hi.symm.trans ((h.free i).mp hm)))
      have he : (s.release i).2 = ⟨s.slots.set i .free, i :: s.free⟩ := by
        cases x with
        | free => exact absurd rfl hfree
        | posted | inFlight => simp [Slab.release, hi]
      have hget : s.get? i = x.value? := by simp [get?, hi]
      have hvalues := perm_set (y := .free) hi (i :: s.free)
      rw [he, hget]
      refine ⟨⟨List.nodup_cons.mpr ⟨hout, h.nodup⟩, fun j => ?_⟩, hvalues.symm,
        fun j b hj => (get?_set rfl hj).2⟩
      by_cases hj : i = j
      · subst hj
        simp [hlt]
      · rw [List.getElem?_set_ne hj, ← h.free j]
        simp [Ne.symm hj]

theorem Sound.withdraw (h : s.Sound) (ht : s.take i = some (a, s')) :
    (s'.release i).2.Sound ∧ s.stored.Perm (a :: (s'.release i).2.stored) ∧
      ∀ j b, (s'.release i).2.get? j = some b → j ≠ i ∧ s.get? j = some b := by
  obtain ⟨htaken, hvalue, hkeep⟩ := h.take ht
  obtain ⟨hreleased, hrest, hkeep'⟩ := htaken.release i
  have hnone : s'.get? i = none := Option.eq_none_iff_forall_ne_some.mpr fun b hb =>
    (hkeep i b hb).1 rfl
  rw [hnone] at hrest
  exact ⟨hreleased, hvalue.trans (hrest.cons a), fun j b hj => hkeep j b (hkeep' j b hj)⟩

end Slab

namespace WorkQueue

variable {α : Type} {q q' : WorkQueue α} {a : α} {i : Nat}

structure Sound (q : WorkQueue α) : Prop where
  slab : q.slab.Sound
  waits : ∀ i a, q.slab.get? i = some a → i ∈ q.pending.indices

theorem sound_ofDepth (depth : Nat) : (ofDepth depth : WorkQueue α).Sound where
  slab := Slab.sound_ofDepth depth
  waits := fun i a h => by
    rw [Slab.get?_eq_some] at h
    simp [ofDepth, Slab.ofDepth, List.getElem?_replicate] at h

theorem Sound.perm_range (h : q.Sound) :
    (q.slab.free ++ (q.slab.posted ++ q.inFlight)).Perm (List.range q.depth) := by
  have htaken : ∀ i, i ∈ q.inFlight ↔ q.slab.slots[i]? = some .inFlight := fun i => mem_inFlight
  have hnodup : (q.slab.free ++ (q.slab.posted ++ q.inFlight)).Nodup := by
    refine List.nodup_append'.mpr ⟨h.slab.nodup, List.nodup_append'.mpr
      ⟨List.nodup_range.filter _, q.nodup_inFlight, fun i hp hi => ?_⟩, fun i hf hi => ?_⟩
    · obtain ⟨a, ha⟩ := Slab.mem_posted.mp hp
      cases ha.symm.trans ((htaken i).mp hi)
    · have hfree := (h.slab.free i).mp hf
      rcases List.mem_append.mp hi with hp | hi
      · obtain ⟨a, ha⟩ := Slab.mem_posted.mp hp
        cases ha.symm.trans hfree
      · cases hfree.symm.trans ((htaken i).mp hi)
  refine (List.perm_ext_iff_of_nodup hnodup List.nodup_range).mpr fun i => ?_
  rw [List.mem_append, List.mem_append, h.slab.free, Slab.mem_posted, htaken, List.mem_range, depth,
    Slab.depth]
  constructor
  · rintro (hs | ⟨a, hs⟩ | hs)
    · exact (List.getElem?_eq_some_iff.mp hs).1
    · exact (List.getElem?_eq_some_iff.mp hs).1
    · exact (List.getElem?_eq_some_iff.mp hs).1
  · intro hlt
    cases hs : q.slab.slots[i] with
    | free => exact .inl (List.getElem?_eq_some_iff.mpr ⟨hlt, hs⟩)
    | posted a => exact .inr (.inl ⟨a, List.getElem?_eq_some_iff.mpr ⟨hlt, hs⟩⟩)
    | inFlight => exact .inr (.inr (List.getElem?_eq_some_iff.mpr ⟨hlt, hs⟩))

theorem Sound.post (h : q.Sound) (hq : q.post a = some q') :
    q'.Sound ∧ q'.slab.stored.Perm (a :: q.slab.stored) := by
  obtain ⟨⟨i, slab⟩, ha, rfl⟩ := Option.map_eq_some_iff.mp hq
  obtain ⟨-, hslab, hvalues, hget⟩ := h.slab.acquire ha
  refine ⟨⟨hslab, fun j b hj => ?_⟩, hvalues⟩
  rcases hget j b hj with rfl | hold
  · exact List.mem_append_right _ List.mem_cons_self
  · exact List.mem_append_left _ (h.waits j b hold)

theorem takeFirst_sound {slab : Slab α} {is : List Nat} {r : Option (Nat × α)} (h : slab.Sound)
    (hw : ∀ i a, slab.get? i = some a → i ∈ is) (ht : takeFirst slab is = (r, q')) :
    q'.Sound ∧ slab.stored.Perm ((r.map (·.2)).toList ++ q'.slab.stored) := by
  induction is with
  | nil =>
    obtain ⟨rfl, rfl⟩ := Prod.mk.inj ht
    exact ⟨⟨h, hw⟩, List.Perm.refl _⟩
  | cons i is ih =>
    simp only [takeFirst] at ht
    split at ht
    · rename_i a slab' htake
      obtain ⟨rfl, rfl⟩ := Prod.mk.inj ht
      obtain ⟨hslab, hvalues, hget⟩ := h.take htake
      refine ⟨⟨hslab, fun j b hj => ?_⟩, hvalues⟩
      obtain ⟨hne, hold⟩ := hget j b hj
      exact (List.mem_cons.mp (hw j b hold)).resolve_left hne
    · rename_i htake
      refine ih (fun j b hj => ?_) ht
      have hne : j ≠ i := by
        rintro rfl
        simp [Slab.take, hj] at htake
      exact (List.mem_cons.mp (hw j b hj)).resolve_left hne

theorem Sound.complete (h : q.Sound) (i : Nat) : (q.complete i).Sound ∧
    q.slab.stored.Perm ((q.slab.get? i).toList ++ (q.complete i).slab.stored) := by
  obtain ⟨hslab, hvalues, hget⟩ := h.slab.release i
  exact ⟨⟨hslab, fun j b hj => h.waits j b (hget j b hj)⟩, hvalues⟩

theorem Sound.cancel {p : α → Bool} {r : Option α} (h : q.Sound) (hc : q.cancel p = (r, q')) :
    q'.Sound ∧ q.slab.stored.Perm (r.toList ++ q'.slab.stored) := by
  simp only [WorkQueue.cancel] at hc
  split at hc
  · obtain ⟨rfl, rfl⟩ := Prod.mk.inj hc
    exact ⟨h, List.Perm.refl _⟩
  · rename_i i hf
    have hp := List.find?_some hf
    split at hc
    · rename_i htake
      simp only [Slab.take, Option.map_eq_none_iff] at htake
      simp [htake] at hp
    · rename_i a slab htake
      obtain ⟨rfl, rfl⟩ := Prod.mk.inj hc
      obtain ⟨hslab, hvalues, hget⟩ := h.slab.withdraw htake
      refine ⟨⟨hslab, fun j b hj => ?_⟩, hvalues⟩
      obtain ⟨hne, hold⟩ := hget j b hj
      exact (List.mem_erase_of_ne hne).mpr (h.waits j b hold)

theorem drainFrom_sound {slab : Slab α} {is : List Nat} (h : slab.Sound)
    (hw : ∀ i a, slab.get? i = some a → i ∈ is) :
    (drainFrom slab is).2.Sound ∧
      slab.stored.Perm ((drainFrom slab is).1 ++ (drainFrom slab is).2.stored) ∧
      ∀ i, (drainFrom slab is).2.get? i = none := by
  induction is generalizing slab with
  | nil =>
    exact ⟨h, List.Perm.refl _, fun i => Option.eq_none_iff_forall_ne_some.mpr fun a ha =>
      List.not_mem_nil (hw i a ha)⟩
  | cons i is ih =>
    simp only [drainFrom]
    split
    · rename_i a slab' htake
      obtain ⟨hslab, hvalues, hget⟩ := h.withdraw htake
      obtain ⟨hrest, hvalues', hnone⟩ := ih hslab fun j b hj =>
        (List.mem_cons.mp (hw j b (hget j b hj).2)).resolve_left (hget j b hj).1
      exact ⟨hrest, hvalues.trans (hvalues'.cons a), hnone⟩
    · rename_i htake
      refine ih h fun j b hj => ?_
      have hne : j ≠ i := by
        rintro rfl
        simp [Slab.take, hj] at htake
      exact (List.mem_cons.mp (hw j b hj)).resolve_left hne

theorem Sound.drain (h : q.Sound) : q.drain.2.Sound ∧
    q.slab.stored.Perm (q.drain.1 ++ q.drain.2.slab.stored) ∧ q.drain.2.pending = .empty ∧
    ∀ (i : Nat) (a : α), q.drain.2.slab.slots[i]? ≠ some (.posted a) := by
  obtain ⟨hslab, hvalues, hnone⟩ := drainFrom_sound h.slab h.waits
  have hposted : ∀ i a, q.drain.2.slab.get? i ≠ some a := fun i a ha =>
    Option.some_ne_none a (ha.symm.trans (hnone i))
  exact ⟨⟨hslab, fun i a ha => absurd ha (hposted i a)⟩, hvalues, rfl, fun i a ha =>
    hposted i a (Slab.get?_eq_some.mpr ha)⟩

def Request.adds : Request α → Answer α → List α
  | .post a, .accepted => [a]
  | _, _ => []

def Answer.hands : Answer α → List α
  | .taken _ a => [a]
  | .withdrawn r => r.toList
  | .drained as => as
  | _ => []

/-- The value that a request destroys: that of an entry that is completed while it is queued. -/
def Request.drops (q : WorkQueue α) : Request α → List α
  | .complete i => (q.slab.get? i).toList
  | _ => []

/-- Whatever is asked, a queue stays sound, and no value comes or goes but by the request and its
answer. -/
theorem Sound.handle (h : q.Sound) (r : Request α) : (q.handle r).2.Sound ∧
    (q.handle r).2.depth = q.depth ∧
    (r.adds (q.handle r).1 ++ q.slab.stored).Perm
      ((q.handle r).1.hands ++ (r.drops q ++ (q.handle r).2.slab.stored)) := by
  cases r with
  | post a =>
    simp only [WorkQueue.handle]
    cases hq : q.post a with
    | none => exact ⟨h, rfl, List.Perm.refl _⟩
    | some q' => exact ⟨(h.post hq).1, post_depth hq, (h.post hq).2.symm⟩
  | next =>
    have hdepth := next_depth q
    simp only [WorkQueue.handle]
    cases hq : q.next with
    | mk r q' =>
      obtain ⟨hsound, hvalues⟩ := takeFirst_sound h.slab h.waits hq
      rw [hq] at hdepth
      cases r with
      | none => exact ⟨hsound, hdepth, hvalues⟩
      | some r => exact ⟨hsound, hdepth, hvalues⟩
  | complete i => exact ⟨(h.complete i).1, complete_depth q i, (h.complete i).2⟩
  | cancel p => exact ⟨(h.cancel rfl).1, cancel_depth q p, (h.cancel rfl).2⟩
  | drain => exact ⟨h.drain.1, drain_depth q, h.drain.2.1⟩

end WorkQueue

structure Ledger (α : Type) where
  queue : WorkQueue α
  accepted : List α
  returned : List α
  dropped : List α

namespace Ledger

open WorkQueue

variable {α : Type}

def ofDepth (depth : Nat) : Ledger α :=
  ⟨.ofDepth depth, [], [], []⟩

def ask (l : Ledger α) (r : Request α) : Ledger α where
  queue := (l.queue.handle r).2
  accepted := r.adds (l.queue.handle r).1 ++ l.accepted
  returned := (l.queue.handle r).1.hands ++ l.returned
  dropped := r.drops l.queue ++ l.dropped

def after (depth : Nat) (rs : List (Request α)) : Ledger α :=
  rs.foldl ask (ofDepth depth)

structure Balanced (depth : Nat) (l : Ledger α) : Prop where
  sound : l.queue.Sound
  depth : l.queue.depth = depth
  values : l.accepted.Perm (l.queue.slab.stored ++ (l.returned ++ l.dropped))

theorem balanced_ofDepth (depth : Nat) : (ofDepth depth : Ledger α).Balanced depth where
  sound := sound_ofDepth depth
  depth := List.length_replicate
  values := by
    have hnone : (ofDepth depth : Ledger α).queue.slab.stored = [] := by
      simp [ofDepth, WorkQueue.ofDepth, Slab.ofDepth, Slab.stored, Slot.value?]
    rw [hnone]
    exact List.Perm.refl _

theorem Balanced.ask {depth : Nat} {l : Ledger α} (h : l.Balanced depth) (r : Request α) :
    (l.ask r).Balanced depth := by
  obtain ⟨hsound, hdepth, hvalues⟩ := h.sound.handle r
  refine ⟨hsound, hdepth.trans h.depth, ?_⟩
  have hall := (h.values.append_left _).trans
    ((List.Perm.of_eq (List.append_assoc ..).symm).trans (hvalues.append_right _))
  refine hall.trans ?_
  simp only [Ledger.ask, ← Multiset.coe_eq_coe, ← Multiset.coe_add]
  ac_rfl

theorem balanced_after (depth : Nat) (rs : List (Request α)) : (after depth rs).Balanced depth := by
  suffices ∀ l : Ledger α, l.Balanced depth → (rs.foldl Ledger.ask l).Balanced depth from
    this _ (balanced_ofDepth depth)
  induction rs with
  | nil => exact fun l h => h
  | cons r rs ih => exact fun l h => ih _ (h.ask r)

-- A queued entry is completed: its index stays in the order and comes to stand for the next value.
example : (after 1 [.post 5, .complete 0, .post 7]).queue.pending.indices = [0, 0] := rfl

/-- Whatever is asked of a work queue, also that entries be completed which are queued, free or do
not exist: its stack lists the free entries once each; every entry is free, posted or taken; a value
never goes into an entry that is in use; every posted entry waits in the order; every value that was
ever accepted is posted, was returned once, or was dropped once because its entry was completed; and
after draining nothing waits and no entry is posted. -/
theorem representation_kept (depth : Nat) (rs : List (Request α)) :
    let l := after depth rs
    let q := l.queue
    q.slab.free.Nodup ∧ (∀ i, i ∈ q.slab.free ↔ q.slab.slots[i]? = some .free) ∧
    (q.slab.free ++ (q.slab.posted ++ q.inFlight)).Perm (List.range depth) ∧
    q.slab.free.length + q.slab.posted.length + q.inFlight.length = depth ∧
    (∀ a i s, q.slab.acquire a = some (i, s) → q.slab.slots[i]? = some .free) ∧
    (∀ i a, q.slab.slots[i]? = some (.posted a) → i ∈ q.pending.indices) ∧
    l.accepted.Perm (q.slab.stored ++ (l.returned ++ l.dropped)) ∧
    q.drain.2.pending = .empty ∧
    ∀ (i : Nat) (a : α), q.drain.2.slab.slots[i]? ≠ some (.posted a) := by
  intro l q
  have h : l.Balanced depth := balanced_after depth rs
  have hparts := h.sound.perm_range
  rw [h.depth] at hparts
  have hlength : q.slab.free.length + (q.slab.posted.length + q.inFlight.length) = depth := by
    simpa using hparts.length_eq
  exact ⟨h.sound.slab.nodup, h.sound.slab.free, hparts,
    (Nat.add_assoc ..).trans hlength,
    fun a i s ha => (h.sound.slab.acquire ha).1,
    fun i a hi => h.sound.waits i a (Slab.get?_eq_some.mpr hi), h.values, h.sound.drain.2.2⟩

end Ledger

end QueuePair
