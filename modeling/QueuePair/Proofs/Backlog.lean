import Mathlib.Data.Finset.Card
import QueuePair.Proofs.Entries

namespace QueuePair

namespace WorkQueue

variable {α : Type} {q : WorkQueue α} {i : Nat}

/-- What can be asked of a work queue. -/
inductive Request (α : Type)
  | post (a : α)
  | next
  | complete (i : Nat)
  | cancel (p : α → Bool)
  | drain

/-- What a work queue answers. -/
inductive Answer (α : Type)
  | accepted
  -- there is no room; the value goes back
  | refused (a : α)
  | taken (i : Nat) (a : α)
  | nothing
  | completed
  | withdrawn (r : Option α)
  | drained (as : List α)
deriving DecidableEq

def handle (q : WorkQueue α) : Request α → Answer α × WorkQueue α
  | .post a =>
    match q.post a with
    | some q => (.accepted, q)
    | none => (.refused a, q)
  | .next =>
    match q.next with
    | (some (i, a), q) => (.taken i a, q)
    | (none, q) => (.nothing, q)
  | .complete i => (.completed, q.complete i)
  | .cancel p => (.withdrawn (q.cancel p).1, (q.cancel p).2)
  | .drain => (.drained q.drain.1, q.drain.2)

abbrev Log (α : Type) := List (Request α × Answer α)

/-- The entries that were taken and not yet given back. -/
def outstanding : Log α → Finset Nat
  | [] => ∅
  | (.next, .taken i _) :: h => insert i (outstanding h)
  | (.complete i, _) :: h => (outstanding h).erase i
  | _ :: h => outstanding h

/-- A queue that was used as it should be: only entries that are outstanding were given back. -/
inductive Used (depth : Nat) : Log α → WorkQueue α → Prop
  | new : Used depth [] (.ofDepth depth)
  | ask {h : Log α} {q : WorkQueue α} (r : Request α) : Used depth h q →
      (∀ i, r = .complete i → i ∈ outstanding h) →
      Used depth ((r, (q.handle r).1) :: h) (q.handle r).2

def inFlight (q : WorkQueue α) : List Nat :=
  (List.range q.depth).filter fun i => q.reserves i = 1

theorem reserves_eq_one : q.reserves i = 1 ↔ q.Reserved i := by
  constructor
  · exact fun h => reserves_pos (by omega)
  · intro h
    have hs : q.slab.slots[i]? = some .inFlight := h
    simp [reserves, hs, Slot.inUse]

theorem mem_inFlight : i ∈ q.inFlight ↔ q.Reserved i := by
  rw [inFlight, List.mem_filter, List.mem_range, decide_eq_true_eq, reserves_eq_one]
  exact and_iff_right_of_imp fun h => (List.getElem?_eq_some_iff.mp h).1

theorem nodup_inFlight (q : WorkQueue α) : q.inFlight.Nodup :=
  List.nodup_range.filter _

theorem Tidy.length_items (ht : q.Tidy) : q.items.length = q.pendingCount := by
  refine List.filterMap_length_eq_length.mpr fun i hi => ?_
  obtain ⟨a, ha⟩ := (ht.posted i).mp hi
  rw [Slab.get?_eq_some.mpr ha]
  rfl

theorem Tidy.perm_range (ht : q.Tidy) :
    (q.pending.indices ++ (q.slab.free ++ q.inFlight)).Perm (List.range q.depth) := by
  have htaken : ∀ i, i ∈ q.inFlight ↔ q.slab.slots[i]? = some .inFlight := fun i => mem_inFlight
  have hnodup : (q.pending.indices ++ (q.slab.free ++ q.inFlight)).Nodup := by
    refine List.nodup_append'.mpr ⟨ht.order, List.nodup_append'.mpr
      ⟨ht.stack, q.nodup_inFlight, fun i hf hi => ?_⟩, fun i hp hi => ?_⟩
    · exact (ht.reserved (mem_inFlight.mp hi)).2 hf
    · obtain ⟨a, ha⟩ := (ht.posted i).mp hp
      rcases List.mem_append.mp hi with hf | hi
      · cases ha.symm.trans ((ht.free i).mp hf)
      · cases ha.symm.trans ((htaken i).mp hi)
  refine (List.perm_ext_iff_of_nodup hnodup List.nodup_range).mpr fun i => ?_
  rw [List.mem_append, List.mem_append, ht.posted, ht.free, htaken, List.mem_range, depth,
    Slab.depth]
  constructor
  · rintro (⟨a, ha⟩ | hs | hs)
    · exact (List.getElem?_eq_some_iff.mp ha).1
    · exact (List.getElem?_eq_some_iff.mp hs).1
    · exact (List.getElem?_eq_some_iff.mp hs).1
  · intro hlt
    cases hs : q.slab.slots[i] with
    | free => exact .inr (.inl (List.getElem?_eq_some_iff.mpr ⟨hlt, hs⟩))
    | posted a => exact .inl ⟨a, List.getElem?_eq_some_iff.mpr ⟨hlt, hs⟩⟩
    | inFlight => exact .inr (.inr (List.getElem?_eq_some_iff.mpr ⟨hlt, hs⟩))

theorem Tidy.length_parts (ht : q.Tidy) :
    q.items.length + q.slab.free.length + q.inFlight.length = q.depth := by
  have hlen := ht.perm_range.length_eq
  rw [List.length_append, List.length_append, List.length_range] at hlen
  rw [ht.length_items, pendingCount, Fifo.length]
  omega

end WorkQueue

/-- What a work queue is from outside: waiting values, the oldest first, and a set of reserved
entries that share a bounded number of places. A value that is taken turns its place into a
reservation until the entry is given back. -/
structure Backlog (α : Type) where
  queued : List α
  reserved : Finset Nat

namespace Backlog

open WorkQueue

variable {α : Type} {depth : Nat} {b : Backlog α} {q : WorkQueue α}

def size (b : Backlog α) : Nat :=
  b.queued.length + b.reserved.card

/-- What may be answered, and what is left then. Only the number of a reservation is open. -/
inductive Step (depth : Nat) (b : Backlog α) : Request α → Answer α → Backlog α → Prop
  | accept {a : α} : b.size < depth →
      Step depth b (.post a) .accepted ⟨b.queued ++ [a], b.reserved⟩
  | refuse {a : α} : ¬ b.size < depth → Step depth b (.post a) (.refused a) b
  | take {i : Nat} {a : α} {rest : List α} : b.queued = a :: rest → i < depth →
      i ∉ b.reserved → Step depth b .next (.taken i a) ⟨rest, insert i b.reserved⟩
  | miss : b.queued = [] → Step depth b .next .nothing b
  | complete {i : Nat} : i ∈ b.reserved →
      Step depth b (.complete i) .completed ⟨b.queued, b.reserved.erase i⟩
  | cancel (p : α → Bool) :
      Step depth b (.cancel p) (.withdrawn (b.queued.find? p)) ⟨b.queued.eraseP p, b.reserved⟩
  | drain : Step depth b .drain (.drained b.queued) ⟨[], b.reserved⟩

/-- What a backlog may have been asked and have answered since it was empty. -/
inductive Run (depth : Nat) : Log α → Backlog α → Prop
  | new : Run depth [] ⟨[], ∅⟩
  | step {h : Log α} {b b' : Backlog α} {r : Request α} {a : Answer α} : Run depth h b →
      Step depth b r a b' → Run depth ((r, a) :: h) b'

structure Of (q : WorkQueue α) (depth : Nat) (b : Backlog α) : Prop where
  tidy : q.Tidy
  depth : q.depth = depth
  queued : b.queued = q.items
  reserved : ∀ i, q.reserves i = if i ∈ b.reserved then 1 else 0

theorem of_ofDepth (depth : Nat) : Of (.ofDepth depth : WorkQueue α) depth ⟨[], ∅⟩ where
  tidy := tidy_ofDepth depth
  depth := List.length_replicate
  queued := rfl
  reserved := fun i => by simp

namespace Of

theorem mem_reserved (h : Of q depth b) (i : Nat) : i ∈ b.reserved ↔ q.Reserved i := by
  rw [← reserves_eq_one, h.reserved]
  split <;> simp [*]

theorem card_reserved (h : Of q depth b) : b.reserved.card = q.inFlight.length := by
  rw [← List.toFinset_card_of_nodup q.nodup_inFlight]
  congr 1
  ext i
  rw [List.mem_toFinset, mem_inFlight, h.mem_reserved]

theorem size_add_free (h : Of q depth b) : b.size + q.slab.free.length = depth := by
  have hparts := h.tidy.length_parts
  rw [h.depth] at hparts
  rw [size, h.queued, h.card_reserved]
  omega

theorem post (h : Of q depth b) (a : α) :
    ∃ b', Step depth b (.post a) (q.handle (.post a)).1 b' ∧ Of (q.handle (.post a)).2 depth b' ∧
      b'.reserved = b.reserved := by
  have hsize := h.size_add_free
  simp only [handle]
  cases hp : q.post a with
  | none =>
    have hfull : q.slab.free = [] := by
      cases hf : q.slab.free with
      | nil => rfl
      | cons i rest => simp [WorkQueue.post, Slab.acquire, hf] at hp
    rw [hfull, List.length_nil] at hsize
    exact ⟨b, .refuse (by omega), h, rfl⟩
  | some q' =>
    obtain ⟨i, rest, hf, -⟩ := post_eq hp
    obtain ⟨ht, hitems, -⟩ := h.tidy.post hp
    rw [hf, List.length_cons] at hsize
    refine ⟨_, .accept (by omega), ⟨ht, (post_depth hp).trans h.depth, ?_, fun j => ?_⟩, rfl⟩
    · rw [h.queued, hitems]
    · rw [h.tidy.post_reserves hp, h.reserved]

theorem next (h : Of q depth b) :
    ∃ b', Step depth b .next (q.handle .next).1 b' ∧ Of (q.handle .next).2 depth b' ∧
      ∀ l : Log α, b.reserved = outstanding l →
        b'.reserved = outstanding ((.next, (q.handle .next).1) :: l) := by
  have hdepth := next_depth q
  simp only [handle]
  cases hn : q.next with
  | mk r q' =>
    rw [hn] at hdepth
    obtain ⟨ht, -, hcase⟩ := h.tidy.next hn
    have hres := h.tidy.next_reserves hn
    rcases hcase with ⟨rfl, hnil, hnil'⟩ | ⟨i, a, rfl, hitems, hin⟩
    · refine ⟨b, .miss (h.queued.trans hnil), ⟨ht, hdepth.trans h.depth, ?_, fun j => ?_⟩,
        fun _ hl => hl⟩
      · rw [h.queued, hnil, hnil']
      · rw [hres, h.reserved]
        rfl
    · have hlt : i < depth := by
        rw [← h.depth, ← hdepth]
        exact (List.getElem?_eq_some_iff.mp hin).1
      -- the entry counts once after the take, so it did not count before
      have hnew : i ∉ b.reserved := fun hm => by
        have hi := hres i
        rw [reserves_eq_one.mpr hin, h.reserved, if_pos hm] at hi
        simp at hi
      refine ⟨_, .take (h.queued.trans hitems) hlt hnew,
        ⟨ht, hdepth.trans h.depth, rfl, fun j => ?_⟩, fun l hl => ?_⟩
      · rw [hres, h.reserved]
        by_cases hj : j = i
        · subst hj
          simp [hnew]
        · simp [hj, Ne.symm hj]
      · rw [outstanding, ← hl]

theorem complete (h : Of q depth b) {i : Nat} (hi : i ∈ b.reserved) :
    Of (q.complete i) depth ⟨b.queued, b.reserved.erase i⟩ := by
  have hin := (h.mem_reserved i).mp hi
  obtain ⟨ht, hitems, -⟩ := h.tidy.complete hin
  refine ⟨ht, (complete_depth q i).trans h.depth, h.queued.trans hitems.symm, fun j => ?_⟩
  have hj := complete_reserves hin j
  rw [h.reserved] at hj
  by_cases hji : j = i
  · subst hji
    simp only [hi, if_true] at hj
    simp only [Finset.notMem_erase, if_false]
    omega
  · simpa [hji] using hj

theorem cancel (h : Of q depth b) (p : α → Bool) :
    (q.cancel p).1 = b.queued.find? p ∧
      Of (q.cancel p).2 depth ⟨b.queued.eraseP p, b.reserved⟩ := by
  have hc : q.cancel p = ((q.cancel p).1, (q.cancel p).2) := rfl
  obtain ⟨ht, -, hr, hitems⟩ := h.tidy.cancel hc
  rw [h.queued]
  refine ⟨hr, ht, (cancel_depth q p).trans h.depth, hitems.symm, fun j => ?_⟩
  rw [h.tidy.cancel_reserves hc, h.reserved]

theorem drain (h : Of q depth b) :
    q.drain.1 = b.queued ∧ Of q.drain.2 depth ⟨[], b.reserved⟩ := by
  have hd : q.drain = (q.drain.1, q.drain.2) := rfl
  obtain ⟨ht, hitems, hempty, hres⟩ := h.tidy.drain hd
  refine ⟨hitems.trans h.queued.symm, ht, (drain_depth q).trans h.depth,
    (items_nil hempty).symm, fun j => ?_⟩
  rw [hres, h.reserved]

theorem handle (h : Of q depth b) {l : Log α} (hl : b.reserved = outstanding l) (r : Request α)
    (hr : ∀ i, r = .complete i → i ∈ outstanding l) :
    ∃ b', Step depth b r (q.handle r).1 b' ∧ Of (q.handle r).2 depth b' ∧
      b'.reserved = outstanding ((r, (q.handle r).1) :: l) := by
  cases r with
  | post a =>
    obtain ⟨b', hstep, hof, hres⟩ := h.post a
    exact ⟨b', hstep, hof, hres.trans hl⟩
  | next =>
    obtain ⟨b', hstep, hof, hres⟩ := h.next
    exact ⟨b', hstep, hof, hres l hl⟩
  | complete i =>
    have hi : i ∈ b.reserved := hl ▸ hr i rfl
    exact ⟨_, .complete hi, h.complete hi, by rw [hl, outstanding]⟩
  | cancel p =>
    obtain ⟨hfound, hof⟩ := h.cancel p
    refine ⟨_, ?_, hof, hl⟩
    rw [WorkQueue.handle, hfound]
    exact .cancel p
  | drain =>
    obtain ⟨hall, hof⟩ := h.drain
    refine ⟨_, ?_, hof, hl⟩
    rw [WorkQueue.handle, hall]
    exact .drain

end Of

theorem of_used {l : Log α} (hu : Used depth l q) :
    ∃ b, Run depth l b ∧ Of q depth b ∧ b.reserved = outstanding l := by
  induction hu with
  | new => exact ⟨_, .new, of_ofDepth depth, rfl⟩
  | ask r _ hr ih =>
    obtain ⟨b, hrun, hof, hres⟩ := ih
    obtain ⟨b', hstep, hof', hres'⟩ := hof.handle hres r hr
    exact ⟨b', hrun.step hstep, hof', hres'⟩

/-- As long as only entries that are outstanding are given back, a work queue answers whatever it is
asked as a backlog does: posts are accepted at the end of the list while places are left, takes come
from its front and reserve an entry that is in no other use, and giving back, withdrawing and
draining change what they name and nothing else. The queue is full when all places are used, and as
many indices wait as values. -/
theorem answers_as_backlog {l : Log α} (hu : Used depth l q) :
    ∃ b, Run depth l b ∧ b.reserved = outstanding l ∧ b.size ≤ depth ∧ q.depth = depth ∧
      (q.isFull = true ↔ b.size = depth) ∧ q.pendingCount = b.queued.length ∧
      (q.hasPending = true ↔ b.queued ≠ []) ∧
      ∀ i ∈ b.reserved, q.slab.slots[i]? = some .inFlight ∧ i ∉ q.pending.indices ∧
        i ∉ q.slab.free := by
  obtain ⟨b, hrun, hof, hres⟩ := of_used hu
  have hsize := hof.size_add_free
  have hcount : q.pendingCount = b.queued.length := by
    rw [hof.queued, hof.tidy.length_items]
  refine ⟨b, hrun, hres, by omega, hof.depth, ?_, hcount, ?_, fun i hi => ?_⟩
  · rw [isFull, Slab.isFull, List.isEmpty_iff, ← List.length_eq_zero_iff]
    omega
  · rw [← List.length_pos_iff, ← hcount, pendingCount, Fifo.length, hasPending, Fifo.isEmpty]
    simp [List.length_pos_iff]
  · have hin := (hof.mem_reserved i).mp hi
    exact ⟨hin, hof.tidy.reserved hin⟩

/-- One place: while the first value is in the hands of its taker, there is no room for another
one. -/
def singleLog : Log Nat :=
  [(.post 6, .accepted), (.complete 0, .completed), (.post 6, .refused 6), (.next, .taken 0 5),
    (.post 5, .accepted)]

theorem room_after_completion : ∃ (q : WorkQueue Nat) (b : Backlog Nat), Used 1 singleLog q ∧
    Run 1 singleLog b ∧ b.reserved = ∅ ∧ (q.isFull = true ↔ b.size = 1) := by
  have hu : Used 1 singleLog _ :=
    .ask (.post 6) (.ask (.complete 0) (.ask (.post 6) (.ask .next (.ask (.post 5) .new
      (by simp)) (by simp)) (by simp)) fun i hi => by cases hi; decide) (by simp)
  obtain ⟨b, hrun, hres, -, -, hfull, -⟩ := answers_as_backlog hu
  exact ⟨_, b, hu, hrun, hres.trans (by decide), hfull⟩

end Backlog

end QueuePair
