import QueuePair.Proofs.Pair.Rendezvous
import QueuePair.Proofs.Pair.Traffic

namespace QueuePair

namespace Task

def sender? (r : Role) : Task → Option Sender
  | .sender p _ s => if p.settings.role = r then some s else none
  | _ => none

def receiver? (r : Role) : Task → Option Receiver
  | .receiver p _ s => if p.settings.role = r then some s else none
  | _ => none

end Task

def seek {α : Type} (f : Thread → Option α) (a : α) (ths : List Thread) : α :=
  (ths.findSome? f).getD a

section

variable {α : Type} {f : Thread → Option α} {a : α} {ths news : List Thread} {t : ThreadId}
  {th th' : Thread}

theorem seek_none (h : ∀ th ∈ ths, f th = none) : seek f a ths = a := by
  rw [seek, List.findSome?_eq_none_iff.mpr h, Option.getD_none]

theorem seek_sole (h : ths[t]? = some th)
    (ho : ∀ u th', u ≠ t → ths[u]? = some th' → f th' = none) : seek f a ths = (f th).getD a := by
  induction ths generalizing t with
  | nil => simp at h
  | cons b ths ih =>
    cases t with
    | zero =>
      obtain rfl : b = th := by simpa using h
      cases hb : f b with
      | some x => simp [seek, hb]
      | none =>
        refine seek_none fun th' hm => ?_
        obtain ⟨u, hu⟩ := List.mem_iff_getElem?.mp hm
        cases u with
        | zero =>
          obtain rfl : b = th' := by simpa using hu
          exact hb
        | succ u => exact ho (u + 1) th' (by simp) hu
    | succ t =>
      have hb := ho 0 b (by simp) (by simp)
      have hi := ih (t := t) (by simpa using h) fun u th' hne hu =>
        ho (u + 1) th' (by simpa using hne) (by simpa using hu)
      rw [← hi]
      simp [seek, hb]

theorem seek_set (h : ths[t]? = some th) (he : f th' = f th) :
    seek f a (ths.set t th') = seek f a ths := by
  induction ths generalizing t with
  | nil => simp at h
  | cons b ths ih =>
    cases t with
    | zero =>
      obtain rfl : b = th := by simpa using h
      simp only [seek, List.set_cons_zero, List.findSome?_cons, he]
    | succ t =>
      have hi := ih (t := t) (by simpa using h)
      simp only [seek, List.set_cons_succ, List.findSome?_cons] at hi ⊢
      cases f b with
      | none => exact hi
      | some x => rfl

theorem seek_append (h : ∀ n ∈ news, (f n).getD a = a) : seek f a (ths ++ news) = seek f a ths := by
  simp only [seek, List.findSome?_append]
  cases ths.findSome? f with
  | some x => rfl
  | none =>
    induction news with
    | nil => rfl
    | cons n news ih =>
      have hn := h n List.mem_cons_self
      have hi := ih fun m hm => h m (List.mem_cons_of_mem n hm)
      cases hf : f n with
      | some x => simpa [hf] using hn
      | none => simpa [hf] using hi

end

namespace Event

def author? : Event → Option ThreadId
  | .stored t .. | .loaded t .. => some t
  | .noted .. => none

def loaded? (f : ThreadId → Bool) : Event → Option (Except Error Bytes)
  | .loaded t _ m => if f t then some m else none
  | _ => none

end Event

namespace World

def sender (w : World) (r : Role) : Sender :=
  seek (·.task.sender? r) .fetch w.threads

def receiver (w : World) (r : Role) : Receiver :=
  seek (·.task.receiver? r) .await w.threads

def employs (w : World) (d : Direction) (r : Role) (t : ThreadId) : Bool :=
  (w.threads[t]?).any fun th => th.origin.works d r = 1

def published (w : World) (r : Role) : List Bytes :=
  replay (Event.stored? (w.employs .send r)) w.history

def processed (w : World) (r : Role) : List (Except Error Bytes) :=
  replay (Event.loaded? (w.employs .receive r)) w.history

def Signed (w : World) : Prop :=
  ∀ ev ∈ w.history, ∀ t, ev.author? = some t → t < w.threads.length

end World

namespace Pair

open World

variable (P : Pair)

def endpoint (w : World) (r : Role) : Endpoint :=
  (w.endpoints[P.id r]?).getD (.ofSettings (P.settings r) none)

/-- The file that the path of the mailbox leads to. -/
def boxFile (k : Kernel) : File :=
  match k.files.lookup P.keys.path with
  | .ok (some (.file file)) => (k.files.file? file).getD .empty
  | _ => .empty

def Housed (k : Kernel) : Prop :=
  ∀ file, k.files.lookup P.keys.path = .ok (some (.file file)) → (k.files.file? file).isSome = true

def side (w : World) (r : Role) : Side where
  queue := (P.endpoint w r).queue
  next := (P.endpoint w r).nextSerial
  posting d n := tally (·.numbers (P.id r) d n) w.threads
  sender := w.sender r
  receiver := w.receiver r
  published := w.published r
  processed := w.processed r

def traffic (w : World) : Traffic where
  history := w.history
  file := P.boxFile w.kernel
  signal r := w.kernel.gauge P.keys (.signal r)
  side := P.side w

variable {P} {w v : World} {t : ThreadId} {th th' : Thread} {r : Role} {x : Endpoint} {ev : Event}

theorem endpoint_eq (hx : w.endpoints[P.id r]? = some x) : P.endpoint w r = x := by
  simp [endpoint, hx]

/-- A thread at its beginning has done nothing yet. -/
structure Fresh (P : Pair) (n : Thread) : Prop where
  sender : ∀ r, (n.task.sender? r).getD .fetch = .fetch
  receiver : ∀ r, (n.task.receiver? r).getD .await = .await
  numbers : ∀ r d i, n.numbers (P.id r) d i = 0

/-- A step of a thread, which may start others. -/
structure Stride (P : Pair) (w v : World) (t : ThreadId) (th th' : Thread) : Prop where
  law : P.Law w
  law' : P.Law (v.putThread t th')
  signed : w.Signed
  housed : P.Housed w.kernel
  thread : w.threads[t]? = some th
  threads : ∃ news, v.threads = w.threads ++ news ∧ ∀ n ∈ news, P.Fresh n
  origin : th'.origin = th.origin

theorem published_of_employs (hs : w.Signed)
    (he : ∀ u < w.threads.length, v.employs .send r u = w.employs .send r u) :
    replay (Event.stored? (v.employs .send r)) w.history = w.published r := by
  refine List.filterMap_congr fun ev hm => ?_
  cases ev with
  | stored u file payload =>
    simp only [Event.stored?, he u (hs _ (List.mem_reverse.mp hm) u rfl)]
  | _ => rfl

theorem processed_of_employs (hs : w.Signed)
    (he : ∀ u < w.threads.length, v.employs .receive r u = w.employs .receive r u) :
    replay (Event.loaded? (v.employs .receive r)) w.history = w.processed r := by
  refine List.filterMap_congr fun ev hm => ?_
  cases ev with
  | loaded u file m =>
    simp only [Event.loaded?, he u (hs _ (List.mem_reverse.mp hm) u rfl)]
  | _ => rfl

theorem Law.sole {d : Direction} {u : ThreadId} {thu : Thread} (h : P.Law w)
    (ht : w.threads[t]? = some th) (ho : th.origin.works d r = 1) (hne : u ≠ t)
    (hu : w.threads[u]? = some thu) : thu.origin.works d r = 0 := by
  have hl := h.ledger (.worker d r)
  have hc := connected_le (P := P) w r
  have hadd := add_le_tally (f := (P.due · (.worker d r))) ht hu (Ne.symm hne)
  simp only [stock, due, total] at hl hadd
  omega

theorem sender?_origin {k : Kernel} (hf : P.Fit k th) (h : th.task.sender? r ≠ none) :
    th.origin.works .send r = 1 := by
  cases hf with
  | @sender r' l s cs hl hs hc ht =>
    simp only [Task.sender?, party_settings, P.role_settings] at h
    split at h
    · rename_i he
      simp [Task.works, he]
    · exact absurd rfl h
  | _ => exact absurd rfl h

theorem receiver?_origin {k : Kernel} (hf : P.Fit k th) (h : th.task.receiver? r ≠ none) :
    th.origin.works .receive r = 1 := by
  cases hf with
  | @receiver r' l s cs hl hs hc ht =>
    simp only [Task.receiver?, party_settings, P.role_settings] at h
    split at h
    · rename_i he
      simp [Task.works, he]
    · exact absurd rfl h
  | _ => exact absurd rfl h

theorem Law.sender_sole (h : P.Law w) (ht : w.threads[t]? = some th)
    (ho : th.origin.works .send r = 1) : w.sender r = (th.task.sender? r).getD .fetch := by
  refine seek_sole ht fun u thu hne hu => ?_
  by_contra hs
  have hone := sender?_origin (h.fit hu) hs
  have hzero := h.sole ht ho hne hu
  omega

theorem Law.receiver_sole (h : P.Law w) (ht : w.threads[t]? = some th)
    (ho : th.origin.works .receive r = 1) :
    w.receiver r = (th.task.receiver? r).getD .await := by
  refine seek_sole ht fun u thu hne hu => ?_
  by_contra hs
  have hone := receiver?_origin (h.fit hu) hs
  have hzero := h.sole ht ho hne hu
  omega

namespace Stride

theorem putThread_get (s : P.Stride w v t th th') : (v.putThread t th').threads[t]? = some th' := by
  obtain ⟨news, hv, -⟩ := s.threads
  have hlt := (List.getElem?_eq_some_iff.mp s.thread).1
  simp [hv, Nat.lt_of_lt_of_le hlt]

theorem threads_eq (s : P.Stride w v t th th') : ∃ news,
    (v.putThread t th').threads = w.threads.set t th' ++ news ∧ ∀ n ∈ news, P.Fresh n := by
  obtain ⟨news, hv, hn⟩ := s.threads
  have hlt := (List.getElem?_eq_some_iff.mp s.thread).1
  exact ⟨news, by simp [hv, List.set_append_left _ _ hlt], hn⟩

theorem sender_of (s : P.Stride w v t th th') {a : Sender} (ha : th.task.sender? r = some a) :
    w.sender r = a ∧ (v.putThread t th').sender r = (th'.task.sender? r).getD .fetch := by
  have ho := sender?_origin (s.law.fit s.thread) (by rw [ha]; nofun)
  rw [s.law.sender_sole s.thread ho, s.law'.sender_sole s.putThread_get (s.origin ▸ ho), ha]
  exact ⟨rfl, rfl⟩

theorem receiver_of (s : P.Stride w v t th th') {a : Receiver}
    (ha : th.task.receiver? r = some a) : w.receiver r = a ∧
      (v.putThread t th').receiver r = (th'.task.receiver? r).getD .await := by
  have ho := receiver?_origin (s.law.fit s.thread) (by rw [ha]; nofun)
  rw [s.law.receiver_sole s.thread ho, s.law'.receiver_sole s.putThread_get (s.origin ▸ ho), ha]
  exact ⟨rfl, rfl⟩

theorem sender_same (s : P.Stride w v t th th') (h : th'.task.sender? r = th.task.sender? r) :
    (v.putThread t th').sender r = w.sender r := by
  obtain ⟨news, hv, hn⟩ := s.threads_eq
  rw [World.sender, hv, seek_append fun n hm => (hn n hm).sender r, seek_set s.thread h]
  rfl

theorem receiver_same (s : P.Stride w v t th th')
    (h : th'.task.receiver? r = th.task.receiver? r) :
    (v.putThread t th').receiver r = w.receiver r := by
  obtain ⟨news, hv, hn⟩ := s.threads_eq
  rw [World.receiver, hv, seek_append fun n hm => (hn n hm).receiver r, seek_set s.thread h]
  rfl

theorem posting (s : P.Stride w v t th th') (r : Role) (d : Direction) (n : Nat) :
    (P.side (v.putThread t th') r).posting d n + th.numbers (P.id r) d n =
      (P.side w r).posting d n + th'.numbers (P.id r) d n := by
  obtain ⟨news, hv, hn⟩ := s.threads_eq
  have hset := tally_set (f := (·.numbers (P.id r) d n)) s.thread th'
  have hnews := tally_eq_zero (f := (·.numbers (P.id r) d n))
    fun m hm => (hn m hm).numbers r d n
  have happ : tally (·.numbers (P.id r) d n) (w.threads.set t th' ++ news) =
      tally (·.numbers (P.id r) d n) (w.threads.set t th') +
        tally (·.numbers (P.id r) d n) news := by
    simp [tally]
  simp only [side, hv, happ, hnews]
  omega

theorem employs_eq (s : P.Stride w v t th th') {d : Direction} {u : ThreadId}
    (hu : u < w.threads.length) :
    (v.putThread t th').employs d r u = w.employs d r u := by
  obtain ⟨news, hv, -⟩ := s.threads_eq
  have hlt : u < (w.threads.set t th').length := by simpa using hu
  rw [World.employs, World.employs, hv, List.getElem?_append_left hlt]
  by_cases hut : u = t
  · subst hut
    rw [List.getElem?_set_self hu, s.thread, Option.any_some, Option.any_some, s.origin]
  · rw [List.getElem?_set_ne (Ne.symm hut)]

theorem published_old (s : P.Stride w v t th th') (r : Role) :
    replay (Event.stored? ((v.putThread t th').employs .send r)) w.history = w.published r :=
  published_of_employs s.signed fun _ hu => s.employs_eq hu

theorem processed_old (s : P.Stride w v t th th') (r : Role) :
    replay (Event.loaded? ((v.putThread t th').employs .receive r)) w.history = w.processed r :=
  processed_of_employs s.signed fun _ hu => s.employs_eq hu

end Stride

end Pair

end QueuePair
