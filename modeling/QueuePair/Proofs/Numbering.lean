import QueuePair.Proofs.Settlement

namespace QueuePair

open World

namespace Deed

def draws (n : Nat) : Deed → Nat
  | .number m => if m = n then 1 else 0
  | _ => 0

def spends (n : Nat) : Deed → Nat
  | .accept _ job => numbered n job.tag
  | _ => 0

theorem spends_eq_zero {act : Deed} {n : Nat} (h : ∀ d, act.costs (.number d n) = 0) :
    act.spends n = 0 := by
  cases act with
  | accept d job => simpa [costs, spends] using h d
  | _ => rfl

end Deed

def drawing (e : EndpointId) (n : Nat) : Tariff where
  gain p r := (p.deed e r).draws n
  spend p r := (p.deed e r).spends n
  pay _ _ := 0
  still := fun r h => by
    rw [Primitive.deed_still e r h]
    exact ⟨rfl, rfl⟩

def drawn (e : EndpointId) (n : Nat) : Holding where
  call c := c.numbers e .send n + c.numbers e .receive n
  sender _ _ := 0
  receiver _ _ := 0

section

variable {e : EndpointId} {n : Nat} {p : Party} {d : Direction} {data : Buffer} {handler : Handler}

theorem draws_of_spares {σ : Type} {mv : Move σ} {m : σ → Nat}
    (h : ∀ d, mv.Spares e (.number d n)) (hm : ∀ s, m s = 0) :
    mv.Accounts false (drawing e n) m 0 := by
  cases mv with
  | perform q next =>
    intro r
    have hspends : (q.deed e r).spends n = 0 := Deed.spends_eq_zero fun d => (h d r).2
    simp [hm, drawing, hspends, Within]
  | invoke q i after => simp [Move.Accounts, hm, drawing, Within]
  | panic | halt => trivial

theorem access_draws {σ α : Type} {m : σ → Nat} {k : Nat} {e' : EndpointId} {c : EndpointCall α}
    {next : α → σ} : (Move.perform (.endpoint e' c) next).Accounts false (drawing e n) m k ↔
      ∀ r, m (next r) + (if e' = e then (c.deed r).spends n else 0) ≤
        k + if e' = e then (c.deed r).draws n else 0 := by
  refine forall_congr' fun r => ?_
  rw [← Primitive.measure_access (f := Deed.spends n) rfl,
    ← Primitive.measure_access (f := Deed.draws n) rfl]
  exact Iff.rfl

theorem posting_draws (s : Posting) : (s.next p d data handler).Accounts false (drawing e n)
    (Flow.elim (fun s => if p.id = e then s.numbers n else 0) fun _ => 0)
    (if p.id = e then s.numbers n else 0) := by
  cases s with
  | check | clock | parked =>
    refine Move.accounts_of_still_le rfl fun r => ?_
    cases r <;> simp [Flow.elim, Posting.numbers]
  | number =>
    refine access_draws.mpr fun serial => ?_
    by_cases he : p.id = e <;>
      simp [Flow.elim, Posting.numbers, EndpointCall.deed, Deed.draws, Deed.spends, he, eq_comm]
  | overflowed => trivial
  | enqueue job dl =>
    refine access_draws.mpr fun r => ?_
    by_cases he : p.id = e <;> cases r <;> simp [Flow.elim, Posting.numbers, EndpointCall.deed,
      Posted.deed, Deed.draws, Deed.spends, he, numbered, Job.tag, eq_comm]

theorem waiting_draws (s : Waiting) : (s.next p d data).Accounts false (drawing e n)
    (Flow.elim (fun s => if p.id = e then s.numbers n else 0) fun _ => 0)
    (if p.id = e then s.numbers n else 0) := by
  cases s with
  | posting s =>
    refine (posting_draws s).through (fun _ => rfl) fun r => ?_
    cases r <;> simp [Flow.elim, Waiting.numbers]
  | clock serial =>
    exact Move.accounts_of_still rfl fun r => rfl
  | awaiting serial dl =>
    refine Move.accounts_of_still rfl fun r => ?_
    cases r <;> simp [Flow.elim, Waiting.numbers]
  | cancel serial =>
    refine access_draws.mpr fun r => ?_
    cases r <;> simp [Flow.elim, Waiting.numbers, EndpointCall.deed, Deed.draws, Deed.spends]
  | poll serial =>
    refine Move.accounts_of_still rfl fun r => ?_
    cases r <;> simp [Flow.elim, Waiting.numbers]

theorem drawn_posting (s : Posting) : (drawn e n).call (.posting p d data handler s) =
    if p.id = e then s.numbers n else 0 := by
  by_cases he : p.id = e <;> cases d <;> simp [drawn, Call.numbers, he]

theorem drawn_waiting (s : Waiting) : (drawn e n).call (.waiting p d data s) =
    if p.id = e then s.numbers n else 0 := by
  by_cases he : p.id = e <;> cases d <;> simp [drawn, Call.numbers, he]

theorem call_draws (c : Call) : c.next.Accounts false (drawing e n)
    (Flow.elim (drawn e n).call fun _ => 0) ((drawn e n).call c) := by
  cases c with
  | destroying p s =>
    have hnone : (s.next p).Accounts false (drawing e n) (fun _ => 0) 0 :=
      draws_of_spares (fun d => (destroying_spares (i := 0) s).2.1) fun _ => rfl
    exact hnone.through (fun _ => rfl) fun _ => rfl
  | posting p d data handler s =>
    rw [drawn_posting]
    exact (posting_draws s).through (fun s => drawn_posting s) fun _ => rfl
  | waiting p d data s =>
    rw [drawn_waiting]
    exact (waiting_draws s).through (fun s => drawn_waiting s) fun _ => rfl
  | _ =>
    refine quiet_call_accounts (fun c _ h => ?_) rfl rfl
    cases c <;> first | rfl | cases h

theorem drawn_obeys (e : EndpointId) (n : Nat) : (drawn e n).Obeys false (drawing e n) where
  call c _ := call_draws c
  sender p l s := draws_of_spares (fun d => (sender_spares s).1) fun f => by cases f <;> rfl
  receiver p l s := draws_of_spares (fun d => (receiver_spares s).1) fun f => by cases f <;> rfl
  operation h := by simp [drawn, (ofOperation_new h).2.1]
  object h := by simp [drawn, (ofObject_new h).2.1]
  fetch _ := rfl
  await _ := rfl
  holding _ := rfl

end

namespace Stores

variable {x y : Stores} {act : Deed} {n : Nat}

def marks (x : Stores) (n : Nat) : Nat :=
  load (numbered n) (x.shelf .send).received + load (numbered n) (x.shelf .receive).received +
    if x.serial ≤ n then 1 else 0

theorem Does.marks (h : x.Does act y) : y.marks n + act.draws n = x.marks n + act.spends n := by
  unfold Stores.marks
  cases h with
  | number =>
    simp only [Deed.draws, Deed.spends]
    split <;> split <;> split <;> omega
  | @lane d act s hs =>
    cases hs <;> cases d <;> simp [Shelf.received, Deed.draws, Deed.spends, Function.update] <;>
      omega

end Stores

namespace World

variable {w v : World} {e : EndpointId} {n : Nat} {allowed : Input → Prop}

def issued (w : World) (e : EndpointId) (n : Nat) : Nat :=
  (w.stores e).marks n + tally (drawn e n).thread w.threads

theorem begin_drawn {i : Input} (hi : i.outside = true) (ha : w.apply i = some v) :
    tally (drawn e n).thread v.threads = tally (drawn e n).thread w.threads := by
  have hnew : ∀ owner s, (∀ c, s = .more c → (drawn e n).call c = 0) →
      (drawn e n).thread (.ofTask (.ofStarted owner s)) = 0 := fun owner s hs => by
    cases s with
    | more c => exact hs c rfl
    | done r => exact Holding.task_finish _ _
  cases outside_of_apply hi ha with
  | make => rfl
  | @operate e' x op _ =>
    have hzero := hnew (some e') (Call.ofOperation ⟨e', x.settings⟩ op) fun c hc =>
      (drawn_obeys e n).operation hc
    simp [spawn, modifyEndpoint, hzero]
  | request op =>
    have hzero := hnew none (Call.ofObject op) fun c hc => (drawn_obeys e n).object hc
    simp [request, spawn, hzero]
  | drop => simp [World.drop, spawn, Thread.ofTask, Holding.task]
  | register => rfl
  | release => rfl

theorem issued_go {a : Deed} {t : ThreadId} {th th' : Thread} (ht : w.threads[t]? = some th)
    (hv : v.threads = w.threads.set t th') (hd : (w.stores e).Does a (v.stores e))
    (hn : (drawn e n).thread th' + a.spends n ≤ (drawn e n).thread th + a.draws n) :
    v.issued e n ≤ w.issued e n := by
  have hmarks := hd.marks (n := n)
  have hset := tally_set (f := (drawn e n).thread) ht th'
  simp only [issued, hv]
  omega

/-- No number comes into use a second time. -/
theorem Keeps.issued_atom (h : w.Keeps e) (ha : Atom allowed w v) :
    v.issued e n ≤ w.issued e n := by
  cases ha with
  | @act t th α p next u a ht hn hans =>
    have hs := h.shaped th (List.mem_of_getElem? ht)
    obtain ⟨q, hleads⟩ := hs.leads
    have hacc := (drawn_obeys e n).thread hs
    rw [hn] at hleads hacc
    have hdeed := hans.deed hleads.1 e
    rcases hans.threads_cases with he | ⟨q, l, d, he⟩
    · exact issued_go ht (by rw [putThread, he]) hdeed (hacc a)
    · -- the worker that starts has drawn nothing
      have hnew : (drawn e n).thread (.ofTask (worker q l d)) = 0 := by cases d <;> rfl
      have ht' : u.threads[t]? = some th := by
        rw [he, List.getElem?_append_left (List.getElem?_eq_some_iff.mp ht).1]
        exact ht
      refine Nat.le_trans (issued_go (w := { w with threads := u.threads }) ht' rfl hdeed (hacc a))
        ?_
      have htally : tally (drawn e n).thread u.threads = tally (drawn e n).thread w.threads := by
        simp [he, hnew]
      exact Nat.le_of_eq (congrArg ((w.stores e).marks n + ·) htally)
  | @invoke t th p i after ht hn =>
    have hacc := (drawn_obeys e n).thread (h.shaped th (List.mem_of_getElem? ht))
    rw [hn] at hacc
    have hdraws : (i.deed e p).draws n = 0 ∧ (i.deed e p).spends n = 0 := by
      cases i with
      | disconnect => exact ⟨rfl, rfl⟩
      | resolve =>
        simp only [Invocation.deed]
        split <;> exact ⟨rfl, rfl⟩
    have hpush := invoke_push (w := w) (drawn_obeys e n) (p := p) (i := i) after
    refine issued_go ht (congrArg (List.set · t _) (invoke_threads p i)) (invoke_deed w p i e) ?_
    rw [hdraws.1, hdraws.2, hpush]
    exact hacc
  | @panic t th ht hn =>
    have hst : (w.panic t th).stores e = w.stores e := abandon_stores th
    refine issued_go ht (panic_threads t th) (a := .rest) (hst ▸ .still _) ?_
    rw [show (drawn e n).thread th.unwound = 0 from Holding.task_finish _ _]
    exact Nat.zero_le _
  | outside _ hi ha =>
    obtain ⟨hserial, hreceived⟩ := outside_record (e := e) hi ha
    refine Nat.le_of_eq ?_
    simp only [issued, Stores.marks, hserial, hreceived, begin_drawn hi ha]
  | settle ha =>
    have hstores : v.stores e = w.stores e := by
      simp only [World.stores, goods, ha.endpoints, ha.history]
    rw [issued, hstores, ha.threads, issued]

theorem Keeps.issued_run (h : w.Keeps e) (hq : w.Queued) (hr : Run allowed w v) :
    v.issued e n ≤ w.issued e n :=
  ((hr.induction (m := fun u => u.Keeps e ∧ u.issued e n ≤ w.issued e n) hq ⟨h, Nat.le_refl _⟩
    fun ⟨hk, hle⟩ ha => ⟨hk.atom ha, Nat.le_trans (hk.issued_atom ha) hle⟩).1).2

theorem unused_of_drawn (h : w.issued e n ≤ 1) {th : Thread} (hm : th ∈ w.threads)
    (hn : 1 ≤ (drawn e n).thread th) (d : Direction) : n ∉ w.used e d := by
  have hle := le_tally (f := (drawn e n).thread) hm
  refine load_numbered_eq_zero.mp ?_
  unfold issued Stores.marks at h
  cases d <;> omega

end World

end QueuePair
