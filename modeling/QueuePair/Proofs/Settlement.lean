import Mathlib.Data.List.Perm.Subperm
import QueuePair.Proofs.Draining

namespace QueuePair

def Shelf.settled (s : Shelf) : List Tag :=
  s.resolved.map (·.1.tag) ++ s.withdrawn.map (·, .caller)

/-- Whether an input leaves the shared objects to the endpoints. -/
def Input.managed : Input → Bool
  | .request _ => false
  | _ => true

/-- A post succeeds when it queues its job, and only then. -/
def Move.Posts (e : EndpointId) (d : Direction) : Move (Flow Posting (Except Error Nat)) → Prop
  | .perform q next => ∀ a n, next a = .done (.ok n) ↔
    ∃ job : Job, job.serial = n ∧ q.deed e a = .accept d job
  | .invoke .. => False
  | .panic | .halt => True

theorem posting_posts (p : Party) (d : Direction) (data : Buffer) (handler : Handler)
    (s : Posting) : (s.next p d data handler).Posts p.id d := by
  cases s with
  | check =>
    intro a n
    cases a <;> simp [Primitive.deed, EndpointCall.deed]
  | number => simp [Posting.next, Move.access, Move.Posts, Primitive.deed, EndpointCall.deed]
  | clock job =>
    intro a n
    cases a <;> simp [Primitive.deed]
  | overflowed => trivial
  | enqueue job deadline =>
    intro a n
    cases a <;> simp [Primitive.deed, EndpointCall.deed, Posted.deed]
  | parked job deadline =>
    intro a n
    cases a <;> simp [Primitive.deed]

section

variable {as bs : List Tag}

theorem load_count [DecidableEq Tag] (a : Tag) (as : List Tag) :
    load (fun b => if b = a then 1 else 0) as = @List.count Tag instBEqOfDecidableEq a as := by
  induction as with
  | nil => rfl
  | cons b as ih => simp [List.count_cons, ih, Nat.add_comm]

theorem subperm_of_load (h : ∀ k, load k as ≤ load k bs) : as.Subperm bs := by
  classical
  refine List.subperm_iff_count.mpr fun a => ?_
  have hle := h fun b => if b = a then 1 else 0
  rwa [load_count, load_count] at hle

theorem perm_of_load (h : ∀ k, load k as = load k bs) : as.Perm bs :=
  (subperm_of_load fun k => Nat.le_of_eq (h k)).antisymm
    (subperm_of_load fun k => Nat.le_of_eq (h k).symm)

end

namespace Shelf

variable {s : Shelf} {d : Direction} {h : Hands} {exact : Bool}

theorem load_settled (s : Shelf) (k : Tag → Nat) : load k s.placed =
    load k (s.queue.items.map Job.tag) + load k s.settled := by
  rw [load_placed, settled, load_append, Nat.add_assoc]

theorem Kept.settled_subperm (hk : s.Kept exact d h) : s.settled.Subperm s.received := by
  refine subperm_of_load fun k => ?_
  have hle := (hk.jobs k).le
  rw [load_settled] at hle
  omega

theorem Kept.settled_perm (hk : s.Kept true d h) (hi : s.queue.items = [])
    (hj : ∀ k, h (.jobs d k) = 0) : s.settled.Perm s.received := by
  refine perm_of_load fun k => ?_
  have heq : load k s.placed + h (.jobs d k) = load k s.received := hk.jobs k
  rw [load_settled, hi, hj] at heq
  simpa using heq

end Shelf

namespace World

variable {w v : World} {e : EndpointId} {d : Direction} {n : Nat} {allowed : Input → Prop}

def used (w : World) (e : EndpointId) (d : Direction) : List Nat :=
  ((w.stores e).shelf d).received.map (·.1)

/-- A number that was given out, and that no post under way is about to use. -/
structure Dropped (w : World) (e : EndpointId) (d : Direction) (n : Nat) : Prop where
  taken : n < (w.stores e).serial
  unused : n ∉ w.used e d
  idle : ∀ th ∈ w.threads, th.numbers e d n = 0

theorem load_numbered_eq_zero {as : List Tag} : load (numbered n) as = 0 ↔ n ∉ as.map (·.1) := by
  induction as with
  | nil => simp
  | cons a as ih =>
    by_cases ha : a.1 = n
    · simp [numbered, ha]
    · simp [numbered, ha, ih, Ne.symm ha]

theorem numbers_thread (th : Thread) :
    (holding e (.number d n)).thread th = th.numbers e d n := by
  have htask : (holding e (.number d n)).task th.task = th.task.numbers e d n := by
    cases th.task <;> rfl
  have hcallback : (holding e (.number d n)).callback = (·.state.numbers e d n) := by
    funext c
    obtain ⟨p, lane, id, payload, index, state⟩ := c
    cases state <;> rfl
  rw [Holding.thread, htask, hcallback, Thread.numbers]

theorem outside_record {i : Input} (hi : i.outside = true) (ha : w.apply i = some v) :
    (v.stores e).serial = (w.stores e).serial ∧
      ∀ d, ((v.stores e).shelf d).received = ((w.stores e).shelf d).received := by
  by_cases hmake : ∀ a, i = .make a → e ≠ w.endpoints.length
  · rw [outside_stores hmake hi ha]
    exact ⟨rfl, fun _ => rfl⟩
  · obtain ⟨a, rfl, rfl⟩ : ∃ a, i = .make a ∧ e = w.endpoints.length := by simpa using hmake
    cases outside_of_apply hi ha
    exact ⟨by simp [World.stores, goods, Stores.ofRecord, Endpoint.ofSettings], fun _ => rfl⟩

theorem Keeps.uses_atom (h : w.Keeps e) (ha : Atom allowed w v) (d : Direction) (n : Nat) :
    (v.stores e).uses (v.hands e) d n ≤ (w.stores e).uses (w.hands e) d n := by
  rcases h.deed_or_outside ha with ⟨act, hx, hg⟩ | ⟨i, hi, happly⟩
  · exact Custody.uses_le hx d (hg (.number d n))
  · obtain ⟨hserial, hreceived⟩ := outside_record (e := e) hi happly
    rw [Stores.uses, hserial, hreceived, outside_hands hi happly, Stores.uses]

theorem Keeps.uses_run (h : w.Keeps e) (hq : w.Queued) (hr : Run allowed w v) (d : Direction)
    (n : Nat) : (v.stores e).uses (v.hands e) d n ≤ (w.stores e).uses (w.hands e) d n :=
  ((hr.induction (m := fun u => u.Keeps e ∧
      (u.stores e).uses (u.hands e) d n ≤ (w.stores e).uses (w.hands e) d n) hq ⟨h, Nat.le_refl _⟩
    fun ⟨hk, hle⟩ ha => ⟨hk.atom ha, Nat.le_trans (hk.uses_atom ha d n) hle⟩).1).2

theorem count_numbers (n : Nat) (as : List Tag) :
    (as.map (·.1)).count n = load (numbered n) as := by
  induction as with
  | nil => rfl
  | cons a as ih =>
    by_cases ha : a.1 = n
    · simp [numbered, ha, ih, Nat.add_comm]
    · simp [numbered, ha, ih]

theorem Keeps.used_nodup (h : w.Keeps e) (d : Direction) : (w.used e d).Nodup := by
  refine List.nodup_iff_count.mpr fun n => ?_
  have huses := (h.custody false nofun).numbers d n
  rw [used, count_numbers]
  unfold Stores.uses at huses
  omega

theorem Dropped.unused_run (hd : w.Dropped e d n) (h : w.Keeps e) (hq : w.Queued)
    (hr : Run allowed w v) : n ∉ v.used e d := by
  have hhands : w.hands e (.number d n) = 0 :=
    tally_eq_zero fun th hm => (numbers_thread th).trans (hd.idle th hm)
  have hzero : (w.stores e).uses (w.hands e) d n = 0 := by
    rw [Stores.uses, hhands, load_numbered_eq_zero.mpr hd.unused, if_neg (Nat.not_le.mpr hd.taken)]
  have hle := h.uses_run hq hr d n
  rw [hzero] at hle
  refine load_numbered_eq_zero.mp ?_
  unfold Stores.uses at hle
  omega

/-- A queue without jobs: everything that was accepted is settled. -/
structure Cleared (w : World) (e : EndpointId) (d : Direction) : Prop where
  settled : ((w.stores e).shelf d).settled.Perm ((w.stores e).shelf d).received
  empty : ∀ x, w.endpoints[e]? = some x → (x.queue d).pending = .empty
  free : ∀ x, w.endpoints[e]? = some x → ∀ s ∈ (x.queue d).slab.slots, s = .free

theorem Rests.cleared (h : w.Rests e) (hl : ¬ w.Lingers e d) : w.Cleared e d where
  settled := by
    obtain ⟨x, hx, -⟩ := h.closed
    refine (h.kept d).settled_perm (WorkQueue.items_nil ?_) (h.hands hl).2
    have hempty := h.empty hl hx
    rwa [shelf_queue hx]
  empty := fun _ hx => h.empty hl hx
  free := fun _ hx => h.free hl hx

/-- The accepted jobs of a queue have different numbers, and none is settled twice: each is given
back once, complete or with an error, or it is a waiting caller's and withdrawn once. A post
succeeds only by queueing its job, and a job that was not queued when its post ended is never queued
or settled. Once an endpoint has got its link, was closed, and nobody can move, with no callback
under way and no worker or destroyer lost, all jobs of a queue are settled and its entries are free,
unless its worker still waits at a set that was not removed. -/
theorem jobs_settled_once (hr : Run allowed empty w) (e : EndpointId) :
    (∀ d, (w.used e d).Nodup ∧
      ((w.stores e).shelf d).settled.Subperm ((w.stores e).shelf d).received) ∧
    (∀ (p : Party) (d : Direction) (data : Buffer) (handler : Handler) (s : Posting),
      (s.next p d data handler).Posts p.id d) ∧
    (∀ d n, w.Dropped e d n → ∀ v, Run allowed w v →
      n ∉ v.used e d ∧ n ∉ ((v.stores e).shelf d).settled.map (·.1)) ∧
    ∀ u x, Run allowed empty u → Run allowed u w → u.endpoints[e]? = some x →
      x.link.isSome = true → w.Idle → (∃ y, w.endpoints[e]? = some y ∧ y.state = .closed) →
      (∀ th ∈ w.threads, th.origin.attends e = true → th.callbacks = []) → ¬ w.Harmed e →
      ∀ d, w.Lingers e d ∨ w.Cleared e d := by
  have hnew : empty.Queued := queued_of_new rfl
  have hqueued : ∀ {v : World}, Run allowed empty v → v.Queued := fun hv => hv.queued hnew
  have hkeeps : ∀ {v : World}, Run allowed empty v → v.Keeps e := (empty_keeps e).run hnew
  have hsub : ∀ {v : World} (d), v.Keeps e →
      ((v.stores e).shelf d).settled.Subperm ((v.stores e).shelf d).received := fun d hk =>
    ((hk.custody false nofun).kept d).settled_subperm
  refine ⟨fun d => ⟨(hkeeps hr).used_nodup d, hsub d (hkeeps hr)⟩, posting_posts,
    fun d n hd v hv => ?_, fun u x hu huw hx hl hi hc hn hh d => ?_⟩
  · have hunused := hd.unused_run (hkeeps hr) (hqueued hr) hv
    refine ⟨hunused, fun hm => ?_⟩
    obtain ⟨a, ha, rfl⟩ := List.mem_map.mp hm
    exact hunused (List.mem_map_of_mem ((hsub d ((hkeeps hr).run (hqueued hr) hv)).subset ha))
  · have hsettled := ((founded_of_new rfl fun x hx => by simp [World.empty] at hx).run
      (empty_keeps e) hnew hu).linked hx hl
    refine or_iff_not_imp_left.mpr fun hlinger => Rests.cleared ?_ hlinger
    exact {
      idle := hi
      queued := hqueued hr
      parked := (parked_of_new rfl).run hr
      keeps := hkeeps hr
      settled := hsettled.run (hkeeps hu) (hqueued hu) huw
      closed := hc
      silent := hn
      unharmed := hh }

def attributes (r : Role) : Attributes :=
  ⟨r, .ofMillis 3000, 2, 2, "n", ⟨"/"⟩, 16, none⟩

def accepting : World :=
  empty.play ([.make (attributes .server), .make (attributes .client), .operate 0 .accept] ++
    List.replicate 18 (.run 0))

/-- The client connects as well, the server posts a receive and is about to post another one, and
the client is destroyed. -/
def leaving : World :=
  accepting.play ([.operate 1 .connect] ++ List.replicate 18 (.run 3) ++
    [.operate 0 (.postReceive (.ofLimit 8) (.callbacks "a" [] []))] ++ List.replicate 5 (.run 6) ++
    [.operate 0 (.postReceive (.ofLimit 8) (.callbacks "b" [] []))] ++ List.replicate 3 (.run 7) ++
    [.operate 1 .destroy] ++ List.replicate 9 (.run 8) ++
    [2, 1, 4, 5, 8, 3, 6, 7, 1].flatMap fun t => List.replicate 12 (.run t))

/-- The receive that was queued is settled, and the one that came too late is dropped. -/
theorem late_receive_dropped : ((leaving.stores 0).shelf .receive).accepted.map (·.serial) = [1] ∧
    leaving.Cleared 0 .receive ∧ leaving.Dropped 0 .receive 2 ∧
    2 ∉ ((leaving.stores 0).shelf .receive).settled.map (·.1) := by
  have hu : Run (fun _ => True) empty accepting := Run.refl.play (by simp)
  have huw : Run (fun _ => True) accepting leaving := Run.refl.play (by simp)
  have hw : Run (fun _ => True) empty leaving := hu.play (by simp)
  obtain ⟨x, hx, hlink⟩ : ∃ x, accepting.endpoints[0]? = some x ∧ x.link.isSome = true := by
    have hany : (accepting.endpoints[0]?.any (·.link.isSome)) = true := by decide +kernel
    simpa [Option.any_eq_true] using hany
  have hclosed : ∃ y, leaving.endpoints[0]? = some y ∧ y.state = .closed := by
    have hany : (leaving.endpoints[0]?.any (·.state = .closed)) = true := by decide +kernel
    simpa [Option.any_eq_true] using hany
  have hsilent := silent_of_isEmpty (w := leaving) (by decide +kernel)
  have hunharmed := not_harmed (w := leaving) (by decide +kernel) 0
  have hgone : ¬ leaving.Lingers 0 .receive := by
    have hnobody : ∀ th ∈ leaving.threads, th.task.serves 0 .receive = false := by decide +kernel
    rintro ⟨th, hm, hs, -⟩
    rw [hnobody th hm] at hs
    cases hs
  obtain ⟨-, -, hdropped, hcleared⟩ := jobs_settled_once hw 0
  have hdrop : leaving.Dropped 0 .receive 2 :=
    ⟨by decide +kernel, by decide +kernel, by decide +kernel⟩
  refine ⟨by decide +kernel, ?_, hdrop, (hdropped .receive 2 hdrop leaving .refl).2⟩
  exact (hcleared accepting x hu huw hx hlink (by decide +kernel) hclosed
    (fun th hm _ => hsilent th hm) hunharmed .receive).resolve_left hgone

/-- The client connects while the server is destroyed: it makes the mailbox and the server's signal
anew, but joins its own signal before that one is removed. Then it posts a receive and a send. -/
def crossing : World :=
  accepting.play ([.operate 0 .destroy, .operate 1 .connect] ++ List.replicate 5 (.run 3) ++
    List.replicate 10 (.run 4) ++ [.run 3, .run 4, .run 4, .run 3] ++ List.replicate 8 (.run 4))

def stranding : World :=
  crossing.play ([.operate 1 (.postReceive (.ofLimit 8) (.callbacks "a" [] []))] ++
    List.replicate 5 (.run 7) ++
    [.operate 1 (.postSend (.ofBytes [1]) (.callbacks "b" [] []))] ++ List.replicate 5 (.run 8) ++
    [1, 2, 3, 5, 6, 5].flatMap fun t => List.replicate 12 (.run t))

/-- The sender of the client fails and closes the endpoint, but its receiver waits for a signal that
nobody removes: the receive is queued for good. -/
theorem receive_stranded : (∃ u, Run (Input.managed · = true) empty u ∧
      Run (Input.managed · = true) u stranding ∧ ∃ x, u.endpoints[1]? = some x ∧
        x.link.isSome = true) ∧
    stranding.Idle ∧ (∃ y, stranding.endpoints[1]? = some y ∧ y.state = .closed) ∧
    (∀ th ∈ stranding.threads, th.callbacks = []) ∧
    (∀ th ∈ stranding.threads, th.task.panicked = false) ∧
    ((stranding.stores 1).shelf .receive).accepted.map (·.serial) = [1] ∧
    ((stranding.stores 1).shelf .receive).settled = [] := by
  have hu : Run (Input.managed · = true) empty crossing :=
    (Run.refl.play (by decide)).play (by decide)
  have huw : Run (Input.managed · = true) crossing stranding := Run.refl.play (by decide)
  have hlink : ∃ x, crossing.endpoints[1]? = some x ∧ x.link.isSome = true := by
    have hany : (crossing.endpoints[1]?.any (·.link.isSome)) = true := by decide +kernel
    simpa [Option.any_eq_true] using hany
  have hclosed : ∃ y, stranding.endpoints[1]? = some y ∧ y.state = .closed := by
    have hany : (stranding.endpoints[1]?.any (·.state = .closed)) = true := by decide +kernel
    simpa [Option.any_eq_true] using hany
  have hsilent := silent_of_isEmpty (w := stranding) (by decide +kernel)
  refine ⟨⟨crossing, hu, huw, hlink⟩, by decide +kernel, hclosed, hsilent, by decide +kernel,
    by decide +kernel, List.isEmpty_iff.mp (by decide +kernel)⟩

end World

end QueuePair
