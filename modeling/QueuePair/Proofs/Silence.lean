import QueuePair.Proofs.Roster
import QueuePair.Proofs.Sendoff
import QueuePair.Proofs.Withdrawal

namespace QueuePair

open World

namespace Stores.Does

variable {x y : Stores} {h : Hands} {act : Deed} {d : Direction}

theorem brings_none (hx : x.Does act y) (hc : Custody false x h)
    (hi : (x.shelf d).queue.items = []) (k : Tag → Nat) : act.brings (.jobs d k) = 0 := by
  cases hx with
  | number => rfl
  | @lane d' act s hs =>
    by_cases hd : d = d'
    · subst hd
      have ht := (hc.kept d).tidy
      cases hs with
      | take hq =>
        obtain ⟨i, a, -, hitems, -⟩ := (ht.next hq).2.2.resolve_left (by simp)
        cases hi.symm.trans hitems
      | drain hq => simp [Deed.brings, (ht.drain hq).2.1, hi]
      | _ => rfl
    · exact ((hs.other hd).1.jobs k).1

end Stores.Does

namespace Call

variable {e : EndpointId} {c : Call}

def begins (e : EndpointId) : Call → Bool
  | .destroying p .begin => p.id = e
  | _ => false

def leaves (e : EndpointId) : Call → Bool
  | .destroying p (.dropDisconnect _) => p.id = e
  | _ => false

theorem of_begins (h : c.begins e = true) : ∃ p, c = .destroying p .begin ∧ p.id = e := by
  unfold begins at h
  split at h
  · exact ⟨_, rfl, of_decide_eq_true h⟩
  · cases h

theorem of_leaves (h : c.leaves e = true) :
    ∃ p r, c = .destroying p (.dropDisconnect r) ∧ p.id = e := by
  unfold leaves at h
  split at h
  · exact ⟨_, _, rfl, of_decide_eq_true h⟩
  · cases h

theorem jobs_of_tears (h : c.tears e = []) (d : Direction) : c.jobs e d = [] := by
  cases c with
  | destroying p s =>
    simp only [jobs]
    split
    · rename_i hp
      rw [tears, destroying?, if_pos hp] at h
      cases s <;> first | rfl | cases h
    · rfl
  | _ => rfl

end Call

namespace Task

variable {e : EndpointId} {a : Task}

theorem jobs_of_stranger (hs : a.staffs e = false) (ht : a.tears e = []) (d : Direction) :
    a.jobs e d = [] := by
  cases a with
  | sender p l s | receiver p l s =>
    have hp : p.id ≠ e := of_decide_eq_false hs
    simp [jobs, hp]
  | call o c => exact Call.jobs_of_tears ht d
  | leaving | ended => rfl

theorem bears_of_stranger (hs : a.staffs e = false) : a.bears e = 0 := by
  cases a with
  | sender p l s | receiver p l s => exact if_neg (of_decide_eq_false hs)
  | _ => rfl

theorem bears_of_rests (h : a.rests = true) : a.bears e = 0 := by
  have hdeparting : ∀ s : Departing, s.rests = true → s.bears = 0 := fun s hs => by
    cases s <;> first | rfl | cases hs
  cases a with
  | sender p l s =>
    have hs : s.bears = 0 := by
      cases s with
      | depart s => exact hdeparting s h
      | _ => rfl
    simp [bears, hs]
  | receiver p l s =>
    have hs : s.bears = 0 := by
      cases s with
      | depart s => exact hdeparting s h
      | _ => rfl
    simp [bears, hs]
  | _ => rfl

end Task

namespace Thread

variable {e : EndpointId} {th : Thread}

theorem jobs_of_stranger (hs : th.task.staffs e = false) (ht : th.tears e = []) (d : Direction) :
    th.jobs e d = [] := by
  obtain ⟨hcs, htask⟩ := List.append_eq_nil_iff.mp ht
  refine List.append_eq_nil_iff.mpr ⟨Task.jobs_of_stranger hs htask d, ?_⟩
  refine List.flatMap_eq_nil_iff.mpr fun c hm => ?_
  have hc : c.tears e = [] := List.flatMap_eq_nil_iff.mp hcs c hm
  rw [Callback.tears] at hc
  cases hcall : c.call? with
  | none => rfl
  | some call =>
    rw [hcall] at hc
    exact Call.jobs_of_tears hc d

theorem Covered.bears {r : Result} (h : th.Covered) (hr : th.result? = some r) :
    th.bears e = 0 := by
  obtain ⟨o, task, cs⟩ := th
  cases cs with
  | nil =>
    cases task with
    | leaving | ended => rfl
    | _ => cases hr
  | cons c cs => exact Task.bears_of_rests (h.task nofun)

end Thread

namespace World

variable {w v u u' z : World} {e : EndpointId} {t i : ThreadId} {th b : Thread} {x y : Endpoint}
  {d : Direction} {l : Link} {r : Except Error Unit} {allowed : Input → Prop}

/-- A thread is about to set the teardown mark of an endpoint that has a link and that nobody tears
down. -/
structure Begins (w : World) (e : EndpointId) (t : ThreadId) (l : Link) : Prop where
  call : ∃ th p, w.threads[t]? = some th ∧ th.call? = some (.destroying p .begin) ∧ p.id = e
  first : ∃ x, w.endpoints[e]? = some x ∧ x.link = some l ∧ x.stopping = false
  alone : ∀ i, w.tearing e i = []

def Leaves (w : World) (e : EndpointId) (t : ThreadId) (r : Except Error Unit) : Prop :=
  ∃ th p, w.threads[t]? = some th ∧ th.call? = some (.destroying p (.dropDisconnect r)) ∧ p.id = e

/-- The teardown of an endpoint with this link is over. -/
structure Over (w : World) (e : EndpointId) (l : Link) (t : ThreadId) : Prop where
  settled : w.Settled e
  closed : ∃ x, w.endpoints[e]? = some x ∧ x.state = .closed ∧ x.stopped = true ∧
    x.onDisconnect = none ∧ ∀ d, (x.queue d).pending = .empty
  gone : ∀ set ∈ l.sets, w.kernel.Removed set
  others : ∀ {i : ThreadId} {b : Thread}, w.threads[i]? = some b → i ≠ t →
    b.task.staffs e = false ∧ b.tears e = []
  own : ∀ {b : Thread}, w.threads[t]? = some b → b.tears e = [] ∧ b.bears e = 0

/-- The first teardown of an endpoint that was connected is the only one. -/
theorem Begins.torn (h : w.Begins e t l) (hr : Reachable w) (hv : w.step t = some v) :
    v.Torn e l t := by
  obtain ⟨th, p, ht, hc, rfl⟩ := h.call
  obtain ⟨x, hx, hl, hstopping⟩ := h.first
  obtain ⟨f, hnext, htears, -⟩ := Thread.next_destroying hc
  obtain ⟨u, y, sec, hy, hcall, -, htv, -, hthreads, hends⟩ := step_access ht hnext hv
  obtain rfl := Option.some.inj (hx.symm.trans hy)
  cases hcall
  have hrv : Reachable v := .step (.run t) hr trivial hv
  have hput := hthreads rfl
  have hbelow : th.below p.id = [] := by
    have halone := h.alone t
    rw [tearing_eq ht, Thread.tears_eq hc] at halone
    exact (List.append_eq_nil_iff.mp halone).2
  have hvx : v.endpoints[p.id]? = some { x with stopping := true } := by
    rw [hends]
    exact List.getElem?_set_self (List.getElem?_eq_some_iff.mp hx).1
  have hmine : v.tearing p.id t = [.close] := by
    rw [tearing_eq htv, htears, hbelow]
    simp [hstopping, Destroying.going, Destroying.begun]
  have hothers : ∀ i ≠ t, v.tearing p.id i = [] := fun i hi => by
    have halone := h.alone i
    simp only [tearing, hput, List.getElem?_set_ne (Ne.symm hi)] at halone ⊢
    exact halone
  have hfounded := (Run.tended hrv p.id).founded
  refine ⟨hfounded.linked hvx (by simp [hl]), (Run.lent hrv p.id).linked hvx hl, hothers, ?_,
    _, hvx, rfl, fun s hs => ?_⟩
  · simp [hmine]
  · rw [hmine] at hs
    obtain rfl := List.mem_singleton.mp hs
    refine ⟨fun _ => hl, fun _ _ h => (by cases h), fun h => (by cases h), fun _ h => (by cases h),
      fun hb hs => ?_, fun _ h => (by cases h)⟩
    refine (Run.rostered hrv p.id).listed hfounded hvx (by simp [hl]) (fun j s hj => ?_) hb hs
    by_cases hjt : j = t
    · rw [hjt, hmine] at hj
      rw [List.mem_singleton.mp hj]
      rfl
    · rw [hothers j hjt] at hj
      cases hj

/-- The only teardown of an endpoint has done all it has to do when it comes back. -/
theorem Torn.over (h : w.Torn e l t) (hr : Reachable w) (he : w.Leaves e t r)
    (hv : w.step t = some v) : v.Over e l t ∧
      ∃ th, v.threads[t]? = some th ∧ th.result? = some (Call.unit r) := by
  obtain ⟨th, p, ht, hc, rfl⟩ := he
  obtain ⟨x, hx, -, hpast⟩ := h.past
  have hplace : .dropDisconnect r ∈ w.tearing p.id t := by
    rw [tearing_eq ht, Thread.tears_eq hc]
    simp [Call.tears, Call.destroying?, Destroying.begun]
  have hlast := hpast _ hplace
  have hbelow : th.below p.id = [] := by
    have honce := h.once
    rw [tearing_eq ht, Thread.tears_eq hc] at honce
    simpa [Call.tears, Call.destroying?, Destroying.begun] using honce
  obtain ⟨g, hnext', htears, -⟩ := Thread.next_destroying hc
  obtain ⟨_, _, _, -, -, -, htv', -⟩ := step_access ht hnext' hv
  obtain ⟨f, hnext, hresult, -⟩ := Thread.next_of_call hc
  obtain ⟨u, y, sec, hy, hcall, -, htv, -, hthreads, hends⟩ := step_access ht hnext hv
  obtain rfl := Option.some.inj (hx.symm.trans hy)
  cases hcall
  have hrv : Reachable v := .step (.run t) hr trivial hv
  have hwv : Run (fun _ => True) w v := .step (.run t) .refl trivial hv
  have hvx : v.endpoints[p.id]? = some { x with onDisconnect := none } := by
    rw [hends]
    exact List.getElem?_set_self (List.getElem?_eq_some_iff.mp hx).1
  have hres : (f (.done (Call.unit r))).result? = some (Call.unit r) := hresult _
  refine ⟨⟨h.settled.run (Run.tended hr p.id).keeps hr.queued hwv, ⟨_, hvx, ?_⟩,
    fun set hm => (hlast.gone set hm).mono (hwv.lasts hr.queued), fun {i b} hb hi => ?_,
    fun {b} hb => ?_⟩, _, htv, hres⟩
  · exact ⟨(hlast.closed rfl).1, (hlast.closed rfl).2, rfl, fun d => hlast.drained d rfl⟩
  · rw [hthreads rfl, List.getElem?_set_ne (Ne.symm hi)] at hb
    refine ⟨?_, (tearing_eq hb).symm.trans (h.alone i hi)⟩
    by_contra hs
    exact hi (List.mem_singleton.mp (hlast.crew hb ((Bool.not_eq_false _).mp hs)))
  · refine ⟨?_, ?_⟩
    · obtain rfl := Option.some.inj (htv'.symm.trans hb)
      rw [htears, hbelow]
      rfl
    · obtain rfl := Option.some.inj (htv.symm.trans hb)
      exact (hrv.covered _ (List.mem_of_getElem? htv)).bears hres

namespace Over

theorem sendoffs (h : w.Over e l t) : w.sendoffs e = w.partings e := by
  obtain ⟨x, hx, -, -, hnone, -⟩ := h.closed
  have hbears : tally (Thread.bears e) w.threads = 0 := tally_eq_zero fun b hb => by
    obtain ⟨i, hi⟩ := List.mem_iff_getElem?.mp hb
    by_cases hit : i = t
    · exact (h.own (hit ▸ hi)).2
    · exact Task.bears_of_stranger (h.others hi hit).1
  simp [World.sendoffs, hbears, script, hx, hnone]

theorem hands (h : w.Over e l t) (ht : w.threads[t]? = some th) (d : Direction) (k : Tag → Nat) :
    w.hands e (.jobs d k) = load k ((th.jobs e d).map Job.tag) := by
  have hmine := Thread.load_jobs e d k th
  have hset := tally_set (f := (holding e (.jobs d k)).thread) ht th.unwound
  have hunwound : (holding e (.jobs d k)).thread th.unwound = 0 := by
    rw [Thread.load_jobs, Thread.jobs_of_stranger (by simp [Thread.unwound])
      (by simp [Thread.tears, Thread.unwound])]
    rfl
  have hnone : tally (holding e (.jobs d k)).thread (w.threads.set t th.unwound) = 0 :=
    tally_eq_zero fun b hb => by
      obtain ⟨i, hi⟩ := List.mem_iff_getElem?.mp hb
      by_cases hit : t = i
      · subst hit
        rw [List.getElem?_set_self (List.getElem?_eq_some_iff.mp ht).1] at hi
        obtain rfl := Option.some.inj hi
        exact hunwound
      · rw [List.getElem?_set_ne hit] at hi
        obtain ⟨hs, htears⟩ := h.others hi (Ne.symm hit)
        rw [Thread.load_jobs, Thread.jobs_of_stranger hs htears]
        rfl
  rw [hnone, hunwound] at hset
  rw [World.hands]
  omega

theorem settled_perm (h : w.Over e l t) (hk : w.Keeps e) (hh : ¬ w.Harmed e)
    (ht : w.threads[t]? = some th) (d : Direction) :
    (((w.stores e).shelf d).settled ++ (th.jobs e d).map Job.tag).Perm
      ((w.stores e).shelf d).received := by
  obtain ⟨x, hx, -, -, -, hempty⟩ := h.closed
  refine perm_of_load fun k => ?_
  have hjobs : load k ((w.stores e).shelf d).placed + w.hands e (.jobs d k) =
      load k ((w.stores e).shelf d).received := ((hk.custody true fun _ => hh).kept d).jobs k
  rw [Shelf.load_settled, shelf_queue hx, WorkQueue.items_nil (hempty d), h.hands ht] at hjobs
  simpa using hjobs

end Over

/-- Nothing new comes to an endpoint: its queues are stopped and empty, and nobody has its
disconnect callback. -/
structure Hushed (w : World) (e : EndpointId) : Prop where
  settled : w.Settled e
  closed : ∃ x, w.endpoints[e]? = some x ∧ x.state = .closed ∧ x.stopped = true ∧
    ∀ d, (x.queue d).pending = .empty
  parted : w.sendoffs e = w.partings e

theorem Over.hushed (h : w.Over e l t) : w.Hushed e where
  settled := h.settled
  closed := by
    obtain ⟨x, hx, hs, hstopped, -, hempty⟩ := h.closed
    exact ⟨x, hx, hs, hstopped, hempty⟩
  parted := h.sendoffs

namespace Hushed

theorem partings (h : w.Hushed e) (hk : w.Keeps e) (ha : Atom allowed w v) :
    v.partings e = w.partings e ∧ v.sendoffs e = v.partings e := by
  have hmono := partings_mono hk ha
  have hle := sendoffs_le hk ha
  have hparted := h.parted
  simp only [World.sendoffs] at hle hparted ⊢
  omega

theorem atom (h : w.Hushed e) (hk : w.Keeps e) (ha : Atom allowed w v) : v.Hushed e where
  settled := h.settled.atom hk ha
  closed := by
    obtain ⟨x, hx, hs, hstopped, hempty⟩ := h.closed
    obtain ⟨y, hy, hxy⟩ := h.settled.lasts hk ha hx
    obtain ⟨hs', hstopped'⟩ := hxy.closed hs hstopped
    exact ⟨y, hy, hs', hstopped', fun d => hxy.empty d hstopped (hempty d)⟩
  parted := (h.partings hk ha).2

theorem resolved (h : w.Hushed e) (hk : w.Keeps e) (ha : Atom allowed w v) (d : Direction) :
    ∃ more, ((v.stores e).shelf d).resolved = ((w.stores e).shelf d).resolved ++ more ∧
      ∀ k, load k (more.map (·.1.tag)) + v.hands e (.jobs d k) ≤ w.hands e (.jobs d k) := by
  obtain ⟨x, hx, -, -, hempty⟩ := h.closed
  obtain ⟨act, hdoes, hg⟩ := hk.deed (List.getElem?_eq_some_iff.mp hx).1 ha
  have hle : ∀ k, v.hands e (.jobs d k) + act.costs (.jobs d k) ≤ w.hands e (.jobs d k) :=
    fun k => by
    have hnone := hdoes.brings_none (hk.custody false nofun)
      ((shelf_queue hx d).symm ▸ WorkQueue.items_nil (hempty d)) k
    have hle := hg (.jobs d k)
    rwa [hnone] at hle
  rcases hdoes.resolved d with he | ⟨job, error, rfl, he⟩
  · exact ⟨[], by simp [he], fun k => Nat.le_trans (by simp) (hle k)⟩
  · refine ⟨[(job, error)], he, fun k => Nat.le_trans (Nat.le_of_eq ?_) (hle k)⟩
    simp [Deed.costs, Nat.add_comm]

/-- From now on no disconnect callback starts, and nothing is given back that is in nobody's
hands. -/
theorem run (h : w.Hushed e) (hk : w.Keeps e) (hq : w.Queued) (hr : Run allowed w v) :
    v.Hushed e ∧ v.partings e = w.partings e ∧
      ∀ d, ∃ more, ((v.stores e).shelf d).resolved = ((w.stores e).shelf d).resolved ++ more ∧
        ∀ k, load k (more.map (·.1.tag)) + v.hands e (.jobs d k) ≤ w.hands e (.jobs d k) := by
  have hall := hr.induction (m := fun u => u.Keeps e ∧ u.Hushed e ∧ u.partings e = w.partings e ∧
    ∀ d, ∃ more, ((u.stores e).shelf d).resolved = ((w.stores e).shelf d).resolved ++ more ∧
      ∀ k, load k (more.map (·.1.tag)) + u.hands e (.jobs d k) ≤ w.hands e (.jobs d k)) hq
    ⟨hk, h, rfl, fun d => ⟨[], by simp, fun k => by simp⟩⟩ fun {a b} h ha => by
      obtain ⟨hk, hh, hpartings, hresolved⟩ := h
      refine ⟨hk.atom ha, hh.atom hk ha, (hh.partings hk ha).1.trans hpartings, fun d => ?_⟩
      obtain ⟨more, hmore, hload⟩ := hresolved d
      obtain ⟨next, hnext, hload'⟩ := hh.resolved hk ha d
      refine ⟨more ++ next, by rw [hnext, hmore, List.append_assoc], fun k => ?_⟩
      have hone := hload k
      have htwo := hload' k
      simp only [List.map_append, load_append]
      omega
  exact hall.1.2

end Hushed

/-- What holds when the first teardown of a connected endpoint comes back, of whatever thread, in
every run in which the endpoint's handle is dropped once at most. The endpoint is closed and its
semaphore sets are removed. As long as nobody who works for the endpoint or destroys it has
panicked, every accepted job is settled or in the hands of the thread that called, and of these
there are none unless that thread is a worker of the endpoint. From then on the endpoint stays
closed, its sets stay removed, its disconnect callback does not start, and nothing is given back but
what that thread had in its hands. -/
theorem silent_after_destroy (hu : Reachable u) (hb : u.Begins e t l) (hs : u.step t = some u')
    (hr : Run (fun _ => True) u' w) (he : w.Leaves e t r) (hv : w.step t = some v)
    (hd : w.drops e ≤ 1) :
    ∃ th, v.threads[t]? = some th ∧ th.result? = some (Call.unit r) ∧
      (th.task.staffs e = false → ∀ d, th.jobs e d = []) ∧
      (¬ v.Harmed e → ∀ d, (((v.stores e).shelf d).settled ++ (th.jobs e d).map Job.tag).Perm
        ((v.stores e).shelf d).received) ∧
      ∀ z, Run (fun _ => True) v z →
        (∃ x, z.endpoints[e]? = some x ∧ x.state = .closed) ∧
        (∀ set ∈ l.sets, z.kernel.live? set = none) ∧
        z.partings e = v.partings e ∧
        ∀ d, ∃ more, ((z.stores e).shelf d).resolved = ((v.stores e).shelf d).resolved ++ more ∧
          (more.map (·.1.tag)).Subperm ((th.jobs e d).map Job.tag) := by
  have hu' : Reachable u' := .step (.run t) hu trivial hs
  have hw : Reachable w := hu'.trans hr
  have hrv : Reachable v := .step (.run t) hw trivial hv
  have htorn := (hb.torn hu hs).run (Run.tended hu' e) hu'.queued hr hd
  obtain ⟨hover, th, ht, hres⟩ := htorn.over hw he hv
  have hk := (Run.tended hrv e).keeps
  refine ⟨th, ht, hres, fun hs d => Thread.jobs_of_stranger hs (hover.own ht).1 d,
    fun hh d => hover.settled_perm hk hh ht d, fun z hz => ?_⟩
  obtain ⟨hhushed, hpartings, hresolved⟩ := hover.hushed.run hk hrv.queued hz
  refine ⟨hhushed.closed.imp fun x h => ⟨h.1, h.2.1⟩, fun set hm => ?_, hpartings, fun d => ?_⟩
  · obtain ⟨s, hset, hremoved⟩ := (hover.gone set hm).mono (hz.lasts hrv.queued)
    simp [Kernel.live?, hset, hremoved]
  · obtain ⟨more, hmore, hload⟩ := hresolved d
    refine ⟨more, hmore, subperm_of_load fun k => ?_⟩
    have hle := hload k
    rw [hover.hands ht] at hle
    exact Nat.le_trans (Nat.le_add_right _ _) hle

theorem begins_of_any (hc : (w.threads[t]?.any fun th => th.call?.any (·.begins e)) = true)
    (hx : (w.endpoints[e]?.any fun x => x.link.isSome && !x.stopping) = true)
    (halone : ∀ th ∈ w.threads, th.tears e = []) : ∃ l, w.Begins e t l := by
  obtain ⟨th, ht, hth⟩ := Option.any_eq_true _ _ |>.mp hc
  obtain ⟨c, hc, hbegins⟩ := Option.any_eq_true _ _ |>.mp hth
  obtain ⟨p, rfl, hp⟩ := Call.of_begins hbegins
  obtain ⟨x, hx, hboth⟩ := Option.any_eq_true _ _ |>.mp hx
  simp only [Bool.and_eq_true, Bool.not_eq_true'] at hboth
  obtain ⟨l, hl⟩ := Option.isSome_iff_exists.mp hboth.1
  refine ⟨l, ⟨th, p, ht, hc, hp⟩, ⟨x, hx, hl, hboth.2⟩, fun i => ?_⟩
  cases hi : w.threads[i]? with
  | none => simp [tearing, hi]
  | some b => exact (tearing_eq hi).trans (halone b (List.mem_of_getElem? hi))

theorem leaves_of_any (hc : (w.threads[t]?.any fun th => th.call?.any (·.leaves e)) = true) :
    ∃ r, w.Leaves e t r := by
  obtain ⟨th, ht, hth⟩ := Option.any_eq_true _ _ |>.mp hc
  obtain ⟨c, hc, hleaves⟩ := Option.any_eq_true _ _ |>.mp hth
  obtain ⟨p, r, rfl, hp⟩ := Call.of_leaves hleaves
  exact ⟨r, th, p, ht, hc, hp⟩

theorem run_of_step {is : List Input} (hv : w.step t = some v) (hi : ∀ i ∈ is, allowed i) :
    Run allowed v (w.play (.run t :: is)) := by
  have hplay : w.play (.run t :: is) = v.play is := by simp [play, apply, hv]
  exact hplay ▸ Run.refl.play hi

def forsaking : World :=
  accepting.play ([.operate 1 .connect] ++ List.replicate 18 (.run 3) ++
    [.operate 1 (.postReceive (.ofLimit 8) (.callbacks "a" [] []))] ++ List.replicate 5 (.run 6) ++
    [.operate 1 .destroy])

/-- Its workers are gone, and the call to destroy it is about to come back. -/
def forsaken : World :=
  forsaking.play (.run 7 :: ([(8, 7), (12, 4), (12, 5), (4, 7)].flatMap fun (n, t) =>
    List.replicate n (.run t)))

/-- The receive is settled when the client is destroyed, and nothing is given back afterwards. -/
theorem receive_silenced : ∃ v, forsaken.step 7 = some v ∧
    ((v.stores 1).shelf .receive).received.map (·.1) = [1] ∧
    ((v.stores 1).shelf .receive).settled.Perm ((v.stores 1).shelf .receive).received ∧
    ∀ z, Run (fun _ => True) v z → (∃ x, z.endpoints[1]? = some x ∧ x.state = .closed) ∧
      z.partings 1 = v.partings 1 ∧
      ((z.stores 1).shelf .receive).resolved = ((v.stores 1).shelf .receive).resolved := by
  have hr : Reachable forsaking := (Run.refl.play (by simp) : Run _ empty accepting).play (by simp)
  obtain ⟨l, hb⟩ := begins_of_any (w := forsaking) (e := 1) (t := 7) (by decide +kernel)
    (by decide +kernel) (by decide +kernel)
  obtain ⟨u, hu⟩ := Option.isSome_iff_exists.mp
    (by decide +kernel : (forsaking.step 7).isSome = true)
  obtain ⟨r, hl⟩ := leaves_of_any (w := forsaken) (e := 1) (t := 7) (by decide +kernel)
  obtain ⟨v, hv, hone, hcaller, hpanic⟩ : ∃ v, forsaken.step 7 = some v ∧
      ((v.stores 1).shelf .receive).received.map (·.1) = [1] ∧
      (v.threads[7]?.all fun th => !th.task.staffs 1) = true ∧
      ∀ th ∈ v.threads, th.task.panicked = false := by
    have hany : ((forsaken.step 7).any fun v =>
        ((v.stores 1).shelf .receive).received.map (·.1) = [1] &&
        (v.threads[7]?.all fun th => !th.task.staffs 1) &&
        v.threads.all fun th => !th.task.panicked) = true := by
      decide +kernel
    simpa [Option.any_eq_true, and_assoc] using hany
  obtain ⟨th, ht, -, hjobs, hsettled, hsilent⟩ := silent_after_destroy hr hb hu
    (run_of_step hu (by simp)) hl hv (by decide +kernel)
  have hjobs := hjobs (by simpa [ht] using hcaller) .receive
  refine ⟨v, hv, hone, ?_, fun z hz => ?_⟩
  · simpa [hjobs] using hsettled (not_harmed hpanic 1) .receive
  · obtain ⟨hclosed, -, hpartings, hresolved⟩ := hsilent z hz
    obtain ⟨more, hmore, hsub⟩ := hresolved .receive
    rw [hjobs, List.map_nil, List.subperm_nil, List.map_eq_nil_iff] at hsub
    exact ⟨hclosed, hpartings, by rw [hmore, hsub, List.append_nil]⟩

/-- The client posts two receives, and when the first one fails it is destroyed. Then the server is
destroyed, so the receiver of the client fails both, and is about to destroy the client. -/
def recoiling : World :=
  accepting.play ([.operate 1 .connect] ++ List.replicate 18 (.run 3) ++
    [.operate 1 (.postReceive (.ofLimit 8) (.callbacks "a" [] [.destroy]))] ++
    List.replicate 5 (.run 6) ++
    [.operate 1 (.postReceive (.ofLimit 8) (.callbacks "b" [] []))] ++ List.replicate 5 (.run 7) ++
    [.operate 0 .destroy] ++ List.replicate 30 (.run 8) ++ List.replicate 6 (.run 5))

def recoiled : World :=
  recoiling.play (.run 5 :: List.replicate 30 (.run 4) ++ List.replicate 10 (.run 5))

/-- When the first call to destroy the client comes back, the second receive is not settled, though
only the callback of the first one runs, and its callback starts after that. -/
theorem receive_failed_after_destroy : ∃ l u r v, Reachable recoiling ∧ recoiling.Begins 1 5 l ∧
    recoiling.step 5 = some u ∧ Run (fun _ => True) u recoiled ∧ recoiled.Leaves 1 5 r ∧
    recoiled.step 5 = some v ∧ recoiled.drops 1 = 0 ∧
    (∀ th ∈ v.threads, th.task.panicked = false) ∧
    (v.threads.flatMap (·.callbacks)).map (·.id) = ["a"] ∧
    ((v.stores 1).shelf .receive).accepted.map (·.serial) = [1, 2] ∧
    v.resolved 1 .receive = [1] ∧ v.withdrawn 1 .receive = [] ∧
    ∃ z, Run (fun _ => True) v z ∧ z.resolved 1 .receive = [1, 2] := by
  have hr : Reachable recoiling := (Run.refl.play (by simp) : Run _ empty accepting).play (by simp)
  obtain ⟨l, hb⟩ := begins_of_any (w := recoiling) (e := 1) (t := 5) (by decide +kernel)
    (by decide +kernel) (by decide +kernel)
  obtain ⟨u, hu⟩ := Option.isSome_iff_exists.mp
    (by decide +kernel : (recoiling.step 5).isSome = true)
  obtain ⟨r, hl⟩ := leaves_of_any (w := recoiled) (e := 1) (t := 5) (by decide +kernel)
  obtain ⟨v, hv⟩ := Option.isSome_iff_exists.mp
    (by decide +kernel : (recoiled.step 5).isSome = true)
  have hplay : recoiled.play [.run 5] = v := by simp [play, apply, hv]
  refine ⟨l, u, r, v, hr, hb, hu, run_of_step hu (by simp), hl, hv, by decide +kernel, ?_,
    ?_, ?_, ?_,
    ?_, recoiled.play (.run 5 :: List.replicate 2 (.run 5)), run_of_step hv (by simp),
    by decide +kernel⟩ <;> subst hplay <;> decide +kernel

end World

end QueuePair
