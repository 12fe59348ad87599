import Mathlib.Logic.Function.Basic
import QueuePair.Outcome
import QueuePair.Proofs.Entries
import QueuePair.Proofs.Account

namespace QueuePair

abbrev Tag := Nat × Handler

def Job.tag (job : Job) : Tag := (job.serial, job.handler)

def Handler.isCaller : Handler → Bool
  | .caller => true
  | .callbacks .. => false

def load (k : Tag → Nat) (tags : List Tag) : Nat :=
  (tags.map k).sum

def numbered (n : Nat) (a : Tag) : Nat :=
  if a.1 = n then 1 else 0

def awaited (n : Nat) (a : Tag) : Nat :=
  if a.1 = n ∧ a.2.isCaller = true then 1 else 0

def unawaited (n : Nat) (a : Tag) : Nat :=
  if a.1 = n ∧ a.2.isCaller = false then 1 else 0

/-- What threads may have in their hands. -/
inductive Asset
  -- an entry of a queue
  | slot (d : Direction) (i : Nat)
  -- jobs, by their weight
  | jobs (d : Direction) (k : Tag → Nat)
  -- a serial number that a post has not yet used
  | number (d : Direction) (n : Nat)
  -- a queued job that its caller waits for, and has not taken back
  | wait (d : Direction) (n : Nat)

def Asset.exact : Asset → Bool
  | .slot .. | .jobs .. => true
  | .number .. | .wait .. => false

/-- What is done with the jobs of an endpoint. -/
inductive Deed
  | rest
  | number (n : Nat)
  | accept (d : Direction) (job : Job)
  | take (d : Direction) (slot : Nat) (job : Job)
  | complete (d : Direction) (slot : Nat)
  | withdraw (d : Direction) (serial : Nat)
  | drain (d : Direction) (jobs : List Job)
  | resolve (d : Direction) (job : Job) (error : Option Error)

namespace Deed

def brings : Deed → Asset → Nat
  | .number n, .number _ m => if m = n then 1 else 0
  | .accept d job, .wait d' n => if d' = d then awaited n job.tag else 0
  | .take d slot _, .slot d' i => if d' = d ∧ i = slot then 1 else 0
  | .take d _ job, .jobs d' k => if d' = d then k job.tag else 0
  | .drain d jobs, .jobs d' k => if d' = d then load k (jobs.map Job.tag) else 0
  | _, _ => 0

def costs : Deed → Asset → Nat
  | .accept d job, .number d' n => if d' = d then numbered n job.tag else 0
  | .complete d slot, .slot d' i => if d' = d ∧ i = slot then 1 else 0
  | .withdraw d serial, .wait d' n => if d' = d ∧ n = serial then 1 else 0
  | .resolve d job _, .jobs d' k => if d' = d then k job.tag else 0
  | _, _ => 0

structure Spares (act : Deed) (d : Direction) : Prop where
  slots : ∀ i, act.brings (.slot d i) = 0 ∧ act.costs (.slot d i) = 0
  jobs : ∀ k, act.brings (.jobs d k) = 0 ∧ act.costs (.jobs d k) = 0
  waits : ∀ n, act.brings (.wait d n) = 0 ∧ act.costs (.wait d n) = 0

end Deed

structure Shelf where
  queue : WorkQueue Job
  accepted : List Job
  withdrawn : List Nat
  resolved : List (Job × Option Error)

structure Stores where
  shelf : Direction → Shelf
  serial : Nat

abbrev Hands := Asset → Nat

def Hands.After (h : Hands) (act : Deed) (g : Hands) : Prop :=
  ∀ a : Asset, Within a.exact (g a + act.costs a) (h a + act.brings a)

namespace Shelf

def received (s : Shelf) : List Tag :=
  s.accepted.map Job.tag

def placed (s : Shelf) : List Tag :=
  s.queue.items.map Job.tag ++ s.resolved.map (·.1.tag) ++ s.withdrawn.map (·, .caller)

/-- What becomes of a queue and its record with each deed. -/
inductive Does (s : Shelf) (d : Direction) : Deed → Shelf → Prop
  | rest : Does s d .rest s
  | accept {job : Job} {q : WorkQueue Job} : s.queue.post job = some q →
      Does s d (.accept d job) { s with queue := q, accepted := s.accepted ++ [job] }
  | take {slot : Nat} {job : Job} {q : WorkQueue Job} : s.queue.next = (some (slot, job), q) →
      Does s d (.take d slot job) { s with queue := q }
  | miss {q : WorkQueue Job} : s.queue.next = (none, q) → Does s d .rest { s with queue := q }
  | complete {slot : Nat} :
      Does s d (.complete d slot) { s with queue := s.queue.complete slot }
  | withdraw {serial : Nat} {job : Job} {q : WorkQueue Job} :
      s.queue.cancel (·.serial = serial) = (some job, q) →
      Does s d (.withdraw d serial) { s with queue := q, withdrawn := s.withdrawn ++ [serial] }
  | drain {jobs : List Job} {q : WorkQueue Job} : s.queue.drain = (jobs, q) →
      Does s d (.drain d jobs) { s with queue := q }
  | resolve {job : Job} {error : Option Error} :
      Does s d (.resolve d job error) { s with resolved := s.resolved ++ [(job, error)] }

/-- A queue is in custody: no entry and no job is in two places, and if nothing was lost then each
is in one. -/
structure Kept (exact : Bool) (s : Shelf) (d : Direction) (h : Hands) : Prop where
  tidy : s.queue.Tidy
  slots : ∀ i, Within exact (h (.slot d i)) (s.queue.reserves i)
  jobs : ∀ k, Within exact (load k s.placed + h (.jobs d k)) (load k s.received)
  waits : ∀ n, s.withdrawn.count n + h (.wait d n) ≤ load (awaited n) s.received

end Shelf

namespace Stores

def uses (x : Stores) (h : Hands) (d : Direction) (n : Nat) : Nat :=
  load (numbered n) (x.shelf d).received + h (.number d n) + if x.serial ≤ n then 1 else 0

inductive Does (x : Stores) : Deed → Stores → Prop
  | number : Does x (.number x.serial) { x with serial := x.serial + 1 }
  | lane {d : Direction} {act : Deed} {s : Shelf} : (x.shelf d).Does d act s →
      Does x act { x with shelf := Function.update x.shelf d s }

end Stores

structure Custody (exact : Bool) (x : Stores) (h : Hands) : Prop where
  kept : ∀ d, (x.shelf d).Kept exact d h
  numbers : ∀ d n, x.uses h d n ≤ 1

section

variable {k : Tag → Nat} {n : Nat} {a : Tag} {as bs : List Tag}

@[simp] theorem load_nil : load k [] = 0 := rfl

@[simp] theorem load_cons : load k (a :: as) = k a + load k as := rfl

@[simp] theorem load_append : load k (as ++ bs) = load k as + load k bs := by
  simp [load]

theorem le_load (h : a ∈ as) : k a ≤ load k as := by
  induction as with
  | nil => cases h
  | cons b as ih =>
    rw [load_cons]
    rcases List.mem_cons.mp h with rfl | h
    · exact Nat.le_add_right _ _
    · exact Nat.le_trans (ih h) (Nat.le_add_left _ _)

theorem load_numbered (n : Nat) (as : List Tag) :
    load (numbered n) as = load (awaited n) as + load (unawaited n) as := by
  induction as with
  | nil => rfl
  | cons a as ih =>
    simp only [load_cons, ih, numbered, awaited, unawaited]
    by_cases hn : a.1 = n <;> cases a.2.isCaller <;> simp [hn] <;> omega

theorem exists_of_load (h : 1 ≤ load k as) : ∃ a ∈ as, 1 ≤ k a := by
  by_contra hno
  have hzero : load k as = 0 := by
    induction as with
    | nil => rfl
    | cons a as ih =>
      have ha : ¬ 1 ≤ k a := fun ha => hno ⟨a, List.mem_cons_self, ha⟩
      have hrest : ¬ 1 ≤ load k as := fun hl => by
        rw [ih hl fun ⟨b, hb, hk⟩ => hno ⟨b, List.mem_cons_of_mem a hb, hk⟩] at hl
        omega
      rw [load_cons]
      omega
  omega

theorem load_callers (n : Nat) (ns : List Nat) :
    load (awaited n) (ns.map (·, .caller)) = ns.count n := by
  induction ns with
  | nil => rfl
  | cons m ns ih =>
    rw [List.map_cons, load_cons, ih, List.count_cons]
    by_cases hm : m = n <;> simp [awaited, Handler.isCaller, hm, Nat.add_comm]

theorem load_eraseP {jobs : List Job} {p : Job → Bool} {job : Job}
    (h : jobs.find? p = some job) :
    load k ((jobs.eraseP p).map Job.tag) + k job.tag = load k (jobs.map Job.tag) := by
  induction jobs with
  | nil => cases h
  | cons b jobs ih =>
    cases hp : p b with
    | true =>
      obtain rfl : b = job := by simpa [hp] using h
      simp [hp, Nat.add_comm]
    | false =>
      have hrest := ih (by simpa [hp] using h)
      simp only [List.eraseP_cons, hp, List.map_cons, load_cons, cond_false]
      omega

end

namespace Hands.After

variable {h g : Hands} {act : Deed} (hg : h.After act g)
include hg

theorem slot (d : Direction) (i : Nat) :
    g (.slot d i) + act.costs (.slot d i) = h (.slot d i) + act.brings (.slot d i) :=
  hg (.slot d i)

theorem jobs (d : Direction) (k : Tag → Nat) :
    g (.jobs d k) + act.costs (.jobs d k) = h (.jobs d k) + act.brings (.jobs d k) :=
  hg (.jobs d k)

theorem number (d : Direction) (n : Nat) :
    g (.number d n) + act.costs (.number d n) ≤ h (.number d n) + act.brings (.number d n) :=
  (hg (.number d n)).le

theorem wait (d : Direction) (n : Nat) :
    g (.wait d n) + act.costs (.wait d n) ≤ h (.wait d n) + act.brings (.wait d n) :=
  (hg (.wait d n)).le

end Hands.After

namespace Shelf

variable {s s' : Shelf} {d d' : Direction} {h g : Hands} {act : Deed}

theorem load_placed (s : Shelf) (k : Tag → Nat) : load k s.placed =
    load k (s.queue.items.map Job.tag) + load k (s.resolved.map (·.1.tag)) +
      load k (s.withdrawn.map (·, .caller)) := by
  simp [placed, Nat.add_assoc]

theorem Does.other (hx : s.Does d act s') (hd : d' ≠ d) : act.Spares d' ∧
    ∀ n, act.brings (.number d' n) = 0 ∧ act.costs (.number d' n) = 0 := by
  cases hx <;> exact ⟨⟨by simp [Deed.brings, Deed.costs, hd], by simp [Deed.brings, Deed.costs, hd],
    by simp [Deed.brings, Deed.costs, hd]⟩, by simp [Deed.brings, Deed.costs, hd]⟩

theorem Does.depth (hx : s.Does d act s') : s'.queue.depth = s.queue.depth := by
  cases hx with
  | rest | resolve => rfl
  | accept hq => exact WorkQueue.post_depth hq
  | take hq | miss hq => exact (congrArg (·.2.depth) hq).symm.trans (WorkQueue.next_depth _)
  | complete => exact WorkQueue.complete_depth _ _
  | withdraw hq => exact (congrArg (·.2.depth) hq).symm.trans (WorkQueue.cancel_depth _ _)
  | drain hq => exact (congrArg (·.2.depth) hq).symm.trans (WorkQueue.drain_depth _)

namespace Kept

variable {exact : Bool} (hk : s.Kept exact d h)
include hk

theorem lose (hg : ∀ a, g a ≤ h a) : s.Kept false d g where
  tidy := hk.tidy
  slots := fun i => Nat.le_trans (hg _) (hk.slots i).le
  jobs := fun k => Nat.le_trans (Nat.add_le_add_left (hg _) _) (hk.jobs k).le
  waits := fun n => Nat.le_trans (Nat.add_le_add_left (hg _) _) (hk.waits n)

theorem requeue {q : WorkQueue Job} (ht : q.Tidy) (hi : q.items = s.queue.items)
    (hr : ∀ i, q.reserves i = s.queue.reserves i) : { s with queue := q }.Kept exact d h where
  tidy := ht
  slots := fun i => (hr i).symm ▸ hk.slots i
  jobs := fun k => by
    have hold := hk.jobs k
    simp only [load_placed] at hold ⊢
    rwa [hi]
  waits := hk.waits

theorem reserved {i : Nat} (hi : 1 ≤ h (.slot d i)) : s.queue.Reserved i :=
  WorkQueue.reserves_pos (Nat.le_trans hi (hk.slots i).le)

theorem caller_of_wait {job : Job} (hn : load (numbered job.serial) s.received ≤ 1)
    (hw : 1 ≤ h (.wait d job.serial)) (hj : job ∈ s.queue.items) : job.handler = .caller := by
  by_contra hne
  have hawaited := hk.waits job.serial
  have hjobs := (hk.jobs (unawaited job.serial)).le
  have hcount : unawaited job.serial job.tag = 1 := by
    cases hh : job.handler with
    | caller => exact absurd hh hne
    | callbacks => simp [unawaited, Job.tag, hh, Handler.isCaller]
  have hle := le_load (k := unawaited job.serial) (List.mem_map_of_mem (f := Job.tag) hj)
  rw [load_placed] at hjobs
  rw [load_numbered] at hn
  omega

/-- A job that somebody may take back, and that neither waits nor is in some hands, was given
back. -/
theorem answered {n : Nat} (hx : exact = true) (hw : 1 ≤ h (.wait d n))
    (hj : h (.jobs d (awaited n)) = 0) (hi : s.queue.items = []) :
    ∃ a ∈ s.resolved, a.1.serial = n ∧ a.1.handler = .caller := by
  subst hx
  have hwaits := hk.waits n
  have hjobs : load (awaited n) s.placed + h (.jobs d (awaited n)) = load (awaited n) s.received :=
    hk.jobs (awaited n)
  rw [load_placed, hi, load_callers] at hjobs
  have hone : 1 ≤ load (awaited n) (s.resolved.map (·.1.tag)) := by
    simp only [List.map_nil, load_nil] at hjobs
    omega
  obtain ⟨tag, hm, htag⟩ := exists_of_load hone
  obtain ⟨a, ha, rfl⟩ := List.mem_map.mp hm
  refine ⟨a, ha, ?_⟩
  unfold awaited at htag
  split at htag
  · rename_i hboth
    obtain ⟨hs, hc⟩ := hboth
    refine ⟨hs, ?_⟩
    simp only [Job.tag] at hc
    cases hh : a.1.handler with
    | caller => rfl
    | callbacks => simp [hh, Handler.isCaller] at hc
  · omega

theorem spare (ha : act.Spares d) (hg : h.After act g) : s.Kept exact d g := by
  refine ⟨hk.tidy, fun i => ?_, fun k => ?_, fun n => ?_⟩
  · have hgo := hg.slot d i
    rw [(ha.slots i).1, (ha.slots i).2] at hgo
    exact (hk.slots i).shift (by omega)
  · have hgo := hg.jobs d k
    rw [(ha.jobs k).1, (ha.jobs k).2] at hgo
    exact (hk.jobs k).shift (by omega)
  · have hgo := hg.wait d n
    have hold := hk.waits n
    rw [(ha.waits n).1, (ha.waits n).2] at hgo
    omega

theorem take {slot : Nat} {job : Job} {q : WorkQueue Job}
    (hq : s.queue.next = (some (slot, job), q))
    (hg : h.After (.take d slot job) g) : { s with queue := q }.Kept exact d g := by
  have hslot := hg.slot d
  have hjobs := hg.jobs d
  have hwait := hg.wait d
  simp only [Deed.brings, Deed.costs, if_true, true_and, Nat.add_zero] at hslot hjobs hwait
  obtain ⟨ht, -, hcase⟩ := hk.tidy.next hq
  obtain ⟨i, a, hr, hitems, -⟩ := hcase.resolve_left (by simp)
  cases hr
  refine ⟨ht, fun i => (hk.slots i).shift ?_, fun k => (hk.jobs k).shift ?_, fun n => ?_⟩
  · have hnext : q.reserves i = s.queue.reserves i + if i = slot then 1 else 0 := by
      rw [hk.tidy.next_reserves hq]
      simp [eq_comm]
    rw [hslot, hnext]
    omega
  · simp only [load_placed, hitems, List.map_cons, load_cons, hjobs, received]
    omega
  · exact Nat.le_trans (Nat.add_le_add_left (hwait n) _) (hk.waits n)

theorem complete {slot : Nat} (hg : h.After (.complete d slot) g) :
    { s with queue := s.queue.complete slot }.Kept exact d g := by
  have hslot := hg.slot d
  have hjobs := hg.jobs d
  have hwait := hg.wait d
  simp only [Deed.brings, Deed.costs, true_and, Nat.add_zero] at hslot hjobs hwait
  have hr : s.queue.Reserved slot := hk.reserved (by
    have hone := hslot slot
    rw [if_pos rfl] at hone
    omega)
  obtain ⟨ht, hitems, -⟩ := hk.tidy.complete hr
  refine ⟨ht, fun i => (hk.slots i).shift ?_, fun k => (hk.jobs k).shift ?_, fun n => ?_⟩
  · have hnew := hslot i
    have hfree := WorkQueue.complete_reserves hr i
    change g (.slot d i) + s.queue.reserves i = h (.slot d i) + (s.queue.complete slot).reserves i
    omega
  · simp only [load_placed, hitems, hjobs, received]
  · exact Nat.le_trans (Nat.add_le_add_left (hwait n) _) (hk.waits n)

/-- What is withdrawn is the job of the caller, since somebody may take it back. -/
theorem withdraw {serial : Nat} {job : Job} {q : WorkQueue Job}
    (hn : ∀ n, load (numbered n) s.received ≤ 1)
    (hq : s.queue.cancel (·.serial = serial) = (some job, q))
    (hg : h.After (.withdraw d serial) g) :
    { s with queue := q, withdrawn := s.withdrawn ++ [serial] }.Kept exact d g := by
  have hslot := hg.slot d
  have hjobs := hg.jobs d
  have hwait := hg.wait d
  simp only [Deed.brings, Deed.costs, true_and, Nat.add_zero] at hslot hjobs hwait
  obtain ⟨ht, -, hfind, hitems⟩ := hk.tidy.cancel hq
  have hserial : job.serial = serial := by simpa using List.find?_some hfind.symm
  have hcaller : job.handler = .caller := hk.caller_of_wait (hn _) (by
    have hone := hwait serial
    rw [if_pos rfl] at hone
    rw [hserial]
    omega) (List.mem_of_find?_eq_some hfind.symm)
  refine ⟨ht, fun i => ?_, fun k => (hk.jobs k).shift ?_, fun n => ?_⟩
  · rw [hslot, hk.tidy.cancel_reserves hq]
    exact hk.slots i
  · have herase := load_eraseP (k := k) hfind.symm
    rw [Job.tag, hserial, hcaller] at herase
    simp only [load_placed, hitems, List.map_append, load_append, List.map_cons, List.map_nil,
      load_cons, load_nil, hjobs, received]
    omega
  · have hold := hk.waits n
    have hnew := hwait n
    have hcount : (s.withdrawn ++ [serial]).count n =
        s.withdrawn.count n + if n = serial then 1 else 0 := by
      rw [List.count_append, List.count_singleton, if_congr beq_iff_eq rfl rfl,
        if_congr (eq_comm (a := serial)) rfl rfl]
    change (s.withdrawn ++ [serial]).count n + _ ≤ load (awaited n) s.received
    omega

theorem preserved (hn : ∀ n, load (numbered n) s.received ≤ 1) (hx : s.Does d act s')
    (hg : h.After act g) : s'.Kept exact d g := by
  have hslot := hg.slot d
  have hjobs := hg.jobs d
  have hwait := hg.wait d
  cases hx with
  | rest =>
    simp only [Deed.brings, Deed.costs, Nat.add_zero] at hslot hjobs hwait
    exact ⟨hk.tidy, fun i => hslot i ▸ hk.slots i, fun k => hjobs k ▸ hk.jobs k, fun n =>
      Nat.le_trans (Nat.add_le_add_left (hwait n) _) (hk.waits n)⟩
  | @accept job q hq =>
    simp only [Deed.brings, Deed.costs, if_true, Nat.add_zero] at hslot hjobs hwait
    obtain ⟨ht, hitems, -⟩ := hk.tidy.post hq
    refine ⟨ht, fun i => ?_, fun k => (hk.jobs k).shift ?_, fun n => ?_⟩
    · rw [hslot, hk.tidy.post_reserves hq]
      exact hk.slots i
    · simp only [load_placed, hitems, received, List.map_append, load_append, List.map_cons,
        List.map_nil, load_cons, load_nil, hjobs]
      omega
    · have hold := hk.waits n
      have hnew := hwait n
      simp only [received, List.map_append, load_append, List.map_cons, List.map_nil, load_cons,
        load_nil] at hold ⊢
      omega
  | take hq => exact hk.take hq hg
  | @miss q hq =>
    simp only [Deed.brings, Deed.costs, Nat.add_zero] at hslot hjobs hwait
    obtain ⟨ht, -, hcase⟩ := hk.tidy.next hq
    obtain ⟨-, hnone, hnone'⟩ := hcase.resolve_right (by simp)
    refine ⟨ht, fun i => (hk.slots i).shift ?_, fun k => (hk.jobs k).shift ?_, fun n => ?_⟩
    · rw [hslot, hk.tidy.next_reserves hq]
      simp
    · simp only [load_placed, hnone, hnone', hjobs, received]
    · exact Nat.le_trans (Nat.add_le_add_left (hwait n) _) (hk.waits n)
  | complete => exact hk.complete hg
  | withdraw hq => exact hk.withdraw hn hq hg
  | @drain jobs q hq =>
    simp only [Deed.brings, Deed.costs, if_true, Nat.add_zero] at hslot hjobs hwait
    obtain ⟨ht, rfl, hempty, hreserves⟩ := hk.tidy.drain hq
    refine ⟨ht, fun i => ?_, fun k => (hk.jobs k).shift ?_, fun n => ?_⟩
    · rw [hslot, hreserves]
      exact hk.slots i
    · simp only [load_placed, WorkQueue.items_nil hempty, List.map_nil, load_nil, hjobs, received]
      omega
    · exact Nat.le_trans (Nat.add_le_add_left (hwait n) _) (hk.waits n)
  | @resolve job error =>
    simp only [Deed.brings, Deed.costs, if_true, Nat.add_zero] at hslot hjobs hwait
    refine ⟨hk.tidy, fun i => hslot i ▸ hk.slots i, fun k => (hk.jobs k).shift ?_, fun n =>
      Nat.le_trans (Nat.add_le_add_left (hwait n) _) (hk.waits n)⟩
    have hnew := hjobs k
    simp only [load_placed, List.map_append, load_append, List.map_cons, List.map_nil, load_cons,
      load_nil, received]
    omega

end Kept

end Shelf

theorem Stores.Does.depth {x y : Stores} {act : Deed} (h : x.Does act y) (d : Direction) :
    (y.shelf d).queue.depth = (x.shelf d).queue.depth := by
  cases h with
  | number => rfl
  | @lane d' act s hs =>
    by_cases hd : d = d'
    · subst hd
      simp only [Function.update_self]
      exact hs.depth
    · simp only [Function.update_of_ne hd]

namespace Custody

variable {x y : Stores} {h g : Hands} {act : Deed} {exact : Bool}

theorem of_empty (hx : ∀ d, ∃ depth, x.shelf d = ⟨.ofDepth depth, [], [], []⟩) (hh : ∀ a, h a = 0) :
    Custody exact x h := by
  refine ⟨fun d => ?_, fun d n => ?_⟩
  · obtain ⟨depth, hd⟩ := hx d
    rw [hd]
    refine ⟨WorkQueue.tidy_ofDepth depth, fun i => ?_, fun k => ?_, fun n => ?_⟩
    · rw [hh, WorkQueue.reserves_ofDepth]
      exact within_refl 0
    · rw [hh]
      exact within_refl 0
    · rw [hh]
      exact Nat.le_refl 0
  · obtain ⟨depth, hd⟩ := hx d
    simp only [Stores.uses, Shelf.received, hd, hh, List.map_nil, load_nil]
    split <;> omega

theorem uses_le {n : Nat} (hx : x.Does act y) (d : Direction)
    (hn : g (.number d n) + act.costs (.number d n) ≤
      h (.number d n) + act.brings (.number d n)) : y.uses g d n ≤ x.uses h d n := by
  unfold Stores.uses
  cases hx with
  | number =>
    simp only [Deed.costs, Deed.brings] at hn
    dsimp only
    split at hn <;> split <;> split <;> omega
  | @lane d' act s hs =>
    by_cases hd : d = d'
    · subst hd
      simp only [Function.update_self]
      cases hs with
      | accept hq =>
        simp only [Deed.costs, Deed.brings, if_true, Nat.add_zero] at hn
        simp only [Shelf.received, List.map_append, List.map_cons, List.map_nil, load_append,
          load_cons, load_nil]
        omega
      | _ =>
        simp only [Deed.costs, Deed.brings, Nat.add_zero] at hn
        exact Nat.add_le_add_right (Nat.add_le_add_left hn _) _
    · have hother := (hs.other hd).2 n
      simp only [Function.update_of_ne hd]
      omega

theorem preserved (hc : Custody exact x h) (hx : x.Does act y) (hg : h.After act g) :
    Custody exact y g := by
  refine ⟨fun d => ?_, fun d n => Nat.le_trans (uses_le hx d (hg.number d n)) (hc.numbers d n)⟩
  have hn : ∀ n, load (numbered n) (x.shelf d).received ≤ 1 := fun n => by
    have hold := hc.numbers d n
    unfold Stores.uses at hold
    omega
  cases hx with
  | number =>
    exact (hc.kept d).spare ⟨fun _ => ⟨rfl, rfl⟩, fun _ => ⟨rfl, rfl⟩, fun _ => ⟨rfl, rfl⟩⟩ hg
  | @lane d' act s hs =>
    by_cases hd : d = d'
    · subst hd
      simp only [Function.update_self]
      exact (hc.kept d).preserved hn hs hg
    · simp only [Function.update_of_ne hd]
      exact (hc.kept d).spare (hs.other hd).1 hg

theorem lose (hc : Custody exact x h) (hg : ∀ a, g a ≤ h a) : Custody false x g := by
  refine ⟨fun d => (hc.kept d).lose hg, fun d n => ?_⟩
  have hn := hc.numbers d n
  have hle := hg (.number d n)
  unfold Stores.uses at hn ⊢
  omega

end Custody

end QueuePair
