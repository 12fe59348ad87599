import QueuePair.Proofs.After
import QueuePair.Proofs.Fate
import QueuePair.Proofs.Opening

namespace QueuePair

namespace Kernel

variable {k k' k'' : Kernel} {h : SemaphoreHandle} {set : SetId}

def Removed (k : Kernel) (set : SetId) : Prop :=
  ∃ s, k.sets[set]? = some s ∧ s.removed = true

def Lends (k : Kernel) (h : SemaphoreHandle) : Prop :=
  ∃ s, k.sets[h.set]? = some s ∧ s.key = h.key ∧ h.count ≤ s.values.length

theorem Lends.live?_eq_none (hl : k.Lends h) : k.live? h.set = none ↔ k.Removed h.set := by
  obtain ⟨s, hs, -, -⟩ := hl
  simp [live?, Removed, hs]

def Lasts (k k' : Kernel) : Prop :=
  ∀ (set : SetId) (s : SemaphoreSet), k.sets[set]? = some s → ∃ s', k'.sets[set]? = some s' ∧
    s'.key = s.key ∧ s'.values.length = s.values.length ∧ (s.removed = true → s'.removed = true)

theorem Lasts.trans (hk : k.Lasts k') (hk' : k'.Lasts k'') : k.Lasts k'' := fun set s hs => by
  obtain ⟨s', hs', hkey, hlen, hgone⟩ := hk set s hs
  obtain ⟨s'', hs'', hkey', hlen', hgone'⟩ := hk' set s' hs'
  exact ⟨s'', hs'', hkey'.trans hkey, hlen'.trans hlen, fun hr => hgone' (hgone hr)⟩

theorem lasts_of_sets (hk : k'.sets = k.sets) : k.Lasts k' := fun _ s hs =>
  ⟨s, hk ▸ hs, rfl, rfl, id⟩

theorem lasts_append {s : SemaphoreSet} (hk : k'.sets = k.sets ++ [s]) : k.Lasts k' :=
  fun _ r hr => ⟨r, by
    rw [hk, List.getElem?_append_left (List.getElem?_eq_some_iff.mp hr).1, hr], rfl, rfl, id⟩

theorem lasts_putSet {s s' : SemaphoreSet} (hs : k.live? set = some s) (hkey : s'.key = s.key)
    (hlen : s'.values.length = s.values.length) : k.Lasts (k.putSet set s') := fun i r hr => by
  obtain ⟨hset, hl⟩ := live?_eq_some.mp hs
  by_cases hi : set = i
  · subst hi
    obtain rfl := Option.some.inj (hset.symm.trans hr)
    exact ⟨s', List.getElem?_set_self (List.getElem?_eq_some_iff.mp hset).1, hkey, hlen,
      fun h => absurd (hl.symm.trans h) (by simp)⟩
  · exact ⟨r, (List.getElem?_set_ne hi).trans hr, rfl, rfl, id⟩

theorem Lends.mono (hl : k.Lends h) (hk : k.Lasts k') : k'.Lends h := by
  obtain ⟨s, hs, hkey, hlen⟩ := hl
  obtain ⟨s', hs', hkey', hlen', -⟩ := hk _ s hs
  exact ⟨s', hs', hkey'.trans hkey, hlen'.symm ▸ hlen⟩

theorem Removed.mono (hr : k.Removed set) (hk : k.Lasts k') : k'.Removed set := by
  obtain ⟨s, hs, hgone⟩ := hr
  obtain ⟨s', hs', -, -, hgone'⟩ := hk _ s hs
  exact ⟨s', hs', hgone' hgone⟩

theorem Lends.value? {index : Nat} (hl : k.Lends h) (hi : index < h.count) :
    (k.Removed h.set ∧ h.value? k index = .error .connectionClosed) ∨
    ¬ k.Removed h.set ∧ ∃ n, h.value? k index = .ok n := by
  simp only [SemaphoreHandle.value?, if_neg (Nat.not_le.mpr hi), Kernel.value?, ← hl.live?_eq_none]
  obtain ⟨s, hs, -, hlen⟩ := hl
  have hlt : index < s.values.length := Nat.lt_of_lt_of_le hi hlen
  cases hlive : k.live? h.set with
  | none => exact .inl ⟨rfl, rfl⟩
  | some r =>
    obtain rfl := Option.some.inj (hs.symm.trans (live?_eq_some.mp hlive).1)
    exact .inr ⟨nofun, s.values[index], by simp [hlt]⟩

end Kernel

namespace World

variable {w v u : World} {t : ThreadId} {th : Thread} {i : Input} {h : SemaphoreHandle}
  {allowed : Input → Prop}

theorem Answers.lasts {α : Type} {p : Primitive α} {a : α} (hans : w.Answers t p v a) :
    w.kernel.Lasts v.kernel := by
  have hsame : v.kernel = w.kernel → w.kernel.Lasts v.kernel := fun he =>
    Kernel.lasts_of_sets (by rw [he])
  cases hans with
  | @system α c k ends a hc hk =>
    rw [observe_kernel]
    cases c with
    | change => cases hc
    | createSet key count =>
      obtain rfl : (w.kernel.createSet key count).1 = k := congrArg Called.kernel hk
      rcases createSet_sets w.kernel key count with he | ⟨_, _, he⟩
      · exact Kernel.lasts_of_sets he
      · exact Kernel.lasts_append he
    | removeSet set =>
      simp only [Kernel.call, Kernel.removeSet] at hk
      split at hk
      · obtain ⟨rfl, -, -⟩ := (Called.mk.injEq ..).mp hk
        exact Kernel.lasts_of_sets rfl
      · rename_i s hs
        obtain ⟨rfl, -, -⟩ := (Called.mk.injEq ..).mp hk
        have hlasts : w.kernel.Lasts (w.kernel.putSet set s.remove.1) :=
          Kernel.lasts_putSet hs rfl rfl
        exact hlasts
    | _ =>
      obtain ⟨rfl, -, -⟩ := (Called.mk.injEq ..).mp hk
      exact Kernel.lasts_of_sets rfl
  | grant hs ha => exact Kernel.lasts_putSet hs rfl (attempt_spec ha).1
  | @access _ e x c s => exact Kernel.lasts_of_sets (by rw [(notes_rest _ _).1]; rfl)
  | _ => exact hsame rfl

theorem Atom.lasts (ha : Atom allowed w v) : w.kernel.Lasts v.kernel := by
  cases ha with
  | act _ _ hans => exact hans.lasts
  | invoke => exact Kernel.lasts_of_sets (by rw [putThread, invoke_kernel])
  | panic => exact Kernel.lasts_of_sets (by rw [panic_eq, putThread, abandon_kernel])
  | outside _ hi ha => exact Kernel.lasts_of_sets (by rw [(outside_rest hi ha).1])
  | settle ha =>
    intro set s hs
    have hmap := congrArg (·[set]?) ha.sets
    simp only [List.getElem?_map, hs, Option.map_some, Option.map_eq_some_iff] at hmap
    obtain ⟨s', hs', he⟩ := hmap
    simp only [SemaphoreSet.mk.injEq] at he
    exact ⟨s', hs', he.1, congrArg _ he.2.1, fun hr => he.2.2.2 ▸ hr⟩

theorem Run.lasts (hr : Run allowed w v) (hq : w.Queued) : w.kernel.Lasts v.kernel :=
  (hr.induction (m := fun u => w.kernel.Lasts u.kernel) hq (Kernel.lasts_of_sets rfl)
    fun h ha => h.trans ha.lasts).1

end World

namespace TimedChange

def timed (changes : List Change) : Option Instant → Flow TimedChange (Except Error Unit)
  | none => .more .overflowed
  | some deadline =>
    if changes.isEmpty then .done (.error .connectionClosed)
    else if changes.length > changesMax then .done (.error (.ofSystem .listTooLong))
    else .more (.change deadline)

theorem next_clock (h : SemaphoreHandle) (changes : List Change) (span : Span) :
    next h changes span .clock = .perform (.clock span) (timed changes) := by
  simp only [next]
  congr 1

end TimedChange

namespace ObjectOperation

/-- Changes semaphores of a set within the bounds of a handle and of the system. -/
def On (h : SemaphoreHandle) : ObjectOperation → Prop
  | .add g index _ => g = h ∧ index < h.count
  | .change g changes _ =>
    g = h ∧ (∀ c ∈ changes, c.index < h.count) ∧ changes.length ≤ TimedChange.changesMax
  | _ => False

/-- Whether nothing is to be changed. -/
def idle : ObjectOperation → Bool
  | .change _ changes _ => changes.isEmpty
  | _ => false

def limit? : ObjectOperation → Option Span
  | .change _ _ span => some span
  | _ => none

/-- How far a change of semaphores is. -/
inductive Stage (now : Instant) : ObjectOperation → Task → Prop
  | adding {h : SemaphoreHandle} {index : Nat} {delta : Int} :
      Stage now (.add h index delta) (.call none (.changing h.set [⟨index, delta⟩]))
  | clock {h : SemaphoreHandle} {changes : List Change} {span : Span} :
      Stage now (.change h changes span) (.call none (.timedChanging h changes span .clock))
  | overflowed {h : SemaphoreHandle} {changes : List Change} {span : Span} :
      World.lastInstant < now + span.nanos →
      Stage now (.change h changes span) (.call none (.timedChanging h changes span .overflowed))
  | changing {h : SemaphoreHandle} {changes : List Change} {span : Span} {deadline : Instant} :
      changes ≠ [] → Stage now (.change h changes span)
        (.call none (.timedChanging h changes span (.change deadline)))
  | ended {op : ObjectOperation} {out : Outcome} : Stage now op (.ended out)

/-- How a change of semaphores of a handle may end, the system and the time being as they are
then. -/
inductive Verdict (k : Kernel) (now : Instant) (h : SemaphoreHandle) (op : ObjectOperation) :
    Outcome → Prop
  | told {r : Except Error Unit} : op.idle = false → k.Verdict h.set op.limit?.isSome r →
      Verdict k now h op (.returned (Call.unit r))
  | nothing : op.idle = true → Verdict k now h op (.returned (.error .connectionClosed))
  | overflowed {span : Span} : op.limit? = some span → World.lastInstant < now + span.nanos →
      Verdict k now h op .panicked

variable {h : SemaphoreHandle} {op : ObjectOperation} {now now' : Instant} {task : Task}
theorem On.stage (ho : op.On h) : op.Stage now (.ofStarted none (Call.ofObject op)) := by
  cases op with
  | add g index delta =>
    obtain ⟨rfl, hi⟩ := ho
    simp only [Call.ofObject, if_neg (Nat.not_le.mpr hi)]
    exact .adding
  | change g changes span =>
    obtain ⟨rfl, hi, -⟩ := ho
    have hnone : TimedChange.badIndex? g changes = none := by
      simp only [TimedChange.badIndex?, Option.map_eq_none_iff, List.find?_eq_none,
        decide_eq_true_eq, Nat.not_le]
      exact hi
    simp only [Call.ofObject, TimedChange.start, hnone]
    exact .clock
  | _ => exact ho.elim

end ObjectOperation

def Thread.timed (o : Task) (h : SemaphoreHandle) (changes : List Change) (span : Span)
    (r : Option Instant) : Thread :=
  ⟨o, .ofStarted none ((TimedChange.timed changes r).elim
    (fun s => .more (.timedChanging h changes span s)) fun r => .done (Call.unit r)), []⟩

theorem Thread.next_clock (o : Task) (h : SemaphoreHandle) (changes : List Change) (span : Span) :
    next ⟨o, .call none (.timedChanging h changes span .clock), []⟩ =
      .perform (.clock span) (timed o h changes span) := by
  simp only [next, Task.next, Call.next, TimedChange.next_clock, Move.through, Move.map]
  congr 1
  funext r
  unfold timed
  cases TimedChange.timed changes r <;> rfl

theorem Thread.timed_change {o : Task} {h : SemaphoreHandle} {changes : List Change} {span : Span}
    (hne : changes ≠ []) (hlen : changes.length ≤ TimedChange.changesMax) (deadline : Instant) :
    timed o h changes span (some deadline) =
      ⟨o, .call none (.timedChanging h changes span (.change deadline)), []⟩ := by
  have hgo : TimedChange.timed changes (some deadline) = .more (.change deadline) := by
    simp [TimedChange.timed, hne, Nat.not_lt.mpr hlen]
  simp only [timed, hgo]
  rfl

namespace World

variable {w v u : World} {t : ThreadId} {th : Thread} {i : Input} {h : SemaphoreHandle}
  {op : ObjectOperation} {o task : Task}

/-- One input takes a change of semaphores to another stage, or to an end that is one of those it
may have. -/
theorem Fate.stage {b : Thread} (ho : op.On h) (hs : op.Stage w.now task) (ha : w.now ≤ v.now)
    (hf : Fate w v i t ⟨o, task, []⟩ b) : ∃ task', b = ⟨o, task', []⟩ ∧ op.Stage v.now task' ∧
      (task' = task ∨ ∀ out, task' = .ended out → op.Verdict v.kernel v.now h out) := by
  cases hs with
  | @adding g index delta =>
    obtain rfl := ho.1
    rcases hf.of_change (rfl : _ = Move.perform (.system (.change g.set _ _)) _)
      with rfl | ⟨r, rfl, hverdict⟩
    · exact ⟨_, rfl, .adding, .inl rfl⟩
    · refine ⟨_, rfl, .ended, .inr fun out he => ?_⟩
      obtain rfl := Task.ended.inj he
      exact .told rfl hverdict
  | @clock g changes span =>
    obtain ⟨rfl, -, hlen⟩ := ho
    rcases hf.of_clock (Thread.next_clock o g changes span) with rfl | rfl
    · exact ⟨_, rfl, .clock, .inl rfl⟩
    cases hd : w.deadline? span with
    | none =>
      have hlate := Nat.lt_of_lt_of_le (deadline?_eq_none hd) (Nat.add_le_add_right ha _)
      exact ⟨_, rfl, .overflowed hlate, .inr fun out he => by cases he⟩
    | some deadline =>
      by_cases hne : changes = []
      · subst hne
        refine ⟨_, rfl, .ended, .inr fun out he => ?_⟩
        obtain rfl := Task.ended.inj he
        exact .nothing rfl
      · rw [Thread.timed_change hne hlen]
        exact ⟨_, rfl, .changing hne, .inr fun out he => by cases he⟩
  | @overflowed g changes span hlate =>
    rcases hf.of_panic rfl with rfl | rfl
    · exact ⟨_, rfl, .overflowed (Nat.lt_of_lt_of_le hlate (Nat.add_le_add_right ha _)), .inl rfl⟩
    · refine ⟨_, rfl, .ended, .inr fun out he => ?_⟩
      obtain rfl := Task.ended.inj he
      exact .overflowed rfl (Nat.lt_of_lt_of_le hlate (Nat.add_le_add_right ha _))
  | @changing g changes span deadline hne =>
    obtain rfl := ho.1
    rcases hf.of_change (rfl : _ = Move.perform (.system (.change g.set _ _)) _)
      with rfl | ⟨r, rfl, hverdict⟩
    · exact ⟨_, rfl, .changing hne, .inl rfl⟩
    · refine ⟨_, rfl, .ended, .inr fun out he => ?_⟩
      obtain rfl := Task.ended.inj he
      exact .told (by simpa [ObjectOperation.idle] using hne) hverdict
  | ended => exact ⟨_, hf.of_halt rfl, .ended, .inl rfl⟩

def Staged (w : World) : Prop :=
  ∀ (t : ThreadId) (th : Thread) (h : SemaphoreHandle) (op : ObjectOperation),
    w.threads[t]? = some th → op.On h → th.origin = .ofStarted none (Call.ofObject op) →
    ∃ task, th = ⟨th.origin, task, []⟩ ∧ op.Stage w.now task

theorem Staged.apply (hs : w.Staged) (hq : w.Queued) (ha : w.apply i = some v) : v.Staged := by
  intro t b h op hb ho horigin
  rcases Nat.lt_or_ge t w.threads.length with hlt | hle
  · obtain ⟨b', hb', hf⟩ := fate_of_apply hq (List.getElem?_eq_getElem hlt) ha
    obtain rfl := Option.some.inj (hb.symm.trans hb')
    obtain ⟨task, hth, hstage⟩ := hs t _ h op (List.getElem?_eq_getElem hlt) ho
      (hf.origin.symm.trans horigin)
    rw [hth] at hf
    obtain ⟨task', rfl, hstage', -⟩ := hf.stage ho hstage (now_le ha)
    exact ⟨task', rfl, hstage'⟩
  · obtain ⟨task, rfl⟩ := (apply_new ha hb hle).ofTask
    obtain rfl : task = .ofStarted none (Call.ofObject op) := horigin
    exact ⟨_, rfl, ho.stage⟩

theorem Reachable.staged (hr : Reachable w) : w.Staged := by
  induction hr with
  | refl => exact fun t th h op ht => by simp [empty] at ht
  | step i hr _ ha ih => exact ih.apply (Reachable.queued hr) ha

end World

namespace Kernel

variable {k k' : Kernel} {key : Key} {count : Nat} {set : SetId}

theorem lends_createSet (hk : k.createSet key count = (k', .ok set)) (created : Bool) :
    k'.Lends ⟨set, count, key, created⟩ := by
  unfold createSet at hk
  split at hk
  · cases hk
  · split at hk
    · cases hk
    · split at hk <;> cases hk
      exact ⟨.create key count, by simp, rfl, by simp [SemaphoreSet.create]⟩

theorem lends_joinSet (hk : k.joinSet key count = .ok set) (created : Bool) :
    k.Lends ⟨set, count, key, created⟩ := by
  unfold joinSet at hk
  split at hk
  · cases hk
  · rename_i set' hset
    obtain ⟨s, hs, hkey, -⟩ := setOf?_spec hset
    simp only [hs, Option.map_some, Option.getD_some] at hk
    split at hk <;> cases hk
    exact ⟨s, hs, hkey, Nat.not_lt.mp ‹_›⟩

end Kernel

theorem OpenSet.lends {w v : World} {t : ThreadId} {key : Key} {count : Nat} {s : OpenSet}
    {h : SemaphoreHandle} (ha : w.After t (s.next key count) v (.done (.ok h))) :
    v.kernel.Lends h := by
  cases s with
  | create =>
    obtain ⟨a, ⟨k, ends, hk, rfl⟩, he⟩ := ha
    cases a with
    | ok set =>
      cases he
      have hmade : w.kernel.createSet key count = (k, .ok set) :=
        Prod.ext (congrArg Called.kernel hk) (Option.some.inj (congrArg Called.answer hk))
      exact Kernel.lends_createSet hmade true
    | error e => cases e <;> cases he
  | join =>
    obtain ⟨a, ⟨k, ends, hk, rfl⟩, he⟩ := ha
    cases a with
    | ok set =>
      cases he
      obtain ⟨rfl, -, hjoined⟩ := (Called.mk.injEq ..).mp hk
      exact Kernel.lends_joinSet (Option.some.inj hjoined) false
    | error e => cases he

def handleOf : Result → Option SemaphoreHandle
  | .ok (.semaphores h) => some h
  | _ => none

/-- Only opening a set gives back a handle. -/
theorem Call.next_handle (c : Call) :
    c.next.Into (Flow.elim (fun _ => True) fun r => handleOf r = none) ∨
      ∃ key count s, c = .openingSet key count s := by
  -- of a routine inside the call
  have hinner : ∀ {σ ρ : Type} {m : Move (Flow σ ρ)} {more : σ → Call} {done : ρ → Call.Started},
      (∀ r, (done r).elim (fun _ => True) fun r => handleOf r = none) →
      (m.through (fun s => .more (more s)) done).Into
        (Flow.elim (fun _ => True) fun r => handleOf r = none) := fun hdone =>
    Move.into_map.mpr (Move.into_of_forall fun f => by
      cases f with
      | more s => trivial
      | done r => exact hdone r)
  cases c with
  | openingSet key count s => exact .inr ⟨key, count, s, rfl⟩
  | connecting p s =>
    refine .inl (hinner fun r => ?_)
    cases r with
    | ok =>
      dsimp only
      split
      · trivial
      · rfl
    | error => rfl
  | collecting m into s =>
    refine .inl (hinner fun r => ?_)
    simp only [received, Flow.elim]
    split
    · rfl
    · cases r.result <;> rfl
  | finalizing | destroying | timedChanging | attaching | publishing | rendezvous | removingMailbox
  | removingSignals | posting | waiting | openingMailbox | openingSignals | mapping =>
    exact .inl (hinner fun r => by cases r <;> rfl)
  | changing | removingSet | unlinking => exact .inl fun r => by cases r <;> rfl
  | readingState | holding => exact .inl fun _ => rfl

theorem Call.ofObject_handle {op : ObjectOperation} {r : Result}
    (h : Call.ofObject op = .done r) : handleOf r = none := by
  cases op with
  | add =>
    simp only [ofObject] at h
    split at h <;> cases h
    rfl
  | change g changes span =>
    simp only [ofObject, TimedChange.start] at h
    split at h <;> cases h
    rfl
  | publish m payload =>
    simp only [ofObject, Mailbox.Publishing.start] at h
    split at h <;> cases h
    rfl
  | _ => cases h

theorem Call.ofOperation_handle {p : Party} {op : Operation} {r : Result}
    (h : Call.ofOperation p op = .done r) : handleOf r = none := by
  cases op with
  | connect | accept | finalizeConnect | finalizeAccept =>
    simp only [ofOperation, requireRole] at h
    split at h <;> cases h
    rfl
  | postSend | waitSend =>
    simp only [ofOperation, sendFits] at h
    split at h <;> cases h
    rfl
  | _ => cases h

/-- Where a thread goes on, it has given back no handle but those it had, unless it opens a set. -/
theorem Thread.next_handle (th : Thread) :
    th.next.Into (fun b => ∀ r, b.task.result? = some r →
      th.task.result? = some r ∨ handleOf r = none) ∨
    ∃ o owner key count s, th = ⟨o, .call owner (.openingSet key count s), []⟩ := by
  obtain ⟨o, task, cs⟩ := th
  cases cs with
  | cons c cs =>
    refine .inl ?_
    simp only [next, Move.into_map]
    exact Move.into_of_forall fun _ _ h => .inl h
  | nil =>
    have hworker : ∀ {σ : Type} {m : Move (Flow σ Unit)} {more : σ → Task} {e : EndpointId},
        (∀ s, (more s).result? = none) →
        (m.through more fun () => .finish (some e) (.returned (.ok .unit))).Into
          (fun task' => ∀ r, task'.result? = some r →
            task.result? = some r ∨ handleOf r = none) := fun hmore =>
      Move.into_map.mpr (Move.into_of_forall fun f r h => by
        cases f with
        | more s => cases (hmore s).symm.trans h
        | done =>
          cases h
          exact .inr rfl)
    simp only [next, Move.into_map]
    cases task with
    | sender => exact .inl (hworker fun _ => rfl)
    | receiver => exact .inl (hworker fun _ => rfl)
    | call owner c =>
      rcases c.next_handle with hc | ⟨key, count, s, rfl⟩
      · refine .inl (Move.into_map.mpr (hc.mono fun f hf r hr => .inr ?_))
        cases f with
        | more => cases hr
        | done r' =>
          obtain rfl := Option.some.inj ((Task.result?_finish owner r').symm.trans hr)
          exact hf
      · exact .inr ⟨o, owner, key, count, s, rfl⟩
    | leaving e s out =>
      refine .inl (Move.into_map.mpr (Move.into_of_forall fun f r h => ?_))
      cases f <;> cases out <;> exact .inl h
    | ended => exact .inl trivial

namespace World

variable {w v u : World} {t : ThreadId} {th : Thread} {i : Input} {h : SemaphoreHandle}
  {op : ObjectOperation} {o task : Task} {allowed : Input → Prop}

def Opened (w : World) : Prop :=
  ∀ th ∈ w.threads, ∀ r h, th.task.result? = some r → handleOf r = some h → w.kernel.Lends h

theorem opened_lends {owner : Option EndpointId} {key : Key} {count : Nat} {s : OpenSet}
    {b : Thread} {r : Result}
    (ha : w.After t (Thread.next ⟨o, .call owner (.openingSet key count s), []⟩) v b)
    (hr : b.task.result? = some r) (hh : handleOf r = some h) : v.kernel.Lends h := by
  simp only [Thread.next] at ha
  obtain ⟨task', htask, rfl⟩ := ha.of_map
  obtain ⟨c, -, rfl⟩ | ⟨r', hcall, rfl⟩ := htask.of_through
  · cases hr
  obtain rfl := Option.some.inj ((Task.result?_finish owner r').symm.trans hr)
  obtain ⟨s', -, he⟩ | ⟨q, hopen, he⟩ := hcall.of_through
  · cases he
  obtain rfl := Flow.done.inj he
  cases q with
  | ok g =>
    obtain rfl := Option.some.inj hh
    exact OpenSet.lends hopen
  | error => cases hh

theorem Opened.keeps (hw : w.Opened) (hlasts : w.kernel.Lasts v.kernel) {th b : Thread}
    (hm : th ∈ w.threads)
    (hb : ∀ r, b.task.result? = some r → th.task.result? = some r ∨ handleOf r = none) :
    ∀ r h, b.task.result? = some r → handleOf r = some h → v.kernel.Lends h := fun r h hr hh => by
  rcases hb r hr with hr | hnone
  · exact (hw _ hm r h hr hh).mono hlasts
  · cases hnone.symm.trans hh

theorem Opened.extend (hw : w.Opened) (hlasts : w.kernel.Lasts v.kernel)
    (hb : ∀ b ∈ v.threads, b ∈ w.threads ∨ ∀ r h, b.task.result? = some r →
      handleOf r = some h → v.kernel.Lends h) : v.Opened := fun b hm r h hr hh => by
  rcases hb b hm with hold | hnew
  · exact (hw b hold r h hr hh).mono hlasts
  · exact hnew r h hr hh

theorem Starts.no_handle {b : Thread} {r : Result} (hb : w.Starts b)
    (hr : b.task.result? = some r) : handleOf r = none := by
  cases hb with
  | @worker _ _ _ _ _ _ _ d => cases d <;> cases hr
  | @operation e x op =>
    cases hs : Call.ofOperation ⟨e, x.settings⟩ op with
    | more => simp [hs, Thread.ofTask, Task.ofStarted, Task.result?] at hr
    | done r' =>
      rw [hs, Thread.ofTask, Task.ofStarted, Task.result?_finish] at hr
      exact Call.ofOperation_handle (Option.some.inj hr ▸ hs)
  | @request op =>
    cases hs : Call.ofObject op with
    | more => simp [hs, Thread.ofTask, Task.ofStarted, Task.result?] at hr
    | done r' =>
      rw [hs, Thread.ofTask, Task.ofStarted, Task.result?_finish] at hr
      exact Call.ofObject_handle (Option.some.inj hr ▸ hs)
  | leaving =>
    cases hr
    rfl

theorem Opened.act {α : Type} {p : Primitive α} {next : α → Thread} {a : α} (hw : w.Opened)
    (hlasts : w.kernel.Lasts v.kernel) (ht : w.threads[t]? = some th)
    (hn : th.next = .perform p next) (ha : w.Answers t p v a) :
    (v.putThread t (next a)).Opened := by
  refine Opened.extend (v := v.putThread t (next a)) hw hlasts fun b hb => ?_
  rcases List.mem_or_eq_of_mem_set hb with hb | rfl
  · rcases ha.threads_cases with he | ⟨q, l, d, he⟩
    · exact .inl (he ▸ hb)
    · rw [he] at hb
      refine (List.mem_append.mp hb).imp id fun hb r h hr hh => ?_
      obtain rfl := List.mem_singleton.mp hb
      cases d <;> cases hr
  · refine .inr ?_
    rcases th.next_handle with hmove | ⟨o, owner, key, count, s, rfl⟩
    · rw [hn] at hmove
      exact hw.keeps hlasts (List.mem_of_getElem? ht) (hmove a)
    · have hafter : w.After t (Thread.next ⟨o, .call owner (.openingSet key count s), []⟩) v
          (next a) := by
        rw [hn]
        exact ⟨a, ha.answered, rfl⟩
      intro r h hr hh
      change v.kernel.Lends h
      exact opened_lends hafter hr hh

theorem Opened.atom (hw : w.Opened) (ha : Atom allowed w v) : v.Opened := by
  have hlasts := ha.lasts
  cases ha with
  | act ht hn hans => exact hw.act hlasts ht hn hans
  | @invoke t th p i after ht hn =>
    refine hw.extend hlasts fun b hb => ?_
    rw [putThread, invoke_threads] at hb
    refine (List.mem_or_eq_of_mem_set hb).imp id fun he => ?_
    subst he
    rcases th.next_handle with hmove | ⟨o, owner, key, count, s, rfl⟩
    · rw [hn] at hmove
      exact hw.keeps hlasts (List.mem_of_getElem? ht) hmove
    · cases s <;> cases hn
  | @panic t th ht hn =>
    refine hw.extend hlasts fun b hb => ?_
    rw [panic_threads] at hb
    refine (List.mem_or_eq_of_mem_set hb).imp id fun he r h hr hh => ?_
    subst he
    simp only [Thread.unwound] at hr
    cases ho : th.task.owner? <;> simp [ho, Task.finish, Task.result?] at hr
  | @outside i _ _ hi ha =>
    refine hw.extend hlasts fun b hb => ((outside_of_apply hi ha).mem_or_starts hb).imp id ?_
    exact fun hstarts r h hr hh => by cases (hstarts.no_handle hr).symm.trans hh
  | settle ha => exact hw.extend hlasts fun b hb => .inl (ha.threads ▸ hb)

theorem Reachable.lends (hr : Reachable w)
    (ho : w.outcome? t = some (.returned (.ok (.semaphores h)))) : w.kernel.Lends h := by
  have hopened : w.Opened := (Run.induction (m := Opened) hr (queued_of_new rfl)
    (fun th hm => by simp [empty] at hm) fun hw ha => hw.atom ha).1
  obtain ⟨th, ht, hout⟩ := Option.bind_eq_some_iff.mp ho
  refine hopened th (List.mem_of_getElem? ht) (.ok (.semaphores h)) h ?_ rfl
  unfold Thread.outcome? at hout
  split at hout <;> cases hout
  simp only [*, Task.result?]

/-- A thread has begun an operation on a shared object and is not done with it. -/
def Engaged (w : World) (t : ThreadId) (op : ObjectOperation) : Prop :=
  ∃ th, w.threads[t]? = some th ∧ th.origin = .ofStarted none (Call.ofObject op) ∧
    th.outcome? = none

theorem Engaged.stage (he : w.Engaged t op) (hr : Reachable w) (ho : op.On h) :
    ∃ o task, w.threads[t]? = some ⟨o, task, []⟩ ∧ op.Stage w.now task ∧
      ∀ out, task ≠ .ended out := by
  obtain ⟨th, ht, horigin, hout⟩ := he
  obtain ⟨task, hth, hstage⟩ := hr.staged t th h op ht ho horigin
  refine ⟨th.origin, task, hth ▸ ht, hstage, fun out he => ?_⟩
  rw [hth, he] at hout
  cases hout

theorem Engaged.verdict {out : Outcome} (he : w.Engaged t op) (hr : Reachable w) (ho : op.On h)
    (ha : w.apply i = some v) (hout : v.outcome? t = some out) :
    op.Verdict v.kernel v.now h out := by
  obtain ⟨o, task, ht, hstage, hgoes⟩ := he.stage hr ho
  obtain ⟨b, hb, hf⟩ := fate_of_apply hr.queued ht ha
  obtain ⟨task', rfl, -, hend⟩ := hf.stage ho hstage (now_le ha)
  rw [outcome?, hb, Option.bind_some] at hout
  obtain rfl : task' = .ended out := by
    simp only [Thread.outcome?] at hout
    split at hout <;> cases hout
    rfl
  rcases hend with rfl | hend
  · exact absurd rfl (hgoes out)
  · exact hend out rfl

def Rejected (w : World) (t : ThreadId) : Prop :=
  w.outcome? t = some (.returned (.error .connectionClosed)) ∨ w.outcome? t = some .panicked

theorem rejected_putThread {out : Outcome} (ht : w.threads[t]? = some th)
    (hout : out = .returned (.error .connectionClosed) ∨ out = .panicked) :
    (w.putThread t ⟨o, .ended out, []⟩).Rejected t := by
  have he : (w.putThread t ⟨o, .ended out, []⟩).outcome? t = some out := by
    rw [outcome?, putThread, List.getElem?_set_self (List.getElem?_eq_some_iff.mp ht).1]
    rfl
  rcases hout with rfl | rfl
  · exact .inl he
  · exact .inr he

theorem reject_step (hq : w.Queued) (ho : op.On h) (hs : w.kernel.live? h.set = none)
    (ht : w.threads[t]? = some ⟨o, task, []⟩) (hstage : op.Stage w.now task)
    (hend : ∀ out, task ≠ .ended out)
    (hclock : ∀ changes span, task ≠ .call none (.timedChanging h changes span .clock)) :
    ∃ v, w.step t = some v ∧ v.Rejected t := by
  cases hstage with
  | adding | changing =>
    obtain rfl := ho.1
    exact ⟨_, step_gone hq ht rfl hs, rejected_putThread ht (.inl rfl)⟩
  | clock =>
    obtain rfl := ho.1
    exact absurd rfl (hclock _ _)
  | overflowed => exact ⟨_, step_panic hq ht rfl, rejected_putThread ht (.inr rfl)⟩
  | ended => exact absurd rfl (hend _)

/-- A call on a set that is gone comes to an end, within two steps of its own. -/
theorem Engaged.rejected (he : w.Engaged t op) (hr : Reachable w) (ho : op.On h)
    (hs : w.kernel.live? h.set = none) :
    ∃ n v, n ≤ 2 ∧ w.follow (List.replicate n t) = some v ∧ v.Rejected t := by
  obtain ⟨o, task, ht, hstage, hend⟩ := he.stage hr ho
  by_cases hclock : ∃ changes span, task = .call none (.timedChanging h changes span .clock)
  · obtain ⟨changes, span, rfl⟩ := hclock
    cases hstage with
    | clock =>
      have hlen := ho.2.2
      have hstep := step_deadline hr.queued ht (Thread.next_clock o h changes span)
      have hnext := fun b => List.getElem?_set_self (a := b) (List.getElem?_eq_some_iff.mp ht).1
      cases hd : w.deadline? span with
      | none =>
        rw [hd] at hstep
        have hx : Reachable _ := .step (.run t) hr trivial hstep
        obtain ⟨v, hv, hrej⟩ := reject_step hx.queued ho hs (hnext _)
          (.overflowed (deadline?_eq_none hd)) nofun nofun
        exact ⟨2, v, by omega, follow_cons hstep (follow_cons hv rfl), hrej⟩
      | some deadline =>
        rw [hd] at hstep
        by_cases hne : changes = []
        · subst hne
          exact ⟨1, _, by omega, follow_cons hstep rfl, rejected_putThread ht (.inl rfl)⟩
        · rw [Thread.timed_change hne hlen] at hstep
          have hx : Reachable _ := .step (.run t) hr trivial hstep
          obtain ⟨v, hv, hrej⟩ := reject_step hx.queued ho hs (hnext _) (.changing hne) nofun nofun
          exact ⟨2, v, by omega, follow_cons hstep (follow_cons hv rfl), hrej⟩
  · obtain ⟨v, hv, hrej⟩ := reject_step hr.queued ho hs ht hstage hend
      fun changes span he => hclock ⟨changes, span, he⟩
    exact ⟨1, v, by omega, follow_cons hv rfl, hrej⟩

/-- What a closed connection tells, whatever happened before. An opened handle keeps within the
bounds of its set. A value of a set can be read exactly if the set was not removed. A change of
semaphores within these bounds and those of the system ends in one of the ways that it may, which
depend on the set as it is then: unless its list is empty or its time limit is beyond the clock's
range, it ends because the connection is closed exactly if the set was removed. On a set that was
removed it does end. -/
theorem closed_iff_removed (hr : Reachable w) :
    (∀ t h, w.outcome? t = some (.returned (.ok (.semaphores h))) → w.kernel.Lends h) ∧
    ∀ h, w.kernel.Lends h →
      (∀ index < h.count,
        (w.kernel.Removed h.set ∧ h.value? w.kernel index = .error .connectionClosed) ∨
        ¬ w.kernel.Removed h.set ∧ ∃ n, h.value? w.kernel index = .ok n) ∧
      ∀ t op, op.On h → w.Engaged t op →
        (w.kernel.Removed h.set →
          ∃ n v, n ≤ 2 ∧ w.follow (List.replicate n t) = some v ∧ v.Rejected t) ∧
        ∀ i v out, w.apply i = some v → v.outcome? t = some out →
          op.Verdict v.kernel v.now h out ∧
          (op.idle = false → out ≠ .panicked →
            (out = .returned (.error .connectionClosed) ↔ v.kernel.Removed h.set)) := by
  refine ⟨fun t h ho => hr.lends ho, fun h hl => ⟨fun index hi => hl.value? hi,
    fun t op ho he => ⟨fun hg => he.rejected hr ho (hl.live?_eq_none.mpr hg),
      fun i v out ha hout => ?_⟩⟩⟩
  have hverdict := he.verdict hr ho ha hout
  have hlv : v.kernel.Lends h :=
    hl.mono (Run.lasts (.step i .refl trivial ha : Run (fun _ => True) w v) hr.queued)
  refine ⟨hverdict, fun hidle hcalm => ?_⟩
  rw [← hlv.live?_eq_none]
  cases hverdict with
  | @told r _ hr =>
    rw [← hr.closed_iff]
    cases r with
    | ok => exact iff_of_false nofun nofun
    | error e =>
      constructor
      · intro he
        obtain rfl := Except.error.inj (Outcome.returned.inj he)
        rfl
      · intro he
        obtain rfl := Except.error.inj he
        rfl
  | nothing hnone => cases hidle.symm.trans hnone
  | overflowed => exact absurd rfl hcalm

/-- A set was removed and its key has another one; somebody still waits with the old handle. -/
def replaced : World :=
  empty.play [.request (.openSet 5 1), .run 0, .request (.removeSet ⟨0, 1, 5, true⟩), .run 1,
    .request (.openSet 5 1), .run 2, .request (.change ⟨0, 1, 5, true⟩ [⟨0, -1⟩] ⟨1000⟩)]

theorem replaced_set_closed : replaced.kernel.setOf? 5 = some 1 ∧
    ∃ h : SemaphoreHandle, replaced.outcome? 0 = some (.returned (.ok (.semaphores h))) ∧
      h.value? replaced.kernel 0 = .error .connectionClosed ∧
      ∃ n v, n ≤ 2 ∧ replaced.follow (List.replicate n 3) = some v ∧ v.Rejected 3 := by
  have hr : Reachable replaced := Run.refl.play fun _ _ => trivial
  have ho : replaced.outcome? 0 = some (.returned (.ok (.semaphores ⟨0, 1, 5, true⟩))) := rfl
  obtain ⟨hopened, hall⟩ := closed_iff_removed hr
  obtain ⟨hvalue, hcall⟩ := hall _ (hopened 0 _ ho)
  have hgone : replaced.kernel.Removed 0 := ⟨_, rfl, rfl⟩
  refine ⟨by decide +kernel, _, ho, ?_, ?_⟩
  · rcases hvalue 0 (by decide) with h | h
    · exact h.2
    · exact absurd hgone h.1
  · exact (hcall 3 (.change ⟨0, 1, 5, true⟩ [⟨0, -1⟩] ⟨1000⟩) ⟨rfl, by decide, by decide⟩
      ⟨_, rfl, rfl, rfl⟩).1 hgone

def asking : World :=
  empty.play [.request (.openSet 5 1), .run 0, .request (.change ⟨0, 1, 5, true⟩ [] ⟨1000⟩)]

/-- The connection is said to be closed although the set is there. -/
theorem empty_list_closed : Reachable asking ∧
    asking.outcome? 0 = some (.returned (.ok (.semaphores ⟨0, 1, 5, true⟩))) ∧
    ∃ v, asking.apply (.run 1) = some v ∧
      (v.outcome? 1).bind Outcome.error? = some .connectionClosed ∧ ¬ v.kernel.Removed 0 := by
  have hany : (asking.apply (.run 1)).any (fun v =>
      (v.outcome? 1).bind Outcome.error? = some .connectionClosed ∧
        (v.kernel.sets[0]?.map (·.removed)) = some false) = true := by decide +kernel
  obtain ⟨v, hv, hv'⟩ := Option.any_eq_true _ _ |>.mp hany
  obtain ⟨hclosed, hthere⟩ := of_decide_eq_true hv'
  refine ⟨Run.refl.play fun _ _ => trivial, rfl, v, hv, hclosed, ?_⟩
  rintro ⟨s, hs, hgone⟩
  simp [hs, hgone] at hthere

end World

end QueuePair
