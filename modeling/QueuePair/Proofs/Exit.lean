import QueuePair.Proofs.Connectors
import QueuePair.Proofs.Watch

namespace QueuePair

/-- How far a thread is with stopping the queues of an endpoint. Whoever sets the teardown mark
stops the queues next, and whoever lets stopped queues go on takes the mark back next. -/
inductive Exit
  | none
  -- the teardown mark is set while the queues go on; the thread is about to change one of them
  | due
  -- the thread has stopped the queues, and may still drain them
  | closing
deriving DecidableEq

namespace Connecting

def exit : Connecting → Exit
  | .stop .. | .unmarkStopping _ => .due
  | _ => .none

theorem exit_ne_closing (s : Connecting) : s.exit ≠ .closing := by
  cases s <;> simp [exit]

end Connecting

namespace Destroying

def exit : Destroying → Exit
  | .begin | .dropDisconnect _ => .none
  | .close => .due
  | .takeLink | .remove .. | .takeWorkers _ | .join .. | .fail .. => .closing

end Destroying

namespace Call

def exit (e : EndpointId) : Call → Exit
  | .connecting p s => if p.id = e then s.exit else .none
  | .destroying p s => if p.id = e then s.exit else .none
  | _ => .none

end Call

namespace Task

def exit (e : EndpointId) : Task → Exit
  | .call _ c => c.exit e
  | _ => .none

/-- How tasks begin that come from outside. -/
inductive Begins : Task → Prop
  | started {owner : Option EndpointId} {s : Call.Started} :
      (∀ c, s = .more c → ∀ e, c.exit e = .none) → Begins (ofStarted owner s)
  | leaving {e : EndpointId} {s : Leaving} {out : Outcome} : Begins (.leaving e s out)

def Closes (e : EndpointId) (task : Task) : Prop :=
  task.exit e = .closing ∨ ∃ d, task.watch e d = .draining

end Task

namespace Callback

def exit (e : EndpointId) (c : Callback) : Exit :=
  match c.state with
  | .running _ call _ => call.exit e
  | .ended .. | .panicking => .none

end Callback

namespace Thread

def exit (e : EndpointId) (th : Thread) : Exit :=
  match th.callbacks with
  | [] => th.task.exit e
  | c :: _ => c.exit e

/-- Whether a thread has stopped the queues of an endpoint and may still drain them, on any
level. -/
def Closes (e : EndpointId) (th : Thread) : Prop :=
  th.task.Closes e ∨ ∃ c ∈ th.callbacks, c.exit e = .closing

instance (e : EndpointId) (th : Thread) : Decidable (th.Closes e) :=
  decidable_of_iff (th.task.exit e = .closing ∨ th.task.watch e .send = .draining ∨
      th.task.watch e .receive = .draining ∨ ∃ c ∈ th.callbacks, c.exit e = .closing) <| by
    have hboth : (∃ d, th.task.watch e d = .draining) ↔
        th.task.watch e .send = .draining ∨ th.task.watch e .receive = .draining :=
      ⟨fun h => h.elim fun d hd => by cases d <;> simp [hd], fun h => h.elim (⟨_, ·⟩) (⟨_, ·⟩)⟩
    rw [Closes, Task.Closes, hboth, or_assoc, or_assoc]

end Thread

namespace EndpointCall

def quits {α : Type} : EndpointCall α → Bool
  | .close | .setStopped _ | .beginStopping | .writeStopping _ | .drain _ => true
  | _ => false

end EndpointCall

namespace Primitive

def owes (e : EndpointId) : {α : Type} → Primitive α → α → Bool
  | _, .endpoint e' .beginStopping, begun => e' = e && !begun
  | _, .endpoint e' (.writeStopping stopping), _ => e' = e && stopping
  | _, .endpoint e' (.setStopped stopped), _ => e' = e && !stopped
  | _, _, _ => false

def tips (e : EndpointId) {α : Type} : Primitive α → Bool
  | .endpoint e' .close => e' = e
  | .endpoint e' (.setStopped stopped) => e' = e && stopped
  | .endpoint e' (.writeStopping stopping) => e' = e && !stopping
  | _ => false

end Primitive

namespace Move

variable {σ ρ τ : Type} {e : EndpointId} {due closes : σ → Prop} {now : Prop} {mv : Move σ}
  {P : Direction → Prop}

/-- A move that leaves the teardown mark alone and lets no queues go on, and of the queues that it
drains something is known. -/
def Drains (e : EndpointId) (P : Direction → Prop) : Move σ → Prop
  | .perform p _ => (∀ d, p.drains e d = true → P d) ∧ ∀ a, p.owes e a = false
  | .invoke .. | .panic | .halt => True

@[simp] theorem drains_map {f : τ → σ} {mv : Move τ} :
    (mv.map f).Drains e P ↔ mv.Drains e P := by
  cases mv <;> exact Iff.rfl

@[simp] theorem drains_through {more : σ → τ} {done : ρ → τ} {mv : Move (Flow σ ρ)} :
    (mv.through more done).Drains e P ↔ mv.Drains e P :=
  drains_map

theorem Drains.mono {Q : Direction → Prop} (h : mv.Drains e P) (hq : ∀ d, P d → Q d) :
    mv.Drains e Q := by
  cases mv with
  | perform p next => exact ⟨fun d hd => hq d (h.1 d hd), h.2⟩
  | invoke | panic | halt => trivial

theorem drains_of_quiet {α : Type} {p : Primitive α} {next : α → σ} (hd : ∀ d, p.drains e d = false)
    (ho : ∀ a, p.owes e a = false) : (Move.perform p next).Drains e P :=
  ⟨fun d h => absurd ((hd d).symm.trans h) Bool.false_ne_true, ho⟩

abbrev Mild (e : EndpointId) (mv : Move σ) : Prop :=
  mv.Drains e fun _ => False

theorem mild_access {α : Type} {p : Party} {c : EndpointCall α} {next : α → σ}
    (h : c.quits = false ∨ p.id ≠ e) : (Move.access p c next).Mild e := by
  rcases h with h | h
  · cases c with
    | close | setStopped | beginStopping | writeStopping | drain => cases h
    | _ => exact drains_of_quiet (fun _ => rfl) fun _ => rfl
  · cases c <;> exact ⟨fun d hd => by simp [Primitive.drains, h] at hd,
      fun a => by simp [Primitive.owes, h]⟩

theorem Outward.mild (h : mv.Outward) : mv.Mild e := by
  cases mv with
  | perform p next =>
    cases p with
    | system | clock => exact drains_of_quiet (fun _ => rfl) fun _ => rfl
    | _ => cases h
  | invoke => exact h.elim
  | panic | halt => trivial

/-- A move after which the teardown mark and the queues agree, unless the next one sees to it, and
that drains queues only if they were stopped before. -/
def Exits (e : EndpointId) (due closes : σ → Prop) (now : Prop) : Move σ → Prop
  | .perform p next => (∀ d, p.drains e d = true → now) ∧ ∀ a,
      (p.owes e a = true → due (next a)) ∧ (closes (next a) → now ∨ p.closes e = true)
  | .invoke _ _ after => closes after → now
  | .panic | .halt => True

@[simp] theorem exits_map {f : τ → σ} {mv : Move τ} :
    (mv.map f).Exits e due closes now ↔
      mv.Exits e (fun s => due (f s)) (fun s => closes (f s)) now := by
  cases mv <;> exact Iff.rfl

theorem exits_of_quiet {α : Type} {p : Primitive α} {next : α → σ} (hd : ∀ d, p.drains e d = false)
    (ha : ∀ a, (p.owes e a = true → due (next a)) ∧
      (closes (next a) → now ∨ p.closes e = true)) : (Move.perform p next).Exits e due closes now :=
  ⟨fun d h => absurd ((hd d).symm.trans h) Bool.false_ne_true, ha⟩

theorem Exits.mono {due' closes' : σ → Prop} {now' : Prop} (h : mv.Exits e due closes now)
    (hd : ∀ s, due s → due' s) (hc : ∀ s, closes' s → closes s ∨ now') (hn : now → now') :
    mv.Exits e due' closes' now' := by
  cases mv with
  | perform p next =>
    refine ⟨fun d hd => hn (h.1 d hd), fun a => ⟨fun ho => hd _ ((h.2 a).1 ho), fun hc' => ?_⟩⟩
    rcases hc _ hc' with hc' | hc'
    · exact ((h.2 a).2 hc').imp_left hn
    · exact .inl hc'
  | invoke p i after => exact fun hc' => (hc _ hc').elim (fun hc' => hn (h hc')) id
  | panic | halt => trivial

theorem Drains.exits (h : mv.Drains e P) (hp : ∀ d, P d → now)
    (hc : mv.Into fun s => closes s → now) : mv.Exits e due closes now := by
  cases mv with
  | perform p next =>
    refine ⟨fun d hd => hp d (h.1 d hd), fun a => ⟨fun ho => ?_, fun ha => .inl (hc a ha)⟩⟩
    rw [h.2 a] at ho
    cases ho
  | invoke p i after => exact hc
  | panic | halt => trivial

theorem Drains.exits_of_forall (h : mv.Drains e P) (hp : ∀ d, P d → now)
    (hc : ∀ s, closes s → now) : mv.Exits e due closes now :=
  h.exits hp (into_of_forall hc)

def Tips (e : EndpointId) : Move σ → Prop
  | .perform p _ => p.tips e = true
  | .invoke .. | .panic | .halt => False

@[simp] theorem tips_map {f : τ → σ} {mv : Move τ} : (mv.map f).Tips e ↔ mv.Tips e := by
  cases mv <;> exact Iff.rfl

end Move

section

variable {e : EndpointId} {p : Party} {l : Link} {d : Direction}

theorem failPending_drains (s : FailPending) :
    (s.next p d).Drains e fun d' => p.id = e ∧ d' = d ∧ s = .drain := by
  cases s with
  | drain =>
    refine ⟨fun d' hd => ?_, fun _ => rfl⟩
    simp only [Primitive.drains, Bool.and_eq_true, decide_eq_true_eq] at hd
    exact ⟨hd.1, hd.2.symm, rfl⟩
  | notify => exact (Move.mild_access (.inl rfl)).mono fun _ => False.elim
  | fail => trivial

theorem departing_drains (s : Departing) :
    (s.next p d).Drains e fun d' => p.id = e ∧ d' = d ∧ s.watch = .draining := by
  have haccess : ∀ {α : Type} {c : EndpointCall α} {next : α → Flow Departing Unit},
      c.quits = false → (Move.access p c next).Drains e fun d' => p.id = e ∧ d' = d ∧
        s.watch = .draining :=
    fun h => (Move.mild_access (.inl h)).mono fun _ => False.elim
  cases s with
  | fail localEnd s =>
    refine Move.drains_through.mpr ((failPending_drains s).mono ?_)
    rintro d' ⟨hp, hd, rfl⟩
    exact ⟨hp, hd, rfl⟩
  | close => exact Move.drains_of_quiet (fun _ => rfl) fun _ => rfl
  | readStopping | takeDisconnect => exact haccess rfl
  | disconnect => trivial

theorem sender_drains (s : Sender) :
    (s.next p l).Drains e fun d => p.id = e ∧ d = .send ∧ s.watch = .draining := by
  have haccess : ∀ {α : Type} {c : EndpointCall α} {next : α → Flow Sender Unit},
      c.quits = false → (Move.access p c next).Drains e fun d => p.id = e ∧ d = .send ∧
        s.watch = .draining :=
    fun h => (Move.mild_access (.inl h)).mono fun _ => False.elim
  cases s with
  | publish slot job s =>
    exact Move.drains_through.mpr
      ((publishing_confined _ _ s).outward.mild.mono fun _ => False.elim)
  | depart s => exact Move.drains_through.mpr (departing_drains s)
  | fetch | recycle => exact haccess rfl
  | parked | signal => exact Move.drains_of_quiet (fun _ => rfl) fun _ => rfl
  | complete | fail => trivial

theorem receiver_drains (s : Receiver) :
    (s.next p l).Drains e fun d => p.id = e ∧ d = .receive ∧ s.watch = .draining := by
  have haccess : ∀ {α : Type} {c : EndpointCall α} {next : α → Flow Receiver Unit},
      c.quits = false → (Move.access p c next).Drains e fun d => p.id = e ∧ d = .receive ∧
        s.watch = .draining :=
    fun h => (Move.mild_access (.inl h)).mono fun _ => False.elim
  cases s with
  | discard s | collect slot job s =>
    exact Move.drains_through.mpr
      ((collecting_confined _ _ s).outward.mild.mono fun _ => False.elim)
  | depart s => exact Move.drains_through.mpr (departing_drains s)
  | fetch | recycle => exact haccess rfl
  | await => exact Move.drains_of_quiet (fun _ => rfl) fun _ => rfl
  | complete | fail => trivial

theorem connecting_mild (hp : p.id ≠ e) (s : Connecting) : (s.next p).Mild e := by
  cases s with
  | mailbox | signals | removeMailbox | attach | removeLink =>
    simp [Connecting.next, Move.Outward.mild]
  | spawnSender | spawnReceiver | join => exact Move.drains_of_quiet (fun _ => rfl) fun _ => rfl
  | _ => exact Move.mild_access (.inr hp)

theorem destroying_mild (hp : p.id ≠ e) (s : Destroying) : (s.next p).Mild e := by
  cases s with
  | remove l s => exact Move.drains_through.mpr (removal_confined l s).1.outward.mild
  | fail r d s =>
    exact Move.drains_through.mpr ((failPending_drains s).mono fun _ h => hp h.1)
  | join => exact Move.drains_of_quiet (fun _ => rfl) fun _ => rfl
  | _ => exact Move.mild_access (.inr hp)

theorem connecting_exits (hp : p.id = e) (s : Connecting) :
    (s.next p).Exits e (Flow.elim (·.exit = .due) fun _ => False)
      (Flow.elim (·.exit = .closing) fun _ => False) (s.exit = .closing) := by
  have hnone : ∀ f : Flow Connecting (Except Error Unit),
      ¬ f.elim (·.exit = .closing) fun _ => False := fun f => by
    cases f with
    | more s => exact s.exit_ne_closing
    | done => exact id
  have hmild : (s.next p).Mild e → (s.next p).Exits e (Flow.elim (·.exit = .due) fun _ => False)
      (Flow.elim (·.exit = .closing) fun _ => False) (s.exit = .closing) :=
    fun h => h.exits_of_forall (fun _ => False.elim) fun f hf => (hnone f hf).elim
  subst hp
  cases s with
  | markStopping | resume =>
    exact Move.exits_of_quiet (fun _ => rfl) fun _ => ⟨fun _ => rfl, fun h => (hnone _ h).elim⟩
  | stop | unmarkStopping =>
    exact Move.exits_of_quiet (fun _ => rfl) fun _ =>
      ⟨fun h => by simp [Primitive.owes] at h, fun h => (hnone _ h).elim⟩
  | mailbox | signals | removeMailbox | attach | removeLink =>
    exact hmild (by simp [Connecting.next, Move.Outward.mild])
  | spawnSender | spawnReceiver | join =>
    exact hmild (Move.drains_of_quiet (fun _ => rfl) fun _ => rfl)
  | _ => exact hmild (Move.mild_access (.inl rfl))

theorem destroying_exits (hp : p.id = e) (s : Destroying) :
    (s.next p).Exits e (Flow.elim (·.exit = .due) fun _ => False)
      (Flow.elim (·.exit = .closing) fun _ => False) (s.exit = .closing) := by
  subst hp
  cases s with
  | begin =>
    refine Move.exits_of_quiet (fun _ => rfl) fun begun => ?_
    cases begun with
    | false => exact ⟨fun _ => rfl, fun h => (by cases h)⟩
    | true => exact ⟨fun h => by simp [Primitive.owes] at h, fun h => (by cases h)⟩
  | close =>
    exact Move.exits_of_quiet (fun _ => rfl) fun _ =>
      ⟨fun h => (by cases h), fun _ => .inr (by simp [Primitive.closes])⟩
  | takeLink | takeWorkers =>
    exact (Move.mild_access (.inl rfl)).exits_of_forall (fun _ => False.elim) fun _ _ => rfl
  | remove l s =>
    exact Move.Drains.exits_of_forall
      (Move.drains_through.mpr (removal_confined l s).1.outward.mild)
      (fun _ => False.elim) fun _ _ => rfl
  | join =>
    exact Move.exits_of_quiet (fun _ => rfl) fun _ => ⟨fun h => (by cases h), fun _ => .inl rfl⟩
  | fail r d s =>
    exact Move.Drains.exits_of_forall (Move.drains_through.mpr (failPending_drains s))
      (fun _ _ => rfl)
      fun _ _ => rfl
  | dropDisconnect =>
    exact Move.exits_of_quiet (fun _ => rfl) fun _ => ⟨fun h => (by cases h), fun h => (by cases h)⟩

theorem finalizing_mild (s : Finalizing) : (s.next p).Mild e := by
  cases s with
  | rendezvous => simp [Finalizing.next, Move.Outward.mild]
  | _ => exact Move.mild_access (.inl rfl)

theorem posting_mild {data : Buffer} {handler : Handler} (s : Posting) :
    (s.next p d data handler).Mild e := by
  cases s with
  | clock | parked => exact Move.drains_of_quiet (fun _ => rfl) fun _ => rfl
  | overflowed => trivial
  | _ => exact Move.mild_access (.inl rfl)

theorem waiting_mild {data : Buffer} (s : Waiting) : (s.next p d data).Mild e := by
  cases s with
  | posting s => exact Move.drains_through.mpr (posting_mild s)
  | clock => exact Move.drains_of_quiet (fun _ => rfl) fun _ => rfl
  | _ => exact Move.mild_access (.inl rfl)

/-- A call that connects or destroys an endpoint stops its queues as it should; the others leave
them alone. -/
theorem call_exits (c : Call) :
    c.next.Exits e (Flow.elim (·.exit e = .due) fun _ => False)
      (Flow.elim (·.exit e = .closing) fun _ => False) (c.exit e = .closing) := by
  have hmild : ∀ {mv : Move Call.Started}, mv.Mild e →
      mv.Into (Flow.elim (·.exit e = .none) fun _ => True) →
      mv.Exits e (Flow.elim (·.exit e = .due) fun _ => False)
        (Flow.elim (·.exit e = .closing) fun _ => False) (c.exit e = .closing) :=
    fun hm hi => hm.exits (fun _ => False.elim) <| hi.mono fun f hf hc => by
      cases f with
      | more c => cases hf.symm.trans hc
      | done => exact hc.elim
  cases c with
  | connecting p s =>
    by_cases hp : p.id = e
    · refine Move.exits_map.mpr ((connecting_exits hp s).mono (fun f hf => ?_) (fun f hf => ?_) ?_)
      · cases f with
        | more s => simpa [Flow.elim, Call.exit, hp] using hf
        | done => exact hf.elim
      · cases f with
        | more s => exact .inl (by simpa [Flow.elim, Call.exit, hp] using hf)
        | done r =>
          cases r with
          | error => exact hf.elim
          | ok => cases hr : p.settings.role.isServer <;> simp [Flow.elim, Call.exit, hr] at hf
      · simp [Call.exit, hp]
    · refine hmild (Move.drains_through.mpr (connecting_mild hp s))
        (Move.into_map.mpr (Move.into_of_forall fun f => ?_))
      cases f with
      | more s => simp [Flow.elim, Call.exit, hp]
      | done r =>
        cases r with
        | error => trivial
        | ok => cases hr : p.settings.role.isServer <;> simp [Flow.elim, Call.exit]
  | destroying p s =>
    by_cases hp : p.id = e
    · refine Move.exits_map.mpr ((destroying_exits hp s).mono (fun f hf => ?_) (fun f hf => ?_) ?_)
      · cases f with
        | more s => simpa [Flow.elim, Call.exit, hp] using hf
        | done => exact hf.elim
      · cases f with
        | more s => exact .inl (by simpa [Flow.elim, Call.exit, hp] using hf)
        | done => exact hf.elim
      · simp [Call.exit, hp]
    · refine hmild (Move.drains_through.mpr (destroying_mild hp s))
        (Move.into_map.mpr (Move.into_of_forall fun f => ?_))
      cases f with
      | more s => simp [Flow.elim, Call.exit, hp]
      | done => trivial
  | readingState p => exact hmild (Move.mild_access (.inl rfl)) fun _ => trivial
  | holding | changing | removingSet | unlinking =>
    exact hmild (Move.drains_of_quiet (fun _ => rfl) fun _ => rfl) fun _ => trivial
  | _ =>
    refine hmild (Move.drains_through.mpr ?_) (Move.into_map.mpr (Move.into_of_forall fun f => ?_))
    · first
        | exact posting_mild _
        | exact waiting_mild _
        | exact finalizing_mild _
        | exact Move.Outward.mild (by simp)
    · cases f <;> trivial

theorem exit_finish (owner : Option EndpointId) (out : Outcome) :
    (Task.finish owner out).exit e = .none := by
  cases owner <;> rfl

/-- A queue that is to be drained by its worker was stopped when the watch over it went on to
that. -/
theorem watches_exits {mv : Move Task} {task : Task}
    (hd : mv.Drains e fun d => task.watch e d = .draining)
    (hw : ∀ d, mv.Watches e d (Task.watch e d) (task.watch e d))
    (hi : mv.Into fun later => later.exit e = .none) :
    mv.Exits e (·.exit e = .due) (·.Closes e) (task.Closes e) := by
  cases mv with
  | perform q next =>
    refine ⟨fun d hq => .inr ⟨d, hd.1 d hq⟩, fun a => ⟨fun ho => ?_, ?_⟩⟩
    · rw [hd.2 a] at ho
      cases ho
    · rintro (hc | ⟨d, hc⟩)
      · cases (hi a).symm.trans hc
      · have hturn := hw d a
        rw [hc] at hturn
        generalize hnow : task.watch e d = now at hturn
        cases hturn with
        | stay => exact .inl (.inr ⟨d, hnow⟩)
        | close h => exact .inr h
  | invoke q i after =>
    rintro (hc | ⟨d, hc⟩)
    · cases hi.symm.trans hc
    · exact .inr ⟨d, (hw d).symm.trans hc⟩
  | panic | halt => trivial

/-- Workers stop the queues before they drain their own, and leave the mark alone. -/
theorem task_exits (task : Task) :
    task.next.Exits e (·.exit e = .due) (·.Closes e) (task.Closes e) := by
  have hwatch := fun d => task_watches e d task
  cases task with
  | sender p l s =>
    refine watches_exits (Move.drains_through.mpr ((sender_drains s).mono ?_)) hwatch
      (Move.into_map.mpr (Move.into_of_forall fun f => ?_))
    · rintro d ⟨hp, rfl, hs⟩
      simp [Task.watch, hp, hs]
    · cases f <;> rfl
  | receiver p l s =>
    refine watches_exits (Move.drains_through.mpr ((receiver_drains s).mono ?_)) hwatch
      (Move.into_map.mpr (Move.into_of_forall fun f => ?_))
    · rintro d ⟨hp, rfl, hs⟩
      simp [Task.watch, hp, hs]
    · cases f <;> rfl
  | call owner c =>
    refine Move.exits_map.mpr ((call_exits c).mono (fun f hf => ?_) (fun f hf => ?_) .inl)
    · cases f with
      | more c => exact hf
      | done => exact hf.elim
    · cases f with
      | more c => exact .inl (hf.resolve_right fun h => h.elim fun d hd => by cases hd)
      | done r =>
        rcases hf with hf | ⟨d, hf⟩
        · cases (exit_finish owner (.returned r)).symm.trans hf
        · cases (Task.watch_finish e d owner (.returned r)).symm.trans hf
  | leaving e' s out =>
    refine watches_exits (Move.drains_through.mpr ?_) hwatch
      (Move.into_map.mpr (Move.into_of_forall fun f => ?_))
    · cases s with
      | release => exact Move.drains_of_quiet (fun _ => rfl) fun _ => rfl
      | remove l s =>
        exact Move.drains_through.mpr
          ((removal_confined l s).1.outward.mild.mono fun _ => False.elim)
    · cases f <;> rfl
  | ended => trivial

theorem Task.Begins.not_closes {task : Task} (h : task.Begins) :
    ¬ (Thread.ofTask task).Closes e := by
  have hcases : task.exit e = .none ∧ ∀ d, task.watch e d = .over := by
    cases h with
    | @started owner s hs =>
      cases s with
      | more c => exact ⟨hs c rfl e, fun _ => rfl⟩
      | done r => exact ⟨exit_finish _ _, fun d => Task.watch_finish _ _ _ _⟩
    | leaving => exact ⟨rfl, fun _ => rfl⟩
  rintro ((h | ⟨d, h⟩) | ⟨c, hc, -⟩)
  · cases hcases.1.symm.trans h
  · cases (hcases.2 d).symm.trans h
  · cases hc

theorem ofOperation_exit {op : Operation} {c : Call} (h : Call.ofOperation p op = .more c) :
    c.exit e = .none := by
  cases op with
  | connect | accept =>
    simp only [Call.ofOperation, Call.requireRole] at h
    split at h <;> cases h
    simp [Call.exit, Connecting.exit]
  | finalizeConnect | finalizeAccept =>
    simp only [Call.ofOperation, Call.requireRole] at h
    split at h <;> cases h
    rfl
  | postSend | waitSend =>
    simp only [Call.ofOperation, Call.sendFits] at h
    split at h <;> cases h
    rfl
  | postReceive | waitReceive | readState =>
    cases h
    rfl
  | destroy =>
    cases h
    simp [Call.exit, Destroying.exit]

theorem ofObject_exit {op : ObjectOperation} {c : Call} (h : Call.ofObject op = .more c) :
    c.exit e = .none := by
  cases op with
  | add =>
    simp only [Call.ofObject] at h
    split at h <;> cases h
    rfl
  | change handle changes span =>
    simp only [Call.ofObject, TimedChange.start] at h
    split at h <;> cases h
    rfl
  | publish m payload =>
    simp only [Call.ofObject, Mailbox.Publishing.start] at h
    split at h <;> cases h
    rfl
  | _ =>
    cases h
    rfl

theorem ofScript_exit {id : String} {payload : Bytes} {script : Script} {c : Callback}
    (h : CallbackState.ofScript p id payload script = some c.state) : c.exit e = .none := by
  obtain he | ⟨command, r, rest, he⟩ | ⟨command, call, rest, he, hc⟩ := ofScript_cases h
  · simp [Callback.exit, he]
  · simp [Callback.exit, he]
  · obtain rfl | ⟨op, hop, -⟩ := hc
    · simp [Callback.exit, he, Call.exit]
    · simp [Callback.exit, he, ofOperation_exit hop]

theorem start_exit {lane : Lane} {id : String} {payload : Bytes} {script : Script}
    {c : Callback} (h : Callback.start p lane id payload script = some c) : c.exit e = .none := by
  simp only [Callback.start, Option.map_eq_some_iff] at h
  obtain ⟨s, hs, rfl⟩ := h
  exact ofScript_exit hs

theorem callback_exits (c : Callback) :
    c.next.Exits e (fun o => ∃ c ∈ o, c.exit e = .due) (fun o => ∃ c ∈ o, c.exit e = .closing)
      (c.exit e = .closing) := by
  obtain ⟨q, lane, id, payload, index, state⟩ := c
  cases state with
  | running command call rest =>
    refine Move.exits_map.mpr ((call_exits call).mono (fun f hf => ?_) (fun f hf => ?_)
      fun h => h)
    · cases f with
      | more c => exact ⟨_, rfl, hf⟩
      | done => exact hf.elim
    · obtain ⟨b, hb, hf⟩ := hf
      cases f with
      | more c =>
        cases hb
        exact .inl hf
      | done r =>
        cases hb
        cases hf
  | ended command r rest =>
    refine Move.exits_of_quiet (fun _ => rfl) fun a => ⟨fun h => (by cases h), ?_⟩
    rintro ⟨b, hb, hf⟩
    obtain ⟨s, hs, rfl⟩ := Option.map_eq_some_iff.mp hb
    cases (ofScript_exit (c := ⟨q, lane, id, payload, index + 1, s⟩) hs).symm.trans hf
  | panicking => trivial

theorem call_tips {c : Call} (h : c.exit e = .due) : c.next.Tips e := by
  cases c with
  | connecting p s =>
    simp only [Call.exit] at h
    split at h
    · rename_i hp
      refine Move.tips_map.mpr ?_
      cases s with
      | stop | unmarkStopping => simp [Connecting.next, Move.access, Move.Tips, Primitive.tips, hp]
      | _ => cases h
    · cases h
  | destroying p s =>
    simp only [Call.exit] at h
    split at h
    · rename_i hp
      refine Move.tips_map.mpr ?_
      cases s with
      | close => simp [Destroying.next, Move.access, Move.Tips, Primitive.tips, hp]
      | _ => cases h
    · cases h
  | _ => cases h

end

namespace Thread

variable {e : EndpointId} {th : Thread}

theorem exits (th : Thread) :
    th.next.Exits e (·.exit e = .due) (·.Closes e) (th.Closes e) := by
  obtain ⟨o, task, cs⟩ := th
  cases cs with
  | nil =>
    simp only [next, Move.exits_map]
    refine (task_exits task).mono (fun _ h => h) (fun _ h => ?_) .inl
    exact .inl (h.resolve_right fun h => h.elim fun c hc => by cases hc.1)
  | cons c cs =>
    simp only [next, Move.exits_map]
    refine (callback_exits c).mono (fun f h => ?_) (fun f h => ?_) ?_
    · obtain ⟨b, rfl, hb⟩ := h
      exact hb
    · rcases h with h | ⟨b, hb, h⟩
      · exact .inr (.inl h)
      · rcases List.mem_append.mp hb with hb | hb
        · exact .inl ⟨b, Option.mem_toList.mp hb, h⟩
        · exact .inr (.inr ⟨b, List.mem_cons_of_mem c hb, h⟩)
    · exact fun h => .inr ⟨c, List.mem_cons_self, h⟩

theorem exit_tips (h : th.exit e = .due) : th.next.Tips e := by
  obtain ⟨o, task, cs⟩ := th
  cases cs with
  | nil =>
    simp only [next, Move.tips_map]
    cases task with
    | call owner c => exact Move.tips_map.mpr (call_tips h)
    | _ => cases h
  | cons c cs =>
    obtain ⟨q, lane, id, payload, index, state⟩ := c
    simp only [next, Move.tips_map]
    cases state with
    | running command call rest => exact Move.tips_map.mpr (call_tips h)
    | ended | panicking => cases h

end Thread

end QueuePair
