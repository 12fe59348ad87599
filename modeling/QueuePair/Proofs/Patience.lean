import QueuePair.Proofs.Replies

namespace QueuePair

namespace Primitive

def Timely : {α : Type} → Primitive α → α → Prop
  | _, .system (.change _ _ none), a => a ≠ .error .timeout
  | _, .system (.loadRecord _ _), a => a ≠ .error .timeout
  | _, _, _ => True

end Primitive

namespace Move

variable {σ ρ τ : Type} {Q : σ → Prop} {mv : Move σ}

/-- A move that gives nothing back because the time was up, and leads to some places as long as
there is no time limit. -/
def Prompt (Q : σ → Prop) : Move σ → Prop
  | .perform p next => ∀ a, p.Timely a → Q (next a)
  | .invoke _ (.resolve _ _ error) after => error ≠ some .timeout ∧ Q after
  | .invoke _ (.disconnect _) after => Q after
  | .panic | .halt => True

@[simp] theorem prompt_map {f : τ → σ} {mv : Move τ} :
    (mv.map f).Prompt Q ↔ mv.Prompt fun s => Q (f s) := by
  cases mv with
  | invoke p i after => cases i <;> exact Iff.rfl
  | _ => exact Iff.rfl

theorem Prompt.imp {Q' : σ → Prop} (h : mv.Prompt Q) (hq : ∀ s, Q s → Q' s) : mv.Prompt Q' := by
  cases mv with
  | perform p next => exact fun a ha => hq _ (h a ha)
  | invoke p i after =>
    cases i with
    | resolve => exact h.imp_right (hq _)
    | disconnect => exact hq _ h
  | panic | halt => trivial

theorem Prompt.through {more : σ → τ} {done : ρ → τ} {Q : τ → Prop} {R : Flow σ ρ → Prop}
    {mv : Move (Flow σ ρ)} (h : mv.Prompt R) (hmore : ∀ s, R (.more s) → Q (more s))
    (hdone : ∀ r, R (.done r) → Q (done r)) : (mv.through more done).Prompt Q :=
  prompt_map.mpr (h.imp fun f hf => by
    cases f with
    | more s => exact hmore s hf
    | done r => exact hdone r hf)

theorem Still.prompt (h : mv.Still) (hq : ∀ s, Q s) : mv.Prompt Q := by
  cases mv with
  | perform _ next => exact fun a _ => hq _
  | invoke => exact h.elim
  | panic | halt => trivial

theorem Leads.prompt {p : Party} (h : mv.Leads p Q fun _ => False) : mv.Prompt Q := by
  cases mv with
  | perform _ next => exact fun a _ => h.2 a
  | invoke => exact h.2.elim
  | panic | halt => trivial

end Move

theorem Record.load_ne_timeout (f : File) (capacity : Nat) :
    Record.load f capacity ≠ .error .timeout := by
  simp only [Record.load, Record.size]
  split <;> exact nofun

namespace Mailbox

theorem publishing_prompt (m : Mailbox) (payload : Bytes) (s : Publishing) :
    (s.next m payload).Prompt (Flow.elim (fun _ => True) (· ≠ .error .timeout)) := by
  cases s with
  | takeVacancy | takeGate =>
    intro a ha
    cases a with
    | ok => trivial
    | error e => exact fun h => ha (congrArg _ (Except.error.inj h))
  | copy => exact fun _ _ => trivial
  | giveGate => exact fun _ ha => ha

namespace Collecting

def Prompt : Collecting → Prop
  | .giveGate c | .giveVacancy c => c.result ≠ .error .timeout
  | .takeGate | .copy => True

end Collecting

theorem ofMessage_ne_timeout {into : Option Buffer} {r : Except Error Bytes}
    (h : r ≠ .error .timeout) : (Collected.ofMessage into r).result ≠ .error .timeout := by
  unfold Collected.ofMessage
  split
  · exact fun he => h (congrArg _ (Except.error.inj he))
  · split
    · exact nofun
    · split <;> exact nofun

theorem after_ne_timeout {c : Collected} {r : Except Error Unit} (hc : c.result ≠ .error .timeout)
    (hr : r ≠ .error .timeout) : (c.after r).result ≠ .error .timeout := by
  cases r with
  | ok => exact hc
  | error e => exact fun he => hr (congrArg _ (Except.error.inj he))

theorem collecting_prompt (m : Mailbox) (into : Option Buffer) {s : Collecting} (h : s.Prompt) :
    (s.next m into).Prompt (Flow.elim Collecting.Prompt (·.result ≠ .error .timeout)) := by
  cases s with
  | takeGate =>
    intro a ha
    cases a with
    | ok => trivial
    | error e => exact fun h => ha (congrArg _ (Except.error.inj h))
  | copy => exact fun a ha => ofMessage_ne_timeout ha
  | giveGate c =>
    intro a ha
    cases a with
    | ok => exact h
    | error e => exact after_ne_timeout h ha
  | giveVacancy c => exact fun a ha => after_ne_timeout h ha

end Mailbox

namespace Sender

def Prompt : Sender → Prop
  | .fail _ _ e => e ≠ .timeout
  | _ => True

end Sender

namespace Receiver

def Prompt : Receiver → Prop
  | .discard s | .collect _ _ s => s.Prompt
  | .fail _ _ e => e ≠ .timeout
  | _ => True

end Receiver

section

variable {p : Party} {l : Link} {d : Direction}

theorem failPending_prompt (s : FailPending) : (s.next p d).Prompt fun _ => True := by
  cases s with
  | fail => exact ⟨nofun, trivial⟩
  | _ => exact fun _ _ => trivial

theorem departing_prompt (s : Departing) : (s.next p d).Prompt fun _ => True := by
  cases s with
  | fail localEnd s => exact (failPending_prompt s).through (fun _ _ => trivial) fun _ _ => trivial
  | disconnect => trivial
  | _ => exact fun _ _ => trivial

theorem destroying_prompt (s : Destroying) : (s.next p).Prompt fun _ => True := by
  cases s with
  | remove l s =>
    exact Move.prompt_map.mpr ((removal_confined l s).1.outward.still.prompt fun _ => trivial)
  | fail r d s => exact (failPending_prompt s).through (fun _ _ => trivial) fun _ _ => trivial
  | _ => exact fun _ _ => trivial

theorem sender_prompt {s : Sender} (h : s.Prompt) :
    (s.next p l).Prompt (Flow.elim Sender.Prompt fun _ => True) := by
  cases s with
  | fetch =>
    intro a _
    cases a with
    | stopped | empty => trivial
    | job slot job =>
      simp only [Flow.elim, Sender.ofJob, Mailbox.Publishing.start]
      split <;> rename_i hs <;> split at hs <;> cases hs <;> first | trivial | rintro ⟨⟩
  | publish slot job s =>
    refine (Mailbox.publishing_prompt _ _ s).through (fun _ _ => trivial) fun r hr => ?_
    cases r with
    | ok => trivial
    | error e => exact fun he => hr (congrArg _ he)
  | signal slot job =>
    intro a ha
    cases a with
    | ok => trivial
    | error e => exact fun he => ha (congrArg _ he)
  | complete => exact ⟨fun he => (by cases he), trivial⟩
  | fail => exact ⟨fun he => h (Option.some.inj he), trivial⟩
  | recycle slot goOn =>
    intro a _
    cases goOn <;> trivial
  | depart s => exact (departing_prompt s).through (fun _ _ => trivial) fun _ _ => trivial
  | parked => exact fun _ _ => trivial

theorem receiver_prompt {s : Receiver} (h : s.Prompt) :
    (s.next p l).Prompt (Flow.elim Receiver.Prompt fun _ => True) := by
  cases s with
  | await =>
    intro a _
    cases a <;> trivial
  | fetch =>
    intro a _
    cases a <;> trivial
  | discard s =>
    refine (Mailbox.collecting_prompt _ none h).through (fun _ hs => hs) fun c _ => ?_
    simp only [Flow.elim, Receiver.discarded]
    split
    · trivial
    · split <;> trivial
  | collect slot job s =>
    refine (Mailbox.collecting_prompt _ _ h).through (fun _ hs => hs) fun c hc => ?_
    simp only [Flow.elim, Receiver.collected]
    split
    · trivial
    · rename_i e he
      exact fun ht => hc (he.trans (congrArg _ ht))
  | complete => exact ⟨fun he => (by cases he), trivial⟩
  | fail => exact ⟨fun he => h (Option.some.inj he), trivial⟩
  | recycle slot goOn =>
    intro a _
    cases goOn <;> trivial
  | depart s => exact (departing_prompt s).through (fun _ _ => trivial) fun _ _ => trivial

end

namespace Task

def Prompt : Task → Prop
  | .sender _ _ s => s.Prompt
  | .receiver _ _ s => s.Prompt
  | _ => True

theorem prompt_finish (owner : Option EndpointId) (out : Outcome) : (finish owner out).Prompt := by
  cases owner <;> trivial

end Task

theorem prompt_call {c : Call} (h : c.Proper) : c.next.Prompt fun _ => True := by
  cases c with
  | posting p d data handler s =>
    exact (posting_leads (q := p) h).prompt.through (fun _ _ => trivial) fun _ _ => trivial
  | waiting p d data s =>
    exact (waiting_leads (q := p) h).prompt.through (fun _ _ => trivial) fun _ _ => trivial
  | destroying p s => exact (destroying_prompt s).through (fun _ _ => trivial) fun _ _ => trivial
  | connecting p s => exact Move.prompt_map.mpr ((connecting_still p s).prompt fun _ => trivial)
  | readingState | holding | changing | removingSet | unlinking => exact fun _ _ => trivial
  | finalizing | openingSet | timedChanging | mapping | openingMailbox | attaching | publishing
  | collecting | rendezvous | removingMailbox | openingSignals | removingSignals =>
    exact Move.prompt_map.mpr (Move.Still.prompt (by simp) fun _ => trivial)

theorem Thread.Shaped.prompt {th : Thread} (hs : th.Shaped) (h : th.task.Prompt) :
    th.next.Prompt fun th' => th'.task.Prompt := by
  obtain ⟨o, task, cs⟩ := th
  cases cs with
  | cons c cs =>
    obtain ⟨p, hc⟩ := hs.callbacks List.mem_cons_self
    simp only [Thread.next, Move.prompt_map]
    suffices c.next.Prompt fun _ => True from this.imp fun _ _ => h
    obtain ⟨q, lane, id, payload, index, state⟩ := c
    cases state with
    | running command call rest => exact Move.prompt_map.mpr (prompt_call hc.state.1)
    | ended => exact fun _ _ => trivial
    | panicking => trivial
  | nil =>
    simp only [Thread.next, Move.prompt_map]
    have hcall : ∀ (owner : Option EndpointId) (c : Call), c.Proper →
        (Task.next (.call owner c)).Prompt Task.Prompt := fun owner c hc =>
      (prompt_call hc).through (fun _ _ => trivial) fun _ _ => Task.prompt_finish _ _
    cases hs with
    | sender => exact (sender_prompt h).through (fun _ hs => hs) fun _ _ => Task.prompt_finish _ _
    | receiver =>
      exact (receiver_prompt h).through (fun _ hs => hs) fun _ _ => Task.prompt_finish _ _
    | destroying => exact hcall _ _ trivial
    | call _ _ hc => exact hcall _ _ hc
    | @leaving origin e s out =>
      exact Move.prompt_map.mpr ((leaving_still e s).prompt fun f => by cases f <;> trivial)
    | @departing origin p out cs =>
      exact Move.prompt_map.mpr ((leaving_still p.id .release).prompt fun f => by
        cases f <;> trivial)
    | ended => trivial

namespace World

variable {w v u : World} {e : EndpointId} {t : ThreadId} {th : Thread}

theorem Answers.timely {α : Type} {p : Primitive α} {a : α} (h : w.Answers t p v a) :
    p.Timely a := by
  cases h with
  | @system α c k ends a hc hk =>
    cases c with
    | change => cases hc
    | loadRecord file capacity =>
      obtain rfl : Record.load _ capacity = a := Option.some.inj (congrArg Called.answer hk)
      exact Record.load_ne_timeout _ _
    | _ => trivial
  | @grant set s changes d | @overflow set s changes d | @gone set changes d =>
    cases d <;> first | trivial | exact nofun
  | access | unanswered | late | clock | notified | timedOut | spawn | join | hold | note => trivial

/-- No job that fails fails because the time was up, neither one in the hands of a worker nor one
that came back to its caller at an endpoint. -/
structure Punctual (w : World) (e : EndpointId) : Prop where
  tasks : ∀ th ∈ w.threads, th.task.Prompt
  replies : ∀ x, w.endpoints[e]? = some x → ∀ a ∈ x.replies, a.2 ≠ .delivered (.error .timeout)

theorem Punctual.congr (h : w.Punctual e) (ht : ∀ th ∈ v.threads, th.task.Prompt)
    (hr : v.endpoints[e]?.map Endpoint.replies = w.endpoints[e]?.map Endpoint.replies) :
    v.Punctual e := by
  refine ⟨ht, fun y hy a ha => ?_⟩
  rw [hy, Option.map_some, eq_comm, Option.map_eq_some_iff] at hr
  obtain ⟨x, hx, hrx⟩ := hr
  exact h.replies x hx a (hrx ▸ ha)

theorem Punctual.modify {f : Endpoint → Endpoint} {e' : EndpointId} (h : w.Punctual e)
    (ht : ∀ th ∈ v.threads, th.task.Prompt) (hv : v.endpoints = w.endpoints.modify e' f)
    (hf : ∀ x, ∀ a ∈ (f x).replies, a ∈ x.replies ∨ a.2 ≠ .delivered (.error .timeout)) :
    v.Punctual e := by
  refine ⟨ht, fun y hy a ha => ?_⟩
  rw [hv, List.getElem?_modify] at hy
  obtain ⟨x, hx, rfl⟩ := Option.map_eq_some_iff.mp hy
  split at ha
  · rcases hf x a ha with hold | hnew
    · exact h.replies x hx a hold
    · exact hnew
  · exact h.replies x hx a ha

theorem prompt_set {ths : List Thread} {th' : Thread} (h : ∀ th ∈ ths, th.task.Prompt)
    (ht : th'.task.Prompt) : ∀ th ∈ ths.set t th', th.task.Prompt := fun th hm => by
  rcases List.mem_or_eq_of_mem_set hm with hm | rfl
  · exact h th hm
  · exact ht

theorem prompt_append {ths : List Thread} {th' : Thread} (h : ∀ th ∈ ths, th.task.Prompt)
    (ht : th'.task.Prompt) : ∀ th ∈ ths ++ [th'], th.task.Prompt := fun th hm => by
  rcases List.mem_append.mp hm with hm | hm
  · exact h th hm
  · exact List.mem_singleton.mp hm ▸ ht

theorem Punctual.invoke {p : Party} {i : Invocation} {after : Thread} (h : w.Punctual e)
    (hi : (Move.invoke p i after).Prompt fun th => th.task.Prompt) :
    (((w.invoke p i).1).putThread t (after.push (w.invoke p i).2)).Punctual e := by
  have ht : after.task.Prompt := by
    cases i with
    | resolve => exact hi.2
    | disconnect => exact hi
  have hthreads : ∀ th ∈ (((w.invoke p i).1).putThread t
      (after.push (w.invoke p i).2)).threads, th.task.Prompt := by
    simp only [putThread, invoke_threads]
    exact prompt_set h.tasks ht
  cases i with
  | disconnect script => exact h.congr hthreads rfl
  | resolve d job error =>
    obtain ⟨serial, data, handler⟩ := job
    cases handler with
    | callbacks => exact h.congr hthreads rfl
    | caller =>
      have hput : ∀ r : Except Error Buffer, r ≠ .error .timeout → ∀ x : Endpoint,
          ∀ a ∈ (x.putReply serial (.delivered r)).replies,
            a ∈ x.replies ∨ a.2 ≠ .delivered (.error .timeout) := by
        intro r hr x a ha
        rcases List.mem_append.mp ha with ha | ha
        · exact .inl ha
        · obtain rfl := List.mem_singleton.mp ha
          exact .inr fun he => hr (Reply.delivered.inj he)
      cases error with
      | none => exact h.modify hthreads rfl (hput (.ok data) fun he => by cases he)
      | some err =>
        exact h.modify hthreads rfl
          (hput (.error err) fun he => hi.1 (congrArg _ (Except.error.inj he)))

theorem Punctual.panic (h : w.Punctual e) : (w.panic t th).Punctual e := by
  have hput : ∀ (jobs : List Job) (x : Endpoint), ∀ a ∈
      (jobs.foldl (fun (x : Endpoint) job => x.putReply job.serial .abandoned) x).replies,
      a ∈ x.replies ∨ a.2 ≠ .delivered (.error .timeout) := by
    intro jobs
    induction jobs with
    | nil => exact fun x a ha => .inl ha
    | cons job jobs ih =>
      intro x a ha
      rcases ih _ a ha with ha | ha
      · rcases List.mem_append.mp ha with ha | ha
        · exact .inl ha
        · obtain rfl := List.mem_singleton.mp ha
          exact .inr nofun
      · exact .inr ha
  have hthreads : ∀ b ∈ (w.panic t th).threads, b.task.Prompt := by
    rw [panic_eq, putThread, abandon_threads]
    exact prompt_set h.tasks (Task.prompt_finish _ _)
  cases ho : th.task.owner? with
  | none => exact h.congr hthreads (by simp [World.panic, ho, putThread])
  | some e' => exact h.modify hthreads (by simp [World.panic, ho, putThread]; rfl) (hput th.held)

theorem getElem?_append_singleton {α : Type} {l : List α} {a b : α} {i : Nat}
    (h : (l ++ [a])[i]? = some b) : l[i]? = some b ∨ b = a := by
  rcases Nat.lt_or_ge i l.length with hi | hi
  · exact .inl (List.getElem?_append_left hi ▸ h)
  · rw [List.getElem?_append_right hi] at h
    exact .inr (List.mem_singleton.mp (List.mem_of_getElem? h))

theorem Punctual.outside {i : Input} (h : w.Punctual e) (hi : i.outside = true)
    (ha : w.apply i = some v) : v.Punctual e := by
  cases outside_of_apply hi ha with
  | @make a _ _ =>
    refine ⟨h.tasks, fun x hx a ha => ?_⟩
    rcases getElem?_append_singleton hx with hx | rfl
    · exact h.replies x hx a ha
    · cases ha
  | @operate e' z op _ =>
    refine h.modify (prompt_append h.tasks ?_) rfl fun x a ha => .inl ha
    cases Call.ofOperation ⟨e', z.settings⟩ op with
    | more => trivial
    | done r => exact Task.prompt_finish (some e') (.returned r)
  | @register _ _ _ _ _ hz =>
    refine h.congr h.tasks ?_
    dsimp only [putEndpoint]
    rw [List.getElem?_set]
    split
    · rename_i he
      subst he
      rw [if_pos (List.getElem?_eq_some_iff.mp hz).1, hz]
      rfl
    · rfl
  | request op =>
    refine h.congr (prompt_append h.tasks ?_) rfl
    cases Call.ofObject op with
    | more => trivial
    | done => trivial
  | drop => exact h.congr (prompt_append h.tasks trivial) rfl
  | release => exact h.congr h.tasks rfl

theorem Punctual.atom {allowed : Input → Prop} (hk : w.Keeps e) (h : w.Punctual e)
    (ha : Atom allowed w v) : v.Punctual e := by
  cases ha with
  | @act t th α p next u a ht hn hans =>
    have hm := List.mem_of_getElem? ht
    have hprompt := (hk.shaped th hm).prompt (h.tasks th hm)
    rw [hn] at hprompt
    refine h.congr (prompt_set ?_ (hprompt a hans.timely)) (hans.replies_eq e)
    rcases hans.threads_cases with he | ⟨q, l, d, he⟩
    · exact he ▸ h.tasks
    · rw [he]
      refine prompt_append h.tasks ?_
      cases d <;> trivial
  | @invoke t th p i after ht hn =>
    have hm := List.mem_of_getElem? ht
    have hprompt := (hk.shaped th hm).prompt (h.tasks th hm)
    rw [hn] at hprompt
    exact h.invoke hprompt
  | panic => exact h.panic
  | outside _ hi ha => exact h.outside hi ha
  | settle ha => exact h.congr (ha.threads ▸ h.tasks) (by rw [ha.endpoints])

theorem Punctual.run {allowed : Input → Prop} (h : w.Punctual e) (hk : w.Keeps e) (hq : w.Queued)
    (hr : Run allowed w v) : v.Punctual e :=
  (hr.induction (m := fun u => u.Keeps e ∧ u.Punctual e) hq ⟨hk, h⟩ fun h ha =>
    ⟨h.1.atom ha, h.2.atom h.1 ha⟩).1.2

theorem Punctual.no_timeout (h : w.Punctual e) {x : Endpoint} (hx : w.endpoints[e]? = some x)
    (n : Nat) : x.reply n ≠ .delivered (.error .timeout) := by
  unfold Endpoint.reply
  split
  · rename_i hf
    exact h.replies x hx _ (List.mem_of_find?_eq_some hf)
  · exact nofun

theorem empty_punctual (e : EndpointId) : empty.Punctual e :=
  ⟨fun th hm => by simp [empty] at hm, fun x hx => by simp [empty] at hx⟩

end World

end QueuePair
