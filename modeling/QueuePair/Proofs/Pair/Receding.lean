import QueuePair.Proofs.Pair.Law
import QueuePair.Proofs.Pair.Sinking

namespace QueuePair

open World

/-- An entry that may be made while a pair is torn down: nobody takes a job back, and a job that is
given back has failed. -/
def Event.Fails : Event → Prop
  | .noted _ (.resolved _ _ error) => error = some .connectionClosed
  | .noted _ (.withdrawn ..) => False
  | _ => True

theorem Event.Fails.resolved {ev : Event} {e : EndpointId} {d : Direction} {a : Job × Option Error}
    (h : ev.Fails) (hr : ev.resolved? e d = some a) : a.2 = some .connectionClosed := by
  unfold Event.resolved? at hr
  split at hr
  · split at hr
    · cases hr
      exact h
    · cases hr
  · cases hr

theorem Event.Fails.withdrawn {ev : Event} {e : EndpointId} {d : Direction} (h : ev.Fails) :
    ev.withdrawn? e d = none := by
  unfold Event.withdrawn?
  split
  · exact h.elim
  · rfl

def EndpointCall.releases {α : Type} : EndpointCall α → Bool
  | .release => true
  | _ => false

def EndpointCall.parts {α : Type} : EndpointCall α → Bool
  | .takeDisconnect | .readStopping => true
  | _ => false

namespace Teardown

variable (T : Teardown)

/-- An endpoint of a pair of which one side is torn down. -/
structure EndFades (s : Role) (x : Endpoint) : Prop where
  holder : x.linkHolder = none
  stopping : x.stopping = decide (s = T.side)
  closed : s = T.side → x.state = .closed ∧ x.stopped = true
  script : s ≠ T.side → ∀ f, x.onDisconnect = some f → Script.peaceful f = true
  jobs : ∀ d job, (x.queue d).Keeps job → T.pair.Accepts s d job.data job.handler
  replies : ∀ a ∈ x.replies,
    a.2 = .delivered (.error .connectionClosed) ∨ ∀ n, T.Fresh s n → a.1 ≠ n

variable {T} {s q : Role} {t : ThreadId} {v u : World} {lc : Licence} {x : Endpoint} {th : Thread}

theorem EndFades.underLink {α : Type} (h : T.EndFades s x) (r : Option (Section α)) :
    x.underLink r = r := by
  simp [Endpoint.underLink, h.holder]

theorem EndFades.withQueue (h : T.EndFades s x) {d : Direction} {p : WorkQueue Job}
    (hp : ∀ job, p.Keeps job → T.pair.Accepts s d job.data job.handler) :
    T.EndFades s (x.withQueue d p) := by
  have hjobs : ∀ d' job, ((x.withQueue d p).queue d').Keeps job →
      T.pair.Accepts s d' job.data job.handler := by
    intro d' job hk
    rw [queue_withQueue] at hk
    split at hk
    · rename_i hd
      subst hd
      exact hp job hk
    · exact h.jobs d' job hk
  cases d <;>
    exact ⟨h.holder, h.stopping, h.closed, h.script, hjobs, h.replies⟩

section

variable {α : Type} {c : EndpointCall α} {sec : Section α}

theorem EndFades.call (h : T.EndFades s x) (hm : T.Modest s t lc c) (hc : x.call t c = some sec) :
    T.EndFades s sec.endpoint := by
  cases c with
  | post d job =>
    cases hc
    simp only [Endpoint.post]
    split
    · exact h
    · cases hq : (x.queue d).post job with
      | none => exact h
      | some p =>
        exact h.withQueue fun job' hk => (hk.of_post hq).elim (h.jobs d job') fun he => he ▸ hm
  | nextSend =>
    cases hc
    simp only [Endpoint.nextSend]
    split
    · exact h
    · rcases hq : x.sends.next with ⟨r, p⟩
      have hp : T.EndFades s (x.withQueue .send p) :=
        h.withQueue fun job hk => h.jobs .send job (hk.of_next hq)
      cases r <;> exact hp
  | complete d slot =>
    cases hc
    exact h.withQueue fun job hk => h.jobs d job hk.of_complete
  | drain d =>
    cases hc
    exact h.withQueue fun job hk => h.jobs d job ((WorkQueue.drain_keeps rfl).2 job hk)
  | takeLink =>
    simp only [Endpoint.call, h.underLink] at hc
    cases hc
    exact ⟨h.holder, h.stopping, h.closed, h.script, h.jobs, h.replies⟩
  | awaitReply n d =>
    simp only [Endpoint.call] at hc
    split at hc
    · cases hc
    · cases hc
      exact h
  | release =>
    simp only [Endpoint.call] at hc
    split at hc <;> cases hc <;>
      exact ⟨h.holder, h.stopping, h.closed, h.script, h.jobs, h.replies⟩
  | readState | readStopping | notify =>
    cases hc
    exact h
  | takeSerial =>
    cases hc
    exact ⟨h.holder, h.stopping, h.closed, h.script, h.jobs, h.replies⟩
  | close =>
    cases hc
    exact ⟨h.holder, h.stopping, fun _ => ⟨rfl, rfl⟩, h.script, h.jobs, h.replies⟩
  | takeDisconnect =>
    cases hc
    exact ⟨h.holder, h.stopping, h.closed, fun _ _ hf => (by cases hf), h.jobs, h.replies⟩
  | takeWorkers =>
    cases hc
    exact ⟨h.holder, h.stopping, h.closed, h.script, h.jobs, h.replies⟩
  | _ => exact hm.elim

/-- What an access tells. -/
theorem EndFades.hears_of_call (h : T.EndFades s x) (hm : T.Modest s t lc c)
    (hc : x.call t c = some sec)
    (hcut : s ≠ T.side → T.Cut v .gate) (howners : lc.leaves → x.owners ≠ 1)
    (hlink : lc.takes → ∃ l, x.link = some l ∧ T.pair.Bound T.before.kernel T.side l) :
    T.Hears s (v.accessed (T.pair.id s) sec) (.endpoint (T.pair.id s) c) sec.answer := by
  cases c with
  | post d job =>
    intro ha
    cases hc
    simp only [Endpoint.post] at ha ⊢
    split at ha
    · cases ha
    · cases hq : (x.queue d).post job with
      | none =>
        rw [hq] at ha
        cases ha
      | some p =>
        rename_i hstop
        simp [accessed_history, hstop]
  | nextSend =>
    cases hc
    simp only [Endpoint.nextSend]
    by_cases hstop : x.stopped = true
    · simp only [hstop, if_true]
      exact ⟨fun _ => rfl, fun _ _ he => by cases he⟩
    · have hs : s ≠ T.side := fun hs => hstop (h.closed hs).2
      simp only [hstop]
      rcases hq : x.sends.next with ⟨r, p⟩
      refine ⟨fun he => absurd he hs, fun slot job he => ?_⟩
      cases r with
      | none => cases he
      | some r =>
        obtain ⟨slot', job'⟩ := r
        cases he
        refine ⟨h.jobs .send job (WorkQueue.keeps_of_next hq), fun set hset => ?_⟩
        rw [accessed_kernel]
        exact hcut hs set hset
  | drain d =>
    cases hc
    exact fun job hj => (h.jobs d job ((WorkQueue.drain_keeps rfl).1 job hj)).peaceful
  | readStopping =>
    cases hc
    exact h.stopping
  | takeDisconnect =>
    cases hc
    exact h.script
  | takeLink =>
    obtain ⟨rfl, htakes⟩ := hm
    simp only [Endpoint.call, h.underLink] at hc
    cases hc
    exact hlink htakes
  | takeWorkers =>
    cases hc
    obtain rfl : t = T.thread := hm
    simp [Hears]
  | awaitReply n d =>
    simp only [Endpoint.call] at hc
    split at hc
    · cases hc
    · rename_i hmissing
      cases hc
      refine ⟨by simpa using hmissing, fun hn => ?_⟩
      simp only [Endpoint.reply] at hmissing ⊢
      split
      · rename_i n' r hfind
        have hname : n' = n := by simpa using List.find?_some hfind
        exact (h.replies _ (List.mem_of_find?_eq_some hfind)).resolve_right fun hno =>
          hno n hn hname
      · rename_i hfind
        simp [hfind, Reply.isMissing] at hmissing
  | release =>
    simp only [Endpoint.call, if_neg (howners hm)] at hc
    cases hc
    rfl
  | readState | notify | takeSerial | close | complete => trivial
  | _ => exact hm.elim

/-- Nobody but who gives an endpoint up changes who keeps it alive, and nobody but who takes the
disconnect callback changes that. -/
theorem call_frame (hc : x.call t c = some sec) :
    (c.releases = false → sec.endpoint.owners = x.owners) ∧
      (c.parts = false → sec.endpoint.onDisconnect = x.onDisconnect) := by
  have hsame : (c.releases = false → x.owners = x.owners) ∧
      (c.parts = false → x.onDisconnect = x.onDisconnect) := ⟨fun _ => rfl, fun _ => rfl⟩
  have hqueue : ∀ d p, (c.releases = false → (x.withQueue d p).owners = x.owners) ∧
      (c.parts = false → (x.withQueue d p).onDisconnect = x.onDisconnect) := fun d p => by
    cases d <;> exact hsame
  cases c with
  | post d job =>
    cases hc
    simp only [Endpoint.post]
    split
    · exact hsame
    · split
      · exact hsame
      · exact hqueue _ _
  | nextSend =>
    cases hc
    simp only [Endpoint.nextSend]
    split
    · exact hsame
    · split <;> exact hsame
  | nextReceive =>
    cases hc
    simp only [Endpoint.nextReceive]
    split <;> exact hsame
  | cancel d n =>
    cases hc
    simp only [Endpoint.cancel]
    split <;> exact hqueue _ _
  | complete | drain =>
    cases hc
    exact hqueue _ _
  | lockLink | readLink | takeLink =>
    simp only [Endpoint.call, Endpoint.underLink] at hc
    split at hc <;> cases hc
    exact hsame
  | awaitReply =>
    simp only [Endpoint.call] at hc
    split at hc <;> cases hc
    exact hsame
  | release =>
    simp only [Endpoint.call] at hc
    split at hc <;> cases hc <;> exact ⟨fun h => (by cases h), fun _ => rfl⟩
  | takeDisconnect =>
    cases hc
    exact ⟨fun _ => rfl, fun h => (by cases h)⟩
  | _ =>
    cases hc
    exact hsame

/-- A link stays until it is taken, or the last owner leaves. -/
theorem call_link (hm : T.Modest s t lc c) (hc : x.call t c = some sec) (ht : ¬ lc.takes)
    (howners : lc.leaves → x.owners ≠ 1) : sec.endpoint.link = x.link := by
  cases c with
  | post d job =>
    cases hc
    simp only [Endpoint.post]
    split
    · rfl
    · split
      · rfl
      · cases d <;> rfl
  | nextSend =>
    cases hc
    simp only [Endpoint.nextSend]
    split
    · rfl
    · split <;> rfl
  | complete d slot | drain d =>
    cases hc
    cases d <;> rfl
  | takeLink => exact absurd hm.2 ht
  | awaitReply =>
    simp only [Endpoint.call] at hc
    split at hc <;> cases hc
    rfl
  | release =>
    simp only [Endpoint.call, if_neg (howners hm)] at hc
    cases hc
    rfl
  | readState | notify | takeSerial | close | readStopping | takeDisconnect | takeWorkers =>
    cases hc
    rfl
  | _ => exact hm.elim

/-- Accesses take no job back, give none back, and run no callback. -/
theorem call_fails (hm : T.Modest s t lc c) (hc : x.call t c = some sec) (e : EndpointId) :
    ∀ n ∈ sec.notes, (Event.noted e n).Fails ∧ ∀ e', (Event.noted e n).parts e' = false := by
  cases c with
  | post d job =>
    cases hc
    simp only [Endpoint.post]
    split
    · simp
    · split
      · simp
      · simp [Event.Fails, Event.parts]
  | nextSend =>
    cases hc
    simp only [Endpoint.nextSend]
    split
    · simp
    · split <;> simp [Event.Fails, Event.parts]
  | awaitReply =>
    simp only [Endpoint.call] at hc
    split at hc <;> cases hc
    simp
  | takeLink =>
    simp only [Endpoint.call, Endpoint.underLink] at hc
    split at hc <;> cases hc
    simp
  | release =>
    simp only [Endpoint.call] at hc
    split at hc <;> cases hc <;> simp
  | readState | notify | takeSerial | close | readStopping | takeDisconnect | takeWorkers |
    complete | drain =>
    cases hc
    simp [Endpoint.drain]
  | _ => exact hm.elim

theorem call_none {y : Endpoint} (hh : y.linkHolder = x.linkHolder) (hr : y.replies = x.replies)
    (hc : x.call t c = none) : y.call t c = none := by
  cases c with
  | lockLink | readLink | takeLink =>
    simp only [Endpoint.call, Endpoint.underLink, hh] at hc ⊢
    split at hc
    · rename_i hsome
      simp [hsome]
    · cases hc
  | awaitReply n d =>
    have hreply : y.reply n = x.reply n := by simp [Endpoint.reply, hr]
    simp only [Endpoint.call, hreply] at hc ⊢
    split at hc
    · rename_i hmissing
      simp [hmissing]
    · cases hc
  | release =>
    simp only [Endpoint.call] at hc
    split at hc <;> cases hc
  | _ => cases hc

end

end Teardown

end QueuePair
