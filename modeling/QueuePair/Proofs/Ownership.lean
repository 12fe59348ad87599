import QueuePair.Proofs.Levels
import QueuePair.Proofs.Pair.Receding

namespace QueuePair

namespace Task

def kept? : Task → Option EndpointId
  | .sender p _ _ | .receiver p _ _ => some p.id
  | .call owner _ => owner
  | .leaving e .release _ => some e
  | .leaving _ (.remove ..) _ | .ended _ => none

@[simp] theorem kept?_finish (owner : Option EndpointId) (out : Outcome) :
    (finish owner out).kept? = owner := by
  cases owner <;> rfl

@[simp] theorem kept?_worker (p : Party) (l : Link) (d : Direction) :
    (World.worker p l d).kept? = some p.id := by
  cases d <;> rfl

/-- Whether a task began by giving a handle up. -/
def drops (e : EndpointId) : Task → Nat
  | .leaving e' .release (.returned (.ok .unit)) => if e' = e then 1 else 0
  | _ => 0

end Task

namespace Move

/-- A move that gives an endpoint up. -/
def Gives {σ : Type} (e : EndpointId) : Move σ → Prop
  | .perform (.endpoint e' c) _ => e' = e ∧ c.releases = true
  | _ => False

variable {σ τ : Type} {e : EndpointId} {mv : Move σ}

@[simp] theorem gives_map {f : σ → τ} : (mv.map f).Gives e ↔ mv.Gives e := by
  cases mv with
  | perform p next => cases p <;> exact Iff.rfl
  | _ => exact Iff.rfl

theorem Outward.not_gives (h : mv.Outward) : ¬ mv.Gives e := by
  cases mv with
  | perform p next =>
    cases p with
    | endpoint => cases h
    | _ => exact id
  | _ => exact id

theorem Bypasses.not_gives {f : σ → List Destroying} {ts : List Destroying}
    (h : mv.Bypasses e f ts) : ¬ mv.Gives e := by
  cases mv with
  | perform p next =>
    cases p with
    | endpoint e' c =>
      rintro ⟨rfl, hc⟩
      have hstrips := h.1
      cases c with
      | release => simp [Primitive.strips, EndpointCall.strips] at hstrips
      | _ => cases hc
    | _ => exact id
  | _ => exact id

end Move

section

variable {e : EndpointId} {p : Party}

theorem access_not_gives {α σ : Type} {c : EndpointCall α} {next : α → σ}
    (hc : c.releases = false) : ¬ (Move.access p c next).Gives e := by
  rintro ⟨-, h⟩
  rw [hc] at h
  cases h

theorem destroying_not_gives (s : Destroying) : ¬ (s.next p).Gives e := by
  cases s with
  | remove l s =>
    simpa [Destroying.next, Move.through] using (removal_confined l s).1.outward.not_gives
  | join => exact id
  | fail r d s =>
    rw [Destroying.next, Move.through, Move.gives_map]
    cases s with
    | fail => exact id
    | _ => exact access_not_gives rfl
  | _ => exact access_not_gives rfl

theorem connecting_not_gives (s : Connecting) : ¬ (s.next p).Gives e := by
  cases s with
  | mailbox | signals | removeMailbox | attach | removeLink =>
    rw [Connecting.next, Move.through, Move.gives_map]
    exact Move.Outward.not_gives (by simp)
  | spawnSender | spawnReceiver | join => exact id
  | _ => exact access_not_gives rfl

end

namespace Thread

variable {e : EndpointId} {th : Thread}

theorem Shaped.not_gives (hs : th.Shaped) (hp : th.parting e = false) : ¬ th.next.Gives e := by
  cases hc : th.connecting? e with
  | some s =>
    obtain ⟨origin, o, p, -, rfl⟩ := hs.connecting_cases hc
    simp only [next, Task.next, Call.next, Move.through, Move.gives_map]
    exact connecting_not_gives s
  | none =>
    by_cases hd : ∀ c, th.call? = some c → c.destroying? e = none
    · exact (hs.bypasses hd hc hp).not_gives
    · simp only [not_forall] at hd
      obtain ⟨c, hcall, hd⟩ := hd
      cases c with
      | destroying p s =>
        obtain ⟨f, hnext, -⟩ := next_destroying hcall
        rw [hnext, Move.gives_map]
        exact destroying_not_gives s
      | _ => exact absurd rfl hd

def keeps (e : EndpointId) (th : Thread) : Nat :=
  if th.task.kept? = some e then 1 else 0

theorem keeps_congr {b : Thread} (h : b.task.kept? = th.task.kept?) : b.keeps e = th.keeps e := by
  simp only [keeps, h]

/-- Whoever is not about to part from an endpoint keeps it alive as before. -/
theorem next_keeps (hp : th.parting e = false) : th.next.Into fun b => b.keeps e = th.keeps e := by
  obtain ⟨o, task, cs⟩ := th
  cases cs with
  | cons c cs =>
    simp only [next, Move.into_map]
    exact Move.into_of_forall fun _ => keeps_congr rfl
  | nil =>
    simp only [next, Move.into_map]
    cases task with
    | sender p | receiver p =>
      refine Move.into_map.mpr (Move.into_of_forall fun f => ?_)
      cases f with
      | more s => exact keeps_congr rfl
      | done r => exact keeps_congr (Task.kept?_finish (some p.id) (.returned (.ok .unit)))
    | call =>
      refine Move.into_map.mpr (Move.into_of_forall fun f => ?_)
      cases f with
      | more c => exact keeps_congr rfl
      | done r => exact keeps_congr (Task.kept?_finish ..)
    | leaving e' s out =>
      cases s with
      | release =>
        have hne : e' ≠ e := by simpa [parting] using hp
        intro link
        cases link <;> simp [keeps, Task.kept?, Flow.elim, hne]
      | remove l s =>
        refine Move.into_map.mpr (Move.into_map.mpr (Move.into_of_forall fun f => ?_))
        cases f <;> exact keeps_congr rfl
    | ended => trivial

theorem next_parting (hp : th.parting e = true) : th.keeps e = 1 ∧
    ∃ next : Option Link → Thread, th.next = .perform (.endpoint e .release) next ∧
      ∀ a, (next a).keeps e = 0 ∧ (next a).origin = th.origin := by
  obtain ⟨o, task, cs⟩ := th
  unfold parting at hp
  split at hp
  · rename_i e' out hcs htask
    obtain rfl : e' = e := of_decide_eq_true hp
    simp only at hcs htask
    subst hcs htask
    refine ⟨by simp [keeps, Task.kept?], _, rfl, fun a => ?_⟩
    cases a <;> exact ⟨by simp [keeps, Task.kept?, Flow.elim], rfl⟩
  · cases hp

theorem Shaped.unwound_keeps (hs : th.Shaped) (hn : th.next = .panic) :
    th.unwound.keeps e = th.keeps e := by
  refine keeps_congr ((Task.kept?_finish ..).trans ?_)
  cases hs with
  | @leaving origin e' s out =>
    cases s with
    | release => rfl
    | remove l s =>
      have hacts := (removal_confined l s).2
      simp only [next, Task.next, Leaving.next, Move.through] at hn
      cases hm : s.next l <;> rw [hm] at hn hacts <;> first | exact hacts.elim | cases hn
  | _ => rfl

end Thread

namespace World

variable {w v u : World} {e : EndpointId} {t : ThreadId} {th th' : Thread} {x : Endpoint}
  {allowed : Input → Prop}

def keepers (w : World) (e : EndpointId) : Nat :=
  tally (Thread.keeps e) w.threads

def drops (w : World) (e : EndpointId) : Nat :=
  tally (fun th => th.origin.drops e) w.threads

/-- The threads that carry out operations of an endpoint, its workers and those that are about to
give it up each own it once, and so does its handle until that is dropped. -/
structure Owned (w : World) (e : EndpointId) : Prop where
  absent : w.endpoints[e]? = none → w.keepers e = w.drops e
  right : ∀ {x : Endpoint}, w.endpoints[e]? = some x → w.drops e ≤ 1 →
    x.owners + w.drops e = w.keepers e + 1

theorem keepers_put (ht : w.threads[t]? = some th) (th' : Thread) :
    (w.putThread t th').keepers e + th.keeps e = w.keepers e + th'.keeps e :=
  tally_set ht th'

theorem drops_put (ht : w.threads[t]? = some th) (ho : th'.origin = th.origin) :
    (w.putThread t th').drops e = w.drops e := by
  have hset := tally_set (f := fun th => th.origin.drops e) ht th'
  simp only [ho] at hset
  exact Nat.add_right_cancel hset

structure Owns (w v : World) (e : EndpointId) : Prop where
  absent : w.endpoints[e]? = none → v.endpoints[e]? = none ∧ v.keepers e = w.keepers e
  present : ∀ {x : Endpoint}, w.endpoints[e]? = some x → ∃ y, v.endpoints[e]? = some y ∧
    y.owners + w.keepers e = x.owners + v.keepers e
  drops : v.drops e = w.drops e

theorem Owned.owns (h : w.Owned e) (hv : Owns w v e) : v.Owned e := by
  cases hx : w.endpoints[e]? with
  | none =>
    obtain ⟨hy, hk⟩ := hv.absent hx
    refine ⟨fun _ => hk.trans ((h.absent hx).trans hv.drops.symm), fun hy' => ?_⟩
    rw [hy] at hy'
    cases hy'
  | some x =>
    obtain ⟨y, hy, ho⟩ := hv.present hx
    refine ⟨fun hy' => ?_, fun {z} hz hd => ?_⟩
    · rw [hy] at hy'
      cases hy'
    · obtain rfl := Option.some.inj (hy.symm.trans hz)
      have hold := h.right hx (hv.drops ▸ hd)
      rw [hv.drops]
      omega

theorem owns_of_ends (ht : v.threads = w.threads)
    (hends : v.endpoints[e]?.map (·.owners) = w.endpoints[e]?.map (·.owners)) : Owns w v e := by
  have hkeep : v.keepers e = w.keepers e := congrArg (tally _) ht
  refine ⟨fun hx => ⟨?_, hkeep⟩, fun {x} hx => ?_, congrArg (tally _) ht⟩
  · rw [hx, Option.map_none, Option.map_eq_none_iff] at hends
    exact hends
  · rw [hx, Option.map_some, Option.map_eq_some_iff] at hends
    obtain ⟨y, hy, ho⟩ := hends
    exact ⟨y, hy, by rw [ho, hkeep]⟩

theorem Owns.put (h : Owns w u e) (ht : u.threads[t]? = some th) (ho : th'.origin = th.origin)
    (hk : th'.keeps e = th.keeps e) : Owns w (u.putThread t th') e := by
  have hkeep : (u.putThread t th').keepers e = u.keepers e := by
    have hput := keepers_put (e := e) ht th'
    omega
  exact ⟨fun hx => ⟨(h.absent hx).1, hkeep.trans (h.absent hx).2⟩,
    fun hx => hkeep.symm ▸ h.present hx, (drops_put ht ho).trans h.drops⟩

theorem modify_owners {e' : EndpointId} {f : Endpoint → Endpoint}
    (hf : ∀ x, (f x).owners = x.owners) :
    (w.modifyEndpoint e' f).endpoints[e]?.map (·.owners) = w.endpoints[e]?.map (·.owners) := by
  simp only [modifyEndpoint, List.getElem?_modify]
  split
  · simp [Function.comp_def, hf]
  · simp

/-- An answer changes the owners of an endpoint only if a worker is spawned or the endpoint is given
up. -/
theorem Answers.owns {α : Type} {p : Primitive α} {a : α} {next : α → Thread}
    (h : w.Answers t p v a) (hg : ¬ (Move.perform p next).Gives e)
    (hf : w.endpoints[e]? = none → p.founds e = false) : Owns w v e := by
  have hsame : v.threads = w.threads → v.endpoints = w.endpoints → Owns w v e := fun ht he =>
    owns_of_ends ht (congrArg (fun es => es[e]?.map (·.owners)) he)
  cases h with
  | system => exact hsame (observe_threads _ _) (observe_endpoints _ _)
  | @access α e' x c s hx hc =>
    have hends := (notes_same (e := e') s.notes (w.putEndpoint e' s.endpoint)).2
    refine owns_of_ends (notes_same s.notes _).1 ?_
    rw [hends]
    by_cases he : e' = e
    · subst he
      have hreleases : c.releases = false := by simpa [Move.Gives] using hg
      rw [putEndpoint, List.getElem?_set_self (List.getElem?_eq_some_iff.mp hx).1, hx]
      simp [(Teardown.call_frame hc).1 hreleases]
    · rw [putEndpoint, List.getElem?_set_ne he]
  | @spawn q l d =>
    have hkeep : (w.spawnWorker q l d).keepers e = w.keepers e + if q.id = e then 1 else 0 := by
      refine (tally_append (Thread.keeps e) w.threads (.ofTask (worker q l d))).trans ?_
      simp [keepers, Thread.keeps, Thread.ofTask]
    have hdrops : (w.spawnWorker q l d).drops e = w.drops e := by
      refine (tally_append (fun th => th.origin.drops e) w.threads _).trans ?_
      cases d <;> rfl
    have hends : (w.spawnWorker q l d).endpoints = w.endpoints.modify q.id fun x =>
        { x with workers := x.workers ++ [w.threads.length], owners := x.owners + 1 } := rfl
    refine ⟨fun hx => ?_, fun {x} hx => ?_, hdrops⟩
    · have hne : q.id ≠ e := of_decide_eq_false (hf hx)
      exact ⟨by rw [hends, List.getElem?_modify_ne _ _ hne, hx], by simp [hkeep, hne]⟩
    · by_cases hq : q.id = e
      · refine ⟨{ x with workers := x.workers ++ [w.threads.length], owners := x.owners + 1 },
          by simp [hends, hx, hq], ?_⟩
        simp only [hkeep, if_pos hq]
        omega
      · exact ⟨x, by rw [hends, List.getElem?_modify_ne _ _ hq, hx], by simp [hkeep, hq]⟩
  | _ => exact hsame rfl rfl

theorem invoke_owners (w : World) (p : Party) (i : Invocation) :
    (w.invoke p i).1.endpoints[e]?.map (·.owners) = w.endpoints[e]?.map (·.owners) := by
  cases i with
  | disconnect => rfl
  | resolve d job error =>
    simp only [invoke, resolve]
    split
    · exact modify_owners (w := w.note p.id (.resolved d job error)) fun _ => rfl
    · rfl

theorem panic_owners (w : World) (t : ThreadId) (th : Thread) :
    (w.panic t th).endpoints[e]?.map (·.owners) = w.endpoints[e]?.map (·.owners) := by
  have hput : ∀ (jobs : List Job) (x : Endpoint),
      (jobs.foldl (fun (x : Endpoint) job => x.putReply job.serial .abandoned) x).owners =
        x.owners := by
    intro jobs
    induction jobs with
    | nil => exact fun _ => rfl
    | cons job jobs ih => exact fun x => ih (x.putReply job.serial .abandoned)
  unfold World.panic
  split
  · rfl
  · exact modify_owners (hput _)

theorem operation_drops (owner : Option EndpointId) (p : Party) (op : Operation) :
    (Task.ofStarted owner (Call.ofOperation p op)).drops e = 0 := by
  have herror : ∀ error, (Task.ofStarted owner (.done (.error error))).drops e = 0 := fun _ => by
    cases owner <;> rfl
  cases op with
  | connect | accept | finalizeConnect | finalizeAccept =>
    simp only [Call.ofOperation, Call.requireRole]
    split
    · rfl
    · exact herror _
  | postSend | waitSend =>
    simp only [Call.ofOperation, Call.sendFits]
    split
    · exact herror _
    · rfl
  | postReceive | waitReceive | readState | destroy => rfl

theorem Owned.grow {b : Thread} {n : Nat} (h : w.Owned e) (hv : v.threads = w.threads ++ [b])
    (hends : v.endpoints[e]?.map (·.owners) = w.endpoints[e]?.map (·.owners + n))
    (hn : w.endpoints[e]? = none → n = 0) (hb : b.keeps e = n + b.origin.drops e) :
    v.Owned e := by
  have hkeep : v.keepers e = w.keepers e + b.keeps e := by
    rw [keepers, hv, tally_append, ← keepers]
  have hdrop : v.drops e = w.drops e + b.origin.drops e := by
    rw [drops, hv, tally_append, ← drops]
  refine ⟨fun hy => ?_, fun {y} hy hd => ?_⟩
  · have hx : w.endpoints[e]? = none := by simpa [hy] using hends.symm
    rw [hkeep, hdrop, hb, hn hx, Nat.zero_add, h.absent hx]
  · rw [hy, Option.map_some] at hends
    obtain ⟨x, hx, ho⟩ := Option.map_eq_some_iff.mp hends.symm
    have hold := h.right hx (by omega)
    omega

/-- Operations and dropped handles are counted as they begin. -/
theorem Owned.outside {i : Input} (h : w.Owned e) (hi : i.outside = true)
    (ha : w.apply i = some v) : v.Owned e := by
  cases outside_of_apply hi ha with
  | make =>
    refine ⟨fun hx => h.absent ?_, fun {x} hx hd => ?_⟩
    · exact List.getElem?_eq_none (by
        have hle := List.getElem?_eq_none_iff.mp hx
        simp only [List.length_append, List.length_cons, List.length_nil] at hle
        omega)
    · rcases Nat.lt_or_ge e w.endpoints.length with hlt | hle
      · rw [List.getElem?_append_left hlt] at hx
        exact h.right hx hd
      · have hold := h.absent (List.getElem?_eq_none hle)
        rw [List.getElem?_append_right hle, List.getElem?_singleton] at hx
        split at hx <;> cases hx
        exact (Nat.add_comm ..).trans (congrArg (· + 1) hold.symm)
  | @operate e' z op hz =>
    have hkept : Task.kept? (.ofStarted (some e') (Call.ofOperation ⟨e', z.settings⟩ op)) =
        some e' := by
      cases Call.ofOperation ⟨e', z.settings⟩ op <;> rfl
    have hends : ((w.modifyEndpoint e' fun x =>
      { x with owners := x.owners + 1 }).endpoints[e]?).map
        (·.owners) = w.endpoints[e]?.map (·.owners + if e' = e then 1 else 0) := by
      by_cases he : e' = e
      · subst he
        simp [modifyEndpoint, hz]
      · simp [modifyEndpoint, he]
    refine h.grow (n := if e' = e then 1 else 0) rfl hends (fun hx => if_neg fun he => ?_) ?_
    · subst he
      cases hx.symm.trans hz
    · simp only [Thread.keeps, Thread.ofTask, operation_drops, hkept, Option.some.injEq,
        Nat.add_zero]
  | request op =>
    have hnone : Thread.keeps e (.ofTask (.ofStarted none (Call.ofObject op))) = 0 ∧
        (Task.ofStarted none (Call.ofObject op)).drops e = 0 := by
      cases Call.ofObject op <;> exact ⟨rfl, rfl⟩
    exact h.grow (n := 0) rfl rfl (fun _ => rfl)
      (hnone.1.trans ((Nat.zero_add _).trans hnone.2).symm)
  | drop =>
    refine h.grow (n := 0) rfl rfl (fun _ => rfl) ?_
    simp [Thread.keeps, Thread.ofTask, Task.kept?, Task.drops]
  | @register e' _ _ _ _ hz =>
    refine h.owns (owns_of_ends rfl ?_)
    by_cases he : e' = e
    · subst he
      simp [putEndpoint, hz, List.getElem?_set_self (List.getElem?_eq_some_iff.mp hz).1,
        Endpoint.register]
    · simp [putEndpoint, List.getElem?_set_ne he]
  | release => exact h.owns (owns_of_ends rfl rfl)

theorem Owned.atom (h : w.Owned e) (hk : w.Keeps e) (hf : Founded w e) (ha : Atom allowed w v) :
    v.Owned e := by
  cases ha with
  | @act t th α p next u a ht hn hans =>
    have hs := hk.shaped th (List.mem_of_getElem? ht)
    have hinto := th.next_into
    rw [hn] at hinto
    cases hp : th.parting e with
    | false =>
      have hgives := hs.not_gives hp
      have hkeeps := Thread.next_keeps hp
      rw [hn] at hgives hkeeps
      refine h.owns (Owns.put (hans.owns hgives fun hx => ?_) (hk.answered ht hans).2.1 (hinto a).1
        (hkeeps a))
      have htame := hs.notFounding (e := e) (by simpa [place, ht] using hf.absent hx t)
      rw [hn] at htame
      exact htame
    | true =>
      obtain ⟨hone, next', hnext, hzero⟩ := Thread.next_parting hp
      cases hnext.symm.trans hn
      obtain ⟨x, s, hx, hc, rfl, rfl⟩ := hans.answered
      obtain ⟨hnotes, howners⟩ : s.notes = [] ∧ s.endpoint.owners = x.owners - 1 := by
        simp only [Endpoint.call] at hc
        split at hc <;> cases hc
        · exact ⟨rfl, by simp [*]⟩
        · exact ⟨rfl, rfl⟩
      have hlt := (List.getElem?_eq_some_iff.mp hx).1
      have hput := keepers_put (e := e) ht (next' s.answer)
      have hdrop := drops_put (e := e) ht (hinto s.answer).1
      rw [hone, (hzero _).1] at hput
      simp only [hnotes, List.foldl_nil]
      refine ⟨fun hy => ?_, fun {y} hy hd => ?_⟩
      · simp [putThread, putEndpoint, hlt] at hy
      · obtain rfl : s.endpoint = y := by simpa [putThread, putEndpoint, hlt] using hy
        have hold := h.right hx (hdrop ▸ hd)
        change (w.putThread t (next' s.answer)).drops e ≤ 1 at hd
        change s.endpoint.owners + (w.putThread t (next' s.answer)).drops e =
          (w.putThread t (next' s.answer)).keepers e + 1
        omega
  | @invoke t th p i after ht hn =>
    have hs := hk.shaped th (List.mem_of_getElem? ht)
    have hinto := th.next_into
    cases hp : th.parting e with
    | true =>
      obtain ⟨-, next, hnext, -⟩ := Thread.next_parting hp
      cases hn.symm.trans hnext
    | false =>
      have hkeeps := Thread.next_keeps hp
      rw [hn] at hkeeps hinto
      have hown : Owns w (w.invoke p i).1 e := owns_of_ends (invoke_threads p i)
        (invoke_owners w p i)
      refine h.owns (hown.put (by rw [invoke_threads]; exact ht) hinto.1 ?_)
      exact hkeeps
  | @panic t th ht hn =>
    have hs := hk.shaped th (List.mem_of_getElem? ht)
    have hown : Owns w (w.abandon th) e := owns_of_ends (abandon_threads th) (panic_owners w t th)
    have hthere : (w.abandon th).threads[t]? = some th := by rw [abandon_threads]; exact ht
    rw [panic_eq]
    exact h.owns (hown.put hthere rfl (hs.unwound_keeps hn))
  | outside _ hi ha => exact h.outside hi ha
  | settle ha => exact h.owns (owns_of_ends ha.threads (by rw [ha.endpoints]))

theorem owned_of_new (ht : w.threads = [])
    (hx : ∀ x, w.endpoints[e]? = some x → ∃ s f, x = .ofSettings s f) : w.Owned e := by
  have hkeep : w.keepers e = 0 := by simp [keepers, ht]
  have hdrop : w.drops e = 0 := by simp [drops, ht]
  refine ⟨fun _ => hkeep.trans hdrop.symm, fun {x} hx' _ => ?_⟩
  obtain ⟨s, f, rfl⟩ := hx x hx'
  rw [hkeep, hdrop]
  rfl

/-- In every run an endpoint has as many owners as threads and handles that keep it alive. -/
theorem Run.owned (hr : Run allowed empty w) (e : EndpointId) : w.Owned e := by
  have hnew : ∀ x, empty.endpoints[e]? = some x → ∃ s f, x = .ofSettings s f := fun x hx => by
    cases hx
  exact ((hr.induction (m := fun u => u.Owned e ∧ Founded u e ∧ u.Keeps e) (queued_of_new rfl)
    ⟨owned_of_new rfl hnew, founded_of_new rfl hnew, empty_keeps e⟩
    fun h ha => ⟨h.1.atom h.2.2 h.2.1 ha, h.2.1.atom h.2.2 ha, h.2.2.atom ha⟩).1).1

/-- Threads keep what they were started with, and those that are new begin as they may. -/
theorem Atom.origins (ha : Atom allowed w v) : ∃ news : List Task,
    v.threads.map (·.origin) = w.threads.map (·.origin) ++ news ∧
      ∀ o ∈ news, (∃ q l d, o = worker q l d) ∨ ∃ b, w.Starts b ∧ o = b.origin := by
  have hset : ∀ {t : ThreadId} {th th' : Thread}, w.threads[t]? = some th →
      th'.origin = th.origin → (w.threads.set t th').map (·.origin) = w.threads.map (·.origin) :=
    fun ht ho => by
      rw [List.map_set, ho]
      exact set_of_getElem? (by rw [List.getElem?_map, ht]; rfl)
  cases ha with
  | @act t th α p next u a ht hn hans =>
    have hinto := th.next_into
    rw [hn] at hinto
    have hlt := (List.getElem?_eq_some_iff.mp ht).1
    rcases hans.threads_cases with he | ⟨q, l, d, he⟩
    · exact ⟨[], by simp [putThread, he, hset ht (hinto a).1], by simp⟩
    · refine ⟨[worker q l d], ?_, fun o ho => .inl ⟨q, l, d, List.mem_singleton.mp ho⟩⟩
      simp only [putThread, he, List.set_append_left _ _ hlt, List.map_append,
        hset ht (hinto a).1]
      rfl
  | @invoke t th p i after ht hn =>
    have hinto := th.next_into
    rw [hn] at hinto
    refine ⟨[], ?_, by simp⟩
    simp only [putThread, invoke_threads, List.append_nil]
    exact hset ht hinto.1
  | @panic t th ht =>
    have hsame : th.unwound.origin = th.origin := rfl
    exact ⟨[], by rw [panic_threads, hset ht hsame, List.append_nil], by simp⟩
  | outside _ hi ha =>
    obtain ⟨news, hv, -⟩ := outside_threads hi ha
    refine ⟨news.map (·.origin), by rw [hv, List.map_append], fun o ho => .inr ?_⟩
    obtain ⟨b, hb, rfl⟩ := List.mem_map.mp ho
    obtain ⟨j, hj⟩ := List.mem_iff_getElem?.mp hb
    refine ⟨b, apply_new ha (t := w.threads.length + j) ?_ (Nat.le_add_right ..), rfl⟩
    rw [hv, List.getElem?_append_right (Nat.le_add_right ..), Nat.add_sub_cancel_left, hj]
  | settle ha => exact ⟨[], by simp [ha.threads], by simp⟩

theorem drops_le (ha : Atom allowed w v) (e : EndpointId) : w.drops e ≤ v.drops e := by
  obtain ⟨news, horigins, -⟩ := ha.origins
  have hdrops : ∀ u : World, u.drops e = ((u.threads.map (·.origin)).map (Task.drops e)).sum :=
    fun u => by simp [drops, tally, Function.comp_def]
  rw [hdrops, hdrops, horigins, List.map_append, List.sum_append]
  exact Nat.le_add_right ..

end World

end QueuePair
