import QueuePair.Proofs.Upkeep

namespace QueuePair

open World

def Destroying.awaits : Destroying → List ThreadId
  | .join _ i rest => i :: rest
  | _ => []

namespace Connecting

def awaits : Connecting → List ThreadId
  | .join _ i rest => i :: rest
  | _ => []

def crewed : Connecting → Bool
  | .spawnReceiver _ | .attach .. | .markStopping .. | .stop .. | .removeLink .. | .takeWorkers _
  | .unlock (some _) _ => true
  | _ => false

theorem crewed_alters {s : Connecting} (h : s.crewed = true) : s.alters = true := by
  cases s with
  | unlock link => cases link <;> first | rfl | cases h
  | _ => first | rfl | cases h

theorem awaits_alters {s : Connecting} {i : ThreadId} (h : i ∈ s.awaits) : s.alters = true := by
  cases s <;> first | rfl | cases h

end Connecting

@[simp] theorem Destroying.awaits_joining (r : Except Error Unit) (ts : List ThreadId) :
    (joining r ts).awaits = ts := by
  cases ts <;> rfl

@[simp] theorem Connecting.awaits_joining (r : Error) (ts : List ThreadId) :
    (joining r ts).awaits = ts := by
  cases ts <;> rfl

theorem Destroying.awaits_of_rests {s : Destroying} (h : s.rests = true) : s.awaits = [] := by
  cases s <;> first | rfl | cases h

theorem Destroying.awaits_of_links {s : Destroying} (h : s.links = true) : s.awaits = [] := by
  cases s <;> first | rfl | cases h

namespace World

variable {w v u : World} {e : EndpointId} {t i j : ThreadId} {th th' b : Thread} {x y : Endpoint}
  {p q : Party} {s : Destroying} {c : Connecting} {ts : List Destroying} {allowed : Input → Prop}

def Awaited (w : World) (e : EndpointId) (i : ThreadId) : Prop :=
  (∃ j, ∃ s ∈ w.tearing e j, i ∈ s.awaits) ∨ ∃ j s, w.place e j = some s ∧ i ∈ s.awaits

structure Listed (w : World) (e : EndpointId) (i : ThreadId) (x : Endpoint) : Prop where
  known : i ∈ x.workers
  -- it has not taken the link itself
  own : ∀ s ∈ w.tearing e i, s.links = true
  held : w.Settled e ∨ ∃ j s, w.place e j = some s ∧ s.crewed = true

/-- Where the workers of an endpoint are accounted for. A worker is listed from the moment it is
started until somebody takes the list to wait for the workers on it; only a worker that tears its
endpoint down drops out of the list without being waited for. -/
def Rostered (w : World) (e : EndpointId) : Prop :=
  ∀ (i : ThreadId) (b : Thread), w.threads[i]? = some b → b.task.staffs e = true →
    ∃ x, w.endpoints[e]? = some x ∧
      (w.Awaited e i ∨ (w.Settled e ∧ x.link = none) ∨ w.Listed e i x)

theorem Strides.workers (h : Strides w t u x s y ts) : y.workers = x.workers ∨
    ∃ r, s = .takeWorkers r ∧ ts = [Destroying.joining r (x.workers.filter (· ≠ t))] := by
  cases h with
  | takeWorkers => exact .inr ⟨_, rfl, rfl⟩
  | @drain _ d => cases d <;> exact .inl rfl
  | _ => exact .inl rfl

theorem Strides.link (h : Strides w t u x s y ts) (hx : x.link = none) : y.link = none := by
  cases h with
  | missing | takeLink => rfl
  | @drain _ d => cases d <;> exact hx
  | _ => exact hx

theorem Strides.links (h : Strides w t u x s y ts) (hs : s.links = true) :
    (∀ s' ∈ ts, s'.links = true) ∨ (x.linkHolder = none ∧ y.link = none) := by
  cases h with
  | seen => exact .inl fun _ h => by cases h
  | begin | close => exact .inl fun s' h => List.mem_singleton.mp h ▸ rfl
  | missing hfree | takeLink hfree => exact .inr ⟨hfree, rfl⟩
  | _ => cases hs

theorem Strides.awaits (h : Strides w t u x s y ts) (hi : i ∈ s.awaits) :
    (∃ s' ∈ ts, i ∈ s'.awaits) ∨ ∀ th, w.threads[i]? = some th → th.isEnded = true := by
  cases h with
  | @join r a rest hended =>
    rcases List.mem_cons.mp hi with rfl | hi
    · exact .inr hended
    · exact .inl ⟨_, List.mem_singleton_self _, by simpa using hi⟩
  | _ => cases hi

theorem Rostered.steady (h : w.Rostered e) (hv : Steady w v e) (hs : w.Settled e → v.Settled e)
    (hplaces : ∀ {j c}, w.place e j = some c → c.alters = true → v.place e j = some c) :
    v.Rostered e := by
  intro i b hb hstaff
  obtain ⟨a, ha, hstaff⟩ := hv.staff hb hstaff
  obtain ⟨x, hx, hcases⟩ := h i a ha hstaff
  obtain ⟨y, hy, hstands⟩ := hv.ends hx
  refine ⟨y, hy, ?_⟩
  obtain (⟨j, s, hm, hi⟩ | ⟨j, c, hj, hi⟩) | ⟨hsettled, hlink⟩ | ⟨hknown, hown, hheld⟩ := hcases
  · obtain he | ⟨-, hrests⟩ := hv.tearing j
    · exact .inl (.inl ⟨j, s, he ▸ hm, hi⟩)
    · rw [Destroying.awaits_of_rests (hrests s hm)] at hi
      cases hi
  · exact .inl (.inr ⟨j, c, hplaces hj (Connecting.awaits_alters hi), hi⟩)
  · refine .inr (.inl ⟨hs hsettled, ?_⟩)
    obtain hstands | ⟨-, hstands⟩ := hstands
    · exact hstands.link.trans hlink
    · exact hstands.link
  · refine .inr (.inr ⟨?_, fun s hm => ?_, hheld.imp hs fun ⟨j, c, hj, hc⟩ =>
      ⟨j, c, hplaces hj (Connecting.crewed_alters hc), hc⟩⟩)
    · have hworkers : y.workers = x.workers := by
        obtain hstands | ⟨-, hstands⟩ := hstands <;> exact hstands.workers
      exact hworkers ▸ hknown
    · obtain he | ⟨he, -⟩ := hv.tearing i
      · exact hown s (he ▸ hm)
      · simp [he] at hm

/-- Somebody tears an endpoint down: it waits for the others on the list, and drops out itself when
the link is gone. -/
theorem Rostered.tear {f : Flow Destroying (Except Error Unit)} (h : w.Rostered e)
    (hf : Founded w e) (hv : Tears w v e t th th' p s u f) (hs : w.Settled e → v.Settled e)
    (hplaces : ∀ {j c}, w.place e j = some c → c.alters = true → v.place e j = some c) :
    v.Rostered e := by
  have hold := hv.before
  have hnew : v.tearing e t = Destroying.going f ++ th.below e := by rw [hv.after, if_pos rfl]
  intro i b hb hstaff
  obtain ⟨a, ha, hstaff⟩ := staff_go hv.thread hv.threads (by simp) hv.staff hb hstaff
  obtain ⟨x, hx, hcases⟩ := h i a ha hstaff
  obtain ⟨y, hy, hstride⟩ := hv.strides hx
  refine ⟨y, hy, ?_⟩
  obtain (⟨j, s', hm, hi⟩ | ⟨j, c, hj, hi⟩) | ⟨hsettled, hlink⟩ | ⟨hknown, hown, hheld⟩ := hcases
  · by_cases hj : j = t
    · subst hj
      rw [hold] at hm
      rcases List.mem_append.mp hm with hm | hm
      · obtain rfl : s' = s := by
          cases s <;> first | exact List.mem_singleton.mp hm | cases hm
        obtain ⟨s', hm, hi⟩ | hended := hstride.awaits hi
        · exact .inl (.inl ⟨j, s', hnew ▸ List.mem_append_left _ hm, hi⟩)
        · rw [Thread.not_staffs_of_ended (hended a ha)] at hstaff
          cases hstaff
      · exact .inl (.inl ⟨j, s', hnew ▸ List.mem_append_right _ hm, hi⟩)
    · exact .inl (.inl ⟨j, s', by rwa [hv.after, if_neg hj], hi⟩)
  · exact .inl (.inr ⟨j, c, hplaces hj (Connecting.awaits_alters hi), hi⟩)
  · exact .inr (.inl ⟨hs hsettled, hstride.link hlink⟩)
  · have hheld' : v.Settled e ∨ ∃ j c, v.place e j = some c ∧ c.crewed = true :=
      hheld.imp hs fun ⟨j, c, hj, hc⟩ => ⟨j, c, hplaces hj (Connecting.crewed_alters hc), hc⟩
    by_cases hi : i = t
    · subst hi
      rw [hold] at hown
      have hlinks : s.links = true := by
        cases hb : s.begun with
        | nil => cases s <;> first | rfl | cases hb
        | cons => cases s <;> first | rfl | exact hown _ (List.mem_append_left _ List.mem_cons_self)
      obtain hlate | ⟨hfree, hlink⟩ := hstride.links hlinks
      · refine .inr (.inr ⟨?_, fun s' hm => ?_, hheld'⟩)
        · obtain he | ⟨r, rfl, -⟩ := hstride.workers
          · exact he ▸ hknown
          · cases hlinks
        · rw [hnew] at hm
          rcases List.mem_append.mp hm with hm | hm
          · exact hlate s' hm
          · exact hown s' (List.mem_append_right _ hm)
      · obtain hsettled | ⟨j, c, hj, hc⟩ := hheld
        · exact .inr (.inl ⟨hs hsettled, hlink⟩)
        · have hholder := (hf.holder hx j).mpr
            ⟨c, hj, alters_locks (Connecting.crewed_alters hc)⟩
          rw [hfree] at hholder
          cases hholder
    · obtain he | ⟨r, rfl, hts⟩ := hstride.workers
      · refine .inr (.inr ⟨he ▸ hknown, fun s' hm => ?_, hheld'⟩)
        rw [hv.after, if_neg hi] at hm
        exact hown s' hm
      · refine .inl (.inl ⟨t, _, hnew ▸ List.mem_append_left _ (hts ▸ List.mem_singleton_self _),
          ?_⟩)
        simpa using ⟨hknown, hi⟩

/-- What a connecting thread does with the workers of its endpoint. -/
inductive WorkerChange (w : World) (t : ThreadId) (u : World) (x y : Endpoint) :
    Connecting → Option Connecting → Prop
  | keep {s : Connecting} {s' : Option Connecting} : u.threads = w.threads →
      y.workers = x.workers → s.awaits = [] →
      (s.crewed = true → (∃ c, s' = some c ∧ c.crewed = true) ∨ y.link.isSome = true) →
      WorkerChange w t u x y s s'
  | spawn {q : Party} {l : Link} {d : Direction} {s c : Connecting} :
      u.threads = w.threads ++ [.ofTask (worker q l d)] →
      y.workers = x.workers ++ [w.threads.length] → s.awaits = [] → c.crewed = true →
      WorkerChange w t u x y s (some c)
  | take {s c : Connecting} : u.threads = w.threads → s.awaits = [] →
      (∀ i ∈ x.workers, i ≠ t → i ∈ c.awaits) → WorkerChange w t u x y s (some c)
  | join {r : Error} {i : ThreadId} {rest : List ThreadId} {c : Connecting} :
      u.threads = w.threads → y.workers = x.workers →
      (∀ th, w.threads[i]? = some th → th.isEnded = true) → c.awaits = rest →
      WorkerChange w t u x y (.join r i rest) (some c)

theorem workerChange_of_after {f : Flow Connecting (Except Error Unit)}
    (h : w.After t (c.next q) u f) (hx : w.endpoints[q.id]? = some x) :
    ∃ y, u.endpoints[q.id]? = some y ∧ WorkerChange w t u x y c (goesOn f) := by
  have hput : ∀ {y : Endpoint}, u.endpoints = w.endpoints.set q.id y →
      u.endpoints[q.id]? = some y := fun he =>
    he ▸ List.getElem?_set_self (List.getElem?_eq_some_iff.mp hx).1
  -- an access of a place that has no workers, or keeps them
  have haccess : ∀ {α : Type} {a : EndpointCall α} {next : α → Flow Connecting (Except Error Unit)},
      a.waits = false → w.After t (.access q a next) u f → c.awaits = [] →
      (∀ {s : Section α}, x.call t a = some s → s.endpoint.workers = x.workers ∧
        (c.crewed = true → (∃ c', goesOn (next s.answer) = some c' ∧ c'.crewed = true) ∨
          s.endpoint.link.isSome = true)) →
      ∃ y, u.endpoints[q.id]? = some y ∧ WorkerChange w t u x y c (goesOn f) := by
    intro α a next hw hf hawaits hkeep
    obtain ⟨z, s, hz, hs, he, ht, rfl⟩ := after_access hw hf
    obtain rfl := Option.some.inj (hx.symm.trans hz)
    exact ⟨_, hput he, .keep ht (hkeep hs).1 hawaits (hkeep hs).2⟩
  -- a routine of the system
  have houter : ∀ {σ ρ : Type} {mv : Move (Flow σ ρ)} {more : σ → Connecting}
      {done : ρ → Flow Connecting (Except Error Unit)}, mv.Outward →
      w.After t (mv.through (fun s => .more (more s)) done) u f → c.awaits = [] →
      (c.crewed = true → (∀ s, (more s).crewed = true) ∧ ∀ r, ∃ c', done r = .more c' ∧
        c'.crewed = true) →
      ∃ y, u.endpoints[q.id]? = some y ∧ WorkerChange w t u x y c (goesOn f) := by
    intro σ ρ mv more done hm hf hawaits hto
    obtain ⟨he, ht⟩ := hf.outward (Move.outward_through.mpr hm)
    refine ⟨x, he ▸ hx, .keep ht rfl hawaits fun hc => .inl ?_⟩
    rcases hf.of_through with ⟨s', -, rfl⟩ | ⟨r, -, rfl⟩
    · exact ⟨_, rfl, (hto hc).1 s'⟩
    · obtain ⟨c', hc', hcrewed⟩ := (hto hc).2 r
      exact ⟨c', by rw [hc']; rfl, hcrewed⟩
  have hspawn : ∀ {l : Link} {d : Direction}, u = w.spawnWorker q l d →
      u.endpoints[q.id]? = some
        { x with workers := x.workers ++ [w.threads.length], owners := x.owners + 1 } :=
          fun hu => by
    simp [hu, spawnWorker, spawn, modifyEndpoint, hx]
  cases c with
  | mailbox s => exact houter (opening_outward _ _ _ s).1 h rfl fun h => (by cases h)
  | signals m s => exact houter (signalsOpening_outward _ _ s).1 h rfl fun h => (by cases h)
  | removeMailbox e m s =>
    exact houter (mailboxRemoval_confined _ s).1.outward h rfl fun h => (by cases h)
  | attach link s =>
    refine houter (attaching_confined _ s).1.outward h rfl fun _ => ⟨fun _ => rfl, fun r => ?_⟩
    cases r <;> exact ⟨_, rfl, rfl⟩
  | removeLink e link s =>
    exact houter (removal_confined _ s).1.outward h rfl fun _ =>
      ⟨fun _ => rfl, fun r => ⟨_, rfl, rfl⟩⟩
  | spawnSender link =>
    obtain ⟨a, rfl, rfl⟩ := h
    exact ⟨_, hspawn rfl, .spawn rfl rfl rfl rfl⟩
  | spawnReceiver link =>
    obtain ⟨a, rfl, rfl⟩ := h
    exact ⟨_, hspawn rfl, .spawn rfl rfl rfl rfl⟩
  | takeWorkers r =>
    obtain ⟨z, s, hz, hs, he, ht, rfl⟩ := after_access rfl h
    obtain rfl := Option.some.inj (hx.symm.trans hz)
    cases hs
    exact ⟨_, hput he, .take ht rfl fun i hi hne => by simpa using ⟨hi, hne⟩⟩
  | join r i rest =>
    obtain ⟨a, ⟨rfl, hended⟩, rfl⟩ := h
    exact ⟨x, hx, .join rfl rfl hended (Connecting.awaits_joining r rest)⟩
  | lock =>
    refine haccess rfl h rfl fun hs => ?_
    simp only [Endpoint.call, Endpoint.underLink] at hs
    split at hs <;> cases hs
    exact ⟨rfl, fun h => by cases h⟩
  | unlock link r =>
    refine haccess rfl h rfl fun hs => ?_
    cases hs
    refine ⟨rfl, fun hc => .inr ?_⟩
    cases link with
    | none => cases hc
    | some => rfl
  | markStopping | stop =>
    refine haccess rfl h rfl fun hs => ?_
    cases hs
    exact ⟨rfl, fun _ => .inl ⟨_, rfl, rfl⟩⟩
  | check | storeConnected | resume | unmarkStopping | storeInit =>
    refine haccess rfl h rfl fun hs => ?_
    cases hs
    exact ⟨rfl, fun h => by cases h⟩

theorem WorkerChange.news {c' : Option Connecting} (h : WorkerChange w t u x y c c')
    (e : EndpointId) :
    ∃ news, u.threads = w.threads ++ news ∧ (∀ b ∈ news, b.tears e = []) ∧
      ∀ {i : ThreadId} {b : Thread}, (w.threads ++ news)[i]? = some b → w.threads[i]? = some b ∨
        w.threads[i]? = none ∧ i ∈ y.workers ∧ ∃ s, c' = some s ∧ s.crewed = true := by
  have hsame : u.threads = w.threads → ∃ news, u.threads = w.threads ++ news ∧
      (∀ b ∈ news, b.tears e = []) ∧ ∀ {i : ThreadId} {b : Thread},
        (w.threads ++ news)[i]? = some b → w.threads[i]? = some b ∨
          w.threads[i]? = none ∧ i ∈ y.workers ∧ ∃ s, c' = some s ∧ s.crewed = true :=
    fun hu => ⟨[], by simp [hu], by simp, fun hb => .inl (by simpa using hb)⟩
  cases h with
  | keep hu | take hu | join hu => exact hsame hu
  | @spawn _ _ d _ c hu hworkers _ hc =>
    refine ⟨_, hu, fun b hb => ?_, fun {i b} hb => ?_⟩
    · obtain rfl := List.mem_singleton.mp hb
      cases d <;> rfl
    · rcases Nat.lt_or_ge i w.threads.length with hlt | hle
      · exact .inl ((List.getElem?_append_left hlt).symm.trans hb)
      · rw [List.getElem?_append_right hle, List.getElem?_singleton] at hb
        split at hb
        · rename_i hzero
          obtain rfl : i = w.threads.length :=
            Nat.le_antisymm (Nat.sub_eq_zero_iff_le.mp hzero) hle
          exact .inr ⟨by simp, by simp [hworkers], c, rfl, hc⟩
        · cases hb

theorem Founds.free {c' : Option Connecting} (h : Founds e w t c u c')
    (hx : w.endpoints[e]? = some x) : c.locks = true ∨ x.linkHolder = none := by
  cases c with
  | lock =>
    cases h with
    | lock hz hfree =>
      obtain rfl := Option.some.inj (hx.symm.trans hz)
      exact .inr hfree
    | rest hl | spawn _ hl | undo hl => cases hl
  | _ => exact .inl rfl

/-- A worker that was there before is accounted for when the thread that connects its endpoint has
moved. -/
theorem Rostered.moved {c' : Option Connecting} (h : w.Rostered e) (hs : ¬ w.Settled e)
    (hk : Founded v e) (hx : w.endpoints[e]? = some x) (hy : v.endpoints[e]? = some y)
    (hm : WorkerChange w t u x y c c') (htearing : ∀ i, v.tearing e i = w.tearing e i)
    (honly : ∀ {j s}, w.place e j = some s → s.alters = true → j = t ∧ s = c)
    (hnext : v.place e t = c') (hi : w.threads[i]? = some b) (hb : b.task.staffs e = true)
    (hne : i ≠ t) : v.Awaited e i ∨ (v.Settled e ∧ y.link = none) ∨ v.Listed e i y := by
  obtain ⟨z, hz, hcases⟩ := h i b hi hb
  obtain rfl := Option.some.inj (hx.symm.trans hz)
  obtain (⟨j, s, hs', hw⟩ | ⟨j, s, hj, hw⟩) | ⟨hsettled, -⟩ | ⟨hknown, hown, hheld⟩ := hcases
  · exact .inl (.inl ⟨j, s, htearing j ▸ hs', hw⟩)
  · obtain ⟨rfl, rfl⟩ := honly hj (Connecting.awaits_alters hw)
    cases hm with
    | keep _ _ hnone | spawn _ _ hnone | take _ hnone =>
      rw [hnone] at hw
      cases hw
    | join _ _ hended hawaits =>
      rcases List.mem_cons.mp hw with rfl | hw
      · rw [Thread.not_staffs_of_ended (hended b hi)] at hb
        cases hb
      · exact .inl (.inr ⟨j, _, hnext, hawaits ▸ hw⟩)
  · exact absurd hsettled hs
  · obtain hsettled | ⟨j, s, hj, hcrewed⟩ := hheld
    · exact absurd hsettled hs
    · obtain ⟨rfl, rfl⟩ := honly hj (Connecting.crewed_alters hcrewed)
      have hown' : ∀ s ∈ v.tearing e i, s.links = true := fun s hm => hown s (htearing i ▸ hm)
      cases hm with
      | keep _ hworkers _ hgo =>
        refine .inr (.inr ⟨hworkers ▸ hknown, hown', ?_⟩)
        obtain ⟨c, rfl, hc⟩ | hlink := hgo hcrewed
        · exact .inr ⟨j, c, hnext, hc⟩
        · exact .inl (hk.linked hy hlink)
      | spawn _ hworkers _ hc =>
        exact .inr (.inr ⟨hworkers ▸ List.mem_append_left _ hknown, hown', .inr ⟨j, _, hnext, hc⟩⟩)
      | take _ _ hawaits => exact .inl (.inr ⟨j, _, hnext, hawaits i hknown hne⟩)
      | join => cases hcrewed

/-- Before an endpoint is connected for good its workers are those of the thread that connects
it. -/
theorem Rostered.connect (h : w.Rostered e) (hf : Founded w e) (hk : Founded v e)
    (hc : Connects w v e t th th' c u) (hs : th.Shaped) (hn : ¬ w.Settled e) : v.Rostered e := by
  obtain ⟨hnone, hnone', hstaff'⟩ := hc.aside hs
  obtain ⟨origin, o, q, rfl, rfl⟩ := hs.connecting_cases hc.place
  obtain ⟨f, hafter, hplace⟩ := hc.after.connecting rfl
  have ht := hc.thread
  have hmine : w.place q.id t = some c := by simp [place, ht, hc.place]
  have hnext : v.place q.id t = goesOn f := by
    rw [hc.world, Founds.places ht hc.founds, if_pos rfl, hplace]
  cases hx : w.endpoints[q.id]? with
  | none => cases (hf.absent hx t).symm.trans hmine
  | some x =>
    have honly : ∀ {j s}, w.place q.id j = some s → s.alters = true → j = t ∧ s = c := by
      intro j s hj hs
      obtain rfl : j = t := by
        by_contra hne
        have hl := hf.others ht hc.place hx (hc.founds.free hx) hne hj
        rw [alters_locks hs] at hl
        cases hl
      exact ⟨rfl, Option.some.inj (hj.symm.trans hmine)⟩
    obtain ⟨y, hy, hm⟩ := workerChange_of_after hafter hx
    obtain ⟨news, hu, hnews, hfresh⟩ := hm.news q.id
    have hlt := (List.getElem?_eq_some_iff.mp ht).1
    have hv : v.threads = w.threads.set t th' ++ news := by
      simp only [hc.world, putThread, hu, List.set_append_left _ _ hlt]
    have htearing : ∀ i, v.tearing q.id i = w.tearing q.id i := fun i => by
      rw [tearing_go ht hv hnews]
      split
      · rename_i he
        rw [he, tearing_eq ht]
        exact hnone'
      · rfl
    have hy' : v.endpoints[q.id]? = some y := by rw [hc.world]; exact hy
    intro i b hb hstaff
    rw [hc.world, putThread, hu] at hb
    have hne : t ≠ i := fun he => by
      subst he
      rw [List.getElem?_set_self (by simp only [List.length_append]; omega)] at hb
      obtain rfl := Option.some.inj hb
      cases hstaff' hstaff
    refine ⟨y, hy', ?_⟩
    obtain hold | ⟨hnew, hknown, s, hs', hcrewed⟩ :=
      hfresh ((List.getElem?_set_ne hne).symm.trans hb)
    · exact h.moved hn hk hx hy' hm htearing honly hnext hold hstaff hne.symm
    · refine .inr (.inr ⟨hknown, fun s hm => ?_, .inr ⟨t, s, hnext.trans hs', hcrewed⟩⟩)
      rw [htearing, tearing, hnew] at hm
      cases hm

theorem Rostered.atom (h : w.Rostered e) (ht : w.Tended e) (ha : Atom allowed w v) :
    v.Rostered e := by
  have hsettled : w.Settled e → v.Settled e := fun hs => hs.atom ht.keeps ha
  have hplaces : Passes w v e → ∀ {j c}, w.place e j = some c → c.alters = true →
      v.place e j = some c := fun hp j c hj _ => by
    obtain he | ⟨hnone, -⟩ := hp.places j
    · exact he.trans hj
    · cases hnone.symm.trans hj
  obtain ⟨hp, hsteady | ⟨t, th, th', p, s, u, f, htears⟩⟩ | ⟨t, th, th', c, u, hc⟩ :=
    ha.steady_or ht.keeps ht.covered
  · exact h.steady hsteady hsettled (hplaces hp)
  · exact h.tear ht.founded htears hsettled (hplaces hp)
  · by_cases hs : w.Settled e
    · -- nobody is in the midst of connecting
      have hcalm : ∀ {j c}, w.place e j = some c → c.alters = true → v.place e j = some c :=
        fun hj hc => by cases (hs.calm hj).symm.trans hc
      obtain hsteady | ⟨t, th, th', p, s, u, f, htears⟩ := hs.steady_or ht ha
      · exact h.steady hsteady hsettled hcalm
      · exact h.tear ht.founded htears hsettled hcalm
    · exact h.connect ht.founded (ht.founded.atom ht.keeps ha) hc
        (ht.keeps.shaped th (List.mem_of_getElem? hc.thread)) hs

theorem Run.rostered (hr : Run allowed empty w) (e : EndpointId) : w.Rostered e :=
  (hr.induction (m := fun u => u.Rostered e ∧ u.Tended e) (queued_of_new rfl)
    ⟨fun i b h => by simp [empty] at h, Run.tended (.refl : Run allowed empty empty) e⟩ fun h ha =>
      ⟨h.1.atom h.2 ha, h.2.atom ha⟩).1.1

theorem Rostered.listed (h : w.Rostered e) (hf : Founded w e) (hx : w.endpoints[e]? = some x)
    (hl : x.link.isSome = true) (ht : ∀ j, ∀ s ∈ w.tearing e j, s.links = true)
    (hi : w.threads[i]? = some b) (hb : b.task.staffs e = true) : i ∈ x.workers := by
  obtain ⟨z, hz, hcases⟩ := h i b hi hb
  obtain rfl := Option.some.inj (hx.symm.trans hz)
  obtain (⟨j, s, hm, hw⟩ | ⟨j, s, hj, hw⟩) | ⟨-, hnone⟩ | hlisted := hcases
  · rw [Destroying.awaits_of_links (ht j s hm)] at hw
    cases hw
  · cases ((hf.linked hx hl).calm hj).symm.trans (Connecting.awaits_alters hw)
  · rw [hnone] at hl
    cases hl
  · exact hlisted.known

end World

end QueuePair
