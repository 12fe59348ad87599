import QueuePair.Proofs.Dismantling

namespace QueuePair

open World

theorem tears_ofParty {e : EndpointId} {p : Party} {cs : List Callback} (h : ∀ c ∈ cs, c.OfParty p)
    (ht : cs.flatMap (Callback.tears e) ≠ []) : p.id = e := by
  obtain ⟨s, hs⟩ := List.exists_mem_of_ne_nil _ ht
  obtain ⟨c, hc, hs⟩ := List.mem_flatMap.mp hs
  obtain ⟨-, hstate⟩ := h c hc
  obtain ⟨q, lane, id, payload, index, state⟩ := c
  cases state with
  | running command call rest =>
    cases call with
    | destroying r s' =>
      obtain rfl : r = p := hstate.2
      by_contra hne
      simp [Callback.tears, Callback.call?, Call.tears, Call.destroying?, hne] at hs
    | _ => cases hs
  | ended | panicking => cases hs

theorem Thread.tears_of_parting {e : EndpointId} {th : Thread} (h : th.parting e = true) :
    th.tears e = [] := by
  obtain ⟨o, task, cs⟩ := th
  unfold parting at h
  split at h
  · rename_i hcs htask
    simp only at hcs htask
    subst hcs htask
    rfl
  · cases h

namespace World

variable {w v u : World} {e : EndpointId} {t i : ThreadId} {th th' : Thread} {x y : Endpoint}
  {p : Party} {l : Link} {s : Destroying} {allowed : Input → Prop}

def Minded (w : World) : Prop :=
  ∀ th ∈ w.threads, ∀ (o : Option EndpointId) (q : Party) (s : Destroying),
    th.origin = .call o (.destroying q s) → o = some q.id

theorem Starts.minded {b : Thread} (hb : w.Starts b) {o : Option EndpointId} {q : Party}
    {s : Destroying} (ho : b.origin = .call o (.destroying q s)) : o = some q.id := by
  cases hb with
  | @worker _ _ _ _ _ _ _ d => cases d <;> cases ho
  | @operation e' y op =>
    cases hop : Call.ofOperation ⟨e', y.settings⟩ op with
    | done => rw [Thread.ofTask, hop] at ho; cases ho
    | more c =>
      rw [Thread.ofTask, hop] at ho
      cases ho
      cases op with
      | destroy =>
        cases hop
        rfl
      | connect | accept | finalizeConnect | finalizeAccept =>
        simp only [Call.ofOperation, Call.requireRole] at hop
        split at hop <;> cases hop
      | postSend | waitSend =>
        simp only [Call.ofOperation, Call.sendFits] at hop
        split at hop <;> cases hop
      | postReceive | waitReceive | readState => cases hop
  | @request op =>
    cases hop : Call.ofObject op with
    | done => rw [Thread.ofTask, hop] at ho; cases ho
    | more c =>
      rw [Thread.ofTask, hop] at ho
      cases ho
      exact absurd (ofObject_proper hop).2 (by simp [Call.destroys])
  | leaving => cases ho

theorem Minded.atom (h : w.Minded) (ha : Atom allowed w v) : v.Minded := by
  obtain ⟨news, horigins, hnews⟩ := ha.origins
  intro b hb o q s ho
  have hmem : b.origin ∈ w.threads.map (·.origin) ++ news :=
    horigins ▸ List.mem_map_of_mem hb
  rcases List.mem_append.mp hmem with hm | hm
  · obtain ⟨a, ha, he⟩ := List.mem_map.mp hm
    exact h a ha o q s (he.trans ho)
  · obtain ⟨q', l', d, he⟩ | ⟨b', hb', he⟩ := hnews _ hm
    · rw [he] at ho
      cases d <;> cases ho
    · exact hb'.minded (he.symm.trans ho)

theorem Minded.keeps (h : w.Minded) (hm : th ∈ w.threads) (hs : th.Shaped) (ht : th.tears e ≠ []) :
    th.keeps e = 1 := by
  have hkeeps : th.task.kept? = some e → th.keeps e = 1 := fun hk => by simp [Thread.keeps, hk]
  cases hs with
  | @sender q l s cs hcs | @receiver q l s cs hcs | @departing origin q out cs _ hcs =>
    have hcs' : cs.flatMap (Callback.tears e) ≠ [] := by
      simpa [Thread.tears, Task.tears, Task.call?] using ht
    exact hkeeps (congrArg some (tears_ofParty hcs hcs'))
  | @destroying o q s cs hcs =>
    have hq : q.id = e := by
      by_contra hne
      refine hne (tears_ofParty hcs ?_)
      simpa [Thread.tears, Task.tears, Task.call?, Call.tears, Call.destroying?, hne] using ht
    have ho := h _ hm o q .begin rfl
    exact hkeeps (ho.trans (congrArg some hq))
  | @call origin o c _ hc =>
    cases c with
    | destroying => cases hc
    | _ => exact absurd rfl ht
  | leaving | ended => exact absurd rfl ht

structure Tended (w : World) (e : EndpointId) : Prop where
  keeps : w.Keeps e
  founded : Founded w e
  owned : w.Owned e
  covered : ∀ th ∈ w.threads, th.Covered
  minded : w.Minded

theorem Tended.atom (h : w.Tended e) (ha : Atom allowed w v) : v.Tended e where
  keeps := h.keeps.atom ha
  founded := h.founded.atom h.keeps ha
  owned := h.owned.atom h.keeps h.founded ha
  covered := ha.covered h.covered
  minded := h.minded.atom ha

theorem Run.tended (hr : Run allowed empty w) (e : EndpointId) : w.Tended e := by
  have hnew : ∀ x, empty.endpoints[e]? = some x → ∃ s f, x = .ofSettings s f := fun x hx => by
    cases hx
  exact (hr.induction (m := fun u => u.Tended e) (queued_of_new rfl)
    ⟨empty_keeps e, founded_of_new rfl hnew, owned_of_new rfl hnew, by simp [empty],
      fun th hm => by simp [empty] at hm⟩ fun h ha => h.atom ha).1

theorem Tended.not_abandoned (h : w.Tended e) (hx : w.endpoints[e]? = some x)
    (hd : w.drops e ≤ 1) (ht : w.tearing e t ≠ []) : ¬ w.Abandoned e x := by
  rintro ⟨hone, b, hb, hparting⟩
  cases hth : w.threads[t]? with
  | none => exact ht (by simp [tearing, hth])
  | some th =>
    have hm := List.mem_of_getElem? hth
    have hkeeps := h.minded.keeps hm (h.keeps.shaped th hm) (tearing_eq hth ▸ ht)
    obtain ⟨i, hi⟩ := List.mem_iff_getElem?.mp hb
    have hne : t ≠ i := fun he => by
      obtain rfl := Option.some.inj (hth.symm.trans (he ▸ hi))
      exact ht ((tearing_eq hth).trans (Thread.tears_of_parting hparting))
    have hleast := add_le_tally (f := Thread.keeps e) hth hi hne
    have howned := h.owned.right hx hd
    rw [hkeeps, (Thread.next_parting hparting).1] at hleast
    simp only [keepers] at howned
    omega

/-- Nobody connects an endpoint any more that was connected. -/
theorem Settled.steady_or (hs : w.Settled e) (h : w.Tended e) (ha : Atom allowed w v) :
    Steady w v e ∨ ∃ t th th' p s u f, Tears w v e t th th' p s u f := by
  obtain ⟨-, hcases⟩ | ⟨t, th, th', s, u, hconnects⟩ := ha.steady_or h.keeps h.covered
  · exact hcases
  · obtain ⟨hnone, hnone', hstaff⟩ :=
      hconnects.aside (h.keeps.shaped th (List.mem_of_getElem? hconnects.thread))
    obtain ⟨ht, hc, -, -, hf, -, rfl⟩ := hconnects
    have hcalm : s.alters = false := hs.calm (t := t) (by simp [place, ht, hc])
    have hgo : u.threads = w.threads → (∀ {x : Endpoint}, w.endpoints[e]? = some x →
        ∃ y, u.endpoints[e]? = some y ∧ x.Stands y) → Steady w (u.putThread t th') e :=
      fun hu hends => .go [] ht (by simp [putThread, hu]) (by simp)
        (.inl (hnone'.trans hnone.symm)) hstaff
        fun hx => (hends hx).imp fun _ => And.imp_right .inl
    refine .inl ?_
    generalize th'.connecting? e = s' at hf
    cases hf with
    | @lock z _ busy hz _ he hu =>
      refine hgo hu fun {x} hx => ?_
      obtain rfl := Option.some.inj (hx.symm.trans hz)
      refine ⟨{ x with linkHolder := some t }, ?_, rfl, rfl, rfl⟩
      exact he ▸ List.getElem?_set_self (List.getElem?_eq_some_iff.mp hx).1
    | rest _ _ he hu => exact hgo hu fun {x} hx => ⟨x, he ▸ hx, .refl x⟩
    | store => cases hcalm
    | spawn _ _ _ hs =>
      rw [hcalm] at hs
      cases hs
    | undo hs =>
      rw [hcalm] at hs
      cases hs
    | @unlock z link r _ hz he hu =>
      refine hgo hu fun {x} hx => ?_
      obtain rfl := Option.some.inj (hx.symm.trans hz)
      refine ⟨{ x with link := link.orElse fun _ => x.link, linkHolder := none },
        he ▸ List.getElem?_set_self (List.getElem?_eq_some_iff.mp hx).1, ?_, rfl, rfl⟩
      cases link with
      | none => rfl
      | some => cases hcalm

structure Torn (w : World) (e : EndpointId) (l : Link) (t : ThreadId) : Prop where
  settled : w.Settled e
  lent : w.kernel.LendsAll l.handles
  alone : ∀ i ≠ t, w.tearing e i = []
  once : (w.tearing e t).length ≤ 1
  past : ∃ x, w.endpoints[e]? = some x ∧ x.stopping = true ∧
    ∀ s ∈ w.tearing e t, w.Past e l t x s

theorem Torn.steady (h : w.Torn e l t) (ht : w.Tended e) (hd : w.drops e ≤ 1)
    (ha : Atom allowed w v)
    (hv : Steady w v e) : v.Torn e l t := by
  obtain ⟨x, hx, hstopping, hpast⟩ := h.past
  obtain ⟨y, hy, hxy⟩ := h.settled.lasts ht.keeps ha hx
  obtain ⟨z, hz, hstands⟩ := hv.ends hx
  obtain rfl := Option.some.inj (hy.symm.trans hz)
  refine ⟨h.settled.atom ht.keeps ha, h.lent.mono ha.lasts, fun i hi => ?_, ?_, y, hy, ?_,
    fun s hs => ?_⟩
  · obtain he | ⟨he, -⟩ := hv.tearing i
    · exact he.trans (h.alone i hi)
    · exact he
  · obtain he | ⟨he, -⟩ := hv.tearing t
    · exact he ▸ h.once
    · simp [he]
  · obtain hs | ⟨-, hs⟩ := hstands <;> exact hs.stopping.trans hstopping
  · have hs' : s ∈ w.tearing e t := by
      obtain he | ⟨he, -⟩ := hv.tearing t
      · exact he ▸ hs
      · simp [he] at hs
    exact (hpast s hs').steady hv hx hy hxy ha.lasts
      (ht.not_abandoned hx hd (List.ne_nil_of_mem hs'))

theorem Strides.stopping {ts : List Destroying} (h : Strides w t u x s y ts)
    (hx : x.stopping = true) : y.stopping = true := by
  cases h with
  | seen | begin => rfl
  | @drain _ d => cases d <;> exact hx
  | _ => exact hx

/-- A step of a teardown is one of the only teardown, or finds that there is one. -/
theorem Torn.stride {f : Flow Destroying (Except Error Unit)} (h : w.Torn e l t) (ht : w.Tended e)
    (hd : w.drops e ≤ 1) (ha : Atom allowed w v) (hv : Tears w v e i th th' p s u f) :
    v.Torn e l t := by
  obtain ⟨x, hx, hstopping, hpast⟩ := h.past
  obtain ⟨y, hy, hstride⟩ := hv.strides hx
  have hold := hv.before
  by_cases hs : s = .begin
  · -- the mark is there already
    subst hs
    obtain ⟨rfl, hgoing⟩ : y = { x with stopping := true } ∧ Destroying.going f = [] := by
      generalize Destroying.going f = ts at hstride
      cases hstride with
      | seen => exact ⟨rfl, rfl⟩
      | begin hno => cases hno.symm.trans hstopping
    refine h.steady ht hd ha (.go [] hv.thread hv.threads (by simp) (.inl ?_) hv.staff
      fun {z} hz => ?_)
    · rw [hv.tears, hgoing, ← tearing_eq hv.thread, hold]
      rfl
    · obtain rfl := Option.some.inj (hx.symm.trans hz)
      exact ⟨_, hy, .inl ⟨rfl, rfl, hstopping.symm⟩⟩
  · have hbegun : s.begun = [s] := by cases s <;> first | rfl | exact absurd rfl hs
    rw [hbegun] at hold
    obtain rfl : i = t := by
      by_contra hne
      simp [h.alone i hne] at hold
    have hbelow : th.below e = [] := by
      have honce := hold ▸ h.once
      simpa using honce
    have hgoing : v.tearing e i = Destroying.going f := by
      rw [hv.after, if_pos rfl, hbelow, List.append_nil]
    refine ⟨h.settled.atom ht.keeps ha, h.lent.mono ha.lasts, fun j hj => ?_, ?_, y, hy,
      hstride.stopping hstopping, fun s' hs' => ?_⟩
    · rw [hv.after, if_neg hj]
      exact h.alone j hj
    · rw [hgoing]
      cases f with
      | more s' => cases s' <;> simp [Destroying.going, Destroying.begun]
      | done => simp [Destroying.going]
    · have hlasts := ha.lasts
      have hkernel : v.kernel = u.kernel := by rw [hv.world]; rfl
      refine (hpast s ?_).stride hstride h.lent (hkernel ▸ hlasts)
        (fun hb hs => staff_go hv.thread hv.threads (by simp) hv.staff hb hs) hkernel s'
        (hgoing ▸ hs') hs
      rw [hold]
      exact List.mem_cons_self

theorem Torn.atom (h : w.Torn e l t) (ht : w.Tended e) (hd : w.drops e ≤ 1)
    (ha : Atom allowed w v) : v.Torn e l t := by
  obtain hsteady | ⟨i, th, th', p, s, u, f, htears⟩ := h.settled.steady_or ht ha
  · exact h.steady ht hd ha hsteady
  · exact h.stride ht hd ha htears

theorem Torn.run (h : w.Torn e l t) (ht : w.Tended e) (hq : w.Queued) (hr : Run allowed w v)
    (hd : v.drops e ≤ 1) : v.Torn e l t :=
  (hr.induction (m := fun u => u.Tended e ∧ (u.drops e ≤ 1 → u.Torn e l t)) hq ⟨ht, fun _ => h⟩
    fun h ha => ⟨h.1.atom ha, fun hd =>
      have hd' := Nat.le_trans (drops_le ha e) hd
      (h.2 hd').atom h.1 hd' ha⟩).1.2 hd

end World

end QueuePair
