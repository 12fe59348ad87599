import QueuePair.Proofs.Pair.Establishing

namespace QueuePair

open World

namespace Pair

open Kernel (Extends Shifts)

variable {P : Pair} {w v : World} {t : ThreadId} {th th' : Thread} {r : Role} {x x' : Endpoint}

theorem light_withQueue (x : Endpoint) (d : Direction) (q : WorkQueue Job) :
    Light x (x.withQueue d q) := by
  cases d <;> exact ⟨rfl, rfl, rfl, rfl, rfl, rfl⟩

inductive Served (P : Pair) (r : Role) (w : World) : World → Prop
  | still : Served P r w w
  | light {v : World} {x x' : Endpoint} : v.threads = w.threads → v.kernel = w.kernel →
      w.endpoints[P.id r]? = some x → v.endpoints = w.endpoints.set (P.id r) x' → Light x x' →
      (∀ d job, (x'.queue d).Keeps job → (x.queue d).Keeps job ∨
        P.Accepts r d job.data job.handler) → Served P r w v

theorem Posts.served {d : Direction} {data : Buffer} {handler : Handler} {s : Posting}
    {f : Flow Posting (Except Error Nat)} (h : P.Posts r d data handler w s v f)
    (hs : P.PostingFit r d s) : Served P r w v := by
  cases h with
  | @number x hx =>
    exact .light rfl rfl hx rfl ⟨rfl, rfl, rfl, rfl, rfl, rfl⟩ fun d job hj => by
      cases d <;> exact .inl hj
  | @accept x q job dl hx hq =>
    refine .light rfl rfl hx rfl (light_withQueue x d q) fun d' job' hj => ?_
    rw [queue_withQueue] at hj
    by_cases hd : d' = d
    · subst hd
      rw [if_pos rfl] at hj
      rcases hj.of_post hq with hj | rfl
      · exact .inl hj
      · exact .inr hs
    · rw [if_neg hd] at hj
      exact .inl hj
  | ready | refuse | clock | noClock | full | wake | late => exact .still

theorem Waits.served {d : Direction} {data : Buffer} {s : Waiting}
    {f : Flow Waiting (Except Error Buffer)} (h : P.Waits r d data w s v f)
    (hs : P.WaitingFit r d s) : Served P r w v := by
  cases h with
  | post h | posted h | refused h => exact h.served hs
  | @withdraw x q serial job hx hq =>
    refine .light rfl rfl hx rfl (light_withQueue x d q) fun d' job' hj => ?_
    rw [queue_withQueue] at hj
    by_cases hd : d' = d
    · subst hd
      rw [if_pos rfl] at hj
      exact .inl (hj.of_cancel hq)
    · rw [if_neg hd] at hj
      exact .inl hj
  | clock | answer | giveUp | keep | poll => exact .still

theorem Serves.served {c : Call} {f : Flow Call Result} (h : P.Serves r w c v f)
    (hc : P.Serving r c) : Served P r w v := by
  cases h with
  | post h | posted h => exact h.served hc.2.2
  | wait h | waited h => exact h.served hc.2.2
  | readState | hold => exact .still

theorem Law.of_served (h : P.Law w) (ht : w.threads[t]? = some th) (hv : Served P r w v)
    (hf : P.Fit w.kernel th') (hl : th'.task.locks = none) (hl' : th.task.locks = none)
    (hb : ∀ d, P.due th' d = P.due th d) : P.Law (v.putThread t th') := by
  have hopens : ∀ {r : Role}, th'.task.opens ≠ some r := fun ho => by
    rw [opens_locks ho] at hl
    cases hl
  cases hv with
  | still =>
    exact h.of_still ht rfl rfl (.refl _ _) rfl hf (hl.trans hl'.symm)
      (fun _ ho => absurd ho hopens) hb
  | light hv hk hx he hlight hjobs => exact h.of_light ht hv hk hx he hlight hjobs hf hl hl' hb

theorem serving_locks {c : Call} {o : Option EndpointId} (hc : P.Serving r c) :
    (Task.call o c).locks = none := by
  cases c with
  | posting | waiting | readingState | holding => rfl
  | _ => exact hc.elim

theorem due_serving {o : Task} {c : Call} (hc : P.Serving r c)
    (d : Due) : P.due ⟨o, .call (some (P.id r)) c, []⟩ d =
      match d with
      | .worker d r' => o.works d r'
      | .owner r' => if r = r' then 1 else 0
      | _ => 0 := by
  cases c with
  | posting | waiting | readingState | holding =>
    cases d <;> simp [due, Task.token, Task.gate, Task.attached, Task.owes, Task.owner?,
      Thread.passed, Task.outcome?, id_inj]
  | _ => exact hc.elim

theorem due_leaving {o : Task} {out : Outcome} (ho : o.finalizes = none) (d : Due) :
    P.due ⟨o, .leaving (P.id r) .release out, []⟩ d =
      match d with
      | .worker d r' => o.works d r'
      | .owner r' => if r = r' then 1 else 0
      | _ => 0 := by
  cases d <;> simp [due, Task.token, Task.gate, Task.attached, Task.owes, Task.owner?,
    Thread.passed, ho, id_inj]

theorem due_callbacks (o task : Task) (cs cs' : List Callback) (d : Due) :
    P.due ⟨o, task, cs⟩ d = P.due ⟨o, task, cs'⟩ d := by
  cases d <;> rfl

theorem Fit.recallback {k : Kernel} {o task : Task} {c : Callback} {cs cs' : List Callback}
    (h : P.Fit k ⟨o, task, c :: cs⟩) (ho : task.owner? = some (P.id r))
    (hc : ∀ c ∈ cs', P.CallbackFit r c ∨ c ∈ cs) : P.Fit k ⟨o, task, cs'⟩ := by
  have hall : ∀ {r₂}, P.id r₂ = P.id r → (∀ c' ∈ c :: cs, P.CallbackFit r₂ c') →
      ∀ c' ∈ cs', P.CallbackFit r₂ c' := by
    intro r₂ hid hcs c' hc'
    obtain rfl := id_inj.mp hid
    rcases hc c' hc' with h | h
    · exact h
    · exact hcs c' (by simp [h])
  cases h with
  | sender hl hs hcs ht => exact .sender hl hs (hall (Option.some.inj ho) hcs) fun _ => ht (by simp)
  | receiver hl hs hcs ht =>
    exact .receiver hl hs (hall (Option.some.inj ho) hcs) fun _ => ht (by simp)

theorem ofOperation_serving {op : Operation} {c : Call} (hp : op.peaceful = true)
    (hs : op.serves = true) (h : Call.ofOperation (P.party r) op = .more c) : P.Serving r c := by
  cases op with
  | postSend data handler =>
    simp only [Call.ofOperation, Call.sendFits] at h
    split at h <;> cases h
    rename_i hsize
    exact ⟨rfl, ⟨hp, fun _ => Nat.le_of_not_lt hsize⟩, trivial⟩
  | waitSend data =>
    simp only [Call.ofOperation, Call.sendFits] at h
    split at h <;> cases h
    rename_i hsize
    exact ⟨rfl, ⟨rfl, fun _ => Nat.le_of_not_lt hsize⟩, trivial⟩
  | postReceive into handler =>
    cases h
    exact ⟨rfl, ⟨hp, fun h => by cases h⟩, trivial⟩
  | waitReceive into =>
    cases h
    exact ⟨rfl, ⟨rfl, fun h => by cases h⟩, trivial⟩
  | readState =>
    cases h
    rfl
  | _ => cases hs

theorem start_serving {c : Command} {id : String} {payload : Bytes} {call : Call}
    (hc : c.peaceful = true) (h : c.start (P.party r) id payload = some (.more call)) :
    P.Serving r call := by
  cases c with
  | hold =>
    cases h
    trivial
  | state => exact ofOperation_serving (P := P) rfl rfl (Option.some.inj h)
  | postSend id' data onDone onError =>
    exact ofOperation_serving (P := P) (by exact hc) rfl (Option.some.inj h)
  | postReceive id' into onDone onError =>
    exact ofOperation_serving (P := P) (by exact hc) rfl (Option.some.inj h)
  | waitSend data => exact ofOperation_serving (P := P) rfl rfl (Option.some.inj h)
  | waitReceive into => exact ofOperation_serving (P := P) rfl rfl (Option.some.inj h)
  | destroy => cases hc
  | panic => cases h

theorem ofScript_fit {id : String} {payload : Bytes} {script : Script} {s : CallbackState}
    (hp : Script.peaceful script = true)
    (h : CallbackState.ofScript (P.party r) id payload script = some s) :
    P.CallbackStateFit r s := by
  cases script with
  | nil => cases h
  | cons c rest =>
    simp only [Script.peaceful, Bool.and_eq_true] at hp
    cases hst : c.start (P.party r) id payload with
    | none =>
      simp only [CallbackState.ofScript, hst, Option.some.injEq] at h
      subst h
      trivial
    | some f =>
      cases f with
      | done e =>
        simp only [CallbackState.ofScript, hst, Option.some.injEq] at h
        subst h
        exact hp.2
      | more call =>
        simp only [CallbackState.ofScript, hst, Option.some.injEq] at h
        subst h
        exact ⟨start_serving hp.1 hst, hp.2⟩

theorem Law.of_callback {o task : Task} {c : Callback} {cs cs' : List Callback} (h : P.Law w)
    (ht : w.threads[t]? = some ⟨o, task, c :: cs⟩) (ho : task.owner? = some (P.id r))
    (hv : Served P r w v) (hc : ∀ c ∈ cs', P.CallbackFit r c ∨ c ∈ cs) :
    P.Law (v.putThread t ⟨o, task, cs'⟩) := by
  have hf := h.fit ht
  have hl : task.locks = none := by
    cases hf <;> rfl
  exact h.of_served ht hv (hf.recallback ho hc) hl hl fun d => due_callbacks _ _ _ _ d

theorem Law.moves (h : P.Law w) (ht : w.threads[t]? = some th) (hm : P.Moves w t th v th') :
    P.Law (v.putThread t th') := by
  cases hm with
  | sender hl hs hm => exact h.sends ht hl hs hm
  | receiver hl hs hm => exact h.receives ht hl hs hm
  | connect hs hm => exact h.connects ht hs hm
  | connected hs hm => exact h.connected ht hs hm
  | finalize hs hm => exact h.finishes ht hs hm
  | finalized hs hm => exact h.finished ht hm
  | call ho hc hm =>
    have hc' := hm.fit hc
    exact h.of_served ht (hm.served hc) (.call ho hc') (serving_locks hc') (serving_locks hc)
      fun d => by rw [due_serving hc', due_serving hc]
  | called ho hc hm =>
    exact h.of_served ht (hm.served hc) .leaving rfl (serving_locks hc) fun d => by
      rw [due_leaving ho, due_serving hc]
  | callback hf ho hc hst hm =>
    have hs := hst ▸ hc.state
    refine h.of_callback ht ho (hm.served hs.1) fun c' hc' => ?_
    rcases List.mem_cons.mp hc' with rfl | hc'
    · exact .inl ⟨hc.party, hm.fit hs.1, hs.2⟩
    · exact .inr hc'
  | ended hf ho hc hst hm =>
    have hs := hst ▸ hc.state
    refine h.of_callback ht ho (hm.served hs.1) fun c' hc' => ?_
    rcases List.mem_cons.mp hc' with rfl | hc'
    · exact .inl ⟨hc.party, hs.2⟩
    · exact .inr hc'
  | @acted o task r c cs command e rest hf ho hc hst =>
    have hs := hst ▸ hc.state
    have hnote : P.Law (w.note (P.id r) (.acted c.lane c.id c.index command e)) :=
      h.of_same (g := .gate) rfl (shifts_refl _ _) rfl fun r x hx =>
        ⟨x, hx, ⟨rfl, rfl, rfl, rfl, rfl, rfl⟩, fun d job hj => .inl hj⟩
    refine hnote.of_callback ht ho .still fun c' hc' => ?_
    rcases List.mem_append.mp hc' with hc' | hc'
    · obtain ⟨s, hs', rfl⟩ := Option.map_eq_some_iff.mp (Option.mem_toList.mp hc')
      exact .inl ⟨hc.party, ofScript_fit hs (hc.party ▸ hs')⟩
    · exact .inr hc'
  | @release o r out x hx hown =>
    have hfit := h.end_ hx
    have hhold : x.linkHolder ≠ some t := fun hh => by
      obtain ⟨th, hth, hl⟩ := (h.holder hx t).mp hh
      rw [← Option.some.inj (ht.symm.trans hth)] at hl
      cases hl
    refine h.of_turn ht rfl rfl hx rfl .ended
      ⟨hfit.settings, hfit.stopped, hfit.open_, hfit.link, hfit.jobs⟩
      ⟨fun u => ?_, nofun, .inl rfl⟩ (fun r' hr => ⟨nofun, nofun⟩) fun d => ?_
    · by_cases hut : u = t
      · subst hut
        simp [hhold, Task.locks]
      · rw [if_neg hut]
    · have htwo := h.two_le_owners ht hx rfl
      have hend := ends_set (P := P) (w := w) (y := { x with owners := x.owners - 1 })
        (v := w.putEndpoint (P.id r) { x with owners := x.owners - 1 }) hx rfl
      have hc : ∀ r', P.connected (w.putEndpoint (P.id r) { x with owners := x.owners - 1 }) r' =
          P.connected w r' := by
        intro r'
        by_cases hr : r' = r
        · subst hr
          simp [Pair.connected, hend, hx]
        · simp [Pair.connected, hend, hr]
      cases d with
      | token => rfl
      | gate | attached | worker => simp only [total, hc]; rfl
      | owner r' =>
        by_cases hr : r' = r
        · subst hr
          simp [total, owners, hend, hx, due, Task.owner?]
          omega
        · have hid : P.id r ≠ P.id r' := fun he => hr (id_inj.mp he.symm)
          simp [total, owners, hend, hr, due, Task.owner?, hid]

end Pair

end QueuePair
