import QueuePair.Proofs.Pair.Wire
import QueuePair.Proofs.Pair.Working

namespace QueuePair

open World

namespace Pair

variable {P : Pair} {capacity : Nat} {w v : World} {t : ThreadId} {th th' : Thread} {r : Role}
  {x : Endpoint} {e : EndpointId} {d : Direction} {n : Nat}

theorem ofOperation_numbers {p : Party} {op : Operation} {c : Call}
    (h : Call.ofOperation p op = .more c) : c.numbers e d n = 0 := by
  cases op with
  | connect | accept | finalizeConnect | finalizeAccept =>
    simp only [Call.ofOperation, Call.requireRole] at h
    split at h <;> cases h
    rfl
  | postSend data handler | waitSend data =>
    simp only [Call.ofOperation, Call.sendFits] at h
    split at h <;> cases h
    simp [Call.numbers, Waiting.start, Waiting.numbers, Posting.numbers]
  | postReceive | waitReceive | readState | destroy =>
    cases h
    simp [Call.numbers, Waiting.start, Waiting.numbers, Posting.numbers]

theorem ofScript_numbers {p : Party} {id : String} {payload : Bytes} {script : Script}
    {s : CallbackState} (h : CallbackState.ofScript p id payload script = some s) :
    s.numbers e d n = 0 := by
  cases script with
  | nil => cases h
  | cons c rest =>
    cases hst : c.start p id payload with
    | none =>
      simp only [CallbackState.ofScript, hst, Option.some.injEq] at h
      subst h
      rfl
    | some f =>
      cases f with
      | done e =>
        simp only [CallbackState.ofScript, hst, Option.some.injEq] at h
        subst h
        rfl
      | more call =>
        simp only [CallbackState.ofScript, hst, Option.some.injEq] at h
        subst h
        cases c with
        | hold => cases hst; rfl
        | panic => cases hst
        | _ => exact ofOperation_numbers (Option.some.inj hst)

theorem resolve_numbers {job : Job} {error : Option Error} {c : Callback}
    (h : (w.resolve (P.party r) d job error).2 = some c) {d' : Direction} :
    c.state.numbers e d' n = 0 := by
  obtain ⟨serial, data, handler⟩ := job
  cases handler with
  | caller => cases h
  | callbacks id onDone onError =>
    rw [resolve_callbacks] at h
    obtain ⟨s, hs, rfl⟩ := Option.map_eq_some_iff.mp h
    exact ofScript_numbers hs

theorem push_numbers {task origin : Task} (ht : ∀ e d n, task.numbers e d n = 0)
    {c : Option Callback} (hc : ∀ a, c = some a → ∀ e d n, a.state.numbers e d n = 0) :
    Thread.numbers e d n ⟨origin, task, c.toList⟩ = 0 := by
  cases c with
  | none => simp [Thread.numbers, ht]
  | some a => simp [Thread.numbers, ht, hc a rfl]

theorem resolve_calm (hx : w.endpoints[P.id r]? = some x) (job : Job) (error : Option Error) :
    P.Calm capacity w (w.resolve (P.party r) d job error).1 := by
  obtain ⟨serial, data, handler⟩ := job
  cases handler with
  | callbacks id onDone onError => exact .of_eq rfl rfl
  | caller =>
    obtain ⟨a, ha⟩ := resolve_caller (w := w) (P.party r) d serial data error
    rw [ha]
    exact .of_ends rfl hx (modify_of_getElem? hx) rfl rfl

theorem resolve_history (w : World) (p : Party) (d : Direction) (job : Job)
    (error : Option Error) : (w.resolve p d job error).1.history =
      .noted p.id (.resolved d job error) :: w.history := by
  simp only [resolve]
  split <;> rfl

namespace Stride

/-- One side after an access by a thread that neither sends nor receives. -/
theorem sides_of_access {y : Endpoint} {posting : Direction → Nat → Nat}
    (s : P.Stride w v t th th') (hs : ∀ r, th'.task.sender? r = th.task.sender? r)
    (hr : ∀ r, th'.task.receiver? r = th.task.receiver? r)
    (hother : ∀ r', r' ≠ r → ∀ d n, th'.numbers (P.id r') d n = th.numbers (P.id r') d n)
    (hx : w.endpoints[P.id r]? = some x) (he : v.endpoints = w.endpoints.set (P.id r) y)
    (hh : v.history = w.history ∨ ∃ e n, v.history = .noted e n :: w.history)
    (hn : (P.side (v.putThread t th') r).posting = posting) :
    P.side (v.putThread t th') = Function.update (P.side w) r
      { P.side w r with queue := y.queue, next := y.nextSerial, posting } := by
  have hend := endpoint_set hx he
  have hp : v.history = w.history ∨ ∃ ev, v.history = ev :: w.history ∧ ∀ f, ev.stored? f = none :=
    hh.imp_right fun ⟨e, n, hh⟩ => ⟨_, hh, fun _ => rfl⟩
  have hq : v.history = w.history ∨ ∃ ev, v.history = ev :: w.history ∧ ∀ f, ev.loaded? f = none :=
    hh.imp_right fun ⟨e, n, hh⟩ => ⟨_, hh, fun _ => rfl⟩
  have hself : P.endpoint (v.putThread t th') r = y := (hend r).trans (if_pos rfl)
  refine s.sides (Side.ext ?_ ?_ hn (s.sender_same (hs r)) (s.receiver_same (hr r))
      (s.published_same hp r) (s.processed_same hq r))
    (fun r' hne => (hend r').trans (if_neg hne)) (fun r' _ => hs r') (fun r' _ => hr r') hother
    (fun r' _ => s.published_same hp r') fun r' _ => s.processed_same hq r'
  · simp only [side, hself]
  · simp only [side, hself]

/-- A post draws the next number. -/
theorem carries_of_number (s : P.Stride w v t th th')
    (hs : ∀ r, th'.task.sender? r = th.task.sender? r)
    (hr : ∀ r, th'.task.receiver? r = th.task.receiver? r)
    (hother : ∀ r', r' ≠ r → ∀ d n, th'.numbers (P.id r') d n = th.numbers (P.id r') d n)
    (hx : w.endpoints[P.id r]? = some x)
    (he : v.endpoints = w.endpoints.set (P.id r) { x with nextSerial := x.nextSerial + 1 })
    (hk : v.kernel = w.kernel) (hh : v.history = w.history)
    (hn : ∀ d' n, th'.numbers (P.id r) d' n ≤
      th.numbers (P.id r) d' n + if n = x.nextSerial then 1 else 0) :
    P.Carries capacity w (v.putThread t th') := by
  obtain ⟨posting, hposting⟩ : ∃ p, (P.side (v.putThread t th') r).posting = p := ⟨_, rfl⟩
  have hside : P.side (v.putThread t th') = Function.update (P.side w) r
      { P.side w r with next := (P.side w r).next + 1, posting } := by
    rw [s.sides_of_access hs hr hother hx he (.inl hh) hposting]
    simp only [side, endpoint_eq hx]
    rfl
  refine ⟨deals_of_side hside (congrArg P.boxFile hk)
    (congrArg (fun k : Kernel => fun r => k.gauge P.keys (.signal r)) hk) ?_,
    s.signed_after (.inl hh), show P.Housed v.kernel from hk ▸ s.housed⟩
  rw [show (v.putThread t th').history = w.history from hh]
  refine .number fun d' n => ?_
  have hpost := s.posting r d' n
  have hnum := hn d' n
  have hnext : ((P.traffic w).side r).next = x.nextSerial :=
    congrArg Endpoint.nextSerial (endpoint_eq hx)
  rw [hnext, ← hposting]
  change _ ≤ (P.side w r).posting d' n + _
  omega

/-- A post has its job queued. -/
theorem carries_of_accept {q : WorkQueue Job} {job : Job} (s : P.Stride w v t th th')
    (hs : ∀ r, th'.task.sender? r = th.task.sender? r)
    (hr : ∀ r, th'.task.receiver? r = th.task.receiver? r)
    (hother : ∀ r', r' ≠ r → ∀ d n, th'.numbers (P.id r') d n = th.numbers (P.id r') d n)
    (hx : w.endpoints[P.id r]? = some x) (hq : (x.queue d).post job = some q)
    (he : v.endpoints = w.endpoints.set (P.id r) (x.withQueue d q)) (hk : v.kernel = w.kernel)
    (hh : v.history = .noted (P.id r) (.accepted d job) :: w.history)
    (hn : ∀ d' n, th'.numbers (P.id r) d' n + (if d' = d ∧ n = job.serial then 1 else 0) ≤
      th.numbers (P.id r) d' n) : P.Carries capacity w (v.putThread t th') := by
  obtain ⟨posting, hposting⟩ : ∃ p, (P.side (v.putThread t th') r).posting = p := ⟨_, rfl⟩
  have hside : P.side (v.putThread t th') = Function.update (P.side w) r { P.side w r with
      queue := Function.update (P.side w r).queue d q, posting } := by
    rw [s.sides_of_access hs hr hother hx he (.inr ⟨_, _, hh⟩) hposting]
    simp only [side, endpoint_eq hx, queue_update, nextSerial_withQueue]
  refine ⟨deals_of_side hside (congrArg P.boxFile hk)
    (congrArg (fun k : Kernel => fun r => k.gauge P.keys (.signal r)) hk) ?_,
    s.signed_after (.inr ⟨_, hh, (by rintro _ ⟨⟩)⟩), show P.Housed v.kernel from hk ▸ s.housed⟩
  rw [show (v.putThread t th').history = .noted (P.id r) (.accepted d job) :: w.history from hh]
  refine .accept (by rw [queue_eq hx]; exact hq) fun d' n => ?_
  have hpost := s.posting r d' n
  have hnum := hn d' n
  rw [← hposting]
  change _ ≤ (P.side w r).posting d' n
  omega

/-- The steps of a post, by any thread that makes it. -/
theorem carries_of_posts {data : Buffer} {handler : Handler} {a : Posting}
    {f : Flow Posting (Except Error Nat)} (s : P.Stride w v t th th')
    (hs : ∀ r, th'.task.sender? r = th.task.sender? r)
    (hr : ∀ r, th'.task.receiver? r = th.task.receiver? r)
    (hn : ∀ e d' n, th'.numbers e d' n + (if P.id r = e ∧ d' = d then a.numbers n else 0) =
      th.numbers e d' n +
        if P.id r = e ∧ d' = d then f.elim (Posting.numbers n) (fun _ => 0) else 0)
    (hp : P.Posts r d data handler w a v f) : P.Carries capacity w (v.putThread t th') := by
  have hless : (∀ n, f.elim (Posting.numbers n) (fun _ => 0) ≤ a.numbers n) →
      ∀ r d n, th'.numbers (P.id r) d n ≤ th.numbers (P.id r) d n := by
    intro hle r' d' n
    have hnum := hn (P.id r') d' n
    have hless := hle n
    split at hnum <;> omega
  have hother : ∀ r', r' ≠ r → ∀ d n, th'.numbers (P.id r') d n = th.numbers (P.id r') d n := by
    intro r' hne d' n
    have hid : ¬ (P.id r = P.id r' ∧ d' = d) := fun h => hne (id_inj.mp h.1).symm
    have hnum := hn (P.id r') d' n
    rw [if_neg hid, if_neg hid] at hnum
    exact hnum
  cases hp with
  | ready | refuse | noClock | late =>
    exact s.quiet_same (.refl w) hs hr (hless fun _ => Nat.zero_le _) (.inl rfl)
  | clock | full | wake =>
    exact s.quiet_same (.refl w) hs hr (hless fun _ => Nat.le_refl _) (.inl rfl)
  | @number x hx =>
    refine s.carries_of_number hs hr hother hx rfl rfl rfl fun d' n => ?_
    have hnum := hn (P.id r) d' n
    simp only [true_and, Posting.numbers, Flow.elim, ite_self] at hnum
    by_cases hd : d' = d <;> simp_all
  | @accept x q job dl hx hq =>
    refine s.carries_of_accept hs hr hother hx hq rfl rfl rfl fun d' n => ?_
    have hnum := hn (P.id r) d' n
    simp only [true_and, Posting.numbers, Flow.elim, ite_self] at hnum
    by_cases hd : d' = d <;> simp_all

theorem waits {data : Buffer} {a : Waiting} {f : Flow Waiting (Except Error Buffer)}
    (s : P.Stride w v t th th') (hs : ∀ r, th'.task.sender? r = th.task.sender? r)
    (hr : ∀ r, th'.task.receiver? r = th.task.receiver? r)
    (hn : ∀ e d' n, th'.numbers e d' n + (if P.id r = e ∧ d' = d then a.numbers n else 0) =
      th.numbers e d' n +
        if P.id r = e ∧ d' = d then f.elim (Waiting.numbers n) (fun _ => 0) else 0)
    (hw : P.Waits r d data w a v f) : P.Carries capacity w (v.putThread t th') := by
  have hsame : (∀ n, a.numbers n = 0) → (∀ n, f.elim (Waiting.numbers n) (fun _ => 0) = 0) →
      ∀ r d n, th'.numbers (P.id r) d n = th.numbers (P.id r) d n := by
    intro ha hf r' d' n
    have hnum := hn (P.id r') d' n
    simpa only [ha, hf, ite_self, Nat.add_zero] using hnum
  cases hw with
  | post hp => exact s.carries_of_posts hs hr hn hp
  | posted hp => exact s.carries_of_posts hs hr hn hp
  | refused hp => exact s.carries_of_posts hs hr hn hp
  | clock | answer | giveUp | keep | poll =>
    exact s.quiet_same (.refl w) hs hr
      (fun r d n => Nat.le_of_eq (hsame (fun _ => rfl) (fun _ => rfl) r d n)) (.inl rfl)
  | @withdraw x q serial job hx hq =>
    have hnum := hsame (fun _ => rfl) fun _ => rfl
    have hposting : (P.side ((w.putEndpoint (P.id r) (x.withQueue d q)).note (P.id r)
        (.withdrawn d serial) |>.putThread t th') r).posting = (P.side w r).posting := by
      funext d' n
      have hpost := s.posting r d' n
      rw [hnum] at hpost
      exact Nat.add_right_cancel hpost
    have hside := (s.sides_of_access hs hr (fun r' _ => hnum r') hx rfl (.inr ⟨_, _, rfl⟩)
      hposting).trans (c := Function.update (P.side w) r
        { P.side w r with queue := Function.update (P.side w r).queue d q })
      (by simp only [side, endpoint_eq hx, queue_update, nextSerial_withQueue])
    exact ⟨deals_of_side hside rfl rfl (.withdraw (by rw [queue_eq hx]; exact hq)),
      s.signed_after (.inr ⟨_, rfl, (by rintro _ ⟨⟩)⟩), s.housed⟩

theorem serves {c : Call} {f : Flow Call Result} (s : P.Stride w v t th th')
    (hs : ∀ r, th'.task.sender? r = th.task.sender? r)
    (hr : ∀ r, th'.task.receiver? r = th.task.receiver? r)
    (hn : ∀ e d n, th'.numbers e d n + c.numbers e d n =
      th.numbers e d n + f.elim (Call.numbers e d n) fun _ => 0)
    (hc : P.Serves r w c v f) : P.Carries capacity w (v.putThread t th') := by
  cases hc with
  | post hp =>
    refine s.carries_of_posts hs hr ?_ hp
    exact hn
  | posted hp =>
    refine s.carries_of_posts hs hr (fun e d n => ?_) hp
    simp only [Flow.elim, ite_self]
    exact hn e d n
  | wait hw =>
    refine s.waits hs hr ?_ hw
    exact hn
  | waited hw =>
    refine s.waits hs hr (fun e d n => ?_) hw
    simp only [Flow.elim, ite_self]
    exact hn e d n
  | readState | hold =>
    exact s.quiet_same (.refl w) hs hr (fun r d n => Nat.le_of_eq (hn (P.id r) d n)) (.inl rfl)

end Stride

theorem Connects.history {s : Connecting} {f : Flow Connecting (Except Error Unit)}
    (h : P.Connects r w t s v f) : v.history = w.history := by
  cases h with
  | map hm | mapped hm | unmapped hm => cases hm <;> rfl
  | boxSet hj | boxMade hj | boxJoined hj | outSet hj | outDone hj | inSet hj | inDone hj =>
    cases hj <;> rfl
  | _ => rfl

theorem Finishes.history {s : Finalizing} {f : Flow Finalizing (Except Error Unit)}
    (h : P.Finishes r w s v f) : v.history = w.history := by
  cases h with
  | meet hm | met hm => cases hm <;> rfl
  | _ => rfl

theorem opened_aside (o : Except Error Unit) : (∀ r', (P.opened r o).sender? r' = none) ∧
    (∀ r', (P.opened r o).receiver? r' = none) ∧
    ∀ e d n, (P.opened r o).numbers e d n = 0 := by
  cases o with
  | error e => exact ⟨fun _ => rfl, fun _ => rfl, fun _ _ _ => rfl⟩
  | ok a => cases r <;> exact ⟨fun _ => rfl, fun _ => rfl, fun _ _ _ => rfl⟩

/-- Every step in which a thread gets an answer. -/
theorem Stride.moves (s : P.Stride w v t th th') (hcap : ∀ r, (P.settings r).capacity = capacity)
    (hm : P.Moves w t th v th') : P.Carries capacity w (v.putThread t th') := by
  have hlaw := s.law
  cases hm with
  | sender hl hs hm => exact s.sends hl hs (hcap _) hm
  | receiver hl hs hm => exact s.receives hl (hcap _) hm
  | connect hs hm =>
    exact s.quiet_same (hm.calm hlaw s.housed (hcap _) hs) (fun _ => rfl) (fun _ => rfl)
      (fun _ _ _ => Nat.le_refl _) (.inl hm.history)
  | @connected r a v o hs hm =>
    obtain ⟨hsender, hreceiver, hnum⟩ := opened_aside (P := P) (r := r) o
    exact s.quiet_same (hm.calm hlaw s.housed (hcap _) hs) hsender hreceiver
      (fun r d n => by simp [Thread.numbers, hnum]) (.inl hm.history)
  | finalize hs hm | finalized hs hm =>
    exact s.quiet_same hm.calm (fun _ => rfl) (fun _ => rfl) (fun _ _ _ => Nat.le_refl _)
      (.inl hm.history)
  | call ho hc hm =>
    exact s.serves (fun _ => rfl) (fun _ => rfl) (fun e d n => Nat.add_comm _ _) hm
  | called ho hc hm =>
    exact s.serves (fun _ => rfl) (fun _ => rfl) (fun e d n => Nat.add_comm _ _) hm
  | callback hf ho hc hst hm =>
    refine s.serves (fun _ => rfl) (fun _ => rfl) (fun e d n => ?_) hm
    simp only [Thread.numbers, List.map_cons, List.sum_cons, hst, CallbackState.numbers, Flow.elim]
    omega
  | ended hf ho hc hst hm =>
    refine s.serves (fun _ => rfl) (fun _ => rfl) (fun e d n => ?_) hm
    simp only [Thread.numbers, List.map_cons, List.sum_cons, hst, CallbackState.numbers, Flow.elim]
    omega
  | @acted o task r c cs command e rest hf ho hc hst =>
    refine s.quiet_same (.of_eq rfl rfl) (fun _ => rfl) (fun _ => rfl) (fun r d n => ?_)
      (.inr ⟨_, _, rfl, fun _ => ⟨⟨fun _ => rfl, fun _ => rfl, fun _ => rfl, rfl⟩, rfl⟩⟩)
    have hnew : ((((CallbackState.ofScript c.party c.id c.payload rest).map fun s =>
        { c with index := c.index + 1, state := s }).toList).map
          (·.state.numbers (P.id r) d n)).sum = 0 := by
      cases hscript : CallbackState.ofScript c.party c.id c.payload rest with
      | none => rfl
      | some s => simp [ofScript_numbers hscript]
    simp only [Thread.numbers, List.map_cons, List.sum_cons, List.map_append, List.sum_append, hnew]
    omega
  | release hx =>
    exact s.quiet_same (.of_put hx rfl rfl) (fun _ => rfl) (fun _ => rfl)
      (fun _ _ _ => Nat.le_refl _) (.inl rfl)

theorem resolve_endpoint (hx : w.endpoints[P.id r]? = some x) (job : Job) (error : Option Error)
    {r' : Role} (hne : r' ≠ r) :
    P.endpoint (w.resolve (P.party r) d job error).1 r' = P.endpoint w r' := by
  obtain ⟨serial, data, handler⟩ := job
  cases handler with
  | callbacks id onDone onError => rfl
  | caller =>
    obtain ⟨a, ha⟩ := resolve_caller (w := w) (P.party r) d serial data error
    rw [ha, endpoint_set (y := x.putReply serial a) hx (modify_of_getElem? hx), if_neg hne]

theorem Stride.hands {l : Link} {a : Receiver} {slot : Nat} {job : Job} {error : Option Error}
    {c : Option Callback} (s : P.Stride w (w.resolve (P.party r) .receive job error).1 t
      ⟨.receiver (P.party r) l .await, .receiver (P.party r) l a, []⟩
      ⟨.receiver (P.party r) l .await, .receiver (P.party r) l (.recycle slot true), c.toList⟩)
    (hc : ∀ b, c = some b → ∀ e d n, b.state.numbers e d n = 0) (hp : a.pending = [(job, error)])
    (hf : a.flight = 0) (hl : a.looking = []) (hslot : a.slot? = some slot) :
    P.Carries capacity w ((w.resolve (P.party r) .receive job error).1.putThread t
      ⟨.receiver (P.party r) l .await, .receiver (P.party r) l (.recycle slot true),
      c.toList⟩) := by
  obtain ⟨x, hx, -⟩ := s.law.ends r
  have hcalm : P.Calm capacity w (w.resolve (P.party r) .receive job error).1 :=
    resolve_calm hx job error
  have hhist := resolve_history w (P.party r) .receive job error
  obtain ⟨-, hk⟩ := resolve_same (w := w) (P.party r) .receive job error
  have hside := s.side_receiver (fun _ _ _ => push_numbers (fun _ _ _ => rfl) hc)
    (fun r' hne => resolve_endpoint hx job error hne) (hcalm.queue r) (hcalm.next r)
    (s.processed_same (.inr ⟨_, hhist, fun _ => rfl⟩) r)
    (fun r' _ => s.processed_same (.inr ⟨_, hhist, fun _ => rfl⟩) r')
    (s.published_same (.inr ⟨_, hhist, fun _ => rfl⟩))
  have hw : ((P.traffic w).side r).receiver = a := (s.receiver_of (r := r) (by simp)).1
  have hback : P.Deals capacity (P.traffic w) _ := .handBack (r := r)
    (hw ▸ hp) (hw ▸ hf) (hw ▸ hl) (hw ▸ hslot)
  refine ⟨deals_of_side hside (congrArg P.boxFile hk) (by rw [putThread_kernel, hk]) ?_,
    s.signed_after (.inr ⟨_, hhist, nofun⟩), hcalm.housed s.housed⟩
  change P.Deals capacity _ ⟨(w.resolve (P.party r) .receive job error).1.history, _, _, _⟩
  rw [hhist]
  exact hback

theorem Stride.returns {p : Party} {i : Invocation} {after : Thread}
    (s : P.Stride w (w.invoke p i).1 t th (after.push (w.invoke p i).2))
    (hr : P.Returns w.kernel th p i after) :
    P.Carries capacity w ((w.invoke p i).1.putThread t (after.push (w.invoke p i).2)) := by
  cases hr with
  | @sent r l slot job hl hj =>
    obtain ⟨x, hx, -⟩ := s.law.ends r
    refine s.quiet_sender (resolve_calm hx job none) ?_ (fun r' hne => ?_) (fun _ => rfl)
      (fun _ _ _ => ?_) (.inr ⟨_, _, resolve_history _ _ _ _ _, fun r' => ?_⟩)
    · simp only [Thread.push, sender?_party, if_pos]
      exact ⟨rfl, rfl, fun _ h => h⟩
    · simp [Thread.push, Ne.symm hne]
    · rw [Thread.push, List.append_nil]
      exact push_numbers (fun _ _ _ => rfl) fun b hb _ _ _ => resolve_numbers hb
    · exact ⟨⟨fun _ => rfl, fun _ => rfl, fun _ => rfl, rfl⟩, by simp [Event.resolved?]⟩
  | received hl hj =>
    simp only [Thread.push, List.append_nil] at s ⊢
    exact s.hands (fun b hb _ _ _ => resolve_numbers hb) rfl rfl rfl rfl
  | refused hl hj =>
    simp only [Thread.push, List.append_nil] at s ⊢
    exact s.hands (fun b hb _ _ _ => resolve_numbers hb) rfl rfl rfl rfl

/-- A panicking thread takes no message along. -/
theorem Stride.panics (s : P.Stride w w t th th.unwound) (hp : P.Panics w.kernel th) :
    P.Carries capacity w (w.putThread t th.unwound) := by
  obtain ⟨r, howner⟩ := hp.owner
  have htask : th.unwound.task = .leaving (P.id r) .release .panicked := by
    simp [Thread.unwound, howner, Task.finish]
  have hnone : ∀ r', th.unwound.task.sender? r' = none ∧ th.unwound.task.receiver? r' = none := by
    rw [htask]
    exact fun _ => ⟨rfl, rfl⟩
  have hnum : ∀ e d n, th.unwound.numbers e d n = 0 := by
    intro e d n
    rw [Thread.numbers, htask]
    rfl
  have hfit := s.law.fit s.thread
  cases hfit with
  | @sender r' l a cs hl hs hc ht =>
    obtain ⟨slot, rfl⟩ := hp.sender _ _ _ rfl
    refine s.quiet_sender (.refl w) ?_ (fun r _ => (hnone r).1) (fun r => (hnone r).2)
      (fun r d n => hnum (P.id r) d n) (.inl rfl)
    rw [(hnone r').1]
    exact ⟨rfl, rfl, (by rintro _ ⟨⟩)⟩
  | @receiver r' l a cs hl hs hc ht =>
    obtain ⟨slot, rfl⟩ := hp.receiver _ _ _ rfl
    refine s.quiet_receiver (.refl w) ?_ (fun r => (hnone r).1) (fun r _ => (hnone r).2)
      (fun r d n => hnum (P.id r) d n) (.inl rfl)
    rw [(hnone r').2]
    exact ⟨rfl, rfl, rfl, (by rintro _ ⟨⟩)⟩
  | connecting | finalizing | call | leaving | ended =>
    exact s.quiet_same (.refl w) (fun r => (hnone r).1) (fun r => (hnone r).2)
      (fun r d n => by rw [hnum]; exact Nat.zero_le _) (.inl rfl)

/-- No thread moves, but some may be new. -/
theorem Law.carries_quiet {news : List Thread} (hs : w.Signed) (hh : P.Housed w.kernel)
    (hc : P.Calm capacity w v) (hv : v.threads = w.threads ++ news) (hn : ∀ n ∈ news, P.Fresh n)
    (hist : v.history = w.history) : P.Carries capacity w v := by
  have hemploys : ∀ d r, ∀ u < w.threads.length, v.employs d r u = w.employs d r u := by
    intro d r u hu
    rw [World.employs, World.employs, hv, List.getElem?_append_left hu]
  refine ⟨.quiet (fun r => ⟨hc.queue r, hc.next r, fun d n => ?_, ?_, ?_, ?_, ?_⟩) ?_ hc.file
    (.inl hist), fun ev hm u hu => ?_, hc.housed hh⟩
  · have hnews := tally_eq_zero (f := (·.numbers (P.id r) d n))
      fun m hm => (hn m hm).numbers r d n
    have happ : tally (·.numbers (P.id r) d n) v.threads =
        tally (·.numbers (P.id r) d n) w.threads + tally (·.numbers (P.id r) d n) news := by
      simp [tally, hv]
    change tally _ v.threads ≤ tally _ w.threads
    omega
  · change (w.sender r).Alike (v.sender r)
    rw [World.sender, World.sender, hv, seek_append fun n hm => (hn n hm).sender r]
    exact .refl _
  · change (w.receiver r).Alike (v.receiver r)
    rw [World.receiver, World.receiver, hv, seek_append fun n hm => (hn n hm).receiver r]
    exact .refl _
  · change replay _ v.history = w.published r
    rw [hist, published_of_employs hs (hemploys .send r)]
  · change replay _ v.history = w.processed r
    rw [hist, processed_of_employs hs (hemploys .receive r)]
  · funext r
    exact hc.signal r
  · have hold := hs ev (hist ▸ hm) u hu
    rw [hv, List.length_append]
    exact Nat.lt_of_lt_of_le hold (Nat.le_add_right _ _)

theorem Connects.news {s : Connecting} {f : Flow Connecting (Except Error Unit)}
    (h : P.Connects r w t s v f) : v.threads = w.threads ∨
      ∃ p l d, v.threads = w.threads ++ [.ofTask (World.worker p l d)] := by
  cases h with
  | map h | mapped h | unmapped h => cases h <;> exact .inl rfl
  | boxSet h | boxMade h | boxJoined h | outSet h | outDone h | inSet h | inDone h =>
    cases h <;> exact .inl rfl
  | spawnSender | spawnReceiver => exact .inr ⟨_, _, _, rfl⟩
  | _ => exact .inl rfl

theorem Finishes.threads {s : Finalizing} {f : Flow Finalizing (Except Error Unit)}
    (h : P.Finishes r w s v f) : v.threads = w.threads := by
  cases h with
  | meet h | met h => cases h <;> rfl
  | _ => rfl

theorem Posts.threads {data : Buffer} {handler : Handler} {s : Posting}
    {f : Flow Posting (Except Error Nat)} (h : P.Posts r d data handler w s v f) :
    v.threads = w.threads := by
  cases h <;> rfl

theorem Waits.threads {data : Buffer} {s : Waiting} {f : Flow Waiting (Except Error Buffer)}
    (h : P.Waits r d data w s v f) : v.threads = w.threads := by
  cases h with
  | post h | posted h | refused h => exact h.threads
  | _ => rfl

theorem Serves.threads {c : Call} {f : Flow Call Result} (h : P.Serves r w c v f) :
    v.threads = w.threads := by
  cases h with
  | post h | posted h => exact h.threads
  | wait h | waited h => exact h.threads
  | _ => rfl

theorem Moves.news (hm : P.Moves w t th v th') : v.threads = w.threads ∨
    ∃ p l d, v.threads = w.threads ++ [.ofTask (World.worker p l d)] := by
  cases hm with
  | sender _ _ h => cases h <;> exact .inl rfl
  | receiver _ _ h =>
    cases h with
    | discard h | collect h => cases h <;> exact .inl rfl
    | discarded h | collected h => cases h; exact .inl rfl
    | _ => exact .inl rfl
  | connect _ h | connected _ h => exact h.news
  | finalize _ h | finalized _ h => exact .inl h.threads
  | call _ _ h | called _ _ h | callback _ _ _ _ h | ended _ _ _ _ h => exact .inl h.threads
  | _ => exact .inl rfl

theorem fresh_worker (p : Party) (l : Link) (d : Direction) :
    P.Fresh (.ofTask (World.worker p l d)) := by
  refine ⟨fun r => ?_, fun r => ?_, fun r d' i => ?_⟩
  · cases d with
    | send =>
      simp only [World.worker, Thread.ofTask, Task.sender?]
      split <;> rfl
    | receive => rfl
  · cases d with
    | send => rfl
    | receive =>
      simp only [World.worker, Thread.ofTask, Task.receiver?]
      split <;> rfl
  · cases d <;> rfl

theorem fresh_operation (op : Operation) : P.Fresh (P.operation r op) := by
  rw [operation]
  cases hop : Call.ofOperation (P.party r) op with
  | more c =>
    exact ⟨fun _ => rfl, fun _ => rfl, fun _ _ _ => ofOperation_numbers hop⟩
  | done o => exact ⟨fun _ => rfl, fun _ => rfl, fun _ _ _ => rfl⟩

/-- Every smallest change of a pair that nobody tears down is one of its traffic. -/
theorem Law.carries (h : P.Law w) (hs : w.Signed) (hh : P.Housed w.kernel)
    (hcap : ∀ r, (P.settings r).capacity = capacity) (ha : P.Acts w v) :
    P.Carries capacity w v := by
  have hnone : ∀ n ∈ ([] : List Thread), P.Fresh n := by simp
  have hlaw := h.of_acts ha
  cases ha with
  | @move t th th' v ht hm =>
    refine Stride.moves ⟨h, hlaw, hs, hh, ht, ?_, (hm.keeps).1⟩ hcap hm
    rcases hm.news with hv | ⟨p, l, d, hv⟩
    · exact ⟨[], by simp [hv], by simp⟩
    · exact ⟨_, hv, fun n hn => List.mem_singleton.mp hn ▸ fresh_worker p l d⟩
  | @back t th p i after ht hr =>
    refine Stride.returns ⟨h, hlaw, hs, hh, ht, ⟨[], ?_, by simp⟩, (hr.keeps _).1⟩ hr
    cases hr <;> exact (resolve_same _ _ _ _).1.trans (List.append_nil _).symm
  | @panic t th ht hp =>
    exact Stride.panics ⟨h, hlaw, hs, hh, ht, ⟨[], by simp, by simp⟩, rfl⟩ hp
  | @operate r x op hx hp =>
    exact Law.carries_quiet hs hh (.of_ends rfl hx rfl rfl rfl) rfl
      (fun n hn => List.mem_singleton.mp hn ▸ fresh_operation op) rfl
  | @register r x key hx =>
    exact Law.carries_quiet hs hh (.of_put hx rfl rfl) (List.append_nil _).symm hnone rfl
  | release => exact Law.carries_quiet hs hh (.of_eq rfl rfl) (List.append_nil _).symm hnone rfl
  | settle ha =>
    have hk := Kernel.shifts_of_waiters (K := P.keys) (g := .gate) ha.files ha.limits ha.sets
    refine Law.carries_quiet hs hh ⟨fun r => ?_, fun r => ?_, fun r => ?_, ?_, ?_⟩
      (ha.threads.trans (List.append_nil _).symm) hnone ha.history
    · rw [endpoint, ha.endpoints]
      rfl
    · rw [endpoint, ha.endpoints]
      rfl
    · have hg := hk.gauge (.signal r)
      simp only [reduceCtorEq, if_false] at hg
      omega
    · have hbox : P.boxFile v.kernel = P.boxFile w.kernel := by simp only [boxFile, ha.files]
      exact hbox ▸ .refl _ _
    · exact fun hh => hh.of_files ha.files

end Pair

end QueuePair
