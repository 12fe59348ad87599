import QueuePair.Proofs.Pair.Setup

namespace QueuePair

open World

namespace Pair

variable (P : Pair)

/-- Two connected sides, with the same objects in the state that both need them to be in. -/
structure Established (former : File) (l : Role → Link) (v : World) : Prop where
  sides : ∀ r, ∃ x, v.endpoints[P.id r]? = some x ∧ x.state = .connected ∧ x.link = some (l r)
  mailbox : (l .server).mailbox.semaphores.set = (l .client).mailbox.semaphores.set
  signals : ∀ r, (l r).signals.outbound.set = (l r.peer).signals.inbound.set
  bound : ∀ r, P.Bound v.kernel r (l r)
  file : (l .server).mailbox.file = (l .client).mailbox.file
  -- exactly one of the sides has made each set
  created : ∀ g, ((l .server).handle .server g).created = !((l .client).handle .client g).created
  vacancy : v.kernel.gauge P.keys .vacancy = 1
  gate : v.kernel.gauge P.keys .gate = 2
  attached : v.kernel.gauge P.keys .attached = 2
  signal : ∀ r, v.kernel.gauge P.keys (.signal r) = 0
  -- the bytes that the file had are still there
  kept : ∀ offset count, offset + count ≤ former.length →
    (P.boxFile v.kernel).read offset count = former.read offset count
  longer : former.length ≤ (P.boxFile v.kernel).length
  fits : min (P.size .server) (P.size .client) ≤ (P.boxFile v.kernel).length

def Collides (first : Role) (w : World) : Prop :=
  ∀ r, ∃ th, w.threads[lane first r]? = some th ∧ th.task.extending = true

variable {P} {first r : Role} {former : File} {w v w₁ w₂ : World} {t a b : ThreadId}
  {ts : List ThreadId} {task : Role → Task}

theorem opening_started (r : Role) : Thread.ofTask (.ofStarted (some (P.id r))
      (Call.ofOperation (P.party r) r.opening)) =
    P.opener r (.call (some (P.id r)) (.connecting (P.party r) .lock)) := by
  cases r <;> simp [Role.opening, Call.ofOperation, Call.requireRole, Task.ofStarted, opener,
    Thread.ofTask]

theorem operate_opening {x : Endpoint} (hx : w.endpoints[P.id r]? = some x)
    (hs : x.settings = P.settings r) : w.operate (P.id r) r.opening = some
      ({ w.putEndpoint (P.id r) { x with owners := x.owners + 1 } with
        threads := w.threads ++
          [P.opener r (.call (some (P.id r)) (.connecting (P.party r) .lock))] },
        w.threads.length) := by
  have hp : w.party? (P.id r) = some (P.party r) := by simp [party?, hx, hs, party]
  rw [operate, hp, ← opening_started]
  simp [spawn, modifyEndpoint, modify_of_getElem? hx, putEndpoint]

theorem Begins.started (h : P.Begins w)
    (h₁ : w.operate (P.id first) first.opening = some (w₁, a))
    (h₂ : w₁.operate (P.id first.peer) first.peer.opening = some (w₂, b)) :
    a = 0 ∧ b = 1 ∧ w₂.kernel = w.kernel ∧
      (w₂.threads = [first, first.peer].map fun r =>
        P.opener r (.call (some (P.id r)) (.connecting (P.party r) .lock))) ∧
      ∀ r, ∃ script, w₂.endpoints[P.id r]? =
        some { Endpoint.ofSettings (P.settings r) script with owners := 2 } := by
  obtain ⟨f, hf⟩ := h.ends first
  obtain ⟨g, hg⟩ := h.ends first.peer
  have hlt := (List.getElem?_eq_some_iff.mp hf).1
  have hlt' := (List.getElem?_eq_some_iff.mp hg).1
  have hne : P.id first ≠ P.id first.peer := fun he => peer_ne first (id_inj.mp he).symm
  cases (operate_opening hf rfl).symm.trans h₁
  have hg' : (w.endpoints.set (P.id first)
      { Endpoint.ofSettings (P.settings first) f with owners := 2 })[P.id first.peer]? =
        some (.ofSettings (P.settings first.peer) g) := (List.getElem?_set_ne hne).trans hg
  cases (operate_opening hg' rfl).symm.trans h₂
  refine ⟨by simp [h.threads], by simp [h.threads], rfl, by simp [h.threads],
    forall_role first ⟨f, ?_⟩ ⟨g, ?_⟩⟩
  · refine (List.getElem?_set_ne hne.symm).trans ?_
    exact List.getElem?_set_self hlt
  · exact List.getElem?_set_self (by simpa [putEndpoint] using hlt')

/-- Both sides are about to be connected. -/
theorem Begins.setup (h : P.Begins w) (ho : P.Openable w.kernel)
    (h₁ : w.operate (P.id first) first.opening = some (w₁, a))
    (h₂ : w₁.operate (P.id first.peer) first.peer.opening = some (w₂, b)) :
    P.Setup first (P.boxFile w.kernel) w₂
      fun r => .call (some (P.id r)) (.connecting (P.party r) .lock) := by
  obtain ⟨-, -, hk, ht, hx⟩ := h.started h₁ h₂
  have hnone : ∀ g : Gauge, w₂.kernel.setOf? (g.key P.keys) = none := by
    intro g
    rw [hk]
    cases g with
    | signal r => exact h.signal r
    | gate | vacancy | attached => exact h.mailbox
  refine ⟨hk ▸ h.housed, hk ▸ ho, fun r => ?_, fun t th hth hne => ?_, fun r => ?_, fun r => ?_,
    fun r => ?_, fun g => ?_, ?_⟩
  · rw [ht]
    revert r
    exact forall_role first (by simp [lane]) (by simp [lane, peer_ne])
  · rw [ht] at hth
    match t with
    | 0 => exact (hne first (by simp [lane])).elim
    | 1 => exact (hne first.peer (by simp [lane, peer_ne])).elim
    | t + 2 => simp at hth
  · obtain ⟨script, hs⟩ := hx r
    rw [endpoint_eq hs]
    exact .opening rfl rfl rfl
  · obtain ⟨script, hs⟩ := hx r
    rw [endpoint_eq hs]
    rfl
  · simp [Kernel.gauge, hnone]
  · simp [present, hnone, Task.made, Connecting.made]
  · rw [hk]
    exact ⟨⟨max (P.boxFile w.kernel).length (P.boxFile w.kernel).written.length,
      Nat.le_max_left _ _, (List.take_of_length_le (Nat.le_max_right _ _)).symm⟩, Nat.le_refl _,
      fun _ h => (by cases h), fun _ h => by cases h⟩

theorem Setup.follow {w₀ : World} (hb : P.Begins w₀) (hr : Run Input.Peaceful w₀ w)
    (h : P.Setup first former w task) (hf : w.follow ts = some v) :
    ∃ task', P.Setup first former v task' ∧ Run Input.Peaceful w₀ v ∧
      (∀ r, (task' r).rank + ts.count (lane first r) ≤ (task r).rank) ∧
      (P.Apart (P.boxFile w.kernel) task → P.Apart (P.boxFile v.kernel) task' ∨
        ∃ us u, us <+: ts ∧ w.follow us = some u ∧ Collides first u) := by
  induction ts generalizing w task with
  | nil =>
    cases hf
    exact ⟨task, h, hr, fun r => Nat.le_refl _, .inl⟩
  | cons t ts ih =>
    obtain ⟨u, hs, hf⟩ := Option.bind_eq_some_iff.mp hf
    obtain ⟨hl, hq⟩ := hb.run hr
    obtain ⟨task₁, h₁, hrank₁, hapart₁⟩ := h.step hl hq hs
    obtain ⟨task', h', hr', hrank, hapart⟩ := ih (.step (.run t) hr trivial hs) h₁ hf
    refine ⟨task', h', hr', fun r => ?_, fun ha => ?_⟩
    · have hfirst := hrank₁ r
      have hrest := hrank r
      rw [List.count_cons]
      simp only [beq_iff_eq]
      omega
    · rcases hapart₁ ha with hboth | ha
      · exact .inr ⟨[], w, List.nil_prefix, rfl, fun r => ⟨_, h.lanes r, hboth r⟩⟩
      · refine (hapart ha).imp_right fun ⟨us, y, hpre, hus, hc⟩ =>
          ⟨t :: us, y, List.cons_prefix_cons.mpr ⟨rfl, hpre⟩, ?_, hc⟩
        exact Option.bind_eq_some_iff.mpr ⟨u, hs, hus⟩

theorem Setup.due_zero (h : P.Setup first former w task) (he : ∀ r, ∃ o, task r = .ended o)
    {d : Due} (hd : d = .token ∨ d = .gate ∨ d = .attached) :
    tally (P.due · d) w.threads = 0 := by
  refine tally_eq_zero fun th hm => ?_
  obtain ⟨t, ht⟩ := List.mem_iff_getElem?.mp hm
  by_cases hlane : ∃ r, t = lane first r
  · obtain ⟨r, rfl⟩ := hlane
    obtain rfl := Option.some.inj ((h.lanes r).symm.trans ht)
    obtain ⟨o, ho⟩ := he r
    rw [ho]
    rcases hd with rfl | rfl | rfl <;> rfl
  · cases h.dozes t th ht fun s hs => hlane ⟨s, hs⟩ <;> rcases hd with rfl | rfl | rfl <;> rfl

theorem Setup.returned (h : P.Setup first former w task) (hl : P.Law w) {o : Outcome}
    (ho : task r = .ended o) : o = .returned r.welcome ∧ ∃ x l, w.endpoints[P.id r]? = some x ∧
      x.state = .connected ∧ x.link = some l ∧ P.Bound w.kernel r l := by
  obtain ⟨x, hx, hfit⟩ := hl.ends r
  have hstage := h.stage r
  rw [endpoint_eq hx, ho] at hstage
  cases hstage with
  | ended hstate hlink => exact ⟨rfl, x, _, hx, hstate, hlink, hfit.link _ hlink⟩

theorem Sized.reads {f : File} (h : P.Sized former f task) {offset count : Nat}
    (hle : offset + count ≤ former.length) :
    f.read offset count = former.read offset count := by
  obtain ⟨n, hn, hw⟩ := h.written
  have htake : ((former.written.take n).drop offset).take count =
      (former.written.drop offset).take count := by
    rw [List.drop_take, List.take_take, Nat.min_eq_left (by omega)]
  simp only [File.read, hw, htake]

/-- Both sides have returned. -/
theorem Setup.established (h : P.Setup first former w task) (hl : P.Law w)
    (he : ∀ r, ∃ o, task r = .ended o) : ∃ l, P.Established former l w := by
  have hside : ∀ r, ∃ x l, w.endpoints[P.id r]? = some x ∧ x.state = .connected ∧
      x.link = some l ∧ P.Bound w.kernel r l := fun r =>
    (h.returned hl (he r).choose_spec).2
  choose x l hx hstate hlink hbound using hside
  have hconnected : ∀ r, P.connected w r = 1 := fun r => by
    rw [connected_eq (hx r), if_pos (hstate r)]
  have hset : ∀ g : Gauge, (w.kernel.setOf? (g.key P.keys)).isSome = true := by
    intro g
    cases g with
    | signal r => exact Option.isSome_iff_exists.mpr ⟨_, (hbound r).outbound⟩
    | _ => exact Option.isSome_iff_exists.mpr ⟨_, (hbound .server).box.set⟩
  have hgauge : ∀ {d : Due}, d = .token ∨ d = .gate ∨ d = .attached →
      P.stock w.kernel d = P.total w d := fun {d} hd => by
    have hledger := hl.ledger d
    rwa [h.due_zero he hd] at hledger
  have htoken : w.kernel.gauge P.keys .vacancy + w.kernel.gauge P.keys (.signal .server) +
      w.kernel.gauge P.keys (.signal .client) = 1 := (hgauge (.inl rfl)).trans (if_pos (hset .gate))
  have htwo : P.connected w .server + P.connected w .client = 2 := by
    rw [hconnected, hconnected]
  refine ⟨l, ⟨fun r => ⟨x r, hx r, hstate r, hlink r⟩, ?_, fun r => ?_, hbound, ?_, fun g => ?_, ?_,
    (hgauge (.inr (.inl rfl))).trans htwo, (hgauge (.inr (.inr rfl))).trans htwo, h.signal,
    fun _ _ => h.sized.reads, h.sized.longer, h.sized.mapped .server ?_⟩⟩
  · exact Option.some.inj ((hbound .server).box.set.symm.trans (hbound .client).box.set)
  · have hinbound := (hbound r.peer).inbound
    rw [Role.peer_peer] at hinbound
    exact Option.some.inj ((hbound r).outbound.symm.trans hinbound)
  · have hfile := (hbound .server).box.file.symm.trans (hbound .client).box.file
    simpa using hfile
  · have hmade := h.made g
    have hone : ∀ r, (task r).made r (P.endpoint w r).link g =
        ((l r).handle r g).created.toNat := fun r => by
      obtain ⟨o, ho⟩ := he r
      rw [ho, endpoint_eq (hx r), hlink r]
      rfl
    rw [hone, hone, present, hset g] at hmade
    revert hmade
    cases ((l .server).handle .server g).created <;>
      cases ((l .client).handle .client g).created <;> decide
  · rw [h.signal, h.signal] at htoken
    exact htoken
  · obtain ⟨o, ho⟩ := he .server
    rw [ho]
    rfl

theorem Setup.outcome (h : P.Setup first former w task) (hl : P.Law w) (hq : w.Queued) (r : Role) :
    w.outcome? (lane first r) = some (.returned r.welcome) ∧ (∃ o, task r = .ended o) ∨
      w.outcome? (lane first r) = none ∧ (w.step (lane first r)).isSome = true := by
  by_cases he : ∃ o, task r = .ended o
  · obtain ⟨o, ho⟩ := he
    refine .inl ⟨?_, o, ho⟩
    rw [← (h.returned hl ho).1, World.outcome?, h.lanes r, ho]
    rfl
  · refine .inr ⟨?_, step_of_goes (h.goes hl fun o ho => he ⟨o, ho⟩) hq (h.lanes r)⟩
    rw [World.outcome?, h.lanes r]
    cases hs : task r with
    | ended o => exact absurd ⟨o, hs⟩ he
    | _ => rfl

/-- The setup of a pair does not depend on who comes first. A server and a client of one namespace,
none of whose sets is there and whose mailbox file can be opened and mapped, are connected by two
threads at once. However these and the workers take their steps, each of the two threads takes at
most 21, has returned what a success returns or can take a step, and once both have returned the
pair is established. The file is then long enough for the larger of the two capacities, unless both
sides were about to set its length at the same time. -/
theorem established_in_any_order (hb : P.Begins w) (ho : P.Openable w.kernel)
    (h₁ : w.operate (P.id first) first.opening = some (w₁, a))
    (h₂ : w₁.operate (P.id first.peer) first.peer.opening = some (w₂, b))
    (hf : w₂.follow ts = some v) :
    (ts.count a ≤ 21 ∧ ts.count b ≤ 21) ∧
    (v.outcome? a = some (.returned first.welcome) ∨
      v.outcome? a = none ∧ (v.step a).isSome = true) ∧
    (v.outcome? b = some (.returned first.peer.welcome) ∨
      v.outcome? b = none ∧ (v.step b).isSome = true) ∧
    ((v.outcome? a).isSome = true → (v.outcome? b).isSome = true →
      (∃ l, P.Established (P.boxFile w.kernel) l v) ∧
      (max (P.size .server) (P.size .client) ≤ (P.boxFile v.kernel).length ∨
        ∃ us u, us <+: ts ∧ w₂.follow us = some u ∧ Collides first u)) := by
  have hpeaceful : ∀ r : Role, r.opening.peaceful = true := fun r => by cases r <;> rfl
  have hrun₁ : Run Input.Peaceful w w₁ :=
    .step (.operate (P.id first) first.opening) .refl (hpeaceful first) (by simp [apply, h₁])
  have hrun : Run Input.Peaceful w w₂ :=
    .step (.operate (P.id first.peer) first.peer.opening) hrun₁ (hpeaceful first.peer)
      (by simp [apply, h₂])
  obtain ⟨rfl, rfl, -⟩ := hb.started h₁ h₂
  obtain ⟨task, hsetup, hrun', hrank, hapart⟩ := (hb.setup ho h₁ h₂).follow hb hrun hf
  obtain ⟨hl, hq⟩ := hb.run hrun'
  have hfirst := hsetup.outcome hl hq first
  have hsecond := hsetup.outcome hl hq first.peer
  have hzero : lane first first = 0 := if_pos rfl
  have hone : lane first first.peer = 1 := if_neg (peer_ne first)
  rw [hzero] at hfirst
  rw [hone] at hsecond
  refine ⟨⟨?_, ?_⟩, hfirst.imp_left And.left, hsecond.imp_left And.left, fun hf hs => ?_⟩
  · have hle := hrank first
    rw [hzero] at hle
    exact Nat.le_trans (Nat.le_add_left _ _) hle
  · have hle := hrank first.peer
    rw [hone] at hle
    exact Nat.le_trans (Nat.le_add_left _ _) hle
  · have hended : ∀ r, ∃ o, task r = .ended o := by
      refine forall_role first ?_ ?_
      · refine hfirst.elim And.right fun h => ?_
        simp [h.1] at hf
      · refine hsecond.elim And.right fun h => ?_
        simp [h.1] at hs
    refine ⟨hsetup.established hl hended,
      (hapart ⟨fun _ h => (by cases h), fun _ h => by cases h⟩).imp_left fun ha => ?_⟩
    have hmapped : ∀ r, P.size r ≤ (P.boxFile v.kernel).length := fun r => by
      obtain ⟨o, ho⟩ := hended r
      exact ha.mapped r (by rw [ho]; rfl)
    exact Nat.max_le.mpr ⟨hmapped _, hmapped _⟩

def placed (dir : Path) (capacity : Role → Nat)
    (h : ∀ r, (Attributes.mk r (.ofMillis 3000) 2 2 "n" dir (capacity r) none).fault? = none) :
    Pair where
  settings r := ⟨r, .ofMillis 3000, 2, 2, "n", dir, capacity r⟩
  space := "n"
  dir := dir
  first := .server
  role_settings _ := rfl
  space_settings _ := rfl
  dir_settings _ := rfl
  resolves r := ⟨⟨r, .ofMillis 3000, 2, 2, "n", dir, capacity r, none⟩, by
    rw [Attributes.resolve, Attributes.validate, h r]
    rfl⟩

/-- A pair in an empty world. -/
def alone (P : Pair) : World :=
  { World.empty with
    endpoints := [.ofSettings (P.settings .server) none, .ofSettings (P.settings .client) none] }

def opening (w : World) : World :=
  w.play [.operate 0 .accept, .operate 1 .connect]

/-- The sides of the small pair take turns. -/
theorem established_by_turns : ∃ v l,
    (opening newborn).follow ((List.replicate 18 [0, 1]).flatten ++ [0]) = some v ∧
      small.Established .empty l v := by
  have hfollow : ((opening newborn).follow
      ((List.replicate 18 [0, 1]).flatten ++ [0])).isSome = true := by decide +kernel
  obtain ⟨v, hv⟩ := Option.isSome_iff_exists.mp hfollow
  have hends : ((opening newborn).follow ((List.replicate 18 [0, 1]).flatten ++ [0])).all
      (fun v => (v.outcome? 0).isSome && (v.outcome? 1).isSome) = true := by decide +kernel
  have hopenable : small.Openable newborn.kernel :=
    ⟨⟨none, by decide +kernel, by simp⟩, fun r => by cases r <;> decide +kernel⟩
  have hserver : newborn.operate (small.id .server) Role.server.opening =
      some (newborn.play [.operate 0 .accept], 0) := rfl
  have hclient : (newborn.play [.operate 0 .accept]).operate (small.id .client)
      Role.client.opening = some (opening newborn, 1) := rfl
  rw [hv, Option.all_some, Bool.and_eq_true] at hends
  obtain ⟨-, -, -, h⟩ := established_in_any_order newborn_begins hopenable hserver hclient hv
  obtain ⟨⟨l, hl⟩, -⟩ := h hends.1 hends.2
  exact ⟨v, l, hv, hl⟩

def uneven : Pair :=
  placed ⟨"/"⟩ (fun r => if r = .server then 16 else 8) fun r => by cases r <;> decide +kernel

/-- Both sides find the file too short, the server makes it long enough for itself, and the client
cuts it off again. -/
theorem cut_short : uneven.Begins (alone uneven) ∧ uneven.Openable (alone uneven).kernel ∧
    ∃ v, (opening (alone uneven)).follow ((List.replicate 18 [0, 1]).flatten ++ [0]) = some v ∧
      v.returned 0 = true ∧ v.returned 1 = true ∧
      (uneven.boxFile v.kernel).length = uneven.size .client ∧
      uneven.size .client < max (uneven.size .server) (uneven.size .client) := by
  have hnone : (alone uneven).kernel.files.lookup uneven.keys.path = .ok none := by decide +kernel
  have hopenable : uneven.Openable (alone uneven).kernel :=
    ⟨⟨none, hnone, by simp⟩, fun r => by cases r <;> decide +kernel⟩
  refine ⟨⟨⟨fun _ => none, rfl⟩, rfl, rfl, ?_, fun r => ?_,
    by simp [alone, World.empty, Kernel.empty],
    fun file h => by cases hnone.symm.trans h⟩, hopenable, ?_⟩
  · simp [alone, World.empty, Kernel.empty, Kernel.setOf?]
  · simp [alone, World.empty, Kernel.empty, Kernel.setOf?]
  · have hshort : ((opening (alone uneven)).follow ((List.replicate 18 [0, 1]).flatten ++ [0])).any
        (fun v => v.returned 0 && v.returned 1 &&
          decide ((uneven.boxFile v.kernel).length = uneven.size .client)) = true := by
      decide +kernel
    obtain ⟨v, hv, hall⟩ := (Option.any_eq_true _ _).mp hshort
    simp only [Bool.and_eq_true, decide_eq_true_eq] at hall
    exact ⟨v, hv, hall.1.1, hall.1.2, hall.2, by decide +kernel⟩

end Pair

end QueuePair
