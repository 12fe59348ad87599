import QueuePair.Proofs.Pair.Openers

namespace QueuePair

open World

def Mailbox.made (m : Mailbox) : Gauge → Nat
  | .signal _ => 0
  | _ => m.semaphores.created.toNat

namespace Link

def handle (l : Link) (r : Role) : Gauge → SemaphoreHandle
  | .signal s => if s = r then l.signals.outbound else l.signals.inbound
  | _ => l.mailbox.semaphores

def made (l : Link) (r : Role) (g : Gauge) : Nat :=
  (l.handle r g).created.toNat

end Link

namespace Connecting

def made (r : Role) (g : Gauge) : Connecting → Nat
  | .mailbox (.markVacant m) | .signals m (.outbound _) => m.made g
  | .signals m (.inbound out _) => m.made g + if g = .signal r then out.created.toNat else 0
  | .storeConnected l | .spawnSender l | .spawnReceiver l | .attach l _ | .unlock (some l) _ =>
    l.made r g
  | _ => 0

def extending : Connecting → Bool
  | .mailbox (.map (.extend _)) => true
  | _ => false

def mapped : Connecting → Bool
  | .mailbox (.map (.map _)) => true
  | .lock | .check _ | .mailbox (.map _) | .unlock none _ => false
  | _ => true

end Connecting

namespace Task

def made (r : Role) (link : Option Link) (g : Gauge) : Task → Nat
  | .call _ (.connecting _ s) => s.made r g
  | _ => (link.map (·.made r g)).getD 0

def extending : Task → Bool
  | .call _ (.connecting _ s) => s.extending
  | _ => false

def mapped : Task → Bool
  | .call _ (.connecting _ s) => s.mapped
  | _ => true

end Task

namespace Pair

variable (P : Pair)

def size (r : Role) : Nat :=
  Record.headerSize + (P.settings r).capacity

def present (k : Kernel) (g : Gauge) : Nat :=
  (k.setOf? (g.key P.keys)).isSome.toNat

variable {P} {r : Role} {w v : World} {t : ThreadId} {task task' : Task} {x : Endpoint}

theorem present_congr {k k' : Kernel} {g : Gauge}
    (h : k'.setOf? (g.key P.keys) = k.setOf? (g.key P.keys)) : P.present k' g = P.present k g := by
  rw [present, h, present]

theorem key_signal {g : Gauge} : g.key P.keys = (Gauge.signal r).key P.keys ↔ g = .signal r := by
  refine ⟨fun h => ?_, fun h => h ▸ rfl⟩
  cases g with
  | signal => exact Gauge.eq_of_key h rfl
  | _ => exact absurd h (Keys.mailbox_ne_outbound P.keys r)

theorem key_gate {g : Gauge} : g.key P.keys = Gauge.gate.key P.keys ↔ ∀ s, g ≠ .signal s := by
  cases g with
  | signal s =>
    exact ⟨fun h => absurd h.symm (Keys.mailbox_ne_outbound P.keys s), fun h => absurd rfl (h s)⟩
  | _ => exact ⟨fun _ _ => nofun, fun _ => rfl⟩

theorem Joins.present {g : Gauge} {s : OpenSet} {f : Flow OpenSet (Except Error SemaphoreHandle)}
    (h : P.Joins g w s v f) (g' : Gauge) :
    (∀ s', f = .more s' → P.present v.kernel g' = P.present w.kernel g') ∧
      ∀ a, f = .done (.ok a) → P.present v.kernel g' = P.present w.kernel g' +
        if g'.key P.keys = g.key P.keys then a.created.toNat else 0 := by
  cases h with
  | make hset =>
    refine ⟨fun _ h => (by cases h), ?_⟩
    rintro _ ⟨⟩
    rw [Pair.present, World.withKernel, Kernel.setOf?_addSet rfl, Pair.present]
    by_cases hg : g'.key P.keys = g.key P.keys
    · simp [hg, hset, key_ne_zero, SemaphoreSet.create]
    · have hne : ¬ (g'.key P.keys ≠ 0 ∧ g.key P.keys = g'.key P.keys) := fun h => hg h.2.symm
      simp [hg, SemaphoreSet.create, hne]
  | find => exact ⟨fun _ _ => rfl, fun _ h => by cases h⟩
  | join =>
    refine ⟨fun _ h => (by cases h), ?_⟩
    rintro _ ⟨⟩
    simp

theorem Maps.present {size : Nat} {s : MapFile} {f : Flow MapFile (Except SystemError Mapping)}
    (h : P.Maps size w s v f) (g : Gauge) : P.present v.kernel g = P.present w.kernel g :=
  present_congr (Kernel.setOf?_congr (by rw [h.extends.2.2.2]) _)

theorem made_boxOf (m : Mapping) (h : SemaphoreHandle) (g : Gauge) :
    (P.boxOf r m h).made g =
      if g.key P.keys = Gauge.gate.key P.keys then h.created.toNat else 0 := by
  cases g with
  | signal s => rw [if_neg fun hk => key_gate.mp hk s rfl, Mailbox.made]
  | _ => exact (if_pos rfl).symm

theorem made_pair (m : Mailbox) (out inn : SemaphoreHandle) (g : Gauge) :
    Link.made ⟨m, ⟨out, inn⟩⟩ r g = m.made g + (if g = .signal r then out.created.toNat else 0) +
      if g = .signal r.peer then inn.created.toNat else 0 := by
  cases g with
  | signal s => cases s <;> cases r <;> simp [Link.made, Link.handle, Mailbox.made, Role.peer]
  | _ => simp [Link.made, Link.handle, Mailbox.made]

theorem Connects.made {s s' : Connecting} (h : P.Connects r w t s v (.more s')) (g : Gauge) :
    P.present v.kernel g + s.made r g = P.present w.kernel g + s'.made r g := by
  cases h with
  | map hm | mapped hm | unmapped hm => rw [hm.present g]; rfl
  | boxSet hj | outSet hj | inSet hj => rw [(hj.present g).1 _ rfl]; rfl
  | boxMade hj | boxJoined hj =>
    rw [(hj.present g).2 _ rfl, ← made_boxOf (r := r)]
    rfl
  | outDone hj =>
    simp only [(hj.present g).2 _ rfl, key_signal, Connecting.made]
    omega
  | inDone hj =>
    simp only [(hj.present g).2 _ rfl, key_signal, Connecting.made, made_pair]
    omega
  | markVacant hk | raiseGate hk | raiseCount hk => rw [present_congr (hk.setOf _)]; rfl
  | _ => rfl

inductive Fills (P : Pair) (r : Role) (f f' : File) (task task' : Task) : Prop
  | same : f' = f → (task'.extending = true → f.length < P.size r) →
      (task'.mapped = true → task.mapped = true ∨ P.size r ≤ f.length) →
      Fills P r f f' task task'
  | extend : task.extending = true → f' = f.resize (P.size r) → task'.extending = false →
      Fills P r f f' task task'

theorem Joins.files {g : Gauge} {s : OpenSet} {f : Flow OpenSet (Except Error SemaphoreHandle)}
    (h : P.Joins g w s v f) : v.kernel.files = w.kernel.files := by
  cases h <;> rfl

theorem Joins.limits {g : Gauge} {s : OpenSet} {f : Flow OpenSet (Except Error SemaphoreHandle)}
    (h : P.Joins g w s v f) : v.kernel.limits = w.kernel.limits := by
  cases h <;> rfl

theorem boxFile_congr {k k' : Kernel} (h : k'.files = k.files) : P.boxFile k' = P.boxFile k := by
  simp only [boxFile, h]

theorem measured_eq {k : Kernel} {file : FileId}
    (h : k.files.lookup P.keys.path = .ok (some (.file file))) :
    ((k.files.file? file).elim 0 (·.length)) = (P.boxFile k).length := by
  rw [boxFile_eq h]
  cases k.files.file? file <;> rfl

theorem boxFile_openFile {k : Kernel} {files : FileTree} {file : FileId}
    (h : k.files.openFile P.keys.path true = (files, .ok file)) :
    P.boxFile { k with files } = P.boxFile k := by
  rcases FileTree.openFile_spec h with ⟨e, he, -⟩ | ⟨file, -, hl, rfl | ⟨hnone, rfl, hfiles⟩⟩
  · cases he
  · rfl
  · have hempty : P.boxFile k = .empty := by simp only [boxFile, hnone]
    rw [hempty, boxFile_eq (k := { k with files }) hl]
    simp [FileTree.file?, hfiles]

theorem Connects.fills {s s' : Connecting} (h : P.Connects r w t s v (.more s'))
    (hf : P.ConnectingFit w.kernel r s) (hh : P.Housed w.kernel) (o : Option EndpointId)
    (p : Party) : Fills P r (P.boxFile w.kernel) (P.boxFile v.kernel) (.call o (.connecting p s))
      (.call o (.connecting p s')) := by
  cases h with
  | map hm =>
    cases hm with
    | openFile ho => exact .same (boxFile_openFile ho) nofun nofun
    | short hlt => exact .same rfl (fun _ => measured_eq (P := P) hf ▸ hlt) nofun
    | long hle => exact .same rfl nofun fun _ => .inr (measured_eq (P := P) hf ▸ hle)
    | extend => exact .extend rfl (boxFile_modify hh hf) rfl
  | mapped hm =>
    cases hm
    exact .same rfl nofun fun _ => .inl rfl
  | unmapped hm => cases hm <;> exact .same rfl nofun nofun
  | boxSet hj | boxMade hj | boxJoined hj | outSet hj | outDone hj | inSet hj | inDone hj =>
    exact .same (boxFile_congr hj.files) nofun fun _ => .inl rfl
  | markVacant hk | raiseGate hk | raiseCount hk =>
    exact .same (boxFile_congr hk.files) nofun fun _ => .inl rfl
  | lock | vacant | busy => exact .same rfl nofun nofun
  | _ => exact .same rfl nofun fun _ => .inl rfl

theorem dozes_worker (r : Role) (l : Link) (d : Direction) :
    P.Dozes (.ofTask (worker (P.party r) l d)) := by
  cases d with
  | send => exact .fetch
  | receive => exact .await

theorem Connects.threads {s : Connecting} {f : Flow Connecting (Except Error Unit)}
    (h : P.Connects r w t s v f) :
    ∃ news, v.threads = w.threads ++ news ∧ ∀ n ∈ news, P.Dozes n := by
  have hnone : ∃ news, w.threads = w.threads ++ news ∧ ∀ n ∈ news, P.Dozes n :=
    ⟨[], (List.append_nil _).symm, by simp⟩
  cases h with
  | map hm | mapped hm | unmapped hm => exact hm.extends.2.1 ▸ hnone
  | boxSet hj | boxMade hj | boxJoined hj | outSet hj | outDone hj | inSet hj | inDone hj =>
    exact hj.extends.2.1 ▸ hnone
  | spawnSender | spawnReceiver =>
    exact ⟨[_], rfl, fun n hn => List.mem_singleton.mp hn ▸ dozes_worker r _ _⟩
  | _ => exact hnone

/-- What a step leaves of the setup of a side, and what it makes of it. -/
structure Advances (P : Pair) (r : Role) (w v : World) (task task' : Task) : Prop where
  stage : P.Stage r (P.endpoint v r) task'
  peer : P.endpoint v r.peer = P.endpoint w r.peer
  calm : P.Calm (P.settings r).capacity w v
  openable : P.Openable v.kernel
  made : ∀ g, P.present v.kernel g + task.made r (P.endpoint w r).link g =
    P.present w.kernel g + task'.made r (P.endpoint v r).link g
  fills : Fills P r (P.boxFile w.kernel) (P.boxFile v.kernel) task task'
  threads : ∃ news, v.threads = w.threads ++ news ∧ ∀ n ∈ news, P.Dozes n
  rank : task'.rank < task.rank

theorem Openable.of_files {k k' : Kernel} (ho : P.Openable k) (h : k'.files = k.files)
    (hl : k'.limits = k.limits) : P.Openable k' :=
  ⟨h ▸ ho.path, hl ▸ ho.grants⟩

theorem Connects.openable {s : Connecting} {f : Flow Connecting (Except Error Unit)}
    (h : P.Connects r w t s v f) (ho : P.Openable w.kernel) : P.Openable v.kernel := by
  cases h with
  | map hm | mapped hm | unmapped hm => exact ho.maps hm
  | boxSet hj | boxMade hj | boxJoined hj | outSet hj | outDone hj | inSet hj | inDone hj =>
    exact ho.of_files hj.files hj.limits
  | markVacant hk | raiseGate hk | raiseCount hk => exact ho.of_files hk.files hk.limits
  | _ => exact ho

theorem opened_mapped (e : Except Error Unit) : (P.opened r e).extending = false := by
  cases e <;> cases r <;> rfl

theorem Opens.advances (h : P.Opens r w t task v task') (hl : P.Law w) (hh : P.Housed w.kernel)
    (ho : P.Openable w.kernel) (hs : P.Stage r (P.endpoint w r) task) :
    Advances P r w v task task' := by
  obtain ⟨x, hx, -⟩ := hl.ends r
  have hlt := (List.getElem?_eq_some_iff.mp hx).1
  rw [endpoint_eq hx] at hs
  have hpeer := h.endpoint_peer hx
  have hcalm := h.calm hl hh rfl
  have hrank := h.rank_lt
  have hnone : ∃ news, w.threads = w.threads ++ news ∧ ∀ n ∈ news, P.Dozes n :=
    ⟨[], (List.append_nil _).symm, by simp⟩
  cases h with
  | connect hf hc =>
    obtain ⟨y, hy, hs'⟩ := hc.stage hx ho hs
    exact ⟨endpoint_eq hy ▸ hs', hpeer, hcalm, hc.openable ho, hc.made, hc.fills hf hh _ _,
      hc.threads, hrank⟩
  | connected hf hc =>
    obtain ⟨l, rfl, rfl, y, hy, hlink, hs'⟩ := hc.stage_opened hx hs
    refine ⟨endpoint_eq hy ▸ hs', hpeer, hcalm, hc.openable ho, fun g => ?_, ?_, hc.threads,
      hrank⟩
    · rw [endpoint_eq hy, hlink]
      cases hc
      cases r <;> rfl
    · cases hc
      exact .same rfl (by simp [opened_mapped]) fun _ => .inl rfl
  | read hx' =>
    obtain rfl := Option.some.inj (hx.symm.trans hx')
    refine ⟨?_, hpeer, hcalm, ho, fun g => rfl, .same rfl nofun fun _ => .inl rfl, hnone, hrank⟩
    rw [endpoint_eq hx]
    obtain ⟨rfl, hstate, l, hlink⟩ := hs.of_reading
    rw [hstate]
    exact .leaving hstate hlink
  | release hx' =>
    obtain rfl := Option.some.inj (hx.symm.trans hx')
    have hy : (w.putEndpoint (P.id r) { x with owners := x.owners - 1 }).endpoints[P.id r]? =
        some { x with owners := x.owners - 1 } := List.getElem?_set_self hlt
    refine ⟨?_, hpeer, hcalm, ho, fun g => ?_, .same rfl nofun fun _ => .inl rfl, hnone, hrank⟩
    · rw [endpoint_eq hy]
      obtain ⟨rfl, hstate, l, hlink⟩ := hs.of_leaving
      exact .ended hstate hlink
    · rw [endpoint_eq hx, endpoint_eq hy]
      rfl

end Pair

end QueuePair
