import QueuePair.Proofs.Pair.Runs

namespace QueuePair

open World

namespace Pair

open Kernel (Shifts)

structure Rises (P : Pair) (w v : World) : Prop where
  threads : ∃ news, v.threads = w.threads ++ news ∧ ∀ n ∈ news, n.task = n.origin
  connected : ∀ r, P.connected w r ≤ P.connected v r
  attached : w.kernel.gauge P.keys .attached ≤ v.kernel.gauge P.keys .attached
  history : w.history <:+ v.history

variable {P : Pair} {w v u : World} {t : ThreadId} {r : Role} {x x' : Endpoint}

theorem no_news (ths : List Thread) :
    ∃ news, ths = ths ++ news ∧ ∀ n ∈ news, n.task = n.origin :=
  ⟨[], by simp, by simp⟩

theorem Rises.refl (w : World) : P.Rises w w :=
  ⟨no_news _, fun _ => Nat.le_refl _, Nat.le_refl _, List.suffix_rfl⟩

theorem Rises.record (h : P.Rises w v) (e : Event) : P.Rises w (v.record e) :=
  ⟨h.threads, h.connected, h.attached, h.history.trans (List.suffix_cons _ _)⟩

theorem Rises.note (h : P.Rises w v) (e : EndpointId) (n : Note) : P.Rises w (v.note e n) :=
  h.record _

theorem Rises.of_kernel {k : Kernel}
    (hk : w.kernel.gauge P.keys .attached ≤ k.gauge P.keys .attached) :
    P.Rises w (w.withKernel k) :=
  ⟨no_news _, fun _ => Nat.le_refl _, hk, List.suffix_rfl⟩

theorem Rises.of_shift {g : Gauge} {d : Int} {k : Kernel} (hk : Shifts P.keys g d w.kernel k)
    (hd : g = .attached → 0 ≤ d) : P.Rises w (w.withKernel k) := by
  refine .of_kernel ?_
  have h := hk.gauge .attached
  split at h
  · rename_i hg
    have := hd hg.symm
    omega
  · omega

theorem Rises.of_sets {k : Kernel} (hk : k.sets = w.kernel.sets) : P.Rises w (w.withKernel k) :=
  .of_kernel (by simp [Kernel.gauge, Kernel.setOf?, hk])

theorem Rises.of_ends
    (hv : ∃ news, v.threads = w.threads ++ news ∧ ∀ n ∈ news, n.task = n.origin)
    (hk : v.kernel = w.kernel)
    (hh : v.history = w.history) (hx : w.endpoints[P.id r]? = some x)
    (he : v.endpoints = w.endpoints.set (P.id r) x')
    (hs : x.state = .connected → x'.state = .connected) : P.Rises w v := by
  refine ⟨hv, fun r' => ?_, Nat.le_of_eq (by rw [hk]), hh ▸ List.suffix_rfl⟩
  have hend := ends_set hx he
  by_cases hr : r' = r
  · subst hr
    rw [connected_eq hx, connected_eq (by rw [hend, if_pos rfl])]
    split
    · rename_i hc
      exact Nat.le_of_eq (if_pos (hs hc)).symm
    · exact Nat.zero_le _
  · simp [Pair.connected, hend, hr]

theorem Rises.of_put {y : Endpoint} (hx : w.endpoints[P.id r]? = some x)
    (hs : x.state = .connected → y.state = .connected) :
    P.Rises w (w.putEndpoint (P.id r) y) :=
  .of_ends (no_news _) rfl rfl hx rfl hs

theorem Sends.rises {l : Link} {s s' : Sender} (h : P.Sends r l w t s v s') : P.Rises w v := by
  cases h with
  | dry hx | recycle hx => exact .of_put hx fun h => h
  | @take x q slot job hx =>
    exact .note (.of_put (y := { x with sends := q }) hx fun h => h) _ _
  | wake => exact .refl w
  | takeVacancy hk | takeGate hk | giveGate hk | signal hk => exact .of_shift hk nofun
  | @copy slot job =>
    have hk := Rises.of_sets (P := P) (w := w)
      (k := { w.kernel with
        files := w.kernel.files.modify l.mailbox.file (Record.store · job.data.payload) }) rfl
    exact hk.record _

theorem Collects.rises {m : Mailbox} {into : Option Buffer} {s : Mailbox.Collecting}
    {f : Flow Mailbox.Collecting Mailbox.Collected} (h : P.Collects m into w t s v f) :
    P.Rises w v := by
  cases h with
  | takeGate hk | giveGate hk | giveVacancy hk => exact .of_shift hk nofun
  | copy => exact (Rises.refl w).record _

theorem Receives.rises {l : Link} {s s' : Receiver} (h : P.Receives r l w t s v s') :
    P.Rises w v := by
  cases h with
  | await hk => exact .of_shift hk nofun
  | @miss x q hx | @take x q slot job hx =>
    exact .note (.of_put (y := { x with receives := q }) hx fun h => h) _ _
  | discard hc | discarded hc | collect hc | collected hc => exact hc.rises
  | recycle hx => exact .of_put hx fun h => h

theorem Maps.rises {size : Nat} {s : MapFile} {f : Flow MapFile (Except SystemError Mapping)}
    (h : P.Maps size w s v f) : P.Rises w v := by
  cases h with
  | openFile | extend => exact .of_sets rfl
  | refuse | short | long | tooLong | map | tooLarge => exact .refl w

theorem Joins.rises {g : Gauge} {s : OpenSet} {f : Flow OpenSet (Except Error SemaphoreHandle)}
    (h : P.Joins g w s v f) : P.Rises w v := by
  cases h with
  | make hs =>
    obtain ⟨-, -, hg⟩ := Kernel.addSet_spec (key_ne_zero g) hs
    exact .of_kernel (Nat.le_of_eq (hg .attached).symm)
  | find | join => exact .refl w

theorem Rises.spawnWorker (hx : w.endpoints[P.id r]? = some x) (l : Link) (d : Direction) :
    P.Rises w (w.spawnWorker (P.party r) l d) :=
  .of_ends ⟨_, rfl, by simp [Thread.ofTask]⟩ rfl rfl hx (modify_of_getElem? hx) fun h => h

theorem Connects.rises {s : Connecting} {f : Flow Connecting (Except Error Unit)} (h : P.Law w)
    (hc : P.Connects r w t s v f) : P.Rises w v := by
  cases hc with
  | lock hx => exact .of_put hx fun h => h
  | vacant | busy => exact .refl w
  | map hm | mapped hm | unmapped hm => exact hm.rises
  | boxSet hj | boxMade hj | boxJoined hj | outSet hj | outDone hj | inSet hj | inDone hj =>
    exact hj.rises
  | markVacant hk | raiseGate hk => exact .of_shift hk nofun
  | storeConnected hx => exact .of_put hx fun _ => rfl
  | spawnSender | spawnReceiver =>
    obtain ⟨x, hx, -⟩ := h.ends r
    exact .spawnWorker hx _ _
  | raiseCount hk => exact .of_shift hk fun _ => by decide
  | unlock hx => exact .of_put hx fun h => h

theorem Meets.rises {s : Mailbox.Rendezvous} {f : Flow Mailbox.Rendezvous (Except Error Unit)}
    (h : P.Meets r w s v f) : P.Rises w v := by
  cases h with
  | both _ hk => exact .of_shift hk fun _ => by decide
  | takeGate _ hk | zero _ hk | giveBack _ hk | undo hk | takeLast _ _ hk =>
    exact .of_shift hk nofun
  | clock | noClock | bothLate | takeGateLate | zeroLate | takeLastLate => exact .refl _

theorem Finishes.rises {s : Finalizing} {f : Flow Finalizing (Except Error Unit)}
    (h : P.Finishes r w s v f) : P.Rises w v := by
  cases h with
  | meet hm | met hm => exact hm.rises
  | ready | unready | linked | unlinked | refuse => exact .refl _

theorem Posts.rises {d : Direction} {data : Buffer} {handler : Handler} {s : Posting}
    {f : Flow Posting (Except Error Nat)} (h : P.Posts r d data handler w s v f) :
    P.Rises w v := by
  cases h with
  | number hx => exact .of_put hx fun h => h
  | @accept x q job dl hx =>
    have hs : (x.withQueue d q).state = x.state := by cases d <;> rfl
    exact .note (.of_put (y := x.withQueue d q) hx fun h => hs.trans h) _ _
  | ready | refuse | clock | noClock | full | wake | late => exact .refl _

theorem Waits.rises {d : Direction} {data : Buffer} {s : Waiting}
    {f : Flow Waiting (Except Error Buffer)} (h : P.Waits r d data w s v f) : P.Rises w v := by
  cases h with
  | post hp | posted hp | refused hp => exact hp.rises
  | @withdraw x q serial job hx =>
    have hs : (x.withQueue d q).state = x.state := by cases d <;> rfl
    exact .note (.of_put (y := x.withQueue d q) hx fun h => hs.trans h) _ _
  | clock | answer | giveUp | keep | poll => exact .refl _

theorem Serves.rises {c : Call} {f : Flow Call Result} (h : P.Serves r w c v f) :
    P.Rises w v := by
  cases h with
  | post hp | posted hp => exact hp.rises
  | wait hw | waited hw => exact hw.rises
  | readState | hold => exact .refl _

theorem Moves.rises {th th' : Thread} (h : P.Law w) (hm : P.Moves w t th v th') :
    P.Rises w v := by
  cases hm with
  | sender _ _ hs => exact hs.rises
  | receiver _ _ hs => exact hs.rises
  | connect _ hc | connected _ hc => exact hc.rises h
  | finalize _ hf | finalized _ hf => exact hf.rises
  | call _ _ hs | called _ _ hs | callback _ _ _ _ hs | ended _ _ _ _ hs => exact hs.rises
  | acted => exact (Rises.refl w).note _ _
  | release hx => exact .of_put hx fun h => h

end Pair

end QueuePair
