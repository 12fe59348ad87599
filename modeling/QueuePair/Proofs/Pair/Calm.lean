import QueuePair.Proofs.Pair.Survey

namespace QueuePair

open World

namespace Pair

open Kernel (Shifts)

structure Calm (P : Pair) (capacity : Nat) (w v : World) : Prop where
  queue : ∀ r, (P.endpoint v r).queue = (P.endpoint w r).queue
  next : ∀ r, (P.endpoint v r).nextSerial = (P.endpoint w r).nextSerial
  signal : ∀ r, v.kernel.gauge P.keys (.signal r) = w.kernel.gauge P.keys (.signal r)
  file : File.Keeps capacity (P.boxFile w.kernel) (P.boxFile v.kernel)
  housed : P.Housed w.kernel → P.Housed v.kernel

structure Carries (P : Pair) (capacity : Nat) (w v : World) : Prop where
  deals : P.Deals capacity (P.traffic w) (P.traffic v)
  signed : v.Signed
  housed : P.Housed v.kernel

variable {P : Pair} {capacity : Nat} {w v u : World} {t : ThreadId} {th th' : Thread} {r : Role}
  {x x' : Endpoint} {ev : Event}

theorem endpoint_set {y : Endpoint} (hx : w.endpoints[P.id r]? = some x)
    (he : v.endpoints = w.endpoints.set (P.id r) y) (r' : Role) :
    P.endpoint v r' = if r' = r then y else P.endpoint w r' := by
  rw [endpoint, ends_set hx he]
  split
  · rfl
  · rfl

namespace Calm

theorem refl (w : World) : P.Calm capacity w w :=
  ⟨fun _ => rfl, fun _ => rfl, fun _ => rfl, .refl _ _, fun h => h⟩

theorem of_eq (hk : v.kernel = w.kernel) (he : v.endpoints = w.endpoints) :
    P.Calm capacity w v := by
  refine ⟨fun r => ?_, fun r => ?_, fun r => by rw [hk], hk ▸ .refl _ _, fun h => hk ▸ h⟩
  · rw [endpoint, he]
    rfl
  · rw [endpoint, he]
    rfl

theorem of_ends (hk : v.kernel = w.kernel) (hx : w.endpoints[P.id r]? = some x)
    (he : v.endpoints = w.endpoints.set (P.id r) x') (hq : x'.queue = x.queue)
    (hn : x'.nextSerial = x.nextSerial) : P.Calm capacity w v := by
  have hend := endpoint_set hx he
  refine ⟨fun r' => ?_, fun r' => ?_, fun _ => by rw [hk], hk ▸ .refl _ _, fun h => hk ▸ h⟩
  · rw [hend]
    split
    · rename_i hr
      rw [hq, hr, endpoint_eq hx]
    · rfl
  · rw [hend]
    split
    · rename_i hr
      rw [hn, hr, endpoint_eq hx]
    · rfl

theorem of_put (hx : w.endpoints[P.id r]? = some x) (hq : x'.queue = x.queue)
    (hn : x'.nextSerial = x.nextSerial) : P.Calm capacity w (w.putEndpoint (P.id r) x') :=
  .of_ends rfl hx rfl hq hn

theorem of_gauges {k : Kernel} (hg : ∀ r, k.gauge P.keys (.signal r) =
    w.kernel.gauge P.keys (.signal r)) (hf : k.files = w.kernel.files) :
    P.Calm capacity w (w.withKernel k) := by
  refine ⟨fun _ => rfl, fun _ => rfl, hg, ?_, fun h => ?_⟩
  · have hbox : P.boxFile k = P.boxFile w.kernel := by simp only [boxFile, hf]
    exact hbox ▸ .refl _ _
  · simpa only [Housed, hf] using h

theorem of_shift {g : Gauge} {d : Int} {k : Kernel} (hk : Shifts P.keys g d w.kernel k)
    (hg : ∀ r, g ≠ .signal r) : P.Calm capacity w (w.withKernel k) := by
  refine .of_gauges (fun r => ?_) hk.files
  have h := hk.gauge (.signal r)
  rw [if_neg (Ne.symm (hg r))] at h
  omega

end Calm

theorem boxFile_eq {k : Kernel} {file : FileId}
    (h : k.files.lookup P.keys.path = .ok (some (.file file))) :
    P.boxFile k = (k.files.file? file).getD .empty := by
  simp only [boxFile, h]

theorem boxFile_modify {k : Kernel} {file : FileId} {f : File → File} (hh : P.Housed k)
    (h : k.files.lookup P.keys.path = .ok (some (.file file))) :
    P.boxFile { k with files := k.files.modify file f } = f (P.boxFile k) := by
  obtain ⟨y, hy⟩ := Option.isSome_iff_exists.mp (hh file h)
  have hy' : ({ k with files := k.files.modify file f } : Kernel).files.file? file =
      some (f y) := by
    simp only [FileTree.file?, FileTree.modify] at hy ⊢
    rw [List.getElem?_modify_eq, hy]
    rfl
  rw [boxFile_eq h, boxFile_eq (k := { k with files := k.files.modify file f })
    (by rw [FileTree.lookup_modify, h]), hy, hy', Option.getD_some, Option.getD_some]

theorem Housed.modify {k : Kernel} {file : FileId} {f : File → File} (hh : P.Housed k) :
    P.Housed { k with files := k.files.modify file f } := by
  intro id h
  rw [FileTree.lookup_modify] at h
  have hid := hh id h
  simp only [FileTree.file?, FileTree.modify, List.getElem?_modify] at hid ⊢
  simpa using hid

theorem Housed.of_files {k k' : Kernel} (hh : P.Housed k) (h : k'.files = k.files) :
    P.Housed k' := by
  simpa only [Housed, h] using hh

theorem keeps_resize (f : File) :
    File.Keeps capacity f (f.resize (Record.headerSize + capacity)) :=
  fun _ hl h => Record.prefix_resize h (Nat.add_le_add_left hl _)

theorem keeps_empty (f : File) : File.Keeps capacity .empty f := by
  intro payload _ h
  have hl := h.length_le
  simp [Record.encode, Record.length_header, File.empty, Record.headerSize] at hl

theorem Joins.calm {g : Gauge} {s : OpenSet} {f : Flow OpenSet (Except Error SemaphoreHandle)}
    (h : P.Joins g w s v f) : P.Calm capacity w v := by
  cases h with
  | make hset =>
    exact .of_gauges (fun r => (Kernel.addSet_spec (key_ne_zero g) hset).2.2 (.signal r)) rfl
  | find | join => exact .refl w

theorem Maps.calm {s : MapFile} {f : Flow MapFile (Except SystemError Mapping)}
    (h : P.Maps (Record.headerSize + capacity) w s v f) (hh : P.Housed w.kernel)
    (hs : ∀ file, s = .extend file →
      w.kernel.files.lookup P.keys.path = .ok (some (.file file))) : P.Calm capacity w v := by
  cases h with
  | @openFile files file ho =>
    rcases FileTree.openFile_spec ho with ⟨e, he, -⟩ | ⟨file', -, hl, rfl | ⟨hnone, rfl, hfiles⟩⟩
    · cases he
    · exact .of_gauges (fun _ => rfl) rfl
    · refine ⟨fun _ => rfl, fun _ => rfl, fun _ => rfl, ?_, fun _ id hid => ?_⟩
      · have hempty : P.boxFile w.kernel = .empty := by simp only [boxFile, hnone]
        rw [hempty]
        exact keeps_empty _
      · obtain rfl : w.kernel.files.files.length = id := by simpa [hl] using hid
        simp [FileTree.file?, hfiles]
  | refuse | short | long | tooLong | map | tooLarge => exact .refl w
  | @extend file =>
    refine ⟨fun _ => rfl, fun _ => rfl, fun _ => rfl, ?_, fun hh => hh.modify⟩
    rw [boxFile_modify hh (hs file rfl)]
    exact keeps_resize _

theorem Connects.calm {s : Connecting} {f : Flow Connecting (Except Error Unit)} (h : P.Law w)
    (hh : P.Housed w.kernel) (hcap : (P.settings r).capacity = capacity)
    (hs : P.ConnectingFit w.kernel r s) (hc : P.Connects r w t s v f) : P.Calm capacity w v := by
  subst hcap
  cases hc with
  | lock hx | storeConnected hx | unlock hx => exact .of_put hx rfl rfl
  | vacant | busy => exact .refl w
  | map hm | mapped hm | unmapped hm =>
    exact hm.calm hh fun file he => by subst he; exact hs
  | boxSet hj | boxMade hj | boxJoined hj | outSet hj | outDone hj | inSet hj | inDone hj =>
    exact hj.calm
  | markVacant hk | raiseGate hk | raiseCount hk => exact .of_shift hk nofun
  | spawnSender | spawnReceiver =>
    obtain ⟨x, hx, -⟩ := h.ends r
    exact .of_ends rfl hx (modify_of_getElem? hx) rfl rfl

theorem Meets.calm {s : Mailbox.Rendezvous} {f : Flow Mailbox.Rendezvous (Except Error Unit)}
    (h : P.Meets r w s v f) : P.Calm capacity w v := by
  cases h with
  | both _ hk | takeGate _ hk | zero _ hk | giveBack _ hk | undo hk | takeLast _ _ hk =>
    exact .of_shift hk nofun
  | clock | noClock | bothLate | takeGateLate | zeroLate | takeLastLate => exact .refl _

theorem Finishes.calm {s : Finalizing} {f : Flow Finalizing (Except Error Unit)}
    (h : P.Finishes r w s v f) : P.Calm capacity w v := by
  cases h with
  | meet hm | met hm => exact hm.calm
  | ready | unready | linked | unlinked | refuse => exact .refl _

end Pair

end QueuePair
