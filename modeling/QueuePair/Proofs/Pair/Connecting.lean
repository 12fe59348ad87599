import QueuePair.Proofs.Pair.Workers

namespace QueuePair

open World

namespace Pair

open Kernel (Shifts)

variable (P : Pair)

/-- The steps of opening a set of the pair. -/
inductive Joins (g : Gauge) (w : World) :
    OpenSet → World → Flow OpenSet (Except Error SemaphoreHandle) → Prop
  | make : w.kernel.setOf? (g.key P.keys) = none →
      Joins g w .create (w.withKernel (w.kernel.addSet (.create (g.key P.keys) g.width)))
        (.done (.ok ⟨w.kernel.sets.length, g.width, g.key P.keys, true⟩))
  | find {set : SetId} : w.kernel.setOf? (g.key P.keys) = some set →
      Joins g w .create w (.more .join)
  | join {set : SetId} : w.kernel.setOf? (g.key P.keys) = some set →
      Joins g w .join w (.done (.ok ⟨set, g.width, g.key P.keys, false⟩))

/-- The steps of mapping the file of the pair. -/
inductive Maps (size : Nat) (w : World) :
    MapFile → World → Flow MapFile (Except SystemError Mapping) → Prop
  | openFile {files : FileTree} {file : FileId} :
      w.kernel.files.openFile P.keys.path true = (files, .ok file) →
      Maps size w .openFile (w.withKernel { w.kernel with files }) (.more (.measure file))
  | refuse {e : SystemError} : w.kernel.files.openFile P.keys.path true =
      (w.kernel.files, .error e) → Maps size w .openFile w (.done (.error e))
  | short {file : FileId} : ((w.kernel.files.file? file).elim 0 (·.length)) < size →
      Maps size w (.measure file) w (.more (.extend file))
  | long {file : FileId} : size ≤ ((w.kernel.files.file? file).elim 0 (·.length)) →
      Maps size w (.measure file) w (.more (.map file))
  | extend {file : FileId} : size ≤ w.kernel.limits.file → Maps size w (.extend file)
      (w.withKernel { w.kernel with files := w.kernel.files.modify file (·.resize size) })
      (.more (.map file))
  | tooLong {file : FileId} : w.kernel.limits.file < size →
      Maps size w (.extend file) w (.done (.error .fileTooLarge))
  | map {file : FileId} : size ≤ w.kernel.limits.mapping →
      Maps size w (.map file) w (.done (.ok ⟨file, size, P.keys.path⟩))
  | tooLarge {file : FileId} : w.kernel.limits.mapping < size →
      Maps size w (.map file) w (.done (.error .outOfMemory))

def boxOf (r : Role) (m : Mapping) (h : SemaphoreHandle) : Mailbox :=
  ⟨h, m.file, P.keys.path, (P.settings r).capacity⟩

/-- The steps of a connecting thread. -/
inductive Connects (r : Role) (w : World) (t : ThreadId) :
    Connecting → World → Flow Connecting (Except Error Unit) → Prop
  | lock {x : Endpoint} : w.endpoints[P.id r]? = some x → x.linkHolder = none →
      Connects r w t .lock (w.putEndpoint (P.id r) { x with linkHolder := some t })
        (.more (.check x.link.isSome))
  | vacant {x : Endpoint} : w.endpoints[P.id r]? = some x → x.state = .init →
      Connects r w t (.check false) w (.more (.mailbox .start))
  | busy {x : Endpoint} {busy : Bool} : w.endpoints[P.id r]? = some x →
      x.state ≠ .init ∨ busy = true →
      Connects r w t (.check busy) w (.more (.unlock none (.error (.invalidState .init x.state))))
  | map {s s' : MapFile} {v : World} :
      P.Maps (Record.headerSize + (P.settings r).capacity) w s v (.more s') →
      Connects r w t (.mailbox (.map s)) v (.more (.mailbox (.map s')))
  | mapped {s : MapFile} {m : Mapping} {v : World} :
      P.Maps (Record.headerSize + (P.settings r).capacity) w s v (.done (.ok m)) →
      Connects r w t (.mailbox (.map s)) v (.more (.mailbox (.semaphores m .create)))
  | unmapped {s : MapFile} {e : SystemError} {v : World} :
      P.Maps (Record.headerSize + (P.settings r).capacity) w s v (.done (.error e)) →
      Connects r w t (.mailbox (.map s)) v (.more (.unlock none (.error (.ofSystem e))))
  | boxSet {m : Mapping} {s s' : OpenSet} {v : World} : P.Joins .gate w s v (.more s') →
      Connects r w t (.mailbox (.semaphores m s)) v (.more (.mailbox (.semaphores m s')))
  | boxMade {m : Mapping} {s : OpenSet} {v : World} {h : SemaphoreHandle} :
      P.Joins .gate w s v (.done (.ok h)) → h.created = true →
      Connects r w t (.mailbox (.semaphores m s)) v (.more (.mailbox (.markVacant (P.boxOf r m h))))
  | boxJoined {m : Mapping} {s : OpenSet} {v : World} {h : SemaphoreHandle} :
      P.Joins .gate w s v (.done (.ok h)) → h.created = false →
      Connects r w t (.mailbox (.semaphores m s)) v (.more (.signals (P.boxOf r m h) .start))
  | markVacant {m : Mailbox} {k : Kernel} : Shifts P.keys .vacancy 1 w.kernel k →
      Connects r w t (.mailbox (.markVacant m)) (w.withKernel k) (.more (.signals m .start))
  | outSet {m : Mailbox} {s s' : OpenSet} {v : World} : P.Joins (.signal r) w s v (.more s') →
      Connects r w t (.signals m (.outbound s)) v (.more (.signals m (.outbound s')))
  | outDone {m : Mailbox} {s : OpenSet} {v : World} {h : SemaphoreHandle} :
      P.Joins (.signal r) w s v (.done (.ok h)) →
      Connects r w t (.signals m (.outbound s)) v (.more (.signals m (.inbound h .create)))
  | inSet {m : Mailbox} {out : SemaphoreHandle} {s s' : OpenSet} {v : World} :
      P.Joins (.signal r.peer) w s v (.more s') →
      Connects r w t (.signals m (.inbound out s)) v (.more (.signals m (.inbound out s')))
  | inDone {m : Mailbox} {out : SemaphoreHandle} {s : OpenSet} {v : World}
      {h : SemaphoreHandle} : P.Joins (.signal r.peer) w s v (.done (.ok h)) →
      Connects r w t (.signals m (.inbound out s)) v (.more (.storeConnected ⟨m, ⟨out, h⟩⟩))
  | storeConnected {x : Endpoint} {l : Link} : w.endpoints[P.id r]? = some x →
      Connects r w t (.storeConnected l)
        (w.putEndpoint (P.id r) { x with state := .connected }) (.more (.spawnSender l))
  | spawnSender {l : Link} :
      Connects r w t (.spawnSender l) (w.spawnWorker (P.party r) l .send)
        (.more (.spawnReceiver l))
  | spawnReceiver {l : Link} :
      Connects r w t (.spawnReceiver l) (w.spawnWorker (P.party r) l .receive)
        (.more (.attach l .raiseGate))
  | raiseGate {l : Link} {k : Kernel} : Shifts P.keys .gate 1 w.kernel k →
      Connects r w t (.attach l .raiseGate) (w.withKernel k) (.more (.attach l .raiseCount))
  | raiseCount {l : Link} {k : Kernel} : Shifts P.keys .attached 1 w.kernel k →
      Connects r w t (.attach l .raiseCount) (w.withKernel k) (.more (.unlock (some l) (.ok ())))
  | unlock {x : Endpoint} {l : Option Link} {e : Except Error Unit} :
      w.endpoints[P.id r]? = some x →
      Connects r w t (.unlock l e)
        (w.putEndpoint (P.id r) { x with link := l.orElse fun _ => x.link, linkHolder := none })
        (.done e)

variable {P} {r : Role} {w v : World} {t : ThreadId}

theorem key_ne_zero (g : Gauge) : g.key P.keys ≠ 0 := by
  cases g with
  | signal r => exact outbound_ne_zero r
  | gate | vacancy | attached => exact mailbox_ne_zero

theorem joins_of_after {g : Gauge} {s : OpenSet} {f : Flow OpenSet (Except Error SemaphoreHandle)}
    (hk : w.kernel.Intact P.keys)
    (hs : s = .join → ∃ set, w.kernel.setOf? (g.key P.keys) = some set)
    (h : w.After t (s.next (g.key P.keys) g.width) v f) : P.Joins g w s v f := by
  cases s with
  | create =>
    obtain ⟨a, ⟨k, ends, hc, rfl⟩, rfl⟩ := h
    simp only [Kernel.call, Kernel.createSet_eq] at hc
    cases hset : w.kernel.setOf? (g.key P.keys) with
    | none =>
      rw [if_neg (by simp [hset])] at hc
      cases hc
      exact .make hset
    | some set =>
      rw [if_pos (by simp [hset])] at hc
      cases hc
      exact .find hset
  | join =>
    obtain ⟨a, ⟨k, ends, hc, rfl⟩, rfl⟩ := h
    obtain ⟨set, hset⟩ := hs rfl
    simp only [Kernel.call, Kernel.joinSet_eq hk.wide hset] at hc
    cases hc
    exact .join hset

theorem maps_of_after {size : Nat} {s : MapFile} {f : Flow MapFile (Except SystemError Mapping)}
    (h : w.After t (s.next P.keys.path size true) v f) : P.Maps size w s v f := by
  cases s with
  | openFile =>
    obtain ⟨a, ⟨k, ends, hc, rfl⟩, rfl⟩ := h
    simp only [Kernel.call, Kernel.withFiles] at hc
    cases ho : w.kernel.files.openFile P.keys.path true with
    | mk files a' =>
      rw [ho] at hc
      cases hc
      cases a' with
      | ok file => exact .openFile ho
      | error e =>
        rcases FileTree.openFile_spec ho with ⟨e, he, rfl⟩ | ⟨file, he, -⟩
        · exact .refuse ho
        · cases he
  | measure file =>
    obtain ⟨a, ⟨k, ends, hc, rfl⟩, rfl⟩ := h
    cases hc
    simp only []
    split
    · rename_i hlt
      exact .short hlt
    · rename_i hle
      exact .long (Nat.le_of_not_lt hle)
  | extend file =>
    obtain ⟨a, ⟨k, ends, hc, rfl⟩, rfl⟩ := h
    simp only [Kernel.call, Kernel.withFiles, FileTree.setLength] at hc
    split at hc
    · rename_i hle
      cases hc
      exact .extend hle
    · rename_i hlt
      cases hc
      exact .tooLong (Nat.lt_of_not_le hlt)
  | map file =>
    obtain ⟨a, ⟨k, ends, hc, rfl⟩, rfl⟩ := h
    simp only [Kernel.call, Kernel.mapFile] at hc
    split at hc
    · rename_i hle
      cases hc
      exact .map hle
    · rename_i hlt
      cases hc
      exact .tooLarge (Nat.lt_of_not_le hlt)

theorem after_readState {σ : Type} {next : Lifecycle → σ} {s : σ}
    (h : w.After t (.access (P.party r) .readState next) v s) :
    ∃ x, w.endpoints[P.id r]? = some x ∧ v = w ∧ s = next x.state := by
  obtain ⟨a, ⟨x, sec, hx, hc, rfl, rfl⟩, rfl⟩ := h
  cases hc
  exact ⟨x, hx, putEndpoint_self hx, rfl⟩

theorem connects_mailbox {s : Mailbox.Opening} {f : Flow Connecting (Except Error Unit)}
    (hk : w.kernel.Intact P.keys) (hs : P.ConnectingFit w.kernel r (.mailbox s))
    (h : w.After t ((Connecting.mailbox s).next (P.party r)) v f) :
    P.Connects r w t (.mailbox s) v f := by
  obtain ⟨f', h', rfl⟩ := h.of_map
  rw [party_keys] at h'
  cases s with
  | map s =>
    obtain ⟨g, hg, rfl⟩ := h'.of_map
    have hm := maps_of_after hg
    cases g with
    | more s' => exact .map hm
    | done a =>
      cases a with
      | ok m => exact .mapped hm
      | error e => exact .unmapped hm
  | semaphores m s =>
    obtain ⟨g, hg, rfl⟩ := h'.of_map
    have hj := joins_of_after (g := .gate) hk hs.2 hg
    cases g with
    | more s' => exact .boxSet hj
    | done a =>
      cases hj with
      | make hset => exact .boxMade (.make hset) rfl
      | join hset => exact .boxJoined (.join hset) rfl
  | unlink e => exact hs.elim
  | markVacant m =>
    obtain ⟨k, hsh, rfl, rfl⟩ := hk.after_add (g := .vacancy) (Box.set hs) (by decide) h'
    exact .markVacant hsh

theorem connects_signals {m : Mailbox} {s : Signals.Opening}
    {f : Flow Connecting (Except Error Unit)} (hk : w.kernel.Intact P.keys)
    (hs : P.ConnectingFit w.kernel r (.signals m s))
    (h : w.After t ((Connecting.signals m s).next (P.party r)) v f) :
    P.Connects r w t (.signals m s) v f := by
  obtain ⟨f', h', rfl⟩ := h.of_map
  rw [party_keys, party_settings, P.role_settings] at h'
  cases s with
  | outbound s =>
    obtain ⟨g, hg, rfl⟩ := h'.of_map
    have hj := joins_of_after (g := .signal r) hk hs.2 hg
    cases g with
    | more s' => exact .outSet hj
    | done a =>
      cases a with
      | ok h => exact .outDone hj
      | error e => cases hj
  | inbound out s =>
    obtain ⟨g, hg, rfl⟩ := h'.of_map
    have hj := joins_of_after (g := .signal r.peer) hk hs.2.2 hg
    cases g with
    | more s' => exact .inSet hj
    | done a =>
      cases a with
      | ok h => exact .inDone hj
      | error e => cases hj
  | discard => exact hs.2.elim

theorem connects_of_after {s : Connecting} {f : Flow Connecting (Except Error Unit)}
    (hk : w.kernel.Intact P.keys) (hs : P.ConnectingFit w.kernel r s)
    (h : w.After t (s.next (P.party r)) v f) : P.Connects r w t s v f := by
  cases s with
  | lock =>
    obtain ⟨a, ⟨x, sec, hx, hc, rfl, rfl⟩, rfl⟩ := h
    simp only [Endpoint.call, Endpoint.underLink] at hc
    split at hc
    · cases hc
    · rename_i hfree
      cases hc
      exact .lock hx (by simpa using hfree)
  | check busy =>
    obtain ⟨x, hx, rfl, rfl⟩ := after_readState h
    split
    · rename_i hb
      obtain ⟨hb, rfl⟩ := hb
      exact .vacant hx hb
    · rename_i hb
      refine .busy hx ?_
      cases busy <;> simp_all
  | mailbox s => exact connects_mailbox hk hs h
  | signals m s => exact connects_signals hk hs h
  | storeConnected l =>
    obtain ⟨a, ⟨x, sec, hx, hc, rfl, rfl⟩, rfl⟩ := h
    cases hc
    exact .storeConnected hx
  | spawnSender l =>
    obtain ⟨a, rfl, rfl⟩ := h
    exact .spawnSender
  | spawnReceiver l =>
    obtain ⟨a, rfl, rfl⟩ := h
    exact .spawnReceiver
  | attach l s =>
    obtain ⟨f', h', rfl⟩ := h.of_map
    cases s with
    | raiseGate =>
      obtain ⟨k, hsh, rfl, rfl⟩ := hk.after_add (g := .gate) hs.box.set (by decide) h'
      exact .raiseGate hsh
    | raiseCount =>
      obtain ⟨k, hsh, rfl, rfl⟩ := hk.after_add (g := .attached) hs.box.set (by decide) h'
      exact .raiseCount hsh
  | unlock l e =>
    obtain ⟨a, ⟨x, sec, hx, hc, rfl, rfl⟩, rfl⟩ := h
    cases hc
    exact .unlock hx
  | _ => exact hs.elim

end Pair

end QueuePair
