import QueuePair.Proofs.Execution
import QueuePair.Proofs.Files

namespace QueuePair

namespace FileTree

variable {t t' : FileTree} {p : Path} {file : FileId}

theorem node?_of_follow {above rest : List String} {n : Option Node}
    (h : t.follow above rest = .ok n) (hn : n ≠ some .directory) : t.node? (above ++ rest) = n := by
  induction rest generalizing above with
  | nil => exact absurd (Except.ok.inj h).symm hn
  | cons part rest ih =>
    have hassoc : above ++ part :: rest = above ++ [part] ++ rest := by simp
    simp only [follow] at h
    split at h
    · cases h
    · cases rest with
      | nil =>
        simp only [Except.ok.injEq] at h
        split at h
        · exact absurd h.symm hn
        · exact h
      | cons next rest =>
        rw [hassoc]
        simp only at h
        split at h
        · exact ih h
        · split at h
          · cases h
          · cases h
          · exact ih h

theorem node?_of_lookup {n : Option Node} (h : t.lookup p = .ok n) (hn : n ≠ some .directory) :
    t.node? p.parts = n :=
  node?_of_follow h hn

theorem openFile_error_iff : (∃ e, (t.openFile p true).2 = .error e) ↔
    (∃ e, t.lookup p = .error e) ∨ t.lookup p = .ok (some .directory) := by
  rw [openFile]
  split <;> rename_i h <;> simp [h]

theorem filter_nodes_of_node?_none {parts : List String} (h : t.node? parts = none) :
    t.nodes.filter (·.1 ≠ parts) = t.nodes := by
  rw [node?, Option.map_eq_none_iff, List.find?_eq_none] at h
  exact List.filter_eq_self.mpr fun x hx => by simpa using h x hx

theorem openFile_of_none (h : t.lookup p = .ok none) :
    t.openFile p true = (t.addFile p.parts, .ok t.files.length) := by
  simp [openFile, h, addFile]

def forget (t : FileTree) (parts : List String) : FileTree :=
  { t with nodes := t.nodes.filter (·.1 ≠ parts) }

theorem unlink_of_lookup (h : t.lookup p = .ok (some (.file file))) :
    t.unlink p = (t.forget p.parts, .ok ()) := by
  simp [unlink, h, forget]

theorem lookup_of_openFile (h : t.openFile p true = (t', .ok file)) :
    t'.lookup p = .ok (some (.file file)) := by
  obtain ⟨e, he, -⟩ | ⟨file', hf, hl, -⟩ := openFile_spec h
  · cases he
  · cases hf
    exact hl

theorem node?_forget (parts : List String) : (t.forget parts).node? parts = none := by
  simp [node?, forget, List.find?_eq_none]

def extend (t : FileTree) (file : FileId) (size : Nat) : FileTree :=
  t.modify file fun f => if f.length < size then f.resize size else f

theorem file?_addFile {f : File} (parts : List String) (h : t.file? file = some f) :
    (t.addFile parts).file? file = some f := by
  have hlt := (List.getElem?_eq_some_iff.mp h).1
  rw [file?, addFile, List.getElem?_append_left hlt]
  exact h

theorem file?_extend {file' : FileId} (size : Nat) (hne : file ≠ file') :
    (t.extend file size).file? file' = t.file? file' := by
  simp [file?, extend, modify, hne]

theorem forget_addFile {parts : List String} (h : t.node? parts = none) :
    ((t.addFile parts).forget parts).nodes = t.nodes := by
  rw [forget, addFile, List.filter_append, filter_nodes_of_node?_none h]
  simp

theorem extend_eq_self {size : Nat} (h : (t.file? file).any (·.length < size) = false) :
    t.extend file size = t := by
  have hf : t.files.modify file (fun f => if f.length < size then f.resize size else f) = t.files
      := by
    refine List.ext_getElem? fun i => ?_
    rw [List.getElem?_modify]
    split
    · subst file
      cases hi : t.files[i]? with
      | none => rfl
      | some f =>
        have hlong : size ≤ f.length := by simpa [file?, hi] using h
        simp [Nat.not_lt.mpr hlong]
    · simp
  rw [extend, modify, hf]

theorem extend_of_long {size : Nat} (h : ¬ (t.file? file).elim 0 (·.length) < size) :
    t.extend file size = t :=
  extend_eq_self (by cases hf : t.file? file <;> simp_all)

theorem file?_extend_of_short {f : File} {size : Nat} (hf : t.file? file = some f)
    (h : f.length < size) : (t.extend file size).file? file = some (f.resize size) := by
  have hget : t.files[file]? = some f := hf
  simp [file?, extend, modify, hget, h]

theorem extend_of_short {size : Nat} (h : (t.file? file).elim 0 (·.length) < size) :
    t.extend file size = t.modify file (·.resize size) := by
  have hf : t.files.modify file (fun f => if f.length < size then f.resize size else f) =
      t.files.modify file (·.resize size) := by
    refine List.ext_getElem? fun i => ?_
    rw [List.getElem?_modify, List.getElem?_modify]
    split
    · subst file
      cases hi : t.files[i]? with
      | none => rfl
      | some f =>
        simp only [file?, hi, Option.elim_some] at h
        simp [h]
    · rfl
  rw [extend, modify, hf, modify]

def lengthAt (t : FileTree) (p : Path) : Nat :=
  match t.lookup p with
  | .ok (some (.file file)) => (t.file? file).elim 0 (·.length)
  | _ => 0

theorem length_of_openFile (h : t.openFile p true = (t', .ok file)) :
    (t'.file? file).elim 0 (·.length) = t.lengthAt p := by
  obtain ⟨e, he, -⟩ | ⟨file', hf, hl, rfl | ⟨hnone, rfl, hfiles⟩⟩ := openFile_spec h
  · cases he
  · cases hf
    simp only [lengthAt, hl]
  · cases hf
    simp [lengthAt, hnone, file?, hfiles, File.empty]

theorem openFile_cases (h : t.openFile p true = (t', .ok file)) :
    (t' = t ∧ t.lookup p = .ok (some (.file file))) ∨
      t' = t.addFile p.parts ∧ file = t.files.length ∧ t.lookup p = .ok none ∧
        t.node? p.parts = none := by
  obtain ⟨e, he, -⟩ | ⟨file', hf, hl, rfl | ⟨hnone, rfl, -⟩⟩ := openFile_spec h
  · cases he
  · cases hf
    exact .inl ⟨rfl, hl⟩
  · rw [openFile_of_none hnone] at h
    cases h
    exact .inr ⟨rfl, rfl, hnone, node?_of_lookup hnone (by simp)⟩

end FileTree

namespace Kernel

variable {k : Kernel} {path : Path} {size : Nat}

def Refuses (k : Kernel) (path : Path) (size : Nat) : Prop :=
  (k.files.lengthAt path < size ∧ k.limits.file < size) ∨ k.limits.mapping < size

instance : Decidable (k.Refuses path size) :=
  inferInstanceAs (Decidable (_ ∨ _))

/-- Everything that there was is as it was: the sets, the names, and every file. -/
structure Untouched (k k' : Kernel) : Prop where
  sets : k'.sets = k.sets
  names : k'.files.nodes = k.files.nodes
  files : ∀ file f, k.files.file? file = some f → k'.files.file? file = some f

theorem Untouched.refl (k : Kernel) : k.Untouched k :=
  ⟨rfl, rfl, fun _ _ h => h⟩

/-- A failed opening of a mailbox of this size leaves something behind, or takes something away: a
file that it made, more bytes of a file, or the name of a file. -/
def Spoils (k : Kernel) (path : Path) (size : Nat) : Prop :=
  match k.files.lookup path with
  | .ok none => k.Refuses path size
  | .ok (some (.file file)) => k.Refuses path size →
    (k.files.file? file).any (·.length < size) = true ∧ size ≤ k.limits.file
  | _ => False

end Kernel

namespace MapFile

variable {t : ThreadId} {k k' : Kernel} {path : Path} {size : Nat} {r : Except SystemError Mapping}

/-- What comes of mapping a file alone. -/
inductive Ends (k : Kernel) (path : Path) (size : Nat) :
    Kernel → Except SystemError Mapping → Prop
  | unopened {e : SystemError} : k.files.openFile path true = (k.files, .error e) →
      Ends k path size k (.error e)
  | tooLong {files : FileTree} {file : FileId} : k.files.openFile path true = (files, .ok file) →
      k.files.lengthAt path < size → k.limits.file < size →
      Ends k path size { k with files } (.error .fileTooLarge)
  | tooLarge {files : FileTree} {file : FileId} : k.files.openFile path true = (files, .ok file) →
      (k.files.lengthAt path < size → size ≤ k.limits.file) → k.limits.mapping < size →
      Ends k path size { k with files := files.extend file size } (.error .outOfMemory)
  | mapped {files : FileTree} {file : FileId} : k.files.openFile path true = (files, .ok file) →
      ¬ k.Refuses path size →
      Ends k path size { k with files := files.extend file size } (.ok ⟨file, size, path⟩)

theorem executes_map {file : FileId} : Executes t (next path size true) k (.more (.map file)) k
    (if size ≤ k.limits.mapping then .ok ⟨file, size, path⟩ else .error .outOfMemory) := by
  refine .call (a := k.mapFile size) rfl rfl ?_
  unfold Kernel.mapFile
  split <;> exact .done

theorem executes (t : ThreadId) (k : Kernel) (path : Path) (size : Nat) :
    ∃ k' r, Ends k path size k' r ∧
      Executes t (next path size true) k (.more .openFile) k' r := by
  rcases ho : k.files.openFile path true with ⟨files, e | file⟩
  · obtain ⟨e', he, rfl⟩ | ⟨_, he, -⟩ := FileTree.openFile_spec ho
    · refine ⟨k, .error e, .unopened ho, .call rfl (a := .error e) ?_ .done⟩
      simp [Kernel.call, Kernel.withFiles, ho]
    · cases he
  have hlength := FileTree.length_of_openFile ho
  let k₁ : Kernel := { k with files }
  suffices ∃ k' r, Ends k path size k' r ∧
      Executes t (next path size true) k₁ (.more (.measure file)) k' r by
    obtain ⟨k', r, hends, hex⟩ := this
    exact ⟨k', r, hends, .call rfl (a := .ok file) (by simp [Kernel.call, Kernel.withFiles, ho, k₁])
      hex⟩
  -- once the file has its length, the mapping decides
  have hmap : (k.files.lengthAt path < size → size ≤ k.limits.file) →
      ∃ r, Ends k path size { k with files := files.extend file size } r ∧
        Executes t (next path size true) { k with files := files.extend file size }
          (.more (.map file)) { k with files := files.extend file size } r := fun hfits => by
    refine ⟨_, ?_, executes_map⟩
    split
    · rename_i hle
      refine .mapped ho ?_
      rintro (⟨hshort, hlt⟩ | hlt)
      · exact absurd (hfits hshort) (Nat.not_le.mpr hlt)
      · exact absurd hle (Nat.not_le.mpr hlt)
    · rename_i hlt
      exact .tooLarge ho hfits (Nat.lt_of_not_le hlt)
  by_cases hshort : k.files.lengthAt path < size
  · by_cases hle : size ≤ k.limits.file
    · obtain ⟨r, hends, hex⟩ := hmap fun _ => hle
      refine ⟨_, r, hends, .call rfl rfl ?_⟩
      rw [if_pos (hlength ▸ hshort)]
      refine .call (a := .ok ()) rfl ?_ hex
      rw [FileTree.extend_of_short (hlength ▸ hshort)]
      simp [Kernel.call, Kernel.withFiles, FileTree.setLength, k₁, hle]
    · refine ⟨k₁, _, .tooLong ho hshort (Nat.lt_of_not_le hle), .call rfl rfl ?_⟩
      rw [if_pos (hlength ▸ hshort)]
      refine .call (a := .error .fileTooLarge) rfl ?_ .done
      simp [Kernel.call, Kernel.withFiles, FileTree.setLength, k₁, hle]
  · obtain ⟨r, hends, hex⟩ := hmap fun h => absurd h hshort
    refine ⟨_, r, hends, .call rfl rfl ?_⟩
    rw [if_neg (hlength ▸ hshort)]
    rw [FileTree.extend_of_long (hlength ▸ hshort)] at hex ⊢
    exact hex

theorem Ends.sets (h : Ends k path size k' r) : k'.sets = k.sets := by
  cases h <;> rfl

theorem Ends.lookup {m : Mapping} (h : Ends k path size k' (.ok m)) :
    k'.files.lookup path = .ok (some (.file m.file)) := by
  cases h with
  | mapped ho => exact (FileTree.lookup_modify ..).trans (FileTree.lookup_of_openFile ho)

theorem Ends.error_iff (h : Ends k path size k' r) : (∃ e, r = .error e) ↔
    (∃ e, k.files.lookup path = .error e) ∨ k.files.lookup path = .ok (some .directory) ∨
      k.Refuses path size := by
  have hopened : ∀ {files file}, k.files.openFile path true = (files, .ok file) →
      ¬ ((∃ e, k.files.lookup path = .error e) ∨ k.files.lookup path = .ok (some .directory)) := by
    intro files file ho hno
    obtain ⟨e, he⟩ := FileTree.openFile_error_iff.mpr hno
    rw [ho] at he
    cases he
  cases h with
  | unopened ho =>
    have hno := FileTree.openFile_error_iff.mp ⟨_, congrArg (·.2) ho⟩
    exact iff_of_true ⟨_, rfl⟩ (hno.imp_right .inl)
  | tooLong ho hshort hlt => exact iff_of_true ⟨_, rfl⟩ (.inr (.inr (.inl ⟨hshort, hlt⟩)))
  | tooLarge ho hfits hlt => exact iff_of_true ⟨_, rfl⟩ (.inr (.inr (.inr hlt)))
  | mapped ho hgrants =>
    refine iff_of_false (by simp) ?_
    rintro (h | h | h)
    · exact hopened ho (.inl h)
    · exact hopened ho (.inr h)
    · exact hgrants h

/-- Mapping that fails spoils nothing but a file that it made or made longer. -/
theorem Ends.failed {e : SystemError} (h : Ends k path size k' (.error e)) :
    (k.Untouched k' ↔ ¬ k.Spoils path size) ∧ (k.files.lookup path = .ok none →
      k'.files.lookup path = .ok (some (.file k.files.files.length))) := by
  cases h with
  | unopened ho =>
    have hno := FileTree.openFile_error_iff.mp ⟨_, congrArg (·.2) ho⟩
    refine ⟨iff_of_true (.refl k) ?_, fun hnone => ?_⟩
    · obtain ⟨e, he⟩ | hdir := hno
      · simp [Kernel.Spoils, he]
      · simp [Kernel.Spoils, hdir]
    · simp [hnone] at hno
  | tooLong ho hshort hlt =>
    obtain ⟨rfl, hl⟩ | ⟨rfl, rfl, hnone, hnode⟩ := FileTree.openFile_cases ho
    · refine ⟨iff_of_true (.refl k) ?_, fun h => by cases hl.symm.trans h⟩
      simp only [Kernel.Spoils, hl]
      exact fun h => absurd (h (.inl ⟨hshort, hlt⟩)).2 (Nat.not_le.mpr hlt)
    · refine ⟨iff_of_false (fun hu => ?_) (not_not_intro ?_), fun _ =>
        FileTree.lookup_of_openFile ho⟩
      · simpa [FileTree.addFile] using congrArg List.length hu.names
      · simp only [Kernel.Spoils, hnone]
        exact .inl ⟨hshort, hlt⟩
  | tooLarge ho hfits hlt =>
    rename_i files file
    have hlook : (files.extend file size).lookup path = .ok (some (.file file)) :=
      (FileTree.lookup_modify ..).trans (FileTree.lookup_of_openFile ho)
    obtain ⟨rfl, hl⟩ | ⟨rfl, rfl, hnone, hnode⟩ := FileTree.openFile_cases ho
    · refine ⟨?_, fun h => by cases hl.symm.trans h⟩
      have hspoils : k.Spoils path size ↔
          (k.files.file? file).any (·.length < size) = true ∧ size ≤ k.limits.file := by
        simp only [Kernel.Spoils, hl]
        exact ⟨fun h => h (.inr hlt), fun h _ => h⟩
      rw [hspoils]
      cases hshort : (k.files.file? file).any (·.length < size) with
      | false =>
        rw [FileTree.extend_eq_self hshort]
        exact iff_of_true (.refl k) (by simp)
      | true =>
        obtain ⟨f, hf, hlength⟩ := (Option.any_eq_true _ _).mp hshort
        have hlength : f.length < size := of_decide_eq_true hlength
        refine iff_of_false (fun hu => ?_) (not_not_intro ⟨rfl, hfits ?_⟩)
        · have he := hu.files file f hf
          rw [FileTree.file?_extend_of_short hf hlength] at he
          have hsame : size = f.length := congrArg File.length (Option.some.inj he)
          omega
        · simpa [FileTree.lengthAt, hl, hf] using hlength
    · refine ⟨iff_of_false (fun hu => ?_) (not_not_intro ?_), fun _ => hlook⟩
      · simpa [FileTree.addFile, FileTree.extend, FileTree.modify] using
          congrArg List.length hu.names
      · simp only [Kernel.Spoils, hnone]
        exact .inr hlt

end MapFile

namespace OpenSet

variable {t : ThreadId} {k : Kernel} {key : Key} {count : Nat}

theorem executes_create (h : k.setOf? key = none) (h0 : count ≠ 0) (hm : count ≤ Kernel.setMax) :
    Executes t (next key count) k (.more .create)
      { k with sets := k.sets ++ [.create key count] } (.ok ⟨k.sets.length, count, key, true⟩) := by
  refine .call (a := .ok k.sets.length) rfl ?_ .done
  simp [Kernel.call, Kernel.createSet, h, h0, Nat.not_lt.mpr hm]

theorem executes_join {set : SetId} {s : SemaphoreSet} (h : k.setOf? key = some set)
    (hs : k.sets[set]? = some s) (hm : count ≤ Kernel.setMax) :
    Executes t (next key count) k (.more .create) k
      (if count ≤ s.values.length then .ok ⟨set, count, key, false⟩
        else .error (failure .invalidArgument)) := by
  refine .call (u := k) (a := .error .exists) rfl
    (by simp [Kernel.call, Kernel.createSet, h, Nat.not_lt.mpr hm]) ?_
  refine .call (a := k.joinSet key count) rfl rfl ?_
  simp only [Kernel.joinSet, h, hs, Option.map_some, Option.getD_some]
  by_cases hle : count ≤ s.values.length
  · rw [if_neg (Nat.not_lt.mpr hle), if_pos hle]
    exact .done
  · rw [if_pos (Nat.not_le.mp hle), if_neg hle]
    exact .done

end OpenSet

namespace Kernel

variable {k : Kernel} {key : Key}

theorem setOf?_spec {set : SetId} (h : k.setOf? key = some set) :
    ∃ s, k.sets[set]? = some s ∧ s.key = key ∧ s.removed = false := by
  unfold setOf? at h
  split at h
  · cases h
  · obtain ⟨hlt, hp, -⟩ := List.findIdx?_eq_some_iff_getElem.mp h
    simp only [Bool.and_eq_true, decide_eq_true_eq, Bool.not_eq_true'] at hp
    exact ⟨_, List.getElem?_eq_getElem hlt, hp⟩

theorem setOf?_of_sets {k' : Kernel} (h : k'.sets = k.sets) (key : Key) :
    k'.setOf? key = k.setOf? key := by
  simp only [setOf?, h]

def Short (k : Kernel) (key : Key) (count : Nat) : Prop :=
  ∃ set s, k.setOf? key = some set ∧ k.sets[set]? = some s ∧ s.values.length < count

end Kernel

namespace Mailbox.Opening

variable {t : ThreadId} {k k' : Kernel} {path : Path} {capacity : Nat} {key : Key}
  {r : Except Error Mailbox}

/-- What comes of opening a mailbox alone. -/
inductive Ends (k : Kernel) (path : Path) (capacity : Nat) (key : Key) :
    Kernel → Except Error Mailbox → Prop
  -- the file cannot be had, made longer or mapped
  | unmapped {k' : Kernel} {e : SystemError} :
      MapFile.Ends k path (Record.headerSize + capacity) k' (.error e) →
      Ends k path capacity key k' (.error (.ofSystem e))
  | made {k' : Kernel} {m : Mapping} :
      MapFile.Ends k path (Record.headerSize + capacity) k' (.ok m) → k.setOf? key = none →
      Ends k path capacity key { k' with sets := k.sets ++ [⟨key, [0, 1, 0], [], false⟩] }
        (.ok ⟨⟨k.sets.length, semaphoreCount, key, true⟩, m.file, path, capacity⟩)
  | joined {k' : Kernel} {m : Mapping} {set : SetId} {s : SemaphoreSet} :
      MapFile.Ends k path (Record.headerSize + capacity) k' (.ok m) →
      k.setOf? key = some set → k.sets[set]? = some s → semaphoreCount ≤ s.values.length →
      Ends k path capacity key k' (.ok ⟨⟨set, semaphoreCount, key, false⟩, m.file, path, capacity⟩)
  -- the set of the key is too small: the name of the file is removed
  | refused {k' : Kernel} {m : Mapping} :
      MapFile.Ends k path (Record.headerSize + capacity) k' (.ok m) →
      k.Short key semaphoreCount →
      Ends k path capacity key { k' with files := k'.files.forget path.parts }
        (.error (OpenSet.failure .invalidArgument))

theorem executes (t : ThreadId) (k : Kernel) (path : Path) (capacity : Nat) (key : Key) :
    ∃ k' r, Ends k path capacity key k' r ∧
      Executes t (next path capacity key) k (.more start) k' r := by
  obtain ⟨k₁, a, hmaps, hmap⟩ := MapFile.executes t k path (Record.headerSize + capacity)
  cases a with
  | error e => exact ⟨k₁, _, .unmapped hmaps, hmap.through (fun _ => rfl) .done⟩
  | ok m =>
  have hmax : semaphoreCount ≤ Kernel.setMax := by decide
  have hsets : k₁.sets = k.sets := hmaps.sets
  -- the file is mapped; the semaphores decide
  suffices ∃ k' r, Ends k path capacity key k' r ∧
      Executes t (next path capacity key) k₁ (.more (.semaphores m .create)) k' r by
    obtain ⟨k', r, hends, hex⟩ := this
    exact ⟨k', r, hends, hmap.through (fun _ => rfl) hex⟩
  cases hset : k₁.setOf? key with
  | none =>
    refine ⟨_, _, .made hmaps ((Kernel.setOf?_of_sets hsets key).symm.trans hset),
      (OpenSet.executes_create hset (by decide) hmax).through (fun _ => rfl) ?_⟩
    let k₂ : Kernel := { k₁ with sets := k₁.sets ++ [.create key semaphoreCount] }
    have hlive : k₂.live? k₁.sets.length = some (.create key semaphoreCount) := by
      simp [k₂, Kernel.live?, SemaphoreSet.create]
    have hput : k₂.putSet k₁.sets.length ⟨key, [0, 1, 0], [], false⟩ =
        { k₁ with sets := k₁.sets ++ [⟨key, [0, 1, 0], [], false⟩] } := by
      simp [k₂, Kernel.putSet]
    rw [← hsets]
    refine .call (a := .ok ()) rfl (Kernel.call_change hlive rfl rfl none) ?_
    exact hput ▸ .done
  | some set =>
    obtain ⟨s, hs, -, -⟩ := Kernel.setOf?_spec hset
    have hset' : k.setOf? key = some set := (Kernel.setOf?_of_sets hsets key).symm.trans hset
    have hjoin := OpenSet.executes_join (t := t) hset hs hmax
    by_cases hc : semaphoreCount ≤ s.values.length
    · rw [if_pos hc] at hjoin
      exact ⟨_, _, .joined hmaps hset' (hsets ▸ hs) hc, hjoin.through (fun _ => rfl) .done⟩
    · rw [if_neg hc] at hjoin
      refine ⟨_, _, .refused hmaps ⟨set, s, hset', hsets ▸ hs, Nat.not_le.mp hc⟩,
        hjoin.through (fun _ => rfl) ?_⟩
      refine .call (a := .ok ()) rfl ?_ .done
      rw [Kernel.call, FileTree.unlink_of_lookup hmaps.lookup]
      rfl

/-- What a failed opening leaves: a file that was there loses its name if only the set was refused,
and a file that was made stays if its length or the mapping was refused. -/
theorem Ends.failed {e : Error} (h : Ends k path capacity key k' (.error e)) :
    (k.Untouched k' ↔ ¬ k.Spoils path (Record.headerSize + capacity)) ∧
    (∀ file, k.files.lookup path = .ok (some (.file file)) →
      ¬ k.Refuses path (Record.headerSize + capacity) → k' = { k with
        files := (k.files.extend file (Record.headerSize + capacity)).forget path.parts }) ∧
    (k.files.lookup path = .ok none → k.Refuses path (Record.headerSize + capacity) →
      k'.files.lookup path = .ok (some (.file k.files.files.length))) := by
  cases h with
  | unmapped hm =>
    obtain ⟨hspoils, hstays⟩ := hm.failed
    refine ⟨hspoils, fun file hl hgrants => ?_, fun hnone _ => hstays hnone⟩
    obtain ⟨e, he⟩ | hdir | hrefuses := hm.error_iff.mp ⟨_, rfl⟩
    · cases hl.symm.trans he
    · cases hl.symm.trans hdir
    · exact absurd hrefuses hgrants
  | refused hm hs =>
    cases hm with
    | @mapped files file ho hgrants =>
    refine ⟨?_, fun file' hl _ => ?_, fun _ h => absurd h hgrants⟩
    · obtain ⟨rfl, hl⟩ | ⟨rfl, rfl, hnone, hnode⟩ := FileTree.openFile_cases ho
      · refine iff_of_false (fun hu => ?_) (not_not_intro ?_)
        · have hname := FileTree.node?_of_lookup hl (by simp)
          have hgone := FileTree.node?_forget
            (t := k.files.extend file (Record.headerSize + capacity)) path.parts
          rw [FileTree.node?, hu.names, ← FileTree.node?, hname] at hgone
          cases hgone
        · simp only [Kernel.Spoils, hl]
          exact fun h => absurd h hgrants
      · -- the file is new, and its name goes with it
        refine iff_of_true ⟨rfl, FileTree.forget_addFile hnode, fun file f hf => ?_⟩ ?_
        · have hlt := (List.getElem?_eq_some_iff.mp hf).1
          exact (FileTree.file?_extend _ (Nat.ne_of_gt hlt)).trans (FileTree.file?_addFile _ hf)
        · simp only [Kernel.Spoils, hnone]
          exact hgrants
    · obtain ⟨rfl, hl'⟩ | ⟨-, -, hnone, -⟩ := FileTree.openFile_cases ho
      · obtain rfl : file' = file := by simpa using hl.symm.trans hl'
        rfl
      · cases hl.symm.trans hnone

theorem Ends.error_iff (h : Ends k path capacity key k' r) :
    (∃ e, r = .error e) ↔ (∃ e, k.files.lookup path = .error e) ∨
      k.files.lookup path = .ok (some .directory) ∨
      k.Refuses path (Record.headerSize + capacity) ∨ k.Short key semaphoreCount := by
  have hmapped : ∀ {k₁ m}, MapFile.Ends k path (Record.headerSize + capacity) k₁ (.ok m) →
      ¬ ((∃ e, k.files.lookup path = .error e) ∨ k.files.lookup path = .ok (some .directory) ∨
        k.Refuses path (Record.headerSize + capacity)) := fun hm hno => by
    obtain ⟨e, he⟩ := hm.error_iff.mpr hno
    cases he
  have hopened : ∀ {k₁ m}, MapFile.Ends k path (Record.headerSize + capacity) k₁ (.ok m) →
      ¬ k.Short key semaphoreCount → ¬ ((∃ e, k.files.lookup path = .error e) ∨
        k.files.lookup path = .ok (some .directory) ∨
        k.Refuses path (Record.headerSize + capacity) ∨ k.Short key semaphoreCount) := by
    rintro k₁ m hm hwide (h | h | h | h)
    · exact hmapped hm (.inl h)
    · exact hmapped hm (.inr (.inl h))
    · exact hmapped hm (.inr (.inr h))
    · exact hwide h
  cases h with
  | unmapped hm =>
    obtain h | h | h := hm.error_iff.mp ⟨_, rfl⟩
    · exact iff_of_true ⟨_, rfl⟩ (.inl h)
    · exact iff_of_true ⟨_, rfl⟩ (.inr (.inl h))
    · exact iff_of_true ⟨_, rfl⟩ (.inr (.inr (.inl h)))
  | made hm hs =>
    refine iff_of_false (by simp) (hopened hm ?_)
    rintro ⟨_, _, hset, -⟩
    rw [hs] at hset
    cases hset
  | joined hm hset hs hc =>
    refine iff_of_false (by simp) (hopened hm ?_)
    rintro ⟨_, _, hset', hs', hlt⟩
    rw [hset] at hset'
    cases hset'
    rw [hs] at hs'
    cases hs'
    exact absurd hc (Nat.not_le.mpr hlt)
  | refused hm hs => exact iff_of_true ⟨_, rfl⟩ (.inr (.inr (.inr hs)))

end Mailbox.Opening

/-- The error that a thread ended with, if it did. -/
def Outcome.error? : Outcome → Option Error
  | .returned (.error e) => some e
  | _ => none

namespace World

variable {w : World}

/-- Opening a mailbox in a thread of its own, while nobody else does anything, comes to an end. It
fails exactly if the path leads to an error or to a directory, if the system refuses the length of
the file or its mapping, or if the set of the key is too small. Then a file that was there may be
longer, and has lost its name if only the set was refused; a file that was made stays if it could
not be made long enough or mapped. Everything else is as it was. -/
theorem mailbox_opening (hq : w.Queued) (path : Path) (capacity : Nat) (key : Key) :
    ∃ n v r, (w.request (.openMailbox path capacity key)).1.follow
        (List.replicate n w.threads.length) = some v ∧
      v.outcome? w.threads.length = some (.returned r) ∧ v.endpoints = w.endpoints ∧
      ((∃ e, r = .error e) ↔ (∃ e, w.kernel.files.lookup path = .error e) ∨
        w.kernel.files.lookup path = .ok (some .directory) ∨
        w.kernel.Refuses path (Record.headerSize + capacity) ∨
        w.kernel.Short key Mailbox.semaphoreCount) ∧
      ∀ e, r = .error e →
        (w.kernel.Untouched v.kernel ↔ ¬ w.kernel.Spoils path (Record.headerSize + capacity)) ∧
        (∀ file, w.kernel.files.lookup path = .ok (some (.file file)) →
          ¬ w.kernel.Refuses path (Record.headerSize + capacity) → v.kernel = { w.kernel with
            files := (w.kernel.files.extend file (Record.headerSize + capacity)).forget
              path.parts }) ∧
        (w.kernel.files.lookup path = .ok none →
          w.kernel.Refuses path (Record.headerSize + capacity) →
          v.kernel.files.lookup path = .ok (some (.file w.kernel.files.files.length))) := by
  obtain ⟨k', r, hends, hex⟩ := Mailbox.Opening.executes w.threads.length w.kernel path capacity key
  have hcall : Executes w.threads.length Call.next w.kernel
      (Call.ofObject (.openMailbox path capacity key)) k' (r.map Value.mailbox) :=
    hex.through (fun _ => rfl) .done
  obtain ⟨n, v, hv, rfl, ho, he⟩ := follow_request hq hcall
  have herror : ∀ e, r.map Value.mailbox = .error e ↔ r = .error e := fun e => by
    cases r <;> simp [Except.map]
  refine ⟨n, v, _, hv, ho, he, ?_, fun e hre => ?_⟩
  · simpa only [herror] using hends.error_iff
  · obtain rfl := (herror e).mp hre
    exact hends.failed

/-- A mailbox whose semaphores were removed; a smaller set has their key now. -/
def undersized : World :=
  empty.play (.request (.openMailbox ⟨"/m"⟩ 16 1) :: List.replicate 6 (.run 0) ++
    [.request (.removeSet ⟨0, 3, 1, true⟩), .run 1, .request (.openSet 1 1), .run 2])

theorem undersized_reachable : Reachable undersized :=
  Run.refl.play fun _ _ => trivial

theorem undersized_short : undersized.kernel.Short 1 Mailbox.semaphoreCount :=
  ⟨1, .create 1 1, by decide +kernel, by decide +kernel, by decide +kernel⟩

/-- The file of a mailbox is lost to one who fails to open it once more. -/
theorem mailbox_opening_refused : ∃ n v e,
    (undersized.request (.openMailbox ⟨"/m"⟩ 16 1)).1.follow (List.replicate n 3) = some v ∧
      v.outcome? 3 = some (.returned (.error e)) ∧ ¬ undersized.kernel.Untouched v.kernel := by
  obtain ⟨n, v, r, hv, ho, -, herr, hkeep⟩ := mailbox_opening
    undersized_reachable.queued ⟨"/m"⟩ 16 1
  obtain ⟨e, rfl⟩ := herr.mpr (.inr (.inr (.inr undersized_short)))
  refine ⟨n, v, e, hv, ho, fun hu => (hkeep e rfl).1.mp hu ?_⟩
  have hlook : undersized.kernel.files.lookup ⟨"/m"⟩ = .ok (some (.file 0)) := by decide +kernel
  have hgrants : ¬ undersized.kernel.Refuses ⟨"/m"⟩ (Record.headerSize + 16) := by decide +kernel
  simp only [Kernel.Spoils, hlook]
  exact fun h => absurd h hgrants

theorem existing_mailbox_unlinked : undersized.kernel.files.stat ⟨"/m"⟩ = .file 20 ∧
    ∃ v, (undersized.request (.openMailbox ⟨"/m"⟩ 16 1)).1.follow (List.replicate 6 3) = some v ∧
      (v.outcome? 3).bind Outcome.error? = some (OpenSet.failure .invalidArgument) ∧
      v.kernel.files.stat ⟨"/m"⟩ = .absent := by
  have hany : ((undersized.request (.openMailbox ⟨"/m"⟩ 16 1)).1.follow (List.replicate 6 3)).any
      (fun v => (v.outcome? 3).bind Outcome.error? = some (OpenSet.failure .invalidArgument) ∧
        v.kernel.files.stat ⟨"/m"⟩ = .absent) = true := by decide +kernel
  refine ⟨by decide +kernel, ?_⟩
  simpa [Option.any_eq_true] using hany

theorem unmapped_mailbox_stays :
    ∃ v, (empty.request (.openMailbox ⟨"/m"⟩ (2 ^ 62) 1)).1.follow (List.replicate 4 0) = some v ∧
      (v.outcome? 0).bind Outcome.error? = some (.ofSystem .outOfMemory) ∧
      v.kernel.files.stat ⟨"/m"⟩ = .file (Record.headerSize + 2 ^ 62) := by
  have hany : ((empty.request (.openMailbox ⟨"/m"⟩ (2 ^ 62) 1)).1.follow (List.replicate 4 0)).any
      (fun v => (v.outcome? 0).bind Outcome.error? = some (.ofSystem .outOfMemory) ∧
        v.kernel.files.stat ⟨"/m"⟩ = .file (Record.headerSize + 2 ^ 62)) = true := by
    decide +kernel
  simpa [Option.any_eq_true] using hany

end World

end QueuePair
