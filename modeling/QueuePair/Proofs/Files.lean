import QueuePair.Kernel.Calls

namespace QueuePair

def Limits.Grants (l : Limits) (capacity : Nat) : Prop :=
  Record.headerSize + capacity ≤ l.file ∧ Record.headerSize + capacity ≤ l.mapping

instance (l : Limits) (capacity : Nat) : Decidable (l.Grants capacity) :=
  inferInstanceAs (Decidable (_ ∧ _))

namespace FileTree

variable {t : FileTree}

def addFile (t : FileTree) (parts : List String) : FileTree :=
  ⟨t.nodes ++ [(parts, .file t.files.length)], t.files ++ [.empty]⟩

theorem node?_addFile (parts q : List String) : (t.addFile parts).node? q =
    (t.node? q).or (if parts = q then some (.file t.files.length) else none) := by
  simp only [node?, addFile, List.find?_append, Option.map_or]
  by_cases h : parts = q <;> simp [h]

/-- A path leads to its file as long as the directories on the way and the file have their names. -/
theorem follow_file {t' : FileTree} {above rest : List String} {file : FileId}
    (h : t.follow above rest = .ok (some (.file file)))
    (hdir : ∀ q, t.node? q = some .directory → t'.node? q = some .directory)
    (hfile : t.node? (above ++ rest) = some (.file file) →
      t'.node? (above ++ rest) = some (.file file)) :
    t'.follow above rest = .ok (some (.file file)) := by
  induction rest generalizing above with
  | nil => cases h
  | cons part rest ih =>
    cases rest with
    | nil =>
      simp only [follow] at h ⊢
      split at h
      · cases h
      · rename_i hlen
        split at h
        · cases h
        · rename_i hroot
          rw [if_neg hlen, if_neg hroot, hfile (Except.ok.inj h)]
    | cons next rest =>
      have hassoc : above ++ [part] ++ next :: rest = above ++ part :: next :: rest := by simp
      have hih := @ih (above ++ [part])
      rw [hassoc] at hih
      simp only [follow] at h ⊢
      split at h
      · cases h
      · rename_i hlen
        rw [if_neg hlen]
        split at h
        · rename_i hroot
          rw [if_pos hroot]
          exact hih h hfile
        · rename_i hroot
          rw [if_neg hroot]
          cases hn : t.node? (above ++ [part]) with
          | none => simp [hn] at h
          | some node =>
            cases node with
            | file f => simp [hn] at h
            | directory =>
              simp only [hn] at h
              rw [hdir _ hn]
              exact hih h hfile

/-- A new name at a place where nothing was is found there. -/
theorem follow_addFile (above rest : List String) (h : t.follow above rest = .ok none) :
    (t.addFile (above ++ rest)).follow above rest = .ok (some (.file t.files.length)) := by
  induction rest generalizing above with
  | nil => simp [follow] at h
  | cons part rest ih =>
    cases rest with
    | nil =>
      simp only [follow] at h ⊢
      split at h
      · cases h
      · rename_i hlen
        split at h
        · cases h
        · rename_i hroot
          rw [if_neg hlen, if_neg hroot, node?_addFile, Except.ok.inj h]
          simp
    | cons next rest =>
      have hassoc : above ++ [part] ++ next :: rest = above ++ part :: next :: rest := by simp
      have hih := ih (above ++ [part])
      rw [hassoc] at hih
      simp only [follow] at h ⊢
      split at h
      · cases h
      · rename_i hlen
        rw [if_neg hlen]
        split at h
        · rename_i hroot
          rw [if_pos hroot]
          exact hih h
        · rename_i hroot
          rw [if_neg hroot, node?_addFile]
          cases hn : t.node? (above ++ [part]) with
          | none => simp [hn] at h
          | some node =>
            cases node with
            | file f => simp [hn] at h
            | directory =>
              simp only [hn] at h
              exact hih h

theorem openFile_spec {p : Path} {t' : FileTree} {r : Except SystemError FileId}
    (h : t.openFile p true = (t', r)) :
    (∃ e, r = .error e ∧ t' = t) ∨
      ∃ file, r = .ok file ∧ t'.lookup p = .ok (some (.file file)) ∧
        (t' = t ∨ t.lookup p = .ok none ∧ file = t.files.length ∧ t'.files = t.files ++ [.empty])
    := by
  simp only [openFile] at h
  split at h
  · obtain ⟨rfl, rfl⟩ := Prod.mk.inj h
    exact .inl ⟨_, rfl, rfl⟩
  · obtain ⟨rfl, rfl⟩ := Prod.mk.inj h
    exact .inl ⟨_, rfl, rfl⟩
  · rename_i file hl
    obtain ⟨rfl, rfl⟩ := Prod.mk.inj h
    exact .inr ⟨file, rfl, hl, .inl rfl⟩
  · rename_i hl
    obtain ⟨rfl, rfl⟩ := Prod.mk.inj h
    refine .inr ⟨_, rfl, ?_, .inr ⟨hl, rfl, rfl⟩⟩
    exact follow_addFile [] p.parts hl

@[simp] theorem lookup_modify (id : FileId) (f : File → File) (p : Path) :
    (t.modify id f).lookup p = t.lookup p := by
  have hf : ∀ above rest, (t.modify id f).follow above rest = t.follow above rest := by
    intro above rest
    induction rest generalizing above with
    | nil => rfl
    | cons part rest ih =>
      simp only [follow, ih]
      rfl
  exact hf [] p.parts

@[simp] theorem lookup_setLength (limit : Nat) (id : FileId) (length : Nat) (p : Path) :
    (t.setLength limit id length).1.lookup p = t.lookup p := by
  unfold setLength
  split
  · exact lookup_modify ..
  · rfl

end FileTree

end QueuePair
