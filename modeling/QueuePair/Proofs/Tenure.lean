import QueuePair.Proofs.Connection
import QueuePair.Proofs.Opening

namespace QueuePair

open Relation (ReflTransGen)

namespace FileTree

variable {t : FileTree} {p q : Path} {file : FileId}

theorem node?_forget_ne {parts other : List String} (hne : parts ≠ other) :
    (t.forget parts).node? other = t.node? other := by
  simp only [node?, forget, List.find?_filter]
  congr 2
  funext x
  by_cases hx : x.1 = other <;> simp [hx, Ne.symm hne]

theorem lookup_openFile {create : Bool} (h : t.lookup q = .ok (some (.file file))) :
    (t.openFile p create).1.lookup q = .ok (some (.file file)) := by
  have hadd : (t.addFile p.parts).lookup q = .ok (some (.file file)) :=
    follow_file h (fun parts hn => by rw [node?_addFile, hn, Option.some_or]) fun hn => by
      rw [node?_addFile, hn, Option.some_or]
  unfold openFile
  split <;> try exact h
  split
  · exact hadd
  · exact h

theorem lookup_unlink (hne : p.parts ≠ q.parts) (h : t.lookup q = .ok (some (.file file))) :
    (t.unlink p).1.lookup q = .ok (some (.file file)) := by
  cases hp : t.lookup p with
  | error => simpa only [unlink, hp] using h
  | ok n =>
    cases n with
    | none => simpa only [unlink, hp] using h
    | some n =>
      cases n with
      | directory => simpa only [unlink, hp] using h
      | file f =>
        rw [unlink_of_lookup hp]
        have hname := node?_of_lookup hp (by simp)
        refine follow_file h (fun parts hn => ?_) fun hn => ?_
        · rw [node?_forget_ne, hn]
          rintro rfl
          cases hname.symm.trans hn
        · exact (node?_forget_ne hne).trans hn

end FileTree

namespace Kernel

variable {k k' k'' : Kernel} {K : Keys}

def fileOf? (k : Kernel) (K : Keys) : Option FileId :=
  match k.files.lookup K.path with
  | .ok (some (.file file)) => some file
  | _ => none

theorem fileOf?_eq_some {file : FileId} :
    k.fileOf? K = some file ↔ k.files.lookup K.path = .ok (some (.file file)) := by
  unfold fileOf?
  split
  · rename_i h
    simp [h]
  · rename_i h
    exact iff_of_false (by simp) fun hl => h file hl

structure Retains (K : Keys) (k k' : Kernel) : Prop where
  file : ∀ file ∈ k.fileOf? K, k'.fileOf? K = some file
  signal : ∀ r, ∀ set ∈ k.setOf? (K.outbound r), k'.setOf? (K.outbound r) = some set

theorem Maintains.trans (h : k.Maintains k') (h' : k'.Maintains k'') : k.Maintains k'' :=
  ⟨h'.sets.trans h.sets, h'.files.trans h.files⟩

theorem Maintains.fileOf? (h : k.Maintains k') (K : Keys) : k'.fileOf? K = k.fileOf? K := by
  simp only [Kernel.fileOf?, h.files]

theorem Maintains.retains (h : k.Maintains k') (K : Keys) : Retains K k k' :=
  ⟨fun _ hf => (h.fileOf? K).trans hf, fun _ _ hs => (setOf?_congr h.sets _).trans hs⟩

theorem Retains.before (h : Retains K k k'') (hm : k'.Maintains k'') : Retains K k k' :=
  ⟨fun file hf => (hm.fileOf? K).symm.trans (h.file file hf),
    fun r set hs => (setOf?_congr hm.sets _).symm.trans (h.signal r set hs)⟩

theorem setOf?_remove {set set' : SetId} {s : SemaphoreSet} {key : Key}
    (h : k.setOf? key = some set') (hne : set ≠ set') :
    (k.putSet set s.remove.1).setOf? key = some set' := by
  unfold setOf? at h ⊢
  split at h
  · cases h
  · rename_i hz
    rw [if_neg hz]
    rw [List.findIdx?_eq_some_iff_getElem] at h ⊢
    obtain ⟨hlt, hp, hbefore⟩ := h
    refine ⟨by simpa [putSet] using hlt, by simpa [putSet, hne] using hp, fun j hj => ?_⟩
    simp only [putSet, List.getElem_set]
    split
    · simp [SemaphoreSet.remove]
    · exact hbefore j hj

end Kernel

/-- A call takes away what a pair shares: the name of its file, or one of its signals. -/
def SystemCall.Takes {α : Type} (k : Kernel) (K : Keys) : SystemCall α → Prop
  | .unlink path => path.parts = K.path.parts
  | .removeSet set => ∃ r, k.setOf? (K.outbound r) = some set
  | _ => False

/-- What is due takes away what a pair shares. -/
def Move.Takes {σ : Type} (k : Kernel) (K : Keys) : Move σ → Prop
  | .perform (.system c) _ => c.Takes k K
  | _ => False

namespace Kernel

theorem retains_of_same (hs : ∀ key set, k.setOf? key = some set → k'.setOf? key = some set)
    (hf : ∀ file, k.files.lookup K.path = .ok (some (.file file)) →
      k'.files.lookup K.path = .ok (some (.file file))) : Retains K k k' :=
  ⟨fun file h => fileOf?_eq_some.mpr (hf file (fileOf?_eq_some.mp h)), fun _ set h => hs _ set h⟩

/-- Only a call that takes something away can lose it. -/
theorem call_retains {α : Type} (c : SystemCall α) (t : ThreadId) (h : ¬ c.Takes k K) :
    Retains K k (k.call t c).kernel := by
  cases c with
  | createSet key count =>
    have hfiles : (k.createSet key count).1.files = k.files := by
      unfold createSet
      split_ifs <;> rfl
    refine retains_of_same (fun key' set hset => ?_) fun _ hl =>
      (congrArg (·.lookup K.path) hfiles).trans hl
    rcases World.createSet_sets k key count with he | ⟨key₁, count₁, he⟩
    · exact (setOf?_congr (congrArg _ he) key').trans hset
    · have hadd := setOf?_addSet (k := k) (s := .create key₁ count₁) rfl key'
      rw [hset, Option.some_or] at hadd
      exact (setOf?_congr (k := k.addSet _) (congrArg _ he) key').trans hadd
  | joinSet => exact (Maintains.refl k).retains K
  | change set changes d =>
    refine Maintains.retains ?_ K
    simp only [call]
    rcases World.change_cases (t := t) k set changes with
      ⟨-, he⟩ | ⟨s, hs, ⟨values, -, he⟩ | ⟨-, he⟩ | ⟨-, he⟩⟩ <;> rw [he]
    · exact .refl k
    · exact maintains_putSet hs rfl rfl
    · exact .refl k
    · exact maintains_putSet hs rfl rfl
  | removeSet set =>
    simp only [call, removeSet]
    cases hs : k.live? set with
    | none => exact (Maintains.refl k).retains K
    | some s =>
      exact ⟨fun _ => id, fun r set' hset => setOf?_remove hset fun he => h ⟨r, he ▸ hset⟩⟩
  | openFile path create => exact retains_of_same (fun _ _ => id) fun _ => FileTree.lookup_openFile
  | unlink path => exact retains_of_same (fun _ _ => id) fun _ => FileTree.lookup_unlink h
  | setFileLength file length =>
    refine retains_of_same (fun _ _ => id) fun _ hl => ?_
    exact (FileTree.lookup_setLength ..).trans hl
  | storeRecord file payload =>
    refine retains_of_same (fun _ _ => id) fun _ hl => ?_
    exact (FileTree.lookup_modify ..).trans hl
  | fileLength | mapFile | loadRecord => exact (Maintains.refl k).retains K

instance : Decidable (Retains K k k') :=
  decidable_of_iff ((∀ file ∈ k.fileOf? K, k'.fileOf? K = some file) ∧
      (∀ set ∈ k.setOf? (K.outbound .server), k'.setOf? (K.outbound .server) = some set) ∧
      ∀ set ∈ k.setOf? (K.outbound .client), k'.setOf? (K.outbound .client) = some set)
    ⟨fun h => ⟨h.1, fun r => by cases r; exacts [h.2.1, h.2.2]⟩,
      fun h => ⟨h.file, h.signal .server, h.signal .client⟩⟩

end Kernel

def Connecting.between : Connecting → Bool
  | .mailbox (.map .openFile) => false
  | .mailbox (.map _) | .mailbox (.semaphores ..) => true
  | _ => false

namespace World

variable {w u v : World} {K : Keys} {i : Input}

/-- There is no session of a pair: no mailbox, and nobody between its file and its mailbox. -/
structure Vacant (w : World) (K : Keys) : Prop where
  mailbox : w.kernel.setOf? K.mailbox = none
  between : ∀ th ∈ w.threads, ∀ c ∈ th.connection?, c.1.keys = K → c.2.between = false

instance : Decidable (w.Vacant K) :=
  decidable_of_iff (w.kernel.setOf? K.mailbox = none ∧
      ∀ th ∈ w.threads, ∀ c ∈ th.connection?, c.1.keys = K → c.2.between = false)
    ⟨fun h => ⟨h.1, h.2⟩, fun h => ⟨h.mailbox, h.between⟩⟩

def Spares (K : Keys) (w v : World) : Prop :=
  Kernel.Retains K w.kernel v.kernel ∨ w.Vacant K

instance : Decidable (Spares K w v) :=
  inferInstanceAs (Decidable (_ ∨ _))

/-- The worlds that are reached without the loss of anything that a pair shares during a session. A
session is on as long as somebody has opened the file of the pair and is on the way to its mailbox,
or the mailbox is there. -/
inductive Orderly (K : Keys) : World → Prop
  | empty : Orderly K empty
  | step {w v : World} (i : Input) : Orderly K w → w.apply i = some v → Spares K w v →
      Orderly K v

theorem Orderly.reachable (h : Orderly K w) : Reachable w := by
  induction h with
  | empty => exact .refl
  | step i _ ha _ ih => exact .step i ih trivial ha

theorem maintains_of_ripples {allowed : Input → Prop} (h : ReflTransGen (Ripple allowed) w v) :
    w.kernel.Maintains v.kernel := by
  induction h with
  | refl => exact .refl _
  | tail _ hr ih => exact ih.trans hr.2

/-- Only a system call does anything to the system. -/
theorem perform_kernel {α : Type} {p : Primitive α} {t : ThreadId}
    (hp : w.perform t p = .queued v ∨ ∃ a, w.perform t p = .done v a) :
    v.kernel = w.kernel ∨
      ∃ c : SystemCall α, p = .system c ∧ v.kernel = (w.kernel.call t c).kernel := by
  cases p with
  | system c =>
    refine .inr ⟨c, rfl, ?_⟩
    simp only [perform] at hp
    split at hp <;> rcases hp with hp | ⟨a, hp⟩ <;> cases hp <;> exact observe_kernel _ _
  | endpoint e c =>
    simp only [perform] at hp
    split at hp
    · rcases hp with hp | ⟨a, hp⟩ <;> cases hp
    · rcases hp with hp | ⟨a, hp⟩ <;> cases hp
      split <;> exact .inl (notes_rest _ _).1
  | clock | spawn | note =>
    rcases hp with hp | ⟨a, hp⟩ <;> cases hp
    exact .inl rfl
  | park => rcases hp with hp | ⟨a, hp⟩ <;> cases hp
  | join j =>
    simp only [perform] at hp
    split at hp
    · rcases hp with hp | ⟨a, hp⟩ <;> cases hp
      exact .inl rfl
    · split at hp <;> rcases hp with hp | ⟨a, hp⟩ <;> cases hp
      exact .inl rfl
  | hold id =>
    simp only [perform] at hp
    split at hp <;> rcases hp with hp | ⟨a, hp⟩ <;> cases hp
    exact .inl rfl

theorem apply_retains (K : Keys) (ha : w.apply i = some v) : Kernel.Retains K w.kernel v.kernel ∨
    ∃ t th, i = .run t ∧ w.threads[t]? = some th ∧ th.next.Takes w.kernel K := by
  have hsame : v.kernel = w.kernel → Kernel.Retains K w.kernel v.kernel := fun he =>
    he ▸ (Kernel.Maintains.refl _).retains K
  cases i with
  | run t =>
    obtain ⟨th, ht, -, ⟨α, p, next, hn, hp⟩ | ⟨p, c, after, -, rfl⟩ | ⟨-, rfl⟩⟩ := step_cases ha
    · obtain ⟨u, hu, hperform⟩ : ∃ u, v.kernel = u.kernel ∧
          (w.perform t p = .queued u ∨ ∃ a, w.perform t p = .done u a) := by
        obtain hp | ⟨u, a, hp, rfl⟩ := hp
        · exact ⟨v, rfl, .inl hp⟩
        · exact ⟨u, rfl, .inr ⟨a, hp⟩⟩
      obtain he | ⟨c, rfl, he⟩ := perform_kernel hperform
      · exact .inl (hsame (hu.trans he))
      · by_cases htakes : c.Takes w.kernel K
        · exact .inr ⟨t, th, rfl, ht, hn ▸ htakes⟩
        · exact .inl ((hu.trans he) ▸ Kernel.call_retains c t htakes)
    · exact .inl (hsame (invoke_kernel p c))
    · exact .inl (hsame (by rw [panic_eq, putThread, abandon_kernel]))
  | expire t =>
    simp only [apply, World.expire] at ha
    split at ha <;> cases ha
    exact .inl ((alike_forget w.now).maintains.retains K)
  | _ => exact .inl (hsame (outside_rest rfl ha).1)

theorem Orderly.or_takes (h : Orderly K w) (ha : w.apply i = some v) : Orderly K v ∨
    ¬ w.Vacant K ∧ ∃ t th, i = .run t ∧ w.threads[t]? = some th ∧ th.next.Takes w.kernel K := by
  by_cases hv : w.Vacant K
  · exact .inl (.step i h ha (.inr hv))
  · exact (apply_retains K ha).imp (fun hr => .step i h ha (.inl hr)) fun ht => ⟨hv, ht⟩

theorem Orderly.induction {m : World → Prop} (h : Orderly K w) (hw : m World.empty)
    (hkeep : ∀ {x y : World}, m x → Atom (fun _ => True) x y → Spares K x y → m y) : m w := by
  induction h with
  | empty => exact hw
  | @step w v i h ha hspares ih =>
    have hsteps : Steps (fun _ => True) w v ∧ v.Queued :=
      apply_steps h.reachable.queued trivial ha
    obtain ⟨⟨u, hu, hripples⟩, -⟩ := hsteps
    have hfirst : m u := by
      obtain rfl | hatom := hu
      · exact ih
      · exact hkeep ih hatom (hspares.imp_left fun hr =>
          hr.before (maintains_of_ripples hripples))
    clear ha hspares
    induction hripples with
    | refl => exact hfirst
    | tail _ hr ih => exact hkeep ih hr.1 (.inl (hr.2.retains K))

def sparing (K : Keys) : World → List Input → Bool
  | _, [] => true
  | w, i :: is => match w.apply i with
    | none => sparing K w is
    | some v => decide (Spares K w v) && sparing K v is

theorem Orderly.play {is : List Input} (h : Orderly K w) (hs : w.sparing K is = true) :
    Orderly K (w.play is) := by
  induction is generalizing w with
  | nil => exact h
  | cons i is ih =>
    cases ha : w.apply i with
    | none =>
      simp only [sparing, ha] at hs
      simpa [World.play, ha] using ih h hs
    | some v =>
      simp only [sparing, ha, Bool.and_eq_true, decide_eq_true_eq] at hs
      simpa [World.play, ha] using ih (.step i h ha hs.1) hs.2

end World

end QueuePair
