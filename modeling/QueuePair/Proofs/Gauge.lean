import QueuePair.Mailbox
import QueuePair.Proofs.Decomposition
import QueuePair.Proofs.Keys

namespace QueuePair

/-- The five counters of a pair, read off the sets that live under its keys. A counter whose set is
not there yet reads zero, so making a set changes no counter. -/
inductive Gauge
  | gate
  | vacancy
  | attached
  | signal (r : Role)
deriving DecidableEq, Repr

namespace Gauge

def key (K : Keys) : Gauge → Key
  | .signal r => K.outbound r
  | _ => K.mailbox

/-- The place of a counter in its set. -/
def index : Gauge → Nat
  | .gate => Mailbox.gate
  | .vacancy => Mailbox.vacancy
  | .attached => Mailbox.attached
  | .signal _ => 0

def width : Gauge → Nat
  | .signal _ => 1
  | _ => Mailbox.semaphoreCount

theorem index_lt (g : Gauge) : g.index < g.width := by
  cases g <;> exact of_decide_eq_true rfl

theorem width_of_key {K : Keys} {g g' : Gauge} (h : g.key K = g'.key K) : g.width = g'.width := by
  cases g <;> cases g' <;>
    simp_all [key, width, Keys.mailbox_ne_outbound, (Keys.mailbox_ne_outbound _ _).symm]

theorem eq_of_key {K : Keys} {g g' : Gauge} (h : g.key K = g'.key K) (hi : g.index = g'.index) :
    g = g' := by
  cases g <;> cases g' <;>
    simp_all [key, index, Mailbox.gate, Mailbox.vacancy, Mailbox.attached,
      Keys.mailbox_ne_outbound, (Keys.mailbox_ne_outbound _ _).symm, Keys.outbound_inj]

end Gauge

namespace Kernel

variable {k k' : Kernel} {K : Keys}

theorem setOf?_eq_some {key : Key} {set : SetId} (h : k.setOf? key = some set) :
    ∃ s, k.sets[set]? = some s ∧ s.key = key ∧ s.removed = false ∧ k.live? set = some s := by
  simp only [setOf?] at h
  split at h
  · cases h
  · rw [List.findIdx?_eq_some_iff_getElem] at h
    obtain ⟨hl, hp, -⟩ := h
    simp only [Bool.and_eq_true, decide_eq_true_eq, Bool.not_eq_true'] at hp
    exact ⟨k.sets[set], List.getElem?_eq_getElem hl, hp.1, hp.2,
      by simp [live?, List.getElem?_eq_getElem hl, hp.2]⟩

theorem setOf?_inj {key key' : Key} {set : SetId} (h : k.setOf? key = some set)
    (h' : k.setOf? key' = some set) : key = key' := by
  obtain ⟨s, hs, rfl, -⟩ := setOf?_eq_some h
  obtain ⟨s', hs', rfl, -⟩ := setOf?_eq_some h'
  rw [Option.some.inj (hs.symm.trans hs')]

theorem setOf?_congr
    (h : k'.sets.map (fun s => (s.key, s.removed)) = k.sets.map (fun s => (s.key, s.removed)))
    (key : Key) : k'.setOf? key = k.setOf? key := by
  have hf : ∀ l : List SemaphoreSet, l.findIdx? (fun s => s.key = key && !s.removed) =
      (l.map fun s => (s.key, s.removed)).findIdx? fun p => p.1 = key && !p.2 := by
    intro l
    rw [List.findIdx?_map]
    rfl
  simp only [setOf?, hf, h]

/-- The value of a counter. -/
def gauge (k : Kernel) (K : Keys) (g : Gauge) : Nat :=
  match k.setOf? (g.key K) with
  | none => 0
  | some set => (k.sets[set]?.map (·.values.getD g.index 0)).getD 0

def Wide (k : Kernel) (K : Keys) : Prop :=
  ∀ (g : Gauge) (set : SetId), k.setOf? (g.key K) = some set →
    ∃ s, k.live? set = some s ∧ s.values.length = g.width

theorem gauge_eq {g : Gauge} {set : SetId} {s : SemaphoreSet} (h : k.setOf? (g.key K) = some set)
    (hs : k.live? set = some s) : k.gauge K g = s.values.getD g.index 0 := by
  simp [gauge, h, (live?_eq_some.mp hs).1]

structure Extends (K : Keys) (k k' : Kernel) : Prop where
  setOf : ∀ {g : Gauge} {set : SetId},
    k.setOf? (g.key K) = some set → k'.setOf? (g.key K) = some set
  file : ∀ {file : FileId}, k.files.lookup K.path = .ok (some (.file file)) →
    k'.files.lookup K.path = .ok (some (.file file))
  wide : k.Wide K → k'.Wide K

structure Shifts (K : Keys) (g : Gauge) (d : Int) (k k' : Kernel) : Prop where
  setOf : ∀ key, k'.setOf? key = k.setOf? key
  files : k'.files = k.files
  limits : k'.limits = k.limits
  wide : k.Wide K → k'.Wide K
  gauge : ∀ g', (k'.gauge K g' : Int) = k.gauge K g' + if g' = g then d else 0

theorem Shifts.extends {g : Gauge} {d : Int} (h : Shifts K g d k k') : Extends K k k' where
  setOf := fun hs => by rw [h.setOf, hs]
  file := fun hf => by rw [h.files, hf]
  wide := h.wide

theorem Extends.refl (K : Keys) (k : Kernel) : Extends K k k := ⟨id, id, id⟩

theorem live?_putSet_self {set : SetId} {s r : SemaphoreSet} (h : k.live? set = some s)
    (hr : r.removed = false) : (k.putSet set r).live? set = some r := by
  have hl := (List.getElem?_eq_some_iff.mp (live?_eq_some.mp h).1).1
  exact live?_eq_some.mpr ⟨by simp [putSet, hl], hr⟩

theorem live?_putSet_ne {set set' : SetId} {s' : SemaphoreSet} (h : set ≠ set') :
    (k.putSet set s').live? set' = k.live? set' := by
  simp [live?, putSet, List.getElem?_set_ne h]

theorem setOf?_putSet {set : SetId} {s s' : SemaphoreSet} (h : k.live? set = some s)
    (hk : s'.key = s.key) (hr : s'.removed = s.removed) (key : Key) :
    (k.putSet set s').setOf? key = k.setOf? key :=
  setOf?_congr (maintains_putSet h hk hr).sets key

/-- A change that is made moves the counter that it names. -/
theorem shifts_grant {g : Gauge} {d : Int} {set : SetId} {s : SemaphoreSet} {values : List Nat}
    {changes : List Change} (hw : k.Wide K) (hset : k.setOf? (g.key K) = some set)
    (hs : k.live? set = some s) (ha : attempt s.values changes = .done values)
    (hd : ∀ i, added i changes = if i = g.index then d else 0) :
    Shifts K g d k (k.putSet set { s with values }) := by
  obtain ⟨hlen, hval⟩ := attempt_spec ha
  have hwide : ∀ {g' : Gauge}, k.setOf? (g'.key K) = some set → s.values.length = g'.width := by
    intro g' hg'
    obtain ⟨s', hs', hl⟩ := hw g' set hg'
    rw [← hl, Option.some.inj (hs.symm.trans hs')]
  have hself := live?_putSet_self (r := { s with values }) hs (live?_eq_some.mp hs).2
  have hkeep : ∀ key, (k.putSet set { s with values }).setOf? key = k.setOf? key :=
    setOf?_putSet hs rfl rfl
  refine ⟨hkeep, rfl, rfl, fun _ g' set' h' => ?_, fun g' => ?_⟩
  · rw [hkeep] at h'
    by_cases he : set = set'
    · subst he
      exact ⟨_, hself, hlen.trans (hwide h')⟩
    · rw [live?_putSet_ne he]
      exact hw g' set' h'
  · cases h' : k.setOf? (g'.key K) with
    | none =>
      have hne : g' ≠ g := by
        rintro rfl
        cases hset.symm.trans h'
      simp [gauge, hkeep, h', hne]
    | some set' =>
      obtain ⟨s', hs', hl'⟩ := hw g' set' h'
      have hput := (hkeep (g'.key K)).trans h'
      rw [gauge_eq h' hs']
      by_cases he : set = set'
      · subst he
        obtain rfl := Option.some.inj (hs.symm.trans hs')
        rw [gauge_eq hput hself, hval _ (hl' ▸ g'.index_lt), hd]
        have hg : g'.index = g.index ↔ g' = g :=
          ⟨Gauge.eq_of_key (setOf?_inj h' hset), fun h => h ▸ rfl⟩
        simp [hg]
      · rw [gauge_eq hput ((live?_putSet_ne he).trans hs')]
        have hne : g' ≠ g := by
          rintro rfl
          exact he (Option.some.inj (hset.symm.trans h'))
        simp [hne]

/-- Who waits at a set is no part of its counters. -/
theorem shifts_of_waiters {g : Gauge} (hf : k'.files = k.files) (hl : k'.limits = k.limits)
    (hs : k'.sets.map (fun s => { s with waiters := [] }) =
      k.sets.map (fun s => { s with waiters := [] })) : Shifts K g 0 k k' := by
  have hof : ∀ key, k'.setOf? key = k.setOf? key := by
    have h := congrArg (List.map fun s => (s.key, s.removed)) hs
    simp only [List.map_map, Function.comp_def] at h
    exact setOf?_congr h
  have hget : ∀ set : SetId, k'.sets[set]?.map (fun s => { s with waiters := [] }) =
      k.sets[set]?.map (fun s => { s with waiters := [] }) := fun set => by
    simpa using congrArg (·[set]?) hs
  have hval : ∀ set : SetId, k'.sets[set]?.map (·.values) = k.sets[set]?.map (·.values) := by
    intro set
    have h := congrArg (Option.map (·.values)) (hget set)
    simpa only [Option.map_map, Function.comp_def] using h
  refine ⟨hof, hf, hl, fun hw g' set h => ?_, fun g' => ?_⟩
  · rw [hof] at h
    obtain ⟨s, hs, hl⟩ := hw g' set h
    obtain ⟨s', hs', -, hr, hlive⟩ := setOf?_eq_some ((hof _).trans h)
    have hv := hval set
    rw [hs', (live?_eq_some.mp hs).1, Option.map_some, Option.map_some, Option.some.injEq] at hv
    exact ⟨s', hlive, hv ▸ hl⟩
  · simp only [gauge, hof]
    split
    · simp
    · rename_i set hset
      have hv := congrArg (Option.map fun l : List Nat => l.getD g'.index 0) (hval set)
      simp only [Option.map_map, Function.comp_def] at hv
      rw [hv]
      simp

def addSet (k : Kernel) (s : SemaphoreSet) : Kernel :=
  { k with sets := k.sets ++ [s] }

theorem live?_addSet {set : SetId} {s s' : SemaphoreSet} (h : k.live? set = some s) :
    (k.addSet s').live? set = some s := by
  obtain ⟨hs, hr⟩ := live?_eq_some.mp h
  have hl := (List.getElem?_eq_some_iff.mp hs).1
  exact live?_eq_some.mpr ⟨by simp [addSet, List.getElem?_append_left hl, hs], hr⟩

theorem live?_addSet_self {s : SemaphoreSet} (h : s.removed = false) :
    (k.addSet s).live? k.sets.length = some s :=
  live?_eq_some.mpr ⟨by simp [addSet], h⟩

theorem setOf?_addSet {s : SemaphoreSet} (h : s.removed = false) (key : Key) :
    (k.addSet s).setOf? key =
      (k.setOf? key).or (if key ≠ 0 ∧ s.key = key then some k.sets.length else none) := by
  by_cases hz : key = 0
  · simp [setOf?, hz]
  · simp only [setOf?, hz, if_false, addSet, List.findIdx?_append, ne_eq, not_false_eq_true,
      true_and]
    congr 1
    by_cases hk : s.key = key <;> simp [hk, h]

/-- Making a set of a pair changes no counter. -/
theorem addSet_spec {g : Gauge} (hz : g.key K ≠ 0) (hset : k.setOf? (g.key K) = none) :
    (k.addSet (.create (g.key K) g.width)).setOf? (g.key K) = some k.sets.length ∧
      Extends K k (k.addSet (.create (g.key K) g.width)) ∧
      ∀ g', (k.addSet (.create (g.key K) g.width)).gauge K g' = k.gauge K g' := by
  have hof := setOf?_addSet (k := k) (s := .create (g.key K) g.width) rfl
  have hnew := live?_addSet_self (k := k) (s := .create (g.key K) g.width) rfl
  have hkey : (SemaphoreSet.create (g.key K) g.width).key = g.key K := rfl
  rw [hkey] at hof
  have hg : (k.addSet (.create (g.key K) g.width)).setOf? (g.key K) = some k.sets.length := by
    rw [hof, hset, Option.none_or, if_pos ⟨hz, rfl⟩]
  have hcase : ∀ {g' : Gauge} {set}, (k.addSet (.create (g.key K) g.width)).setOf? (g'.key K) =
      some set → k.setOf? (g'.key K) = some set ∨ (g'.key K = g.key K ∧ set = k.sets.length) := by
    intro g' set h
    by_cases he : g'.key K = g.key K
    · rw [he, hg] at h
      exact .inr ⟨he, (Option.some.inj h).symm⟩
    · rw [hof, if_neg fun h => he h.2.symm, Option.or_none] at h
      exact .inl h
  refine ⟨hg, ⟨fun h => by simp [hof, h], id, fun hw g' set h => ?_⟩, fun g' => ?_⟩
  · rcases hcase h with h | ⟨he, rfl⟩
    · obtain ⟨s, hs, hl⟩ := hw g' set h
      exact ⟨s, live?_addSet hs, hl⟩
    · exact ⟨_, hnew, by simp [SemaphoreSet.create, Gauge.width_of_key he]⟩
  · cases h' : k.setOf? (g'.key K) with
    | some set =>
      obtain ⟨s, -, -, -, hs⟩ := setOf?_eq_some h'
      rw [gauge_eq h' hs, gauge_eq (by simp [hof, h']) (live?_addSet hs)]
    | none =>
      have hzero : k.gauge K g' = 0 := by simp [gauge, h']
      rw [hzero]
      cases hn : (k.addSet (.create (g.key K) g.width)).setOf? (g'.key K) with
      | none => simp [gauge, hn]
      | some set =>
        rcases hcase hn with h | ⟨-, rfl⟩
        · cases h'.symm.trans h
        · rw [gauge_eq hn hnew]
          simp only [SemaphoreSet.create, List.getD_eq_getElem?_getD, List.getElem?_replicate]
          split <;> rfl

theorem createSet_eq {g : Gauge} : k.createSet (g.key K) g.width =
    if (k.setOf? (g.key K)).isSome then (k, .error .exists)
    else (k.addSet (.create (g.key K) g.width), .ok k.sets.length) := by
  have hmax : ¬ g.width > setMax := by cases g <;> exact of_decide_eq_true rfl
  have hpos : g.width ≠ 0 := Nat.ne_of_gt (Nat.lt_of_le_of_lt (Nat.zero_le _) g.index_lt)
  simp only [createSet, hmax, if_false, hpos]
  rfl

theorem joinSet_eq {g : Gauge} {set : SetId} (hw : k.Wide K) (h : k.setOf? (g.key K) = some set) :
    k.joinSet (g.key K) g.width = .ok set := by
  obtain ⟨s, hs, hl⟩ := hw g set h
  simp [joinSet, h, (live?_eq_some.mp hs).1, hl]

end Kernel

end QueuePair
