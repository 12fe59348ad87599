import QueuePair.Attributes
import QueuePair.Proofs.Keys

namespace QueuePair

namespace Path

theorem pieces_ne_nil (xs : List Char) : pieces xs ≠ [] := by
  cases xs with
  | nil => simp [pieces]
  | cons c xs =>
    by_cases hc : c = '/'
    · simp [pieces, hc]
    · simp only [pieces, if_neg hc]
      cases pieces xs <;> simp

theorem pieces_append (xs ys : List Char) :
    pieces (xs ++ '/' :: ys) = pieces xs ++ pieces ys := by
  induction xs with
  | nil => simp [pieces]
  | cons c xs ih =>
    by_cases hc : c = '/'
    · simp [pieces, hc, ih]
    · simp only [List.cons_append, pieces, if_neg hc, ih]
      cases hx : pieces xs with
      | nil => exact absurd hx (pieces_ne_nil xs)
      | cons p ps => rfl

theorem pieces_eq_singleton {xs : List Char} (h : '/' ∉ xs) : pieces xs = [xs] := by
  induction xs with
  | nil => rfl
  | cons c xs ih =>
    have hc : c ≠ '/' := fun hc => h (hc ▸ List.mem_cons_self)
    simp [pieces, hc, ih fun hm => h (List.mem_cons_of_mem c hm)]

theorem parts_getLast {p : Path} {name : String} (before : List (List Char))
    (hp : pieces p.text.toList = before ++ [name.toList]) (hne : name.toList ≠ [])
    (hdot : name.toList ≠ ['.']) : p.parts.getLast? = some name := by
  have hkeep : ∀ ps : List (List Char),
      (((ps ++ [name.toList]).filter fun x => x ≠ [] ∧ x ≠ ['.']).map String.ofList).getLast? =
        some name := by
    intro ps
    simp [List.filter_append, hne, hdot]
  have hlast : ∀ (a : String) (ps : List (List Char)), (a :: ((ps ++ [name.toList]).filter
      fun x => x ≠ [] ∧ x ≠ ['.']).map String.ofList).getLast? = some name := by
    intro a ps
    rw [List.getLast?_cons, hkeep]
    rfl
  unfold parts
  cases before with
  | nil => simp [hp, hne, hdot]
  | cons first rest =>
    simp only [hp, List.cons_append]
    split
    · rw [if_neg (by simp)]
      exact hlast "/" rest
    · split
      · exact hlast "." rest
      · exact hlast _ rest

theorem parts_join {dir : Path} {name : String} (hs : '/' ∉ name.toList) (hne : name.toList ≠ [])
    (hdot : name.toList ≠ ['.']) : (dir.join name).parts.getLast? = some name := by
  unfold join
  split
  · rename_i h
    simp only [Bool.or_eq_true, String.isEmpty_iff, decide_eq_true_eq] at h
    rcases h with he | he
    · refine parts_getLast [] ?_ hne hdot
      simp [he, pieces_eq_singleton hs]
    · obtain ⟨xs, hx⟩ := List.getLast?_eq_some_iff.mp he
      refine parts_getLast (pieces xs) ?_ hne hdot
      rw [String.toList_append, hx, List.append_assoc, List.singleton_append, pieces_append,
        pieces_eq_singleton hs]
  · refine parts_getLast (pieces dir.text.toList) ?_ hne hdot
    have hsep : (dir.text ++ "/" ++ name).toList = dir.text.toList ++ '/' :: name.toList := by
      simp [String.toList_append]
    rw [hsep, pieces_append, pieces_eq_singleton hs]

end Path

namespace Keys

def sets (k : Keys) : List Key :=
  [k.mailbox, k.outbound .server, k.outbound .client]

theorem baseOf_mod (space : String) : (baseOf space).toBitVec.toNat % 16 = 0 := by
  have h := congrArg BitVec.toNat (baseOf_and space)
  rw [BitVec.toNat_and] at h
  exact (Nat.and_two_pow_sub_one_eq_mod _ 4).symm.trans h

theorem offset_inj {a b : String} {m n : Int32} (hm : m.toBitVec.toNat < 16)
    (hn : n.toBitVec.toNat < 16) (h : baseOf a + m = baseOf b + n) :
    m = n ∧ baseOf a = baseOf b := by
  have hv := congrArg (fun k : Int32 => k.toBitVec.toNat % 16) h
  simp only [Int32.toBitVec_add, BitVec.toNat_add] at hv
  have ha := baseOf_mod a
  have hb := baseOf_mod b
  have hmn : m = n := Int32.toBitVec_inj.mp (BitVec.eq_of_toNat_eq (by omega))
  subst hmn
  exact ⟨rfl, (Int32.add_left_inj m).mp h⟩

theorem disjoint_sets_iff (a b : String) (dir : Path) :
    (∀ k ∈ (derive a dir).sets, k ∉ (derive b dir).sets) ↔ baseOf a ≠ baseOf b := by
  constructor
  · intro h he
    refine h (derive a dir).mailbox List.mem_cons_self ?_
    simp [sets, mailbox, derive, he]
  · intro hne k hk hk'
    simp only [sets, mailbox, outbound, derive, List.mem_cons, List.not_mem_nil, or_false]
      at hk hk'
    have hsmall : ∀ n : Int32, n = 0 ∨ n = 1 ∨ n = 2 → n.toBitVec.toNat < 16 := by
      rintro n (rfl | rfl | rfl) <;> decide
    obtain ⟨m, hm, rfl⟩ : ∃ m, (m = 0 ∨ m = 1 ∨ m = 2) ∧ k = baseOf a + m := by
      rcases hk with h | h | h <;> exact ⟨_, by simp, h⟩
    obtain ⟨n, hn, he⟩ : ∃ n, (n = 0 ∨ n = 1 ∨ n = 2) ∧ baseOf a + m = baseOf b + n := by
      rcases hk' with h | h | h <;> exact ⟨_, by simp, h⟩
    exact hne (offset_inj (hsmall m hm) (hsmall n hn) he).2

theorem path_getLast (space : String) (dir : Path) (hs : '/' ∉ space.toList) :
    (derive space dir).path.parts.getLast? = some (fileName space) := by
  refine Path.parts_join ?_ ?_ ?_ <;> simp [fileName, String.toList_append, hs]

theorem fileName_inj {a b : String} (h : fileName a = fileName b) : a = b := by
  have hl := congrArg String.toList h
  simp only [fileName, String.toList_append] at hl
  have hmid := List.append_cancel_right hl
  exact String.toList_inj.mp (List.append_cancel_left hmid)

end Keys

namespace Attributes

theorem validate_ok_iff (a : Attributes) : a.validate = .ok () ↔ a.fault?.isNone := by
  unfold validate
  cases a.fault? <;> simp

theorem separator_notMem {a : Attributes} (h : a.validate = .ok ()) :
    '/' ∉ a.space.toList := by
  intro hm
  have hf := (validate_ok_iff a).mp h
  unfold fault? at hf
  split at hf
  · cases hf
  · rw [if_pos] at hf
    · cases hf
    · exact List.any_eq_true.mpr ⟨'/', hm, by decide⟩

def named (space : String) : Attributes :=
  { ofRole .server with space }

end Attributes

namespace Keys

/-- The mailbox files of two accepted namespaces in one directory are different, and none of the
semaphore sets of one is a set of the other exactly if the names have different hashes. -/
theorem isolated_iff {a b : Attributes} (ha : a.validate = .ok ()) (hb : b.validate = .ok ())
    (hd : a.dir = b.dir) (hne : a.space ≠ b.space) :
    ((∀ k ∈ (derive a.space a.dir).sets, k ∉ (derive b.space b.dir).sets) ↔
        baseOf a.space ≠ baseOf b.space) ∧
      (derive a.space a.dir).path.same (derive b.space b.dir).path = false := by
  rw [← hd]
  refine ⟨disjoint_sets_iff a.space b.space a.dir, decide_eq_false fun he => ?_⟩
  have hlast := congrArg List.getLast? he
  rw [path_getLast _ _ (Attributes.separator_notMem ha),
    path_getLast _ _ (Attributes.separator_notMem hb)] at hlast
  exact hne (fileName_inj (Option.some.inj hlast))

/-- The pairs of the namespaces "pair-a" and "pair-b" share neither a set nor a file. -/
theorem isolated_names :
    (∀ k ∈ (derive "pair-a" Attributes.defaultDir).sets,
      k ∉ (derive "pair-b" Attributes.defaultDir).sets) ∧
    (derive "pair-a" Attributes.defaultDir).path.same (derive "pair-b" Attributes.defaultDir).path =
      false := by
  have h := isolated_iff (a := .named "pair-a") (b := .named "pair-b")
    ((Attributes.validate_ok_iff _).mpr (by decide +kernel))
    ((Attributes.validate_ok_iff _).mpr (by decide +kernel)) rfl (by decide +kernel)
  exact ⟨h.1.mpr (by decide +kernel), h.2⟩

/-- Two different namespaces are accepted of which every set is a set of the other. -/
theorem names_collide :
    "dsbj" ≠ "hrab" ∧ (Attributes.named "dsbj").validate = .ok () ∧
    (Attributes.named "hrab").validate = .ok () ∧
    (derive "dsbj" Attributes.defaultDir).sets = (derive "hrab" Attributes.defaultDir).sets :=
  ⟨by decide +kernel, (Attributes.validate_ok_iff _).mpr (by decide +kernel),
    (Attributes.validate_ok_iff _).mpr (by decide +kernel), by decide +kernel⟩

end Keys

end QueuePair
