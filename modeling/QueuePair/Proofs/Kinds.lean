import QueuePair.Mailbox
import QueuePair.Proofs.Isolation

namespace QueuePair.Keys

/-- What a semaphore set is there for. Every key is the first key of its namespace plus a small
offset, which fits the low nibble that the first key leaves clear and tells the kind. -/
inductive Kind
  | mailbox
  -- the set that a side raises after it has published
  | outbound (r : Role)
deriving DecidableEq, Repr

namespace Kind

/-- How far the key of a kind lies behind the first key of its namespace. -/
def offset : Kind → Nat
  | .mailbox => 0
  | .outbound .server => 1
  | .outbound .client => 2

/-- How many semaphores a set of a kind has. -/
def count : Kind → Nat
  | .mailbox => Mailbox.semaphoreCount
  | .outbound _ => 1

theorem offset_le (kind : Kind) : kind.offset ≤ 2 := by
  rcases kind with _ | (_ | _) <;> decide

theorem offset_inj {kind kind' : Kind} (h : kind.offset = kind'.offset) : kind = kind' := by
  rcases kind with _ | (_ | _) <;> rcases kind' with _ | (_ | _) <;> revert h <;> decide

theorem toNat_offset (kind : Kind) :
    (Int32.ofNat kind.offset).toBitVec.toNat = kind.offset := by
  have hle := kind.offset_le
  simp only [Int32.toBitVec_ofNat', BitVec.toNat_ofNat]
  omega

end Kind

/-- The key of the set of a kind. -/
def key (k : Keys) : Kind → Key
  | .mailbox => k.mailbox
  | .outbound r => k.outbound r

theorem inbound_eq (k : Keys) (r : Role) : k.inbound r = k.key (.outbound r.peer) := rfl

theorem key_eq (k : Keys) (kind : Kind) : k.key kind = k.base + Int32.ofNat kind.offset := by
  rcases kind with _ | r
  · rfl
  · cases r <;> rfl

theorem baseOf_le (space : String) : (baseOf space).toBitVec.toNat ≤ 0x7ffffff0 := by
  simp only [baseOf]
  split
  · decide
  · simp only [UInt32.toBitVec_toInt32, UInt32.toBitVec_and, BitVec.toNat_and]
    exact Nat.and_le_right

theorem le_baseOf (space : String) : 0x10 ≤ (baseOf space).toBitVec.toNat := by
  have hmod := baseOf_mod space
  have hne : (baseOf space).toBitVec.toNat ≠ 0 := fun h =>
    baseOf_ne_zero space (Int32.toBitVec_inj.mp (BitVec.eq_of_toNat_eq h))
  omega

theorem baseOf_toInt (space : String) :
    (baseOf space).toInt = ((baseOf space).toBitVec.toNat : Int) := by
  have hle := baseOf_le space
  exact BitVec.toInt_eq_toNat_of_lt (by omega)

theorem key_toInt (space : String) (dir : Path) (kind : Kind) :
    ((derive space dir).key kind).toInt = (baseOf space).toInt + kind.offset := by
  have hoffset := kind.offset_le
  have hle := baseOf_le space
  have hint := baseOf_toInt space
  have hsum : (Int32.ofNat kind.offset).toInt = kind.offset :=
    Int32.toInt_ofNat_of_lt (by omega)
  rw [key_eq, Int32.toInt_add, hsum]
  exact Int.bmod_eq_of_le (by simp only [derive]; omega) (by simp only [derive]; omega)

theorem key_bounds (space : String) (dir : Path) (kind : Kind) :
    0x10 ≤ ((derive space dir).key kind).toInt ∧
      ((derive space dir).key kind).toInt ≤ 0x7ffffff2 := by
  have hoffset := kind.offset_le
  have hle := baseOf_le space
  have hge := le_baseOf space
  rw [key_toInt, baseOf_toInt]
  constructor <;> omega

theorem key_inj {a b : String} {dir dir' : Path} {kind kind' : Kind} :
    (derive a dir).key kind = (derive b dir').key kind' ↔
      kind = kind' ∧ baseOf a = baseOf b := by
  rw [key_eq, key_eq]
  constructor
  · intro h
    have hlt : ∀ kind : Kind, (Int32.ofNat kind.offset).toBitVec.toNat < 16 := fun kind => by
      have hle := kind.offset_le
      rw [kind.toNat_offset]
      omega
    obtain ⟨hoffset, hbase⟩ := offset_inj (hlt kind) (hlt kind') h
    have hnat := congrArg (fun n : Int32 => n.toBitVec.toNat) hoffset
    rw [kind.toNat_offset, kind'.toNat_offset] at hnat
    exact ⟨Kind.offset_inj hnat, hbase⟩
  · rintro ⟨rfl, hbase⟩
    exact congrArg (· + Int32.ofNat kind.offset) hbase

end QueuePair.Keys
