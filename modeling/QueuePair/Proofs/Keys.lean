import QueuePair.Keys

namespace QueuePair.Keys

theorem baseOf_and (space : String) : (baseOf space).toBitVec &&& 15 = 0 := by
  simp only [baseOf]
  split
  · rfl
  · simp only [UInt32.toBitVec_toInt32, UInt32.toBitVec_and, BitVec.and_assoc]
    exact BitVec.and_zero

theorem baseOf_ne_zero (space : String) : baseOf space ≠ 0 := by
  simp only [baseOf]
  split
  · decide
  · assumption

theorem baseOf_add_ne_zero (space : String) {n : Int32} (hn : n = 1 ∨ n = 2) :
    baseOf space + n ≠ 0 := by
  intro h
  have hb : baseOf space = -n := (Int32.add_left_inj n).mp (h.trans (Int32.add_left_neg n).symm)
  have ha := baseOf_and space
  rw [hb] at ha
  rcases hn with rfl | rfl <;> revert ha <;> decide

theorem mailbox_ne_outbound (k : Keys) (r : Role) : k.mailbox ≠ k.outbound r := by
  cases r <;> simp [mailbox, outbound]

theorem outbound_inj (k : Keys) {r r' : Role} : k.outbound r = k.outbound r' ↔ r = r' := by
  cases r <;> cases r' <;> simp [outbound, Int32.add_right_inj]

theorem mailbox_derive_ne_zero (space : String) (dir : Path) : (derive space dir).mailbox ≠ 0 := by
  simpa [mailbox, derive] using baseOf_ne_zero space

theorem outbound_derive_ne_zero (space : String) (dir : Path) (r : Role) :
    (derive space dir).outbound r ≠ 0 := by
  cases r
  · exact baseOf_add_ne_zero space (.inl rfl)
  · exact baseOf_add_ne_zero space (.inr rfl)

end QueuePair.Keys
