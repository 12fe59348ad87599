import Mathlib.Data.List.Basic
import QueuePair.Mailbox.Record

namespace QueuePair.Record

variable {f : File} {payload : Bytes} {capacity : Nat}

theorem headerValue_header (n : UInt32) : headerValue (header n) = n.toNat := by
  have h₁ : UInt32.toNat 8 % 32 = 8 := rfl
  have h₂ : UInt32.toNat 16 % 32 = 16 := rfl
  have h₃ : UInt32.toNat 24 % 32 = 24 := rfl
  have hn := n.toNat_lt
  simp only [headerValue, header, List.foldr_cons, List.foldr_nil, UInt32.toNat_toUInt8,
    UInt32.toNat_shiftRight, h₁, h₂, h₃, Nat.shiftRight_eq_div_pow]
  omega

theorem length_header (n : UInt32) : (header n).length = headerSize := rfl

theorem read_start {bytes : Bytes} {offset : Nat} (h : bytes <+: f.written.drop offset) :
    f.read offset bytes.length = bytes := by
  obtain ⟨rest, hr⟩ := h
  simp [File.read, ← hr]

theorem headerValue_start (h : encode payload <+: f.written) (hl : payload.length < 4294967296) :
    headerValue (f.read 0 headerSize) = payload.length := by
  have hheader : header (UInt32.ofNat payload.length) <+: f.written.drop 0 :=
    (List.prefix_append _ _).trans h
  have hread := read_start hheader
  rw [length_header] at hread
  rw [hread, headerValue_header, UInt32.toNat_ofNat_of_lt' hl]

theorem load_stored (h : encode payload <+: f.written) (hl : payload.length < 4294967296)
    (capacity : Nat) : load f capacity =
      if payload.length > capacity then .error (.ipc (.recordSize payload.length capacity))
      else .ok payload := by
  have hpayload : payload <+: f.written.drop headerSize := by
    obtain ⟨rest, hr⟩ := h
    refine ⟨rest, ?_⟩
    rw [← hr, encode, List.append_assoc, List.drop_left' (length_header _)]
  simp only [load, size, headerValue_start h hl]
  split
  · rfl
  · exact congrArg Except.ok (read_start hpayload)

theorem load_start (h : encode payload <+: f.written) (hl : payload.length ≤ capacity)
    (hc : capacity < 4294967296) : load f capacity = .ok payload := by
  rw [load_stored h (Nat.lt_of_le_of_lt hl hc), if_neg (Nat.not_lt.mpr hl)]

theorem prefix_store (f : File) (payload : Bytes) :
    encode payload <+: (store f payload).written := by
  simp [store, File.write]

theorem prefix_resize {length : Nat} (h : encode payload <+: f.written)
    (hl : headerSize + payload.length ≤ length) : encode payload <+: (f.resize length).written := by
  obtain ⟨rest, hr⟩ := h
  have hlen : (encode payload).length ≤ length := by
    simpa [encode, length_header] using hl
  refine ⟨rest.take (length - (encode payload).length), ?_⟩
  rw [File.resize, ← hr, List.take_append, List.take_of_length_le hlen]

end QueuePair.Record
