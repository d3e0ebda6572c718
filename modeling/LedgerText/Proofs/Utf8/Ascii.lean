import LedgerText.Proofs.Utf8.Boundary

/-!
# Texts of ASCII

Bytes of ASCII are characters one by one, so a text whose bytes are all of ASCII is told by them
(`eq_ascii_of_encode`).
-/

namespace LedgerText.Utf8

/-- The characters of bytes of ASCII. -/
def ascii (bytes : Bytes) : List Char := bytes.map fun b => Char.ofNat b.toNat

theorem length_ascii (bytes : Bytes) : (ascii bytes).length = bytes.length := List.length_map _

/-- A byte of ASCII is a character of the same number. -/
theorem toNat_ofNat_toNat {b : UInt8} (hb : b.toNat ≤ 0x7F) :
    (Char.ofNat b.toNat).toNat = b.toNat := by
  have hvalid : b.toNat.isValidChar := .inl (by omega)
  rw [Char.ofNat, dif_pos hvalid]
  rfl

/-- Bytes of ASCII are the encoding of their characters. -/
theorem encode_ascii {bytes : Bytes} (h : ∀ b ∈ bytes, Byte.isNonAscii b = false) :
    encode (ascii bytes) = bytes := by
  induction bytes with
  | nil => rfl
  | cons b bytes ih =>
    obtain ⟨hb, hbytes⟩ := List.forall_mem_cons.1 h
    rw [isNonAscii_eq_false_iff] at hb
    rw [ascii, List.map_cons, encode_cons, encodeChar_of_ascii hb (toNat_ofNat_toNat hb)]
    exact congrArg (b :: ·) (ih hbytes)

/-- A text whose bytes are of ASCII is the characters of the bytes. -/
theorem eq_ascii_of_encode {cs : List Char} {bytes : Bytes} (hcs : encode cs = bytes)
    (h : ∀ b ∈ bytes, Byte.isNonAscii b = false) : cs = ascii bytes :=
  encode_inj.1 (hcs.trans (encode_ascii h).symm)

end LedgerText.Utf8
