import LedgerText.Proofs.Utf8.Character

/-!
# Character boundaries

An offset into the bytes of a text is a boundary if it stands between two characters or at one of
the ends. Where it stands can be told by the next byte alone (`isBoundary_iff`): an offset is a
boundary unless the byte there stands inside a character. So a run of bytes that stops before a
byte of ASCII, or at the end, stops at a boundary (`isBoundary_of_ascii`), however it was found; and
from a boundary one gets to the next by the width that the lead byte tells
(`IsBoundary.add_width`).
-/

namespace LedgerText.Utf8

/-- The offset `n` stands between two characters of a text, or at one of its ends. -/
def IsBoundary (source : Bytes) (n : Nat) : Prop :=
  ∃ before after : List Char, source = encode (before ++ after) ∧ n = (encode before).length

/-- The bytes are those of a text. -/
def IsText (source : Bytes) : Prop := ∃ cs, source = encode cs

/-! ## What the next byte tells -/

/-- A text starts with a lead byte, or is empty. -/
theorem isContinuation_headD_encode (cs : List Char) :
    isContinuation ((encode cs).headD 0) = false := by
  cases cs with
  | nil => rfl
  | cons c cs =>
    obtain ⟨b, bs, he, hf⟩ := exists_forms c
    rw [encode_cons, he]
    exact hf.lead

/-- An offset within the first character is not where the next byte leads a character. -/
theorem isContinuation_headD_drop {c : Char} {rest : Bytes} {n : Nat} (h0 : n ≠ 0)
    (hn : n < (String.utf8EncodeChar c).length) :
    isContinuation (((String.utf8EncodeChar c ++ rest).drop n).headD 0) = true := by
  obtain ⟨b, bs, he, hf⟩ := exists_forms c
  obtain ⟨m, rfl⟩ := Nat.exists_eq_succ_of_ne_zero h0
  rw [he] at hn ⊢
  have hm : m < bs.length := by simpa using hn
  rw [List.cons_append, List.drop_succ_cons, List.drop_append_of_le_length (Nat.le_of_lt hm),
    List.drop_eq_getElem_cons hm]
  exact hf.continuation _ (List.getElem_mem hm)

/-- An offset into a text is a boundary unless the next byte stands inside a character. -/
theorem isBoundary_iff {cs : List Char} {n : Nat} :
    IsBoundary (encode cs) n ↔
      n ≤ (encode cs).length ∧ isContinuation (((encode cs).drop n).headD 0) = false := by
  constructor
  · rintro ⟨before, after, hcs, rfl⟩
    rw [hcs, encode_append, List.drop_left]
    exact ⟨by simp, isContinuation_headD_encode after⟩
  · rintro ⟨hle, hb⟩
    induction cs generalizing n with
    | nil => exact ⟨[], [], rfl, by simpa using hle⟩
    | cons c cs ih =>
      by_cases h0 : n = 0
      · exact ⟨[], c :: cs, rfl, h0⟩
      by_cases hn : n < (String.utf8EncodeChar c).length
      · rw [encode_cons, isContinuation_headD_drop h0 hn] at hb
        contradiction
      -- The offset lies behind the first character, and is a boundary of the others.
      obtain ⟨m, rfl⟩ := Nat.exists_eq_add_of_le (Nat.le_of_not_lt hn)
      rw [encode_cons, List.drop_append] at hb
      simp only [Nat.le_add_right, List.drop_eq_nil_of_le, List.nil_append,
        Nat.add_sub_cancel_left] at hb
      obtain ⟨before, after, hcs, hm⟩ := ih (by simpa using hle) hb
      refine ⟨c :: before, after, ?_, ?_⟩
      · rw [List.cons_append, encode_cons, encode_cons, hcs]
      · rw [encode_cons, List.length_append, hm]

/-- The bytes of ASCII, in numbers. -/
theorem isNonAscii_eq_false_iff {b : UInt8} : Byte.isNonAscii b = false ↔ b.toNat ≤ 0x7F := by
  simp only [Byte.isNonAscii, decide_eq_false_iff_not, UInt8.le_iff_toNat_le, UInt8.reduceToNat]
  omega

/-! ## Boundaries of a text -/

variable {source : Bytes} {m n : Nat}

/-- Only a text has boundaries. -/
theorem IsBoundary.isText (h : IsBoundary source n) : IsText source := by
  obtain ⟨before, after, hs, -⟩ := h
  exact ⟨_, hs⟩

/-- A boundary lies in the text. -/
theorem IsBoundary.le_length (h : IsBoundary source n) : n ≤ source.length := by
  obtain ⟨cs, rfl⟩ := h.isText
  exact (isBoundary_iff.1 h).1

/-- A text starts at a boundary. -/
theorem IsText.isBoundary_zero (h : IsText source) : IsBoundary source 0 := by
  obtain ⟨cs, rfl⟩ := h
  exact ⟨[], cs, rfl, rfl⟩

/-- A text ends at a boundary. -/
theorem IsText.isBoundary_length (h : IsText source) : IsBoundary source source.length := by
  obtain ⟨cs, rfl⟩ := h
  exact ⟨cs, [], by rw [List.append_nil], rfl⟩

/-- An offset before a byte of ASCII is a boundary, and so is the end, where a zero is read. -/
theorem IsText.isBoundary_of_ascii (h : IsText source) (hn : n ≤ source.length)
    (hb : Byte.isNonAscii ((source.drop n).headD 0) = false) : IsBoundary source n := by
  obtain ⟨cs, rfl⟩ := h
  rw [isNonAscii_eq_false_iff] at hb
  exact isBoundary_iff.2 ⟨hn, isContinuation_eq_false_iff.2 (by omega)⟩

/-- What follows a boundary is a text of its own. -/
theorem IsBoundary.isText_drop (h : IsBoundary source n) : IsText (source.drop n) := by
  obtain ⟨before, after, rfl, rfl⟩ := h
  exact ⟨after, by rw [encode_append, List.drop_left]⟩

/-- A boundary of what follows a boundary is one of the whole. -/
theorem IsBoundary.add (h : IsBoundary source m) (h' : IsBoundary (source.drop m) n) :
    IsBoundary source (m + n) := by
  obtain ⟨before, after, rfl, rfl⟩ := h
  rw [encode_append, List.drop_left] at h'
  obtain ⟨inner, rest, hi, rfl⟩ := h'
  refine ⟨before ++ inner, rest, ?_, ?_⟩
  · rw [encode_append, hi, ← encode_append, List.append_assoc]
  · rw [encode_append, List.length_append]

/-- The lead byte at a boundary tells how far the next boundary is. -/
theorem IsBoundary.add_width (h : IsBoundary source n) (hn : n < source.length) :
    IsBoundary source (n + width ((source.drop n).headD 0)) := by
  obtain ⟨before, after, rfl, rfl⟩ := h
  rw [encode_append, List.drop_left]
  cases after with
  | nil => simp at hn
  | cons c after =>
    obtain ⟨b, bs, he, hf⟩ := exists_forms c
    refine ⟨before ++ [c], after, ?_, ?_⟩
    · rw [← encode_append, List.append_assoc, List.singleton_append]
    · simp only [encode_append, encode_cons, encode_nil, he, List.length_append, List.cons_append,
        List.headD_cons, hf.width, List.append_nil, List.length_cons]

/-- A byte of ASCII leads to the next boundary. -/
theorem IsBoundary.succ (h : IsBoundary source n) (hn : n < source.length)
    (hb : Byte.isNonAscii ((source.drop n).headD 0) = false) : IsBoundary source (n + 1) := by
  have hw := h.add_width hn
  rw [isNonAscii_eq_false_iff] at hb
  unfold width at hw
  simp only [UInt8.le_iff_toNat_le, UInt8.reduceToNat, Bool.and_eq_true, decide_eq_true_eq] at hw
  rwa [if_neg (by omega), if_neg (by omega), if_neg (by omega)] at hw

/-- Bytes of ASCII at the front of a text end at a boundary. -/
theorem IsText.isBoundary_of_forall_ascii (h : IsText source) (hn : n ≤ source.length)
    (hb : ∀ b ∈ source.take n, Byte.isNonAscii b = false) : IsBoundary source n := by
  induction n with
  | zero => exact h.isBoundary_zero
  | succ n ih =>
    have hlt : n < source.length := hn
    have htake : source.take (n + 1) = source.take n ++ [source[n]] := by
      rw [List.take_append_getElem]
    rw [htake] at hb
    refine (ih (by omega) fun b hm => hb b (List.mem_append_left _ hm)).succ hlt ?_
    rw [List.drop_eq_getElem_cons hlt]
    exact hb _ (List.mem_append_right _ (List.mem_singleton_self _))

/-- What lies between two boundaries is whole characters. -/
theorem IsBoundary.isText_take (h : IsBoundary source n) : IsText (source.take n) := by
  obtain ⟨before, after, rfl, rfl⟩ := h
  exact ⟨before, by rw [encode_append, List.take_left]⟩

end LedgerText.Utf8
