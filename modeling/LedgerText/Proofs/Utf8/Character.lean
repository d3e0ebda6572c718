import LedgerText.Utf8
import Mathlib.Tactic.SplitIfs

/-!
# The bytes of a character

What the reader of a ledger may rely on in the UTF-8 form of a text. A character is a lead byte,
which tells how many bytes follow, and those bytes; a byte that follows is never taken for a lead
(`exists_forms`). A character of ASCII is its own byte, and the bytes of every other lie outside
ASCII. Reading the bytes of a text gives the text back (`decode_encode`), whatever the general
reading makes of bytes that are no text.

The statements on bytes are in natural numbers, where `omega` settles them. A character is built
from the lengths up: `forms_one` to `forms_four` read a form of each length, and `exists_forms`
shows that the four ways to write a character are such forms.
-/

namespace LedgerText.Utf8

/-- Whether a byte stands inside a character, after its lead byte. -/
def isContinuation (b : UInt8) : Bool := 0x80 ≤ b && b ≤ 0xBF

/-- The bytes inside a character, in numbers. -/
theorem isContinuation_iff {b : UInt8} :
    isContinuation b = true ↔ 0x80 ≤ b.toNat ∧ b.toNat ≤ 0xBF := by
  simp [isContinuation, UInt8.le_iff_toNat_le]

/-- A byte outside the range does not stand inside a character. -/
theorem isContinuation_eq_false_iff {b : UInt8} :
    isContinuation b = false ↔ b.toNat < 0x80 ∨ 0xBF < b.toNat := by
  rw [← Bool.not_eq_true, isContinuation_iff]
  omega

/-- The lead byte `b` and the bytes `bs` after it are the form of the character `c`. -/
structure Forms (b : UInt8) (bs : Bytes) (c : Char) : Prop where
  /-- The lead byte asks for as many bytes as follow, and for no others. -/
  ranges : ∃ ranges, following b = some ranges ∧ ranges.length = bs.length ∧
    ∀ rest, fitting ranges (bs ++ rest) = bs.length
  /-- The bytes carry the character. -/
  character : character b bs = c
  /-- The lead byte tells the width. -/
  width : width b = bs.length + 1
  /-- The lead byte does not stand inside a character. -/
  lead : isContinuation b = false
  /-- The other bytes do. -/
  continuation : ∀ d ∈ bs, isContinuation d = true
  /-- Where the lead byte or the character is of ASCII, the character is its own byte. -/
  ascii : b.toNat ≤ 0x7F ∨ c.toNat ≤ 0x7F → bs = [] ∧ b.toNat = c.toNat

/-! ## Forms by their length -/

/-- A code point makes its character. -/
theorem ofNat_eq_of_eq {n : Nat} {c : Char} (h : n = c.toNat) : Char.ofNat n = c := by
  rw [h, Char.ofNat_toNat]

/-- A byte of ASCII is the form of its character. -/
theorem forms_one {b : UInt8} {c : Char} (hb : b.toNat ≤ 0x7F) (hc : b.toNat = c.toNat) :
    Forms b [] c where
  ranges := ⟨[], by simp [following, UInt8.le_iff_toNat_le, hb], rfl, fun _ => rfl⟩
  character := ofNat_eq_of_eq hc
  width := by
    unfold width
    simp only [UInt8.le_iff_toNat_le, UInt8.reduceToNat, Bool.and_eq_true, decide_eq_true_eq]
    rw [if_neg (by omega), if_neg (by omega), if_neg (by omega)]
    rfl
  lead := isContinuation_eq_false_iff.2 (by omega)
  continuation := by simp
  ascii := fun _ => ⟨rfl, hc⟩

/-- The forms of two bytes. -/
theorem forms_two {b d : UInt8} {c : Char} (hb : 0xC2 ≤ b.toNat ∧ b.toNat ≤ 0xDF)
    (hd : isContinuation d = true)
    (hc : (b.toNat - 0xC0) * 64 + (d.toNat - 0x80) = c.toNat) : Forms b [d] c where
  ranges := by
    have hd' := isContinuation_iff.1 hd
    refine ⟨[continuation], ?_, rfl, fun rest => ?_⟩
    · unfold following
      simp only [UInt8.le_iff_toNat_le, UInt8.lt_iff_toNat_lt, UInt8.reduceToNat]
      rw [if_neg (by omega), if_neg (by omega), if_pos (by omega)]
    · simp [fitting, continuation, UInt8.le_iff_toNat_le, hd']
  character := ofNat_eq_of_eq hc
  width := by
    unfold width
    simp only [UInt8.le_iff_toNat_le, UInt8.reduceToNat, Bool.and_eq_true, decide_eq_true_eq]
    rw [if_pos (by omega)]
    rfl
  lead := isContinuation_eq_false_iff.2 (by omega)
  continuation := by simpa using hd
  ascii := by
    have hd' := isContinuation_iff.1 hd
    omega

/-- The forms of three bytes. The second byte leaves out what two bytes can carry and the
surrogates. -/
theorem forms_three {b d e : UInt8} {c : Char} (hb : 0xE0 ≤ b.toNat ∧ b.toNat ≤ 0xEF)
    (hd : isContinuation d = true) (he : isContinuation e = true)
    (hshort : b.toNat = 0xE0 → 0xA0 ≤ d.toNat) (hsurrogate : b.toNat = 0xED → d.toNat ≤ 0x9F)
    (hc : ((b.toNat - 0xE0) * 64 + (d.toNat - 0x80)) * 64 + (e.toNat - 0x80) = c.toNat) :
    Forms b [d, e] c where
  ranges := by
    have hd' := isContinuation_iff.1 hd
    have he' := isContinuation_iff.1 he
    unfold following
    simp only [UInt8.le_iff_toNat_le, UInt8.lt_iff_toNat_lt, UInt8.reduceToNat,
      ← UInt8.toNat_inj]
    rw [if_neg (by omega), if_neg (by omega), if_neg (by omega)]
    split_ifs with h1 h2 h3
    · refine ⟨_, rfl, rfl, fun rest => ?_⟩
      simp [fitting, continuation, UInt8.le_iff_toNat_le, he', hshort h1, hd'.2]
    · refine ⟨_, rfl, rfl, fun rest => ?_⟩
      simp [fitting, continuation, UInt8.le_iff_toNat_le, he', hsurrogate h2, hd'.1]
    · refine ⟨_, rfl, rfl, fun rest => ?_⟩
      simp [fitting, continuation, UInt8.le_iff_toNat_le, he', hd']
    all_goals omega
  character := ofNat_eq_of_eq hc
  width := by
    unfold width
    simp only [UInt8.le_iff_toNat_le, UInt8.reduceToNat, Bool.and_eq_true, decide_eq_true_eq]
    rw [if_neg (by omega), if_pos (by omega)]
    rfl
  lead := isContinuation_eq_false_iff.2 (by omega)
  continuation := by simpa using ⟨hd, he⟩
  ascii := by
    have hd' := isContinuation_iff.1 hd
    omega

/-- The forms of four bytes. The second byte leaves out what three bytes can carry and what lies
beyond the last code point. -/
theorem forms_four {b d e f : UInt8} {c : Char} (hb : 0xF0 ≤ b.toNat ∧ b.toNat ≤ 0xF4)
    (hd : isContinuation d = true) (he : isContinuation e = true) (hf : isContinuation f = true)
    (hshort : b.toNat = 0xF0 → 0x90 ≤ d.toNat) (hlast : b.toNat = 0xF4 → d.toNat ≤ 0x8F)
    (hc : (((b.toNat - 0xF0) * 64 + (d.toNat - 0x80)) * 64 + (e.toNat - 0x80)) * 64 +
      (f.toNat - 0x80) = c.toNat) :
    Forms b [d, e, f] c where
  ranges := by
    have hd' := isContinuation_iff.1 hd
    have he' := isContinuation_iff.1 he
    have hf' := isContinuation_iff.1 hf
    unfold following
    simp only [UInt8.le_iff_toNat_le, UInt8.lt_iff_toNat_lt, UInt8.reduceToNat,
      ← UInt8.toNat_inj]
    rw [if_neg (by omega), if_neg (by omega), if_neg (by omega), if_neg (by omega),
      if_neg (by omega), if_neg (by omega)]
    split_ifs with h1 h2 h3
    · refine ⟨_, rfl, rfl, fun rest => ?_⟩
      simp [fitting, continuation, UInt8.le_iff_toNat_le, he', hf', hshort h1, hd'.2]
    · refine ⟨_, rfl, rfl, fun rest => ?_⟩
      simp [fitting, continuation, UInt8.le_iff_toNat_le, he', hf', hd']
    · refine ⟨_, rfl, rfl, fun rest => ?_⟩
      simp [fitting, continuation, UInt8.le_iff_toNat_le, he', hf', hlast h3, hd'.1]
    all_goals omega
  character := ofNat_eq_of_eq hc
  width := by
    unfold width
    simp only [UInt8.le_iff_toNat_le, UInt8.reduceToNat, Bool.and_eq_true, decide_eq_true_eq]
    rw [if_neg (by omega), if_neg (by omega), if_pos (by omega)]
    rfl
  lead := isContinuation_eq_false_iff.2 (by omega)
  continuation := by simpa using ⟨hd, he, hf⟩
  ascii := by
    have hd' := isContinuation_iff.1 hd
    omega

/-! ## Every character has a form -/

/-- A byte is the number it is made of. -/
theorem toNat_ofNat {n : Nat} (h : n < 256) : (UInt8.ofNat n).toNat = n := by
  rw [UInt8.toNat_ofNat', Nat.mod_eq_of_lt h]

/-- The byte that carries six bits inside a character. -/
theorem isContinuation_ofNat (n : Nat) : isContinuation (UInt8.ofNat (n % 64 + 0x80)) = true := by
  rw [isContinuation_iff, toNat_ofNat (by omega)]
  omega

/-- A character is written in one of the forms. -/
theorem exists_forms (c : Char) : ∃ b bs, String.utf8EncodeChar c = b :: bs ∧ Forms b bs c := by
  have hvalid : c.toNat < 0xD800 ∨ 0xDFFF < c.toNat ∧ c.toNat < 0x110000 := c.valid
  fun_cases String.utf8EncodeChar c with
  | case1 v h =>
    have hv : v = c.toNat := rfl
    have hb : (UInt8.ofNat v).toNat = v := toNat_ofNat (by omega)
    refine ⟨_, _, rfl, forms_one ?_ ?_⟩ <;> omega
  | case2 v h1 h2 =>
    have hv : v = c.toNat := rfl
    have hb : (UInt8.ofNat (v / 64 % 32 + 0xC0)).toNat = v / 64 % 32 + 0xC0 :=
      toNat_ofNat (by omega)
    have hd : (UInt8.ofNat (v % 64 + 0x80)).toNat = v % 64 + 0x80 := toNat_ofNat (by omega)
    refine ⟨_, _, rfl, forms_two ?_ (isContinuation_ofNat _) ?_⟩ <;> omega
  | case3 v h1 h2 h3 =>
    have hv : v = c.toNat := rfl
    have hb : (UInt8.ofNat (v / 4096 % 16 + 0xE0)).toNat = v / 4096 % 16 + 0xE0 :=
      toNat_ofNat (by omega)
    have hd : (UInt8.ofNat (v / 64 % 64 + 0x80)).toNat = v / 64 % 64 + 0x80 :=
      toNat_ofNat (by omega)
    have he : (UInt8.ofNat (v % 64 + 0x80)).toNat = v % 64 + 0x80 := toNat_ofNat (by omega)
    refine ⟨_, _, rfl,
      forms_three ?_ (isContinuation_ofNat _) (isContinuation_ofNat _) ?_ ?_ ?_⟩ <;> omega
  | case4 v h1 h2 h3 =>
    have hv : v = c.toNat := rfl
    have hb : (UInt8.ofNat (v / 262144 % 8 + 0xF0)).toNat = v / 262144 % 8 + 0xF0 :=
      toNat_ofNat (by omega)
    have hd : (UInt8.ofNat (v / 4096 % 64 + 0x80)).toNat = v / 4096 % 64 + 0x80 :=
      toNat_ofNat (by omega)
    have he : (UInt8.ofNat (v / 64 % 64 + 0x80)).toNat = v / 64 % 64 + 0x80 :=
      toNat_ofNat (by omega)
    have hf : (UInt8.ofNat (v % 64 + 0x80)).toNat = v % 64 + 0x80 := toNat_ofNat (by omega)
    refine ⟨_, _, rfl, forms_four ?_ (isContinuation_ofNat _) (isContinuation_ofNat _)
      (isContinuation_ofNat _) ?_ ?_ ?_⟩ <;> omega

/-- A byte of ASCII in the form of a character is the whole form. -/
theorem encodeChar_of_mem {k : UInt8} {c : Char} (hk : k.toNat ≤ 0x7F)
    (h : k ∈ String.utf8EncodeChar c) : String.utf8EncodeChar c = [k] ∧ c.toNat = k.toNat := by
  obtain ⟨b, bs, he, hf⟩ := exists_forms c
  rw [he] at h ⊢
  rcases List.mem_cons.1 h with rfl | h
  · obtain ⟨rfl, hc⟩ := hf.ascii (.inl hk)
    exact ⟨rfl, hc.symm⟩
  · have := isContinuation_iff.1 (hf.continuation k h)
    omega

/-- A character of ASCII is written as one byte. -/
theorem encodeChar_of_ascii {k : UInt8} {c : Char} (hk : k.toNat ≤ 0x7F) (h : c.toNat = k.toNat) :
    String.utf8EncodeChar c = [k] := by
  obtain ⟨b, bs, he, hf⟩ := exists_forms c
  obtain ⟨rfl, hb⟩ := hf.ascii (.inr (by omega))
  rw [he, UInt8.toNat_inj.1 (hb.trans h)]

/-! ## Texts -/

@[simp]
theorem encode_nil : encode [] = [] := rfl

@[simp]
theorem encode_cons (c : Char) (cs : List Char) :
    encode (c :: cs) = String.utf8EncodeChar c ++ encode cs := rfl

@[simp]
theorem encode_append (cs ds : List Char) : encode (cs ++ ds) = encode cs ++ encode ds :=
  List.flatMap_append

/-- Only the empty text has no bytes. -/
theorem encode_eq_nil {cs : List Char} : encode cs = [] ↔ cs = [] := by
  cases cs with
  | nil => simp
  | cons c cs => simp [String.utf8EncodeChar_ne_nil]

/-- The first character is read off the bytes of a text. -/
theorem decode_encodeChar_append (c : Char) (rest : Bytes) :
    decode (String.utf8EncodeChar c ++ rest) = c :: decode rest := by
  obtain ⟨b, bs, he, hf⟩ := exists_forms c
  obtain ⟨ranges, hb, hlength, hfit⟩ := hf.ranges
  rw [he, List.cons_append, decode, hb]
  simp only [hfit, hlength, if_true, List.take_left, List.drop_left, hf.character]

/-- The characters of the bytes of a text are the text. -/
@[simp]
theorem decode_encode (cs : List Char) : decode (encode cs) = cs := by
  induction cs with
  | nil => rw [encode_nil, decode]
  | cons c cs ih => rw [encode_cons, decode_encodeChar_append, ih]

/-- The text of the bytes of a text is the text. -/
@[simp]
theorem toString_encode (cs : List Char) : toString (encode cs) = String.ofList cs := by
  rw [toString, decode_encode]

/-- A byte of ASCII stands only in its own character. -/
theorem notMem_encodeChar {k : UInt8} {c d : Char} (hk : k.toNat ≤ 0x7F) (hd : d.toNat = k.toNat)
    (h : c ≠ d) : k ∉ String.utf8EncodeChar c := by
  intro hmem
  obtain ⟨-, hc⟩ := encodeChar_of_mem hk hmem
  exact h (Char.toNat_inj.1 (hc.trans hd.symm))

/-- A byte of ASCII stands in a text as often as its character. -/
theorem count_encode {k : UInt8} {d : Char} (hk : k.toNat ≤ 0x7F) (hd : d.toNat = k.toNat)
    (cs : List Char) : (encode cs).count k = cs.count d := by
  induction cs with
  | nil => rfl
  | cons c cs ih =>
    rw [encode_cons, List.count_append, ih, List.count_cons, Nat.add_comm]
    congr 1
    by_cases h : c = d
    · subst h
      rw [encodeChar_of_ascii hk hd]
      simp
    · rw [List.count_eq_zero_of_not_mem (notMem_encodeChar hk hd h)]
      simp [h]

/-- A byte of ASCII does not stand in a text without its character. -/
theorem notMem_encode {k : UInt8} {d : Char} (hk : k.toNat ≤ 0x7F) (hd : d.toNat = k.toNat)
    {cs : List Char} (h : d ∉ cs) : k ∉ encode cs := by
  rw [← List.count_eq_zero, count_encode hk hd, List.count_eq_zero]
  exact h

/-- Texts that are written alike are alike. -/
theorem encode_inj {cs ds : List Char} : encode cs = encode ds ↔ cs = ds := by
  constructor
  · intro h
    rw [← decode_encode cs, h, decode_encode]
  · rintro rfl
    rfl

/-- A text starts with the byte-order mark if its first character is U+FEFF. -/
theorem startsWithMark_encode {cs : List Char} :
    startsWithMark (encode cs) = true ↔ cs.head? = some '\uFEFF' := by
  constructor
  · intro h
    obtain ⟨rest, hrest⟩ := List.isPrefixOf_iff_prefix.1 h
    have hmark : String.utf8EncodeChar '\uFEFF' ++ rest = encode cs := hrest
    have hdecode := congrArg decode hmark
    rw [decode_encodeChar_append, decode_encode] at hdecode
    rw [← hdecode]
    rfl
  · intro h
    obtain ⟨ds, rfl⟩ := List.head?_eq_some_iff.1 h
    exact List.isPrefixOf_iff_prefix.2 ⟨encode ds, rfl⟩

end LedgerText.Utf8
