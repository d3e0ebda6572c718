import LedgerText.Proofs.Grammar

/-!
# Words of a class

A class of bytes builds its languages from one-byte words, so a word of such a language is told by
its bytes: repeated, it is a word of bytes of the class, and raised to a power also one of that
length (`mem_kstar_ofClass`, `mem_pow_ofClass`). The sum of two classes is the class of the bytes
in either (`ofClass_add`), which is how the classes of the grammar come to be those that lexemes
are told by.
-/

namespace LedgerText.Grammar

open Byte
open scoped Computability

variable {p q : UInt8 → Bool} {L : Language UInt8} {w : Bytes} {b : UInt8}

/-! ## Membership -/

theorem mem_ofClass : w ∈ ofClass p ↔ ∃ b, p b = true ∧ w = [b] := Iff.rfl

@[simp]
theorem singleton_mem_ofClass : [b] ∈ ofClass p ↔ p b = true := by
  rw [mem_ofClass]
  constructor
  · rintro ⟨c, hc, h⟩
    rwa [List.singleton_inj.1 h]
  · intro h
    exact ⟨b, h, rfl⟩

/-- A byte of a class before a word of a language. -/
theorem mem_ofClass_mul : w ∈ ofClass p * L ↔ ∃ b v, w = b :: v ∧ p b = true ∧ v ∈ L := by
  rw [Language.mem_mul]
  constructor
  · rintro ⟨_, ⟨b, hb, rfl⟩, v, hv, rfl⟩
    exact ⟨b, v, rfl, hb, hv⟩
  · rintro ⟨b, v, rfl, hb, hv⟩
    exact ⟨[b], singleton_mem_ofClass.2 hb, v, hv, rfl⟩

/-- A byte of a class behind a word of a language. -/
theorem mem_mul_ofClass : w ∈ L * ofClass p ↔ ∃ v b, w = v ++ [b] ∧ v ∈ L ∧ p b = true := by
  rw [Language.mem_mul]
  constructor
  · rintro ⟨v, hv, _, ⟨b, hb, rfl⟩, rfl⟩
    exact ⟨v, b, rfl, hv, hb⟩
  · rintro ⟨v, b, rfl, hv, hb⟩
    exact ⟨v, hv, [b], singleton_mem_ofClass.2 hb, rfl⟩

/-- A word of a repeated language is empty, or begins with a word of the language. -/
theorem mem_kstar_iff : w ∈ L∗ ↔ w = [] ∨ ∃ u v, w = u ++ v ∧ u ∈ L ∧ v ∈ L∗ := by
  have h : w ∈ 1 + L * L∗ ↔ w ∈ L∗ := by rw [Language.one_add_self_mul_kstar_eq_kstar]
  rw [← h, Language.mem_add, Language.mem_one, Language.mem_mul]
  constructor
  · rintro (rfl | ⟨u, hu, v, hv, rfl⟩)
    · exact .inl rfl
    · exact .inr ⟨u, v, rfl, hu, hv⟩
  · rintro (rfl | ⟨u, v, rfl, hu, hv⟩)
    · exact .inl rfl
    · exact .inr ⟨u, hu, v, hv, rfl⟩

/-- The words of a repeated class are those whose bytes are of the class. -/
@[simp]
theorem mem_kstar_ofClass : w ∈ (ofClass p)∗ ↔ ∀ b ∈ w, p b = true := by
  constructor
  · rintro ⟨ws, rfl, h⟩ b hb
    obtain ⟨u, hu, hbu⟩ := List.mem_flatten.1 hb
    obtain ⟨c, hc, rfl⟩ := h u hu
    rwa [List.mem_singleton.1 hbu]
  · intro h
    refine ⟨w.map fun b => [b], ?_, ?_⟩
    · rw [← List.flatMap_def, List.flatMap_singleton']
    intro u hu
    obtain ⟨b, hb, rfl⟩ := List.mem_map.1 hu
    exact singleton_mem_ofClass.2 (h b hb)

/-- The words of a class repeated once or more are the others. -/
@[simp]
theorem mem_plus_ofClass : w ∈ plus (ofClass p) ↔ w ≠ [] ∧ ∀ b ∈ w, p b = true := by
  rw [plus, mem_ofClass_mul]
  constructor
  · rintro ⟨b, v, rfl, hb, hv⟩
    rw [mem_kstar_ofClass] at hv
    exact ⟨List.cons_ne_nil _ _, List.forall_mem_cons.2 ⟨hb, hv⟩⟩
  · rintro ⟨hw, h⟩
    obtain ⟨b, v, rfl⟩ := List.exists_cons_of_ne_nil hw
    rw [List.forall_mem_cons] at h
    exact ⟨b, v, rfl, h.1, mem_kstar_ofClass.2 h.2⟩

/-- The words of a power of a class have as many bytes. -/
@[simp]
theorem mem_pow_ofClass {n : Nat} :
    w ∈ ofClass p ^ n ↔ w.length = n ∧ ∀ b ∈ w, p b = true := by
  induction n generalizing w with
  | zero =>
    rw [pow_zero, Language.mem_one, List.length_eq_zero_iff]
    constructor
    · rintro rfl
      exact ⟨rfl, fun b hb => absurd hb List.not_mem_nil⟩
    · exact And.left
  | succ n ih =>
    rw [pow_succ', mem_ofClass_mul]
    constructor
    · rintro ⟨b, v, rfl, hb, hv⟩
      obtain ⟨hn, hv⟩ := ih.1 hv
      exact ⟨by rw [List.length_cons, hn], List.forall_mem_cons.2 ⟨hb, hv⟩⟩
    · rintro ⟨hn, h⟩
      obtain ⟨b, v, rfl⟩ := List.exists_cons_of_length_eq_add_one hn
      rw [List.forall_mem_cons] at h
      exact ⟨b, v, rfl, h.1, ih.2 ⟨Nat.succ.inj hn, h.2⟩⟩

/-- Where each byte of a power may be left out, its words have at most as many. -/
@[simp]
theorem mem_pow_one_add_ofClass {n : Nat} :
    w ∈ (1 + ofClass p) ^ n ↔ w.length ≤ n ∧ ∀ b ∈ w, p b = true := by
  induction n generalizing w with
  | zero =>
    rw [pow_zero, Language.mem_one, Nat.le_zero, List.length_eq_zero_iff]
    constructor
    · rintro rfl
      exact ⟨rfl, fun b hb => absurd hb List.not_mem_nil⟩
    · exact And.left
  | succ n ih =>
    rw [pow_succ', add_mul, one_mul, Language.mem_add, ih, mem_ofClass_mul]
    constructor
    · rintro (⟨hn, h⟩ | ⟨b, v, rfl, hb, hv⟩)
      · exact ⟨Nat.le_succ_of_le hn, h⟩
      · obtain ⟨hn, hv⟩ := ih.1 hv
        exact ⟨Nat.succ_le_succ hn, List.forall_mem_cons.2 ⟨hb, hv⟩⟩
    · rintro ⟨hn, h⟩
      rcases w with - | ⟨b, v⟩
      · exact .inl ⟨Nat.zero_le n, h⟩
      · rw [List.forall_mem_cons] at h
        exact .inr ⟨b, v, rfl, h.1, ih.2 ⟨Nat.le_of_succ_le_succ hn, h.2⟩⟩

/-! ## The classes of the grammar -/

/-- A sum of classes. -/
theorem ofClass_add (p q : UInt8 → Bool) : ofClass p + ofClass q = ofClass fun b => p b || q b := by
  ext w
  rw [Language.mem_add]
  simp only [mem_ofClass, Bool.or_eq_true]
  constructor
  · rintro (⟨b, hb, rfl⟩ | ⟨b, hb, rfl⟩)
    · exact ⟨b, .inl hb, rfl⟩
    · exact ⟨b, .inr hb, rfl⟩
  · rintro ⟨b, hb | hb, rfl⟩
    · exact .inl ⟨b, hb, rfl⟩
    · exact .inr ⟨b, hb, rfl⟩

/-- Two classes with the same bytes are one. -/
theorem ofClass_congr (h : ∀ b, p b = q b) : ofClass p = ofClass q := congrArg ofClass (funext h)

theorem byte_eq (c : Char) : byte c = ofClass (· == c.toUInt8) := rfl

theorem digit_eq : digit = ofClass isDigit := rfl

theorem upper_eq : upper = ofClass isUpper := rfl

theorem lower_eq : lower = ofClass isLower := rfl

theorem foreign_eq : foreign = ofClass isNonAscii := rfl

theorem separator_eq : oneOf ['-', '/'] = ofClass isDateSeparator := by
  apply ofClass_congr
  intro b
  simp only [isDateSeparator, List.any_cons, List.any_nil, Bool.or_false]
  rfl

theorem indent_eq : oneOf [' ', '\t'] = ofClass isIndent := by
  apply ofClass_congr
  intro b
  simp only [isIndent, List.any_cons, List.any_nil, Bool.or_false]
  rfl

theorem blank_eq : oneOf [' ', '\t', '\r'] = ofClass isBlank := by
  apply ofClass_congr
  intro b
  simp only [isBlank, isIndent, List.any_cons, List.any_nil, Bool.or_false, Bool.or_assoc]
  rfl

theorem marker_eq : oneOf ['*', ':', '#', '!', '&', '%', '?', '^', '~'] = ofClass isLineMarker := by
  apply ofClass_congr
  intro b
  simp only [isLineMarker, List.any_cons, List.any_nil, Bool.or_false, Bool.or_assoc]
  rfl

theorem flag_eq : oneOf ['!', '&', '?', '%', 'P', 'S', 'T', 'C', 'U', 'R', 'M'] =
    ofClass fun b => isFlagSign b || isFlagLetter b := by
  apply ofClass_congr
  intro b
  simp only [isFlagSign, isFlagLetter, List.any_cons, List.any_nil, Bool.or_false, Bool.or_assoc]
  rfl

theorem accountPart_eq : accountPart = ofClass isAccountPart := by
  unfold accountPart
  rw [upper_eq, lower_eq, digit_eq, foreign_eq, byte_eq]
  simp only [ofClass_add]
  rfl

theorem currencyPart_eq : currencyPart = ofClass isCurrencyPart := by
  unfold currencyPart oneOf
  rw [upper_eq, digit_eq]
  simp only [ofClass_add]
  apply ofClass_congr
  intro b
  simp only [isCurrencyPart, isCurrencyEnd, List.any_cons, List.any_nil, Bool.or_false,
    Bool.or_assoc]
  rfl

theorem namePart_eq : namePart = ofClass isNamePart := by
  unfold namePart oneOf
  rw [upper_eq, lower_eq, digit_eq]
  simp only [ofClass_add]
  apply ofClass_congr
  intro b
  simp only [isNamePart, isAlphanumeric, List.any_cons, List.any_nil, Bool.or_false, Bool.or_assoc]
  rfl

theorem keyPart_eq : keyPart = ofClass isKeyPart := by
  unfold keyPart oneOf
  rw [upper_eq, lower_eq, digit_eq]
  simp only [ofClass_add]
  apply ofClass_congr
  intro b
  simp only [isKeyPart, isAlphanumeric, List.any_cons, List.any_nil, Bool.or_false, Bool.or_assoc]
  rfl

/-! ## The rules over the classes -/

theorem pattern_indent : pattern .indent = plus (ofClass isIndent) := by
  rw [pattern, indent_eq]

theorem pattern_blank : pattern .blank = plus (ofClass isBlank) := by
  rw [pattern, blank_eq]

theorem pattern_skippedLine :
    pattern .skippedLine = ofClass isLineMarker * (ofClass (· != lineFeed))∗ := by
  rw [pattern, marker_eq]
  rfl

theorem pattern_openingQuote : pattern .openingQuote = ofClass (· == quote) := rfl

theorem pattern_flag : pattern .flag = ofClass fun b => isFlagSign b || isFlagLetter b := by
  rw [pattern, flag_eq]

theorem pattern_tag : pattern .tag = ofClass (· == hash) * plus (ofClass isNamePart) := by
  rw [pattern, namePart_eq]
  rfl

theorem pattern_link : pattern .link = ofClass (· == caret) * plus (ofClass isNamePart) := by
  rw [pattern, namePart_eq]
  rfl

theorem pattern_key : pattern .key = ofClass isLower * (ofClass isKeyPart)∗ := by
  rw [pattern, keyPart_eq]
  rfl

theorem pattern_word : pattern .word = ofClass isLower * (ofClass isKeyPart)∗ := pattern_key

end LedgerText.Grammar
