import LedgerText.Proofs.Grammar.LineEnd
import LedgerText.Proofs.Reading.Lexeme
import LedgerText.Proofs.Returns.Text

/-!
# Lexemes without the carriage returns

What the carriage return at the end of a line does to the lexemes before it. Blanks with a carriage
return are never an indent (`indents_iff`). A comment or a skipped line takes it
(`exists_inText_of_takesLine`), and every other lexeme is the same without it (`inText_return`).
-/

namespace LedgerText

open Utf8

variable {cs front rest line : List Char} {c d : Char} {lineStart : Bool}

/-! ## First bytes -/

/-- Only a character of ASCII starts with its byte. -/
theorem headD_encode_ne {k : UInt8} (hk : k.toNat ≤ 0x7F) (hd : d.toNat = k.toNat) (h : c ≠ d)
    (cs : List Char) : (encode (c :: cs)).headD 0 ≠ k := by
  obtain ⟨b, bs, hbytes⟩ := List.exists_cons_of_ne_nil (String.utf8EncodeChar_ne_nil (c := c))
  have hnotMem := notMem_encodeChar hk hd h
  rw [hbytes] at hnotMem
  rw [encode_cons, hbytes, List.cons_append, List.headD_cons]
  rintro rfl
  exact hnotMem List.mem_cons_self

/-- Only a line feed starts with its byte. -/
theorem headD_encode_eq_lineFeed : (encode (c :: cs)).headD 0 = Byte.lineFeed ↔ c = '\n' := by
  constructor
  · intro h
    by_contra hline
    exact headD_encode_ne (by decide) (by decide) hline cs h
  · rintro rfl
    rfl

/-- Only blanks start with a blank byte. -/
theorem isBlank_headD_encode (h : c ∉ Reading.blanks) (cs : List Char) :
    Byte.isBlank ((encode (c :: cs)).headD 0) = false := by
  simp only [Reading.blanks, List.mem_cons, List.not_mem_nil, or_false, not_or] at h
  obtain ⟨hspace, htab, hreturn⟩ := h
  have h1 := headD_encode_ne (k := Byte.space) (by decide) (by decide) hspace cs
  have h2 := headD_encode_ne (k := Byte.tab) (by decide) (by decide) htab cs
  have h3 := headD_encode_ne (k := Byte.carriageReturn) (by decide) (by decide) hreturn cs
  simp only [Byte.isBlank, Byte.isIndent, Bool.or_eq_false_iff, beq_eq_false_iff_ne]
  exact ⟨⟨h1, h2⟩, h3⟩

/-- Blanks are made of blank bytes. -/
theorem isBlank_of_mem_encode (h : ∀ c ∈ cs, c ∈ Reading.blanks) :
    ∀ b ∈ encode cs, Byte.isBlank b = true := by
  intro b hb
  obtain ⟨c, hc, hbc⟩ := List.mem_flatMap.1 hb
  have hblank := h c hc
  simp only [Reading.blanks, List.mem_cons, List.not_mem_nil, or_false] at hblank
  rcases hblank with rfl | rfl | rfl <;> rw [List.mem_singleton.1 hbc] <;> decide

/-- Blanks without a carriage return are made of bytes that indent. -/
theorem isIndent_of_mem_encode (h : ∀ c ∈ cs, c ∈ Reading.blanks) (hreturn : '\r' ∉ cs) :
    ∀ b ∈ encode cs, Byte.isIndent b = true := by
  intro b hb
  obtain ⟨c, hc, hbc⟩ := List.mem_flatMap.1 hb
  have hblank := h c hc
  simp only [Reading.blanks, List.mem_cons, List.not_mem_nil, or_false] at hblank
  rcases hblank with rfl | rfl | rfl
  · rw [List.mem_singleton.1 hbc]
    decide
  · rw [List.mem_singleton.1 hbc]
    decide
  · exact absurd hc hreturn

/-! ## Blanks -/

/-- The characters do not go on with blanks. -/
def StopsBlanks (cs : List Char) : Prop := ∀ c rest, cs = c :: rest → c ∉ Reading.blanks

/-- All blanks at the front are told from what stands behind them. -/
theorem exists_blanks (cs : List Char) : ∃ front rest, cs = front ++ rest ∧
    (∀ c ∈ front, c ∈ Reading.blanks) ∧ StopsBlanks rest := by
  refine ⟨cs.takeWhile (· ∈ Reading.blanks), cs.dropWhile (· ∈ Reading.blanks),
    List.takeWhile_append_dropWhile.symm, fun c hc => ?_, fun c rest hrest => ?_⟩
  · have hblank := List.mem_takeWhile_imp hc
    exact of_decide_eq_true hblank
  · have hhead := List.head?_dropWhile_not (· ∈ Reading.blanks) cs
    rw [hrest] at hhead
    simpa using hhead

/-- No blank byte is first where no blank is. -/
theorem StopsBlanks.isBlank (h : StopsBlanks cs) :
    encode cs = [] ∨ Byte.isBlank ((encode cs).headD 0) = false := by
  rcases cs with - | ⟨c, cs⟩
  · exact .inl rfl
  · exact .inr (isBlank_headD_encode (h c cs rfl) cs)

/-- Blanks indent the characters behind them: they start a line, hold no carriage return, and
something other than the end of the line stands there. -/
def Indents (lineStart : Bool) (blanks rest : List Char) : Prop :=
  lineStart = true ∧ '\r' ∉ blanks ∧ ∃ c cs, rest = c :: cs ∧ c ≠ '\n'

/-- Without a carriage return all blanks are bytes that indent. -/
theorem run_isIndent (hfront : ∀ c ∈ front, c ∈ Reading.blanks) (hrest : StopsBlanks rest)
    (hreturn : '\r' ∉ front) :
    Byte.run Byte.isIndent (encode (front ++ rest)) = (encode front).length := by
  rw [encode_append]
  refine Grammar.run_append_stop (isIndent_of_mem_encode hfront hreturn) ?_
  rcases hrest.isBlank with hnil | hblank
  · exact .inl hnil
  · exact .inr (Bool.or_eq_false_iff.1 hblank).1

/-- The bytes that indent end at the first carriage return. -/
theorem headD_drop_isIndent (hfront : ∀ c ∈ front, c ∈ Reading.blanks) (hreturn : '\r' ∈ front)
    (rest : List Char) :
    ((encode (front ++ rest)).drop (Byte.run Byte.isIndent (encode (front ++ rest)))).headD 0 =
      Byte.carriageReturn := by
  obtain ⟨indent, later, hsplit, hindent⟩ := List.eq_append_cons_of_mem hreturn
  have hall := isIndent_of_mem_encode
    (fun c hc => hfront c (hsplit ▸ List.mem_append_left _ hc)) hindent
  have hstop (more : Bytes) : Byte.isIndent ((Byte.carriageReturn :: more).headD 0) = false := by
    rw [List.headD_cons]
    decide
  have hbytes : encode (front ++ rest) =
      encode indent ++ Byte.carriageReturn :: (encode later ++ encode rest) := by
    rw [hsplit, encode_append, encode_append, List.append_assoc]
    rfl
  rw [hbytes, Grammar.run_append_stop hall (.inr (hstop _)), List.drop_left, List.headD_cons]

/-- The test for an indent tells whether the blanks indent. -/
theorem indents_iff (hne : front ≠ []) (hfront : ∀ c ∈ front, c ∈ Reading.blanks)
    (hrest : StopsBlanks rest) {bytes : Bytes} (hbytes : bytes = encode (front ++ rest)) {n : Nat}
    (hn : n = Byte.run Byte.isIndent bytes) {next : UInt8} (hnext : next = (bytes.drop n).headD 0) :
    (lineStart && 0 < n && n < bytes.length && next != Byte.lineFeed &&
      next != Byte.carriageReturn) = true ↔ Indents lineStart front rest := by
  by_cases hreturn : '\r' ∈ front
  · rw [hbytes] at hn
    rw [hbytes, hn, headD_drop_isIndent hfront hreturn] at hnext
    constructor
    · intro h
      rw [hnext, bne_self_eq_false, Bool.and_false] at h
      cases h
    · intro h
      exact absurd hreturn h.2.1
  · have hpos := List.length_pos_iff.2 fun h => hne (encode_eq_nil.1 h)
    rw [hbytes, run_isIndent hfront hrest hreturn] at hn
    rw [hbytes, hn, encode_append, List.drop_left] at hnext
    rw [hbytes, hn, encode_append, List.length_append, hnext, Indents]
    rcases rest with - | ⟨c, cs⟩
    · simp
    · have hc : c ≠ '\r' := by
        rintro rfl
        exact hrest '\r' cs rfl (by decide)
      have hreturn' := headD_encode_ne (k := Byte.carriageReturn) (by decide) (by decide) hc cs
      have hlf : (encode (c :: cs)).headD 0 = Byte.lineFeed ↔ c = '\n' := headD_encode_eq_lineFeed
      have hlength : 0 < (encode (c :: cs)).length :=
        List.length_pos_iff.2 fun h => List.cons_ne_nil c cs (encode_eq_nil.1 h)
      -- Of the characters behind the blanks only the first byte and the length are left.
      generalize (encode (c :: cs)).headD 0 = b at *
      generalize (encode (c :: cs)).length = n at *
      simp [hreturn, hreturn', hlf, hpos, hlength]

/-- All of the blanks before other characters are one lexeme. -/
theorem inText_eq_blanks (hne : front ≠ []) (hfront : ∀ c ∈ front, c ∈ Reading.blanks)
    (lineStart : Bool) {left : Nat} (hleft : left ≠ 0) (rest : List Char) :
    Lexeme.inText lineStart left (encode (front ++ rest)) =
      Lexeme.blanks lineStart left (encode (front ++ rest)) := by
  have hpos : encode front ≠ [] := fun h => hne (encode_eq_nil.1 h)
  obtain ⟨b, bs, hb⟩ := List.exists_cons_of_ne_nil hpos
  have hblank : Byte.isBlank b = true :=
    isBlank_of_mem_encode hfront b (hb ▸ List.mem_cons_self)
  have hlf : b ≠ Byte.lineFeed := by
    rintro rfl
    exact absurd hblank (by decide)
  rw [encode_append, hb, List.cons_append, Lexeme.inText, if_neg hleft, List.headD_cons,
    if_neg hlf, if_pos hblank]

/-- Where blanks stand something is left. -/
theorem length_encode_append_ne_zero (hne : front ≠ []) (rest : List Char) :
    (encode (front ++ rest)).length ≠ 0 := by
  rw [ne_eq, List.length_eq_zero_iff, encode_eq_nil]
  exact List.append_ne_nil_of_left_ne_nil hne rest

/-- Blanks that indent what stands behind them are an indent. -/
theorem inText_indent (hne : front ≠ []) (hfront : ∀ c ∈ front, c ∈ Reading.blanks)
    (hrest : StopsBlanks rest) (h : Indents lineStart front rest) :
    Lexeme.inText lineStart (encode (front ++ rest)).length (encode (front ++ rest)) =
      ⟨.indent, (encode front).length⟩ := by
  have hcond := (indents_iff hne hfront hrest rfl rfl rfl).2 h
  rw [inText_eq_blanks hne hfront _ (length_encode_append_ne_zero hne rest), Lexeme.blanks, if_pos hcond,
    run_isIndent hfront hrest h.2.1]

/-- Blanks that do not indent are passed over together. -/
theorem inText_blank (hne : front ≠ []) (hfront : ∀ c ∈ front, c ∈ Reading.blanks)
    (hrest : StopsBlanks rest) (h : ¬Indents lineStart front rest) :
    Lexeme.inText lineStart (encode (front ++ rest)).length (encode (front ++ rest)) =
      ⟨.blank, (encode front).length⟩ := by
  have hcond := fun hc => h ((indents_iff hne hfront hrest rfl rfl rfl).1 hc)
  have hrun : Byte.run Byte.isBlank (encode (front ++ rest)) = (encode front).length := by
    rw [encode_append]
    exact Grammar.run_append_stop (isBlank_of_mem_encode hfront) hrest.isBlank
  rw [inText_eq_blanks hne hfront _ (length_encode_append_ne_zero hne rest), Lexeme.blanks, if_neg hcond,
    hrun]

/-! ## Other lexemes -/

/-- The next lexeme of normal text is told by its line. -/
theorem inText_line (hne : line ≠ []) (hrest : ∀ c cs, rest = c :: cs → c = '\n') :
    Lexeme.inText lineStart (encode (line ++ rest)).length (encode (line ++ rest)) =
      Lexeme.inText lineStart (encode line).length (encode line) := by
  rcases rest with - | ⟨c, cs⟩
  · rw [List.append_nil]
  · obtain rfl := hrest c cs rfl
    rw [encode_append]
    exact Grammar.inText_lineFeed _ (fun h => hne (encode_eq_nil.1 h)) (encode cs)

/-- A lexeme that starts with the byte goes to the end of its line. -/
def TakesLine (lineStart : Bool) (b : UInt8) : Prop :=
  b = Byte.semicolon ∨ lineStart = true ∧ Byte.isLineMarker b = true

/-- A line without line feeds is as long as its bytes. -/
theorem lineLength_encode (hline : '\n' ∉ line) :
    Lexeme.lineLength (encode line).length (encode line) = (encode line).length := by
  have hnotMem : Byte.lineFeed ∉ encode line := notMem_encode (by decide) (by decide) hline
  have hall : ∀ b ∈ encode line, (b != Byte.lineFeed) = true :=
    fun b hb => bne_iff_ne.2 fun heq => hnotMem (heq ▸ hb)
  rw [Lexeme.lineLength, List.take_length, Byte.run, List.takeWhile_eq_self_iff.2 hall]

/-- A comment or a skipped line goes to the end of its line. -/
theorem exists_inText_of_takesLine (hblank : c ∉ Reading.blanks)
    (h : TakesLine lineStart ((encode [c]).headD 0)) :
    ∃ t, (t = .comment ∨ t = .skippedLine) ∧ ∀ line, '\n' ∉ c :: line →
      Lexeme.inText lineStart (encode (c :: line)).length (encode (c :: line)) =
        ⟨t, (encode (c :: line)).length⟩ := by
  have hb := isBlank_headD_encode hblank []
  obtain ⟨b, bs, hbytes⟩ := List.exists_cons_of_ne_nil (String.utf8EncodeChar_ne_nil (c := c))
  have hencode (cs : List Char) : encode (c :: cs) = b :: (bs ++ encode cs) := by
    rw [encode_cons, hbytes, List.cons_append]
  rw [hencode, List.headD_cons] at h hb
  have hlf : b ≠ Byte.lineFeed := by
    rcases h with rfl | ⟨-, hmarker⟩
    · decide
    · rintro rfl
      exact absurd hmarker (by decide)
  have hsplit (line : List Char) : Lexeme.inText lineStart (encode (c :: line)).length
      (encode (c :: line)) = if b = Byte.semicolon
        then ⟨.comment, Lexeme.lineLength (encode (c :: line)).length (encode (c :: line))⟩
        else ⟨.skippedLine, Lexeme.lineLength (encode (c :: line)).length (encode (c :: line))⟩ := by
    have hlength : (b :: (bs ++ encode line)).length ≠ 0 := Nat.succ_ne_zero _
    rw [hencode, Lexeme.inText, if_neg hlength, List.headD_cons, if_neg hlf,
      if_neg (by rw [hb]; decide)]
    split
    · rfl
    · next hcomment =>
      obtain ⟨hstart, hmarker⟩ := h.resolve_left hcomment
      rw [if_pos (by rw [hstart, hmarker]; rfl)]
  by_cases hcomment : b = Byte.semicolon
  · refine ⟨.comment, .inl rfl, fun line hline => ?_⟩
    rw [hsplit, if_pos hcomment, lineLength_encode hline]
  · refine ⟨.skippedLine, .inr rfl, fun line hline => ?_⟩
    rw [hsplit, if_neg hcomment, lineLength_encode hline]

/-- Any other lexeme does not take a carriage return at the end of its line. -/
theorem inText_return (hblank : c ∉ Reading.blanks) (hline : c ≠ '\n')
    (h : ¬TakesLine lineStart ((encode [c]).headD 0)) (line : List Char) :
    Lexeme.inText lineStart (encode (c :: line ++ ['\r'])).length (encode (c :: line ++ ['\r'])) =
      Lexeme.inText lineStart (encode (c :: line)).length (encode (c :: line)) := by
  have hb := isBlank_headD_encode hblank []
  have hlf := headD_encode_ne (k := Byte.lineFeed) (by decide) (by decide) hline []
  obtain ⟨b, bs, hbytes⟩ := List.exists_cons_of_ne_nil (String.utf8EncodeChar_ne_nil (c := c))
  have hencode (cs : List Char) : encode (c :: cs) = b :: (bs ++ encode cs) := by
    rw [encode_cons, hbytes, List.cons_append]
  rw [hencode, List.headD_cons] at h hb hlf
  rw [encode_append, hencode]
  exact Grammar.inText_carriageReturn hlf hb (fun heq => h (.inl heq)) (fun hm => h (.inr hm)) _ []

end LedgerText
