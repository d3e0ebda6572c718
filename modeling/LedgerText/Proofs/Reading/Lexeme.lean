import LedgerText.Proofs.Literal.Scanner

/-!
# Lexemes in normal text

A reading in normal text goes on by one lexeme at a time, and a lexeme is whole characters of the
text (`exists_lexeme`). What is found of it depends on its rule and its bytes alone, apart from
where it stands (`Finding.ofLexeme?`), and has the lexeme for its text (`Spells`). Blanks and
opening quotes come to no finding, nor does recovery, which passes over the rest of a line
(`step_recovery`).
-/

namespace LedgerText

open Grammar Utf8

/-! ## What is found of a lexeme -/

/-- The finding that is made of a lexeme of normal text, where one is. -/
def Finding.ofLexeme? (t : Tag) (bytes : Bytes) (location : Location) : Option Finding :=
  match Sense.ofLexeme t (Utf8.toString bytes) with
  | .structural kind => some (.structural kind (Utf8.toString bytes) location {})
  | .terminal kind args =>
    some (.terminal ⟨kind, Utf8.toString bytes, location, args⟩ (Utf8.toString bytes) {})
  | .fault cause => some (.fault cause (Utf8.toString bytes) location)
  | .unrecognized =>
    some (.fault (.unrecognizedByte (bytes.headD 0)) (Utf8.toString bytes) location)
  | .passedOver | .endOfInput | .opensLiteral => none

/-- Whether a finding is input that no rule recognizes. -/
def Finding.isUnrecognized : Finding → Bool
  | .fault (.unrecognizedByte _) _ _ => true
  | _ => false

/-- The mode in which a finding leaves a reading. -/
def Finding.modeAfter (finding : Finding) : Mode :=
  if finding.isUnrecognized then .recovery else .normal

/-- No finding leaves a reading inside a literal. -/
theorem Finding.modeAfter_ne_literal (finding : Finding) : finding.modeAfter ≠ .literal := by
  unfold modeAfter
  split <;> decide

/-- The finding is what a lexeme of normal text comes to: a token of the line structure, a terminal
that is no string, or one of the two faults of normal text. Its text is the lexeme. -/
inductive Finding.Spells (lexeme : List Char) (location : Location) : Finding → Prop
  | structural (kind : Kind) (hend : kind ≠ .endOfFile)
    (hline : kind = .endOfLine → lexeme = ['\n']) :
    Spells lexeme location (.structural kind (String.ofList lexeme) location {})
  | terminal (kind : Kind) (args : Args) (hvalue : kind.isStructural = false)
    (hkind : kind ≠ .string) :
    Spells lexeme location
      (.terminal ⟨kind, String.ofList lexeme, location, args⟩ (String.ofList lexeme) {})
  | overflow (overflow : Field.Overflow) :
    Spells lexeme location (.fault (.numericOverflow overflow) (String.ofList lexeme) location)
  | unrecognized (byte : UInt8) :
    Spells lexeme location (.fault (.unrecognizedByte byte) (String.ofList lexeme) location)

namespace Sense

/-- What a sense tells of the tag it comes from, and of what it makes of the lexeme. -/
def Suits (t : Tag) : Sense → Prop
  | .passedOver => t = .blank
  | .endOfInput => t = .endOfFile
  | .structural kind => kind ≠ .endOfFile ∧ (kind = .endOfLine → t = .newline)
  | .opensLiteral => t = .openingQuote
  | .terminal kind _ => kind.isStructural = false ∧ kind ≠ .string
  | .fault cause => ∃ overflow, cause = .numericOverflow overflow
  | .unrecognized => True

/-- The sense of a lexeme suits its tag. -/
theorem suits_ofLexeme (t : Tag) (text : String) : Suits t (ofLexeme t text) := by
  have hword : Suits t (ofWord text) := by
    unfold ofWord
    split
    · simp [Suits, Kind.isStructural]
    · trivial
  have hdate : Suits t (ofDate text) := by
    unfold ofDate
    split
    · simp [Suits, Kind.isStructural]
    · exact ⟨_, rfl⟩
  have hcurrency : Suits t (ofCurrency text) := by
    unfold ofCurrency
    split_ifs <;> simp [Suits, Kind.isStructural]
  cases t with
  | word => exact hword
  | date => exact hdate
  | currency => exact hcurrency
  | _ => simp [ofLexeme, Suits, Kind.isStructural]

end Sense

/-- Of every lexeme but a blank, an opening quote and the end there is a finding that spells it. -/
theorem Finding.exists_ofLexeme? {t : Tag} {lexeme : List Char} (location : Location)
    (hblank : t ≠ .blank) (hquote : t ≠ .openingQuote) (hend : t ≠ .endOfFile)
    (hline : t = .newline → lexeme = ['\n']) :
    ∃ finding, Finding.ofLexeme? t (encode lexeme) location = some finding ∧
      finding.Spells lexeme location := by
  have hsuits := Sense.suits_ofLexeme t (String.ofList lexeme)
  unfold Finding.ofLexeme?
  rw [toString_encode]
  generalize Sense.ofLexeme t (String.ofList lexeme) = sense at hsuits
  cases sense with
  | passedOver => exact absurd hsuits hblank
  | endOfInput => exact absurd hsuits hend
  | opensLiteral => exact absurd hsuits hquote
  | structural kind => exact ⟨_, rfl, .structural kind hsuits.1 fun h => hline (hsuits.2 h)⟩
  | terminal kind args => exact ⟨_, rfl, .terminal kind args hsuits.1 hsuits.2⟩
  | fault cause =>
    obtain ⟨overflow, rfl⟩ := hsuits
    exact ⟨_, rfl, .overflow overflow⟩
  | unrecognized => exact ⟨_, rfl, .unrecognized _⟩

namespace Reading

variable {text : String} {before after lexeme rest : List Char} {r : Reading}

/-! ## Steps in normal text -/

/-- A reading of normal text whose mode is written over by that mode is as it was. -/
theorem withMode_normal (hmode : r.mode = .normal) (m : Move) :
    { r.move m with mode := .normal } = r.move m := by
  rw [← hmode]
  rfl

/-- A step in normal text comes to the finding that is made of the lexeme. -/
theorem step_of_ofLexeme? {finding : Finding} (hmode : r.mode = .normal)
    (h : Finding.ofLexeme? (r.reader.lexeme .text).tag (r.reader.text .text)
      (r.tracker.locate (r.reader.text .text)) = some finding) :
    r.step = .found finding { r.move .text with mode := finding.modeAfter } := by
  have hsuits := Sense.suits_ofLexeme (r.reader.lexeme .text).tag
    (Utf8.toString (r.reader.text .text))
  have hkeep := withMode_normal hmode .text
  rw [step, hmode]
  unfold stepText Finding.ofLexeme? at *
  dsimp only at *
  generalize Sense.ofLexeme (r.reader.lexeme .text).tag
    (Utf8.toString (r.reader.text .text)) = sense at *
  cases sense with
  | passedOver | endOfInput | opensLiteral => exact absurd h.symm (Option.some_ne_none finding)
  | structural kind | terminal kind args =>
    rw [← Option.some.inj h]
    exact congrArg (Step.found _) hkeep.symm
  | fault cause =>
    obtain ⟨overflow, rfl⟩ := hsuits
    rw [← Option.some.inj h]
    exact congrArg (Step.found _) hkeep.symm
  | unrecognized =>
    rw [← Option.some.inj h]
    rfl

/-- What is made of a lexeme is found, and unless that leads to recovery the reading goes on behind
the lexeme. -/
theorem next_of_ofLexeme? {finding : Finding} (hmode : r.mode = .normal)
    (hclosed : r.closed = false)
    (h : Finding.ofLexeme? (r.reader.lexeme .text).tag (r.reader.text .text)
      (r.tracker.locate (r.reader.text .text)) = some finding)
    (hafter : finding.modeAfter = .normal) : r.next = (finding, r.move .text) := by
  have hstep := step_of_ofLexeme? hmode h
  rw [hafter, withMode_normal hmode] at hstep
  exact next_of_found hclosed hstep

/-! ## Lexemes of a text -/

/-- Where something is left, the next lexeme is characters at the front of it. -/
theorem exists_lexeme (h : Between text before after r) (hne : after ≠ []) :
    ∃ lexeme rest, after = lexeme ++ rest ∧ lexeme ≠ [] ∧
      (r.reader.lexeme .text).length = (encode lexeme).length := by
  have hrest := h.rest
  obtain ⟨lexeme, rest, hsplit, hlen⟩ := Reader.isBoundary_lexeme (r := r.reader)
    (m := .text) ⟨after, hrest⟩
  rw [hrest, encode_inj] at hsplit
  refine ⟨lexeme, rest, hsplit, ?_, hlen⟩
  rintro rfl
  have hpos : 0 < (r.reader.lexeme .text).length := by
    refine Lexeme.inText_length_pos ?_ (Nat.le_refl _)
    rw [hrest, ne_eq, List.length_eq_zero_iff, encode_eq_nil]
    exact hne
  rw [hlen] at hpos
  exact Nat.lt_irrefl 0 hpos

/-- The source does not end where a character is left. -/
theorem tag_ne_endOfFile (h : Between text before (lexeme ++ rest) r) (hne : lexeme ≠ []) :
    (r.reader.lexeme .text).tag ≠ .endOfFile := by
  refine Lexeme.tag_inText _ ?_ _
  rw [h.rest, ne_eq, List.length_eq_zero_iff, encode_eq_nil]
  exact List.append_ne_nil_of_left_ne_nil hne rest

/-- A lexeme that a rule recognizes is matched by it. -/
theorem matches_lexeme (h : Between text before (lexeme ++ rest) r) (hne : lexeme ≠ [])
    (hlen : (r.reader.lexeme .text).length = (encode lexeme).length)
    (htag : (r.reader.lexeme .text).tag ≠ .invalid) :
    Matches r.reader.atLineStart (r.reader.lexeme .text).tag (encode lexeme) (encode rest) := by
  have htext := Reader.text_eq_encode h.rest hlen
  have hdrop : r.reader.rest.drop (r.reader.lexeme .text).length = encode rest := by
    rw [h.rest, hlen, encode_append, List.drop_left]
  rw [← htext, ← hdrop]
  exact (Reader.isLongest_of_tag (tag_ne_endOfFile h hne) htag).matched.2

/-- A lexeme that a rule recognizes is a word of that rule. -/
theorem encode_mem_pattern (h : Between text before (lexeme ++ rest) r) (hne : lexeme ≠ [])
    (hlen : (r.reader.lexeme .text).length = (encode lexeme).length)
    (htag : (r.reader.lexeme .text).tag ≠ .invalid) :
    encode lexeme ∈ pattern (r.reader.lexeme .text).tag :=
  (matches_lexeme h hne hlen htag).1

/-- The characters that separate lexemes. -/
def blanks : List Char := [' ', '\t', '\r']

/-- Only a line feed is the end of a line. -/
theorem eq_lineFeed_of_tag (h : Between text before (lexeme ++ rest) r) (hne : lexeme ≠ [])
    (hlen : (r.reader.lexeme .text).length = (encode lexeme).length)
    (htag : (r.reader.lexeme .text).tag = .newline) : lexeme = ['\n'] := by
  have hmem := encode_mem_pattern h hne hlen (by rw [htag]; decide)
  rw [htag] at hmem
  obtain ⟨b, hb, hlexeme⟩ := hmem
  rw [beq_iff_eq.1 hb] at hlexeme
  exact encode_inj.1 hlexeme

/-- Only a quote opens a literal. -/
theorem eq_quote_of_tag (h : Between text before (lexeme ++ rest) r) (hne : lexeme ≠ [])
    (hlen : (r.reader.lexeme .text).length = (encode lexeme).length)
    (htag : (r.reader.lexeme .text).tag = .openingQuote) : lexeme = ['"'] := by
  have hmem := encode_mem_pattern h hne hlen (by rw [htag]; decide)
  rw [htag] at hmem
  obtain ⟨b, hb, hlexeme⟩ := hmem
  rw [beq_iff_eq.1 hb] at hlexeme
  exact encode_inj.1 hlexeme

/-- A blank lexeme is made of blanks. -/
theorem mem_blanks_of_tag (h : Between text before (lexeme ++ rest) r) (hne : lexeme ≠ [])
    (hlen : (r.reader.lexeme .text).length = (encode lexeme).length)
    (htag : (r.reader.lexeme .text).tag = .blank) : ∀ c ∈ lexeme, c ∈ blanks := by
  have hmem := encode_mem_pattern h hne hlen (by rw [htag]; decide)
  rw [htag, pattern_blank, mem_plus_ofClass] at hmem
  intro c hc
  obtain ⟨b, bs, hbytes⟩ := List.exists_cons_of_ne_nil (String.utf8EncodeChar_ne_nil (c := c))
  have hb : b ∈ String.utf8EncodeChar c := by
    rw [hbytes]
    exact List.mem_cons_self
  have hblank := hmem.2 b (List.mem_flatMap.2 ⟨c, hc, hb⟩)
  simp only [Byte.isBlank, Byte.isIndent, Bool.or_eq_true, beq_iff_eq] at hblank
  -- A blank is of ASCII, so its byte is the whole character.
  rcases hblank with (rfl | rfl) | rfl
  · obtain ⟨-, heq⟩ := encodeChar_of_mem (by decide) hb
    rw [show c = ' ' from Char.toNat_inj.1 heq]
    decide
  · obtain ⟨-, heq⟩ := encodeChar_of_mem (by decide) hb
    rw [show c = '\t' from Char.toNat_inj.1 heq]
    decide
  · obtain ⟨-, heq⟩ := encodeChar_of_mem (by decide) hb
    rw [show c = '\r' from Char.toNat_inj.1 heq]
    decide

/-- A line feed ends a line wherever it stands. -/
theorem lexeme_newline {cs : List Char} (h : Between text before ('\n' :: cs) r) :
    r.reader.lexeme .text = ⟨.newline, 1⟩ := by
  rw [Reader.lexeme, h.rest]
  rfl

/-- A lexeme that is characters at the front has a finding, unless it is a blank or a quote. -/
theorem exists_found (hmode : r.mode = .normal) (h : Between text before (lexeme ++ rest) r)
    (hne : lexeme ≠ []) (hlen : (r.reader.lexeme .text).length = (encode lexeme).length)
    (hblank : (r.reader.lexeme .text).tag ≠ .blank) (hquote : lexeme ≠ ['"']) :
    ∃ finding, finding.Spells lexeme (r.tracker.locate (encode lexeme)) ∧
      Finding.ofLexeme? (r.reader.lexeme .text).tag (encode lexeme)
        (r.tracker.locate (encode lexeme)) = some finding ∧
      r.step = .found finding { r.move .text with mode := finding.modeAfter } ∧
      Between text (before ++ lexeme) rest { r.move .text with mode := finding.modeAfter } := by
  have hend := tag_ne_endOfFile h hne
  obtain ⟨finding, hfinding, hspells⟩ := Finding.exists_ofLexeme? (t := (r.reader.lexeme .text).tag)
    (r.tracker.locate (encode lexeme)) hblank
    (fun htag => hquote (eq_quote_of_tag h hne hlen htag)) hend (eq_lineFeed_of_tag h hne hlen)
  refine ⟨finding, hspells, hfinding, step_of_ofLexeme? hmode ?_, (h.move hlen).congr rfl rfl⟩
  rwa [Reader.text_eq_encode h.rest hlen]

/-! ## What is passed over -/

/-- What a reading passes over before the characters of which something is found: blanks in normal
text, and in recovery the rest of the line. -/
def Passes (mode : Mode) (skipped rest : List Char) : Prop :=
  match mode with
  | .recovery => '\n' ∉ skipped ∧ ∀ c cs, rest = c :: cs → c = '\n'
  | _ => ∀ c ∈ skipped, c ∈ blanks

/-- All that is left of a line comes before its line feed, or before the end. -/
theorem exists_passes_recovery (cs : List Char) :
    ∃ skipped rest, cs = skipped ++ rest ∧ Passes .recovery skipped rest := by
  refine ⟨cs.takeWhile (· != '\n'), cs.dropWhile (· != '\n'),
    List.takeWhile_append_dropWhile.symm, ?_, ?_⟩
  · intro hmem
    exact absurd (List.mem_takeWhile_imp hmem) (by decide)
  · intro c rest hrest
    have hhead := List.head?_dropWhile_not (· != '\n') cs
    rw [hrest] at hhead
    simpa using hhead

/-- In recovery a step passes over the rest of the line. -/
theorem step_recovery {skipped : List Char} (hmode : r.mode = .recovery)
    (h : Between text before (skipped ++ rest) r) (hpasses : Passes .recovery skipped rest) :
    r.step = .onward { r.move .skipLine with mode := .normal } ∧
      Between text (before ++ skipped) rest { r.move .skipLine with mode := .normal } := by
  obtain ⟨hskipped, hrest⟩ := hpasses
  have hnotMem : Byte.lineFeed ∉ encode skipped := notMem_encode (by decide) (by decide) hskipped
  have hall : ∀ b ∈ encode skipped, (b != Byte.lineFeed) = true :=
    fun b hb => bne_iff_ne.2 fun heq => hnotMem (heq ▸ hb)
  have hstop : Byte.run (· != Byte.lineFeed) (encode rest) = 0 := by
    rcases rest with - | ⟨c, cs⟩
    · rfl
    · rw [hrest c cs rfl]
      rfl
  have hlen : (r.reader.lexeme .skipLine).length = (encode skipped).length := by
    rw [Reader.lexeme, h.rest]
    show Lexeme.lineLength _ _ = _
    rw [Lexeme.lineLength, List.take_length, encode_append, Byte.run_append hall, hstop,
      Nat.add_zero]
  refine ⟨?_, (h.move hlen).congr rfl rfl⟩
  rw [step, hmode]
  rfl

/-- In normal text blanks are passed over, up to a lexeme that is none. -/
theorem exists_next_of_blanks (hmode : r.mode = .normal) (hclosed : r.closed = false)
    (h : Between text before after r) :
    ∃ skipped rest r', after = skipped ++ rest ∧ (∀ c ∈ skipped, c ∈ blanks) ∧
      Between text (before ++ skipped) rest r' ∧ GoesOn r r' ∧ r.next = r'.next ∧
      (r'.reader.lexeme .text).tag ≠ .blank := by
  induction hn : after.length using Nat.strongRecOn generalizing r before after with
  | _ n ih =>
    subst hn
    by_cases hblank : (r.reader.lexeme .text).tag = .blank
    · have hne : after ≠ [] := by
        rintro rfl
        rw [h.lexeme_endOfFile] at hblank
        cases hblank
      obtain ⟨lexeme, rest, rfl, hlexeme, hlen⟩ := exists_lexeme h hne
      have hlt : rest.length < (lexeme ++ rest).length := by
        rw [List.length_append]
        have := List.length_pos_iff.2 hlexeme
        omega
      obtain ⟨skipped, rest', r', rfl, hskipped, hbetween, hgoes, hnext, htag⟩ :=
        ih rest.length hlt (r := r.move .text) hmode hclosed (h.move hlen) rfl
      refine ⟨lexeme ++ skipped, rest', r', by rw [List.append_assoc], ?_, ?_, ?_, ?_, htag⟩
      · exact List.forall_mem_append.2 ⟨mem_blanks_of_tag h hlexeme hlen hblank, hskipped⟩
      · rwa [List.append_assoc] at hbetween
      · have hmove : GoesOn r (r.move .text) := .move r .text r.mode
        exact hmove.trans hgoes
      · exact (next_of_onward hclosed (step_blank hmode hblank)).trans hnext
    · exact ⟨[], after, r, rfl, fun c hc => absurd hc List.not_mem_nil,
        by rwa [List.append_nil], .refl r, rfl, hblank⟩

end Reading

end LedgerText
