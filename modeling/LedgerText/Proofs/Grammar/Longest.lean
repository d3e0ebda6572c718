import LedgerText.Proofs.Grammar.Opening
import LedgerText.Reader

/-!
# Lexemes of normal text are the longest matches

`Lexeme.inText` chooses a rule by the first byte and then compares lengths. Each of its branches is
held against the few rules that begin with that byte: none of them reaches further, and none that
counts before the chosen one reaches as far. Where no rule matches at all, the lexeme is one whole
character.
-/

namespace LedgerText.Grammar

open Byte Lexeme
open scoped Computability

variable {lineStart : Bool} {t : Tag} {b : UInt8} {bytes w after rest : Bytes} {l : Lexeme}

/-- A lexeme is the longest match if every match is shorter, or no longer and by a later rule. -/
theorem IsLongest.of_forall {u : Tag} {n : Nat} (hle : n ≤ bytes.length)
    (hmem : bytes.take n ∈ pattern u) (hctx : Context lineStart (bytes.drop n) u)
    (h : ∀ {t w after}, w ++ after = bytes → Matches lineStart t w after →
      w.length < n ∨ w.length ≤ n ∧ order.idxOf u ≤ order.idxOf t) :
    IsLongest lineStart bytes ⟨u, n⟩ where
  matched := ⟨hle, hmem, hctx⟩
  longest t w after hs hw := by
    rcases h hs hw with h | ⟨h, -⟩
    · exact Nat.le_of_lt h
    · exact h
  first t w after hs hw hl := by
    rcases h hs hw with h | ⟨-, h⟩
    · exact absurd hl (Nat.ne_of_lt h)
    · exact h

/-- A match of one byte. -/
theorem length_eq_of_mem_ofClass {p : UInt8 → Bool} (h : w ∈ ofClass p) : w.length = 1 := by
  obtain ⟨b, -, rfl⟩ := h
  rfl

/-! ## Line structure -/

/-- A line feed is a newline. -/
theorem isLongest_newline : IsLongest lineStart (lineFeed :: rest) ⟨.newline, 1⟩ := by
  refine .of_forall (Nat.le_add_left 1 _) ⟨lineFeed, rfl, rfl⟩ trivial fun hs hw => ?_
  obtain rfl := eq_of_opens_lineFeed (opens_of_matches hs hw)
  exact .inr ⟨Nat.le_of_eq (length_eq_of_mem_ofClass hw.1), Nat.le_refl _⟩

theorem isBlank_of_isIndent {b : UInt8} (h : isIndent b = true) : isBlank b = true := by
  simp only [isBlank, h, Bool.true_or]

/-- The bytes at which an indent ends. -/
theorem notMem_blank_iff : [b] ∉ oneOf [' ', '\t', '\n', '\r'] ↔
    isIndent b = false ∧ b ≠ lineFeed ∧ b ≠ carriageReturn := by
  unfold oneOf
  rw [singleton_mem_ofClass, Bool.not_eq_true]
  simp only [List.any_cons, List.any_nil, Bool.or_false, Bool.or_eq_false_iff, isIndent,
    beq_eq_false_iff_ne, ne_eq, and_assoc]
  rfl

/-- Blanks are an indent where the line goes on, and else a blank as long as can be. -/
theorem isLongest_blanks (hb : isBlank b = true) :
    IsLongest lineStart (b :: rest) (blanks lineStart (b :: rest).length (b :: rest)) := by
  have hcand : ∀ {t w after}, w ++ after = b :: rest → Matches lineStart t w after →
      t = .indent ∨ t = .blank := fun hs hw => eq_of_opens_blank (opens_of_matches hs hw) hb
  generalize hbytes : b :: rest = bytes at *
  have hword : ∀ {t w after}, w ++ after = bytes → Matches lineStart t w after →
      (∀ c ∈ w, isBlank c = true) := by
    intro t w after hs hw
    rcases hcand hs hw with rfl | rfl
    · have hall := mem_plus_ofClass.1 (pattern_indent ▸ hw.1)
      exact fun c hc => isBlank_of_isIndent (hall.2 c hc)
    · have hall := mem_plus_ofClass.1 (pattern_blank ▸ hw.1)
      exact hall.2
  unfold blanks
  dsimp only
  split
  · next hc =>
    -- The blanks start a line that goes on behind them.
    simp only [Bool.and_eq_true, decide_eq_true_eq, bne_iff_ne, ne_eq] at hc
    obtain ⟨⟨⟨⟨hls, hpos⟩, hlt⟩, hlf⟩, hcr⟩ := hc
    have hne : bytes.drop (run isIndent bytes) ≠ [] := by
      intro h
      have := congrArg List.length h
      rw [List.length_drop, List.length_nil] at this
      omega
    obtain ⟨c, later, hdrop⟩ := List.exists_cons_of_ne_nil hne
    have hstop : isIndent c = false := by
      have h := (headD_drop_run isIndent bytes).resolve_left hne
      rwa [hdrop] at h
    rw [hdrop] at hlf hcr
    refine .of_forall (Nat.le_of_lt hlt) ?_ ⟨hls, c, later, hdrop, ?_⟩ fun {t w after} hs hw => ?_
    · rw [pattern_indent, mem_plus_ofClass]
      exact ⟨take_ne_nil (Nat.ne_of_gt hpos) (run_le _ _), fun c hc => of_mem_take_run hc⟩
    · exact notMem_blank_iff.2 ⟨hstop, hlf, hcr⟩
    · -- Behind the indent stands no blank either, so blanks reach no further.
      have hrun : run isBlank bytes = run isIndent bytes := by
        conv_lhs => rw [← List.take_append_drop (run isIndent bytes) bytes]
        rw [run_append_stop (fun c hc => isBlank_of_isIndent (of_mem_take_run hc)),
          List.length_take, Nat.min_eq_left (Nat.le_of_lt hlt)]
        rw [hdrop]
        exact .inr (by simp only [isBlank, List.headD_cons, hstop, Bool.false_or]; simpa using hcr)
      have hle := le_run (hword hs hw) after
      rw [hs, hrun] at hle
      refine .inr ⟨hle, ?_⟩
      rcases hcand hs hw with rfl | rfl <;> decide
  · next hc =>
    -- There is no indent, so the blanks are taken together with carriage returns.
    have hne : bytes ≠ [] := hbytes ▸ List.cons_ne_nil _ _
    have hhead : isBlank (bytes.headD 0) = true := by rw [← hbytes]; exact hb
    refine .of_forall (run_le _ _) ?_ trivial fun {t w after} hs hw => ?_
    · rw [pattern_blank, mem_plus_ofClass]
      exact ⟨take_ne_nil (Nat.ne_of_gt (run_pos hhead hne)) (run_le _ _),
        fun c hc => of_mem_take_run hc⟩
    · have hle := le_run (hword hs hw) after
      rw [hs] at hle
      rcases hcand hs hw with rfl | rfl
      · -- An indent that matches is all of the indenting blanks, so it is one that was looked for.
        obtain ⟨hls, c, later, rfl, hstop⟩ := hw.2
        obtain ⟨hi, hlf, hcr⟩ := notMem_blank_iff.1 hstop
        obtain ⟨hwne, hall⟩ := mem_plus_ofClass.1 (pattern_indent ▸ hw.1)
        have hrun : run isIndent bytes = w.length := by
          rw [← hs]
          exact run_append_stop hall (.inr hi)
        have hpos := List.length_pos_iff.2 hwne
        refine absurd ?_ hc
        rw [hrun, ← hs, List.drop_left]
        simp [hls, hpos, hlf, hcr]
      · exact .inr ⟨hle, Nat.le_refl _⟩

/-- The rest of a line with which all of the source is left. -/
theorem lineLength_cons (hb : b ≠ lineFeed) (rest : Bytes) :
    lineLength (b :: rest).length (b :: rest) = 1 + run (· != lineFeed) rest := by
  rw [lineLength, List.take_length, run_cons, if_pos (by simpa using hb), Nat.add_comm]

/-- A comment goes to the end of its line. -/
theorem isLongest_comment : IsLongest lineStart (semicolon :: rest)
    ⟨.comment, lineLength (semicolon :: rest).length (semicolon :: rest)⟩ := by
  have hreach : Reaches (pattern .comment) (semicolon :: rest)
      (some (1 + run (· != lineFeed) rest)) := reaches_cons_run (by decide) rest
  obtain ⟨hle, hmem⟩ := hreach.mem rfl
  rw [lineLength_cons (by decide)]
  refine .of_forall hle hmem trivial fun hs hw => ?_
  obtain rfl := eq_of_opens_semicolon (opens_of_matches hs hw)
  exact .inr ⟨hreach.length_le hs hw.1, Nat.le_refl _⟩

/-- No rule that begins with the marker of a skipped line goes over a line feed. -/
theorem ne_lineFeed_of_marker (hs : w ++ after = b :: rest) (hw : Matches lineStart t w after)
    (hb : isLineMarker b = true) : ∀ c ∈ w, (c != lineFeed) = true := by
  intro c hc
  rw [bne_iff_ne]
  rintro rfl
  -- A line feed is neither the first byte of a word nor in the class of the later ones.
  rcases eq_of_opens_marker (opens_of_matches hs hw) hb with rfl | ⟨m, rfl⟩ | rfl | rfl | rfl
  · obtain ⟨d, v, rfl, hd, hv⟩ := mem_ofClass_mul.1 (pattern_skippedLine ▸ hw.1)
    rcases List.mem_cons.1 hc with rfl | hc
    · exact absurd hd (by decide)
    · exact absurd (mem_kstar_ofClass.1 hv _ hc) (by decide)
  · obtain rfl : w = m.spelling := hw.1
    cases m <;> exact absurd hc (by decide)
  · obtain ⟨d, hd, rfl⟩ := mem_ofClass.1 (pattern_flag ▸ hw.1)
    rw [← List.mem_singleton.1 hc] at hd
    exact absurd hd (by decide)
  · obtain ⟨d, v, rfl, hd, hv⟩ := mem_ofClass_mul.1 (pattern_tag ▸ hw.1)
    rcases List.mem_cons.1 hc with rfl | hc
    · exact absurd hd (by decide)
    · exact absurd ((mem_plus_ofClass.1 hv).2 _ hc) (by decide)
  · obtain ⟨d, v, rfl, hd, hv⟩ := mem_ofClass_mul.1 (pattern_link ▸ hw.1)
    rcases List.mem_cons.1 hc with rfl | hc
    · exact absurd hd (by decide)
    · exact absurd ((mem_plus_ofClass.1 hv).2 _ hc) (by decide)

/-- A marker at the start of a line skips the line. -/
theorem isLongest_skippedLine (hb : isLineMarker b = true) : IsLongest true (b :: rest)
    ⟨.skippedLine, lineLength (b :: rest).length (b :: rest)⟩ := by
  have hlf : b ≠ lineFeed := by
    rintro rfl
    exact absurd hb (by decide)
  have hreach : Reaches (pattern .skippedLine) (b :: rest)
      (some (1 + run (· != lineFeed) rest)) := pattern_skippedLine ▸ reaches_cons_run hb rest
  obtain ⟨hle, hmem⟩ := hreach.mem rfl
  have hlen : run (· != lineFeed) (b :: rest) = 1 + run (· != lineFeed) rest := by
    rw [run_cons, if_pos (by simpa using hlf), Nat.add_comm]
  rw [lineLength_cons hlf]
  refine .of_forall hle hmem rfl fun {t w after} hs hw => .inr ⟨?_, ?_⟩
  · have hmost := le_run (ne_lineFeed_of_marker hs hw hb) after
    rwa [hs, hlen] at hmost
  -- A skipped line counts before every other rule that begins with a marker.
  · rcases eq_of_opens_marker (opens_of_matches hs hw) hb with rfl | ⟨m, rfl⟩ | rfl | rfl | rfl
    · decide
    · cases m <;> decide
    · decide
    · decide
    · decide

/-! ## Words -/

/-- A digit begins a date or a number, whichever is longer. -/
theorem isLongest_dateOrNumber (hb : isDigit b = true) :
    IsLongest lineStart (b :: rest) (dateOrNumber (b :: rest)) := by
  have hdate := reaches_date (b :: rest)
  have hnumber : Reaches number (b :: rest) _ := reaches_number_of_isDigit hb
  obtain ⟨hnl, hnm⟩ := hnumber.mem rfl
  have hcand : ∀ {t w after}, w ++ after = b :: rest → Matches lineStart t w after →
      t = .date ∨ t = .number := fun hs hw => eq_of_opens_digit (opens_of_matches hs hw) hb
  unfold dateOrNumber
  dsimp only
  split
  · next n hd =>
    rw [hd] at hdate
    obtain ⟨hdl, hdm⟩ := hdate.mem rfl
    split
    · next hle =>
      -- A number as long as the date counts after it.
      refine .of_forall hdl hdm trivial fun hs hw => ?_
      rcases hcand hs hw with rfl | rfl
      · exact .inr ⟨hdate.length_le hs hw.1, Nat.le_refl _⟩
      · exact .inr ⟨(hnumber.length_le hs hw.1).trans hle, by decide⟩
    · next hlt =>
      -- Grouping commas or a fraction can make the number longer than the date.
      refine .of_forall hnl hnm trivial fun hs hw => ?_
      rcases hcand hs hw with rfl | rfl
      · exact .inl (Nat.lt_of_le_of_lt (hdate.length_le hs hw.1) (Nat.lt_of_not_le hlt))
      · exact .inr ⟨hnumber.length_le hs hw.1, Nat.le_refl _⟩
  · next hd =>
    rw [hd] at hdate
    refine .of_forall hnl hnm trivial fun hs hw => ?_
    rcases hcand hs hw with rfl | rfl
    · exact absurd hw.1 (hdate.notMem hs)
    · exact .inr ⟨hnumber.length_le hs hw.1, Nat.le_refl _⟩

/-- A small letter begins a word, which is a key if a colon follows. -/
theorem isLongest_smallWord (hb : isLower b = true) :
    IsLongest lineStart (b :: rest) (smallWord (b :: rest)) := by
  have hreach : Reaches (ofClass isLower * (ofClass isKeyPart)∗) (b :: rest)
      (some (1 + run isKeyPart rest)) := reaches_cons_run hb rest
  obtain ⟨hle, hmem⟩ := hreach.mem rfl
  have hdrop : (b :: rest).drop (1 + run isKeyPart rest) = rest.drop (run isKeyPart rest) := by
    rw [Nat.add_comm, List.drop_succ_cons]
  have hstop := headD_drop_run isKeyPart rest
  -- A match that stops at a byte of another class is all of the word.
  have hall : ∀ {w after}, w ++ after = b :: rest → w ∈ ofClass isLower * (ofClass isKeyPart)∗ →
      (after = [] ∨ isKeyPart (after.headD 0) = false) →
      after = rest.drop (run isKeyPart rest) := by
    intro w after hs hw ha
    obtain ⟨c, v, rfl, -, hv⟩ := mem_ofClass_mul.1 hw
    rw [List.cons_append, List.cons.injEq] at hs
    rw [← hs.2, run_append_stop (mem_kstar_ofClass.1 hv) ha, List.drop_left]
  unfold smallWord
  dsimp only
  rw [List.tail_cons, hdrop]
  split
  · next hcolon =>
    -- A word as long as the key counts after it.
    refine .of_forall hle (pattern_key ▸ hmem) ?_ fun {t w after} hs hw => ?_
    · rw [hdrop]
      rcases hrest : rest.drop (run isKeyPart rest) with - | ⟨c, later⟩
      · rw [hrest] at hcolon
        exact absurd hcolon (by decide)
      · rw [hrest] at hcolon
        exact ⟨later, congrArg (· :: later) hcolon⟩
    · rcases eq_of_opens_lower (opens_of_matches hs hw) hb with rfl | rfl
      · exact .inr ⟨hreach.length_le hs (pattern_key ▸ hw.1), Nat.le_refl _⟩
      · exact .inr ⟨hreach.length_le hs (pattern_word ▸ hw.1), by decide⟩
  · next hcolon =>
    refine .of_forall hle (pattern_word ▸ hmem) ?_ fun {t w after} hs hw => ?_
    · intro c later hafter
      rw [hdrop] at hafter
      rw [hafter] at hcolon hstop
      refine ⟨?_, hcolon⟩
      rw [keyPart_eq, singleton_mem_ofClass, Bool.not_eq_true]
      exact hstop.resolve_left (List.cons_ne_nil _ _)
    · rcases eq_of_opens_lower (opens_of_matches hs hw) hb with rfl | rfl
      · -- A key that matches is all of the word, but no colon follows that.
        obtain ⟨later, rfl⟩ := hw.2
        have h := hall hs (pattern_key ▸ hw.1) (.inr rfl)
        rw [← h] at hcolon
        exact absurd rfl hcolon
      · exact .inr ⟨hreach.length_le hs (pattern_word ▸ hw.1), Nat.le_refl _⟩

/-- An account has two bytes at least. -/
theorem two_le_accountLength? {n : Nat} (h : Pattern.accountLength? bytes = some n) : 2 ≤ n := by
  obtain ⟨hle, hmem⟩ := (reaches_account bytes).mem h
  obtain ⟨b, u, v, hw, -, -, hne, -⟩ := mem_account_iff.1 hmem
  have hl := congrArg List.length hw
  have hpos := List.length_pos_iff.2 hne
  rw [List.length_take, List.length_cons, List.length_append] at hl
  omega

/-- A currency has two bytes at least. -/
theorem two_le_currencyLength? {n : Nat} (h : Pattern.currencyLength? bytes = some n) : 2 ≤ n := by
  obtain ⟨hle, hmem⟩ := (reaches_currency bytes).mem h
  obtain ⟨b, v, z, hw, -⟩ := mem_currency_iff.1 hmem
  have hl := congrArg List.length hw
  simp only [List.length_take, List.length_cons, List.length_append, List.length_nil] at hl
  omega

/-- A lexeme is the longest match, or it is one character where no rule matches. -/
def IsFirst (lineStart : Bool) (bytes : Bytes) (l : Lexeme) : Prop :=
  IsLongest lineStart bytes l ∨ NoMatch lineStart bytes ∧ l = invalid bytes

/-- A capital letter begins an account or a currency, whichever is longer, or is a flag. -/
theorem isFirst_capitalWord (hb : isUpper b = true) :
    IsFirst lineStart (b :: rest) (capitalWord (b :: rest)) := by
  have haccount := reaches_account (b :: rest)
  have hcurrency := reaches_currency (b :: rest)
  have hcand : ∀ {t w after}, w ++ after = b :: rest → Matches lineStart t w after →
      t = .account ∨ t = .currency ∨ t = .flag ∧ isFlagLetter b = true :=
    fun hs hw => eq_of_opens_upper (opens_of_matches hs hw) hb
  have hflag : ∀ {w after : Bytes}, Matches lineStart .flag w after → w.length = 1 :=
    fun hw => length_eq_of_mem_ofClass (pattern_flag ▸ hw.1)
  unfold capitalWord
  split
  · next n m ha hc =>
    have htwo := two_le_accountLength? ha
    have htwo' := two_le_currencyLength? hc
    rw [ha] at haccount
    rw [hc] at hcurrency
    obtain ⟨hal, ham⟩ := haccount.mem rfl
    obtain ⟨hcl, hcm⟩ := hcurrency.mem rfl
    -- Both match, and the longer of them is taken, or the account if they are as long.
    split
    · next hle =>
      refine .inl (.of_forall hal ham trivial fun hs hw => ?_)
      rcases hcand hs hw with rfl | rfl | ⟨rfl, -⟩
      · exact .inr ⟨haccount.length_le hs hw.1, Nat.le_refl _⟩
      · exact .inr ⟨(hcurrency.length_le hs hw.1).trans hle, by decide⟩
      · exact .inl (by rw [hflag hw]; omega)
    · next hlt =>
      refine .inl (.of_forall hcl hcm trivial fun hs hw => ?_)
      rcases hcand hs hw with rfl | rfl | ⟨rfl, -⟩
      · exact .inl (Nat.lt_of_le_of_lt (haccount.length_le hs hw.1) (Nat.lt_of_not_le hlt))
      · exact .inr ⟨hcurrency.length_le hs hw.1, Nat.le_refl _⟩
      · exact .inl (by rw [hflag hw]; omega)
  · next n ha hc =>
    -- Only an account matches, and it is longer than a flag.
    have htwo := two_le_accountLength? ha
    rw [ha] at haccount
    rw [hc] at hcurrency
    obtain ⟨hal, ham⟩ := haccount.mem rfl
    refine .inl (.of_forall hal ham trivial fun hs hw => ?_)
    rcases hcand hs hw with rfl | rfl | ⟨rfl, -⟩
    · exact .inr ⟨haccount.length_le hs hw.1, Nat.le_refl _⟩
    · exact absurd hw.1 (hcurrency.notMem hs)
    · exact .inl (by rw [hflag hw]; omega)
  · next m ha hc =>
    -- Only a currency matches, and it is longer than a flag.
    have htwo := two_le_currencyLength? hc
    rw [ha] at haccount
    rw [hc] at hcurrency
    obtain ⟨hcl, hcm⟩ := hcurrency.mem rfl
    refine .inl (.of_forall hcl hcm trivial fun hs hw => ?_)
    rcases hcand hs hw with rfl | rfl | ⟨rfl, -⟩
    · exact absurd hw.1 (haccount.notMem hs)
    · exact .inr ⟨hcurrency.length_le hs hw.1, Nat.le_refl _⟩
    · exact .inl (by rw [hflag hw]; omega)
  · next ha hc =>
    rw [ha] at haccount
    rw [hc] at hcurrency
    -- What is left is a flag, for some of the letters.
    split
    · next hf =>
      have hf' : isFlagLetter b = true := hf
      have hmem : (b :: rest).take 1 ∈ pattern .flag := by
        rw [pattern_flag]
        exact ⟨b, Bool.or_eq_true_iff.2 (.inr hf'), rfl⟩
      refine .inl (.of_forall (Nat.le_add_left 1 _) hmem trivial fun hs hw => ?_)
      rcases hcand hs hw with rfl | rfl | ⟨rfl, -⟩
      · exact absurd hw.1 (haccount.notMem hs)
      · exact absurd hw.1 (hcurrency.notMem hs)
      · exact .inr ⟨Nat.le_of_eq (hflag hw), Nat.le_refl _⟩
    · next hf =>
      refine .inr ⟨fun t w after hs hw => ?_, rfl⟩
      rcases hcand hs hw with rfl | rfl | ⟨rfl, hl⟩
      · exact haccount.notMem hs hw.1
      · exact hcurrency.notMem hs hw.1
      · exact hf hl

/-- What is outside ASCII begins an account. -/
theorem isFirst_foreignWord (hb : isNonAscii b = true) :
    IsFirst lineStart (b :: rest) (foreignWord (b :: rest)) := by
  have haccount := reaches_account (b :: rest)
  have hcand : ∀ {t w after}, w ++ after = b :: rest → Matches lineStart t w after →
      t = .account := fun hs hw => eq_of_opens_foreign (opens_of_matches hs hw) hb
  unfold foreignWord
  split
  · next n ha =>
    rw [ha] at haccount
    obtain ⟨hal, ham⟩ := haccount.mem rfl
    refine .inl (.of_forall hal ham trivial fun hs hw => ?_)
    obtain rfl := hcand hs hw
    exact .inr ⟨haccount.length_le hs hw.1, Nat.le_refl _⟩
  · next ha =>
    rw [ha] at haccount
    refine .inr ⟨fun t w after hs hw => ?_, rfl⟩
    obtain rfl := hcand hs hw
    exact haccount.notMem hs hw.1

/-! ## Signs -/

/-- A sign that is doubled in the bytes, and is a mark when doubled, is that mark. -/
theorem isLongest_double {m : Mark} (hm : Mark.ofTwice? b = some m)
    (hcand : ∀ {t w after}, w ++ after = b :: b :: rest → Matches lineStart t w after →
      (∃ m, t = .mark m) ∨ t = .flag) : IsLongest lineStart (b :: b :: rest) ⟨.mark m, 2⟩ := by
  have hspell := Mark.ofTwice?_eq_some_iff.1 hm
  have hmem : (b :: b :: rest).take 2 ∈ pattern (.mark m) := hspell.symm
  refine .of_forall (Nat.le_add_left 2 _) hmem trivial fun {t w after} hs hw => ?_
  rcases hcand hs hw with ⟨n, rfl⟩ | rfl
  · have hw' : w = n.spelling := hw.1
    have hhead : n.spelling.head? = some b := eq_of_beq (opens_of_matches hs hw)
    -- The other mark is the sign alone, or it is the same mark.
    rcases Mark.spelling_eq hhead with hn | hn
    · rw [hw', hn]
      exact .inl Nat.one_lt_two
    · obtain rfl := Mark.spelling_inj (hn.trans hspell.symm)
      rw [hw', hn]
      exact .inr ⟨Nat.le_refl 2, Nat.le_refl _⟩
  · rw [length_eq_of_mem_ofClass (pattern_flag ▸ hw.1)]
    exact .inl Nat.one_lt_two

/-- A sign that is not a doubled mark is a mark, a flag or nothing. -/
theorem isFirst_single (htwice : ∀ next after, rest = next :: after → next = b →
      Mark.ofTwice? b = none)
    (hcand : ∀ {t w after}, w ++ after = b :: rest → Matches lineStart t w after →
      (∃ m, t = .mark m) ∨ t = .flag ∧ isFlagSign b = true) :
    IsFirst lineStart (b :: rest) (match Mark.ofByte? b with
      | some m => ⟨.mark m, 1⟩
      | none => if isFlagSign b then ⟨.flag, 1⟩ else invalid (b :: rest)) := by
  -- A mark that matches is spelled as the first byte alone.
  have hmark : ∀ {n w after}, w ++ after = b :: rest → Matches lineStart (.mark n) w after →
      w = n.spelling ∧ Mark.ofByte? b = some n := by
    intro n w after hs hw
    have hw' : w = n.spelling := hw.1
    have hhead : n.spelling.head? = some b := eq_of_beq (opens_of_matches hs hw)
    refine ⟨hw', ?_⟩
    rcases Mark.spelling_eq hhead with hn | hn
    · exact Mark.ofByte?_eq_some_iff.2 hn
    · -- A doubled sign in the bytes would be a mark of two bytes.
      rw [hw', hn, List.cons_append, List.cons.injEq] at hs
      have h := htwice b after hs.2.symm rfl
      rw [Mark.ofTwice?_eq_some_iff.2 hn] at h
      simp at h
  split
  · next m hm =>
    have hspell := Mark.ofByte?_eq_some_iff.1 hm
    have hmem : (b :: rest).take 1 ∈ pattern (.mark m) := hspell.symm
    refine .inl (.of_forall (Nat.le_add_left 1 _) hmem trivial fun {t w after} hs hw => ?_)
    rcases hcand hs hw with ⟨n, rfl⟩ | ⟨rfl, -⟩
    · obtain ⟨hw', hn⟩ := hmark hs hw
      obtain rfl := Option.some.inj (hm.symm.trans hn)
      rw [hw', hspell]
      exact .inr ⟨Nat.le_refl 1, Nat.le_refl _⟩
    · -- Every mark counts before a flag.
      refine .inr ⟨Nat.le_of_eq (length_eq_of_mem_ofClass (pattern_flag ▸ hw.1)), ?_⟩
      cases m <;> decide
  · next hm =>
    split
    · next hf =>
      have hmem : (b :: rest).take 1 ∈ pattern .flag := by
        rw [pattern_flag]
        exact ⟨b, Bool.or_eq_true_iff.2 (.inl hf), rfl⟩
      refine .inl (.of_forall (Nat.le_add_left 1 _) hmem trivial fun hs hw => ?_)
      rcases hcand hs hw with ⟨n, rfl⟩ | ⟨rfl, -⟩
      · have h := (hmark hs hw).2
        rw [hm] at h
        simp at h
      · exact .inr ⟨Nat.le_of_eq (length_eq_of_mem_ofClass (pattern_flag ▸ hw.1)), Nat.le_refl _⟩
    · next hf =>
      refine .inr ⟨fun t w after hs hw => ?_, rfl⟩
      rcases hcand hs hw with ⟨n, rfl⟩ | ⟨rfl, hfs⟩
      · have h := (hmark hs hw).2
        rw [hm] at h
        simp at h
      · exact hf hfs

/-- A sign that begins nothing else is a mark of two bytes, a mark of one, a flag or nothing. -/
theorem isFirst_mark (hcand : ∀ {t w after}, w ++ after = b :: rest → Matches lineStart t w after →
      (∃ m, t = .mark m) ∨ t = .flag ∧ isFlagSign b = true) :
    IsFirst lineStart (b :: rest)
      (match (if rest.headD 0 = b then Mark.ofTwice? b else none), Mark.ofByte? b with
        | some m, _ => ⟨.mark m, 2⟩
        | none, some m => ⟨.mark m, 1⟩
        | none, none => if isFlagSign b then ⟨.flag, 1⟩ else invalid (b :: rest)) := by
  rcases htwice : (if rest.headD 0 = b then Mark.ofTwice? b else none) with - | m
  · have hsingle : IsFirst lineStart (b :: rest) _ := isFirst_single ?_ hcand
    · rcases hone : Mark.ofByte? b with - | m
      · rw [hone] at hsingle
        exact hsingle
      · rw [hone] at hsingle
        exact hsingle
    · rintro next after rfl rfl
      rwa [List.headD_cons, if_pos rfl] at htwice
  · obtain ⟨hnext, hm⟩ : rest.headD 0 = b ∧ Mark.ofTwice? b = some m := by
      split at htwice
      · next hnext => exact ⟨hnext, htwice⟩
      · simp at htwice
    rcases rest with - | ⟨c, later⟩
    · -- Past the end a zero is read, which is no mark's.
      rw [← show (0 : UInt8) = b from hnext] at hm
      exact absurd hm (by simp [show Mark.ofTwice? 0 = none from rfl])
    · obtain rfl : c = b := hnext
      refine .inl (isLongest_double hm fun hs hw => ?_)
      rcases hcand hs hw with h | ⟨h, -⟩
      · exact .inl h
      · exact .inr h

/-- A sign and a name, where the name has a byte. -/
theorem reaches_name {p : UInt8 → Bool} (hb : p b = true)
    (hnext : isNamePart (rest.headD 0) = true) :
    Reaches (ofClass p * plus (ofClass isNamePart)) (b :: rest)
      (some (1 + run isNamePart rest)) := by
  have hne : rest ≠ [] := by
    rintro rfl
    exact absurd hnext (by decide)
  have hpos := run_pos hnext hne
  have hreach := reaches_cons_run (q := isNamePart) hb rest
  constructor
  · rintro n ⟨⟩
    obtain ⟨hle, hmem⟩ := hreach.mem rfl
    refine ⟨hle, ?_⟩
    rw [Nat.add_comm, List.take_succ_cons, mem_ofClass_mul] at hmem ⊢
    obtain ⟨c, v, hcv, hc, hv⟩ := hmem
    rw [List.cons.injEq] at hcv
    refine ⟨c, v, by rw [hcv.1, hcv.2], hc, mem_plus_ofClass.2 ⟨?_, mem_kstar_ofClass.1 hv⟩⟩
    rw [← hcv.2]
    exact take_ne_nil (Nat.ne_of_gt hpos) (run_le _ _)
  · intro w after hs hw
    obtain ⟨c, v, rfl, hc, hv⟩ := mem_ofClass_mul.1 hw
    have hv' := mem_kstar_ofClass.2 (mem_plus_ofClass.1 hv).2
    exact ⟨_, rfl, hreach.length_le hs (mem_ofClass_mul.2 ⟨c, v, rfl, hc, hv'⟩)⟩

/-- A sign and a name are a tag or a link, where the sign alone is at most a mark of one byte. -/
theorem isLongest_name {p : UInt8 → Bool} {u : Tag}
    (hu : pattern u = ofClass p * plus (ofClass isNamePart))
    (hctx : ∀ after, Context lineStart after u)
    (hb : p b = true) (hname : isNamePart (rest.headD 0) = true) (htwice : Mark.ofTwice? b = none)
    (hcand : ∀ {t w after}, w ++ after = b :: rest → Matches lineStart t w after →
      (∃ m, t = .mark m) ∨ t = u) :
    IsLongest lineStart (b :: rest) ⟨u, 1 + run isNamePart rest⟩ := by
  have hreach : Reaches (pattern u) (b :: rest) _ := hu ▸ reaches_name hb hname
  obtain ⟨hle, hmem⟩ := hreach.mem rfl
  have hpos : 0 < run isNamePart rest := by
    refine run_pos hname ?_
    rintro rfl
    exact absurd hname (by decide)
  refine .of_forall hle hmem (hctx _) fun {t w after} hs hw => ?_
  rcases hcand hs hw with ⟨m, rfl⟩ | rfl
  · -- A mark with this sign is the sign alone, and a name makes the tag or link longer.
    have hw' : w = m.spelling := hw.1
    rcases Mark.spelling_eq (eq_of_beq (opens_of_matches hs hw)) with hm | hm
    · rw [hw', hm]
      exact .inl (Nat.lt_add_of_pos_right hpos)
    · rw [Mark.ofTwice?_eq_some_iff.2 hm] at htwice
      simp at htwice
  · exact .inr ⟨hreach.length_le hs hw.1, Nat.le_refl _⟩

/-- A name begins right behind its sign. -/
theorem isNamePart_of_mem {p : UInt8 → Bool} (hs : w ++ after = b :: rest)
    (hw : w ∈ ofClass p * plus (ofClass isNamePart)) : isNamePart (rest.headD 0) = true := by
  obtain ⟨c, v, rfl, -, hv⟩ := mem_ofClass_mul.1 hw
  obtain ⟨hne, hall⟩ := mem_plus_ofClass.1 hv
  obtain ⟨d, u, rfl⟩ := List.exists_cons_of_ne_nil hne
  rw [List.cons_append, List.cons.injEq] at hs
  rw [← hs.2]
  exact hall d List.mem_cons_self

/-- A number without a whole part has a digit behind the full stop. -/
theorem isDigit_of_mem_number (hs : w ++ after = dot :: rest) (hw : w ∈ number) :
    isDigit (rest.headD 0) = true := by
  rcases mem_number_iff.1 hw with ⟨u, v, rfl, hu, -⟩ | ⟨ds, rfl, hne, hds⟩
  · -- A whole part would start with a digit.
    obtain ⟨-, hhead, front, z, rfl, -⟩ := mem_whole_iff.1 hu
    have hdot : ((front ++ [z]).headD 0) = dot := by
      rcases front with - | ⟨c, front⟩
      · exact (List.cons.inj hs).1
      · exact (List.cons.inj hs).1
    rw [hdot] at hhead
    exact absurd hhead (by decide)
  · obtain ⟨d, u, rfl⟩ := List.exists_cons_of_ne_nil hne
    rw [List.cons_append, List.cons.injEq] at hs
    rw [← hs.2]
    exact hds d List.mem_cons_self

/-- A sign begins a number, a literal, a tag, a link, a mark or a flag. -/
theorem isFirst_sign (hm : ¬(lineStart = true ∧ isLineMarker b = true)) (hlf : b ≠ lineFeed)
    (hbl : isBlank b = false) (hsc : b ≠ semicolon) (hd : isDigit b = false)
    (hl : isLower b = false) (hu : isUpper b = false) (hn : isNonAscii b = false) :
    IsFirst lineStart (b :: rest) (sign (b :: rest)) := by
  -- Besides marks and flags, each rule that can match asks for one sign and what is behind it.
  have hcand : ∀ {t w after}, w ++ after = b :: rest → Matches lineStart t w after →
      (∃ m, t = .mark m) ∨ t = .openingQuote ∧ b = quote ∨ t = .flag ∧ isFlagSign b = true ∨
        t = .number ∧ b = dot ∧ isDigit (rest.headD 0) = true ∨
        t = .tag ∧ b = hash ∧ isNamePart (rest.headD 0) = true ∨
        t = .link ∧ b = caret ∧ isNamePart (rest.headD 0) = true := by
    intro t w after hs hw
    rcases eq_of_opens_sign (opens_of_matches hs hw) hlf hbl hsc hd hl hu hn with
      ⟨rfl, h⟩ | h | h | h | ⟨rfl, rfl⟩ | ⟨rfl, h⟩ | ⟨rfl, h⟩
    · exact absurd ⟨hw.2, h⟩ hm
    · exact .inl h
    · exact .inr (.inl h)
    · exact .inr (.inr (.inl h))
    · exact .inr (.inr (.inr (.inl ⟨rfl, rfl, isDigit_of_mem_number hs hw.1⟩)))
    · have hname := isNamePart_of_mem hs (pattern_tag ▸ hw.1)
      exact .inr (.inr (.inr (.inr (.inl ⟨rfl, h, hname⟩))))
    · have hname := isNamePart_of_mem hs (pattern_link ▸ hw.1)
      exact .inr (.inr (.inr (.inr (.inr ⟨rfl, h, hname⟩))))
  unfold sign
  dsimp only
  rw [List.tail_cons, List.headD_cons]
  split
  · next hc =>
    simp only [Bool.and_eq_true, decide_eq_true_eq] at hc
    obtain ⟨rfl, hdigit⟩ := hc
    obtain ⟨c, later, rfl⟩ : ∃ c later, rest = c :: later := by
      rcases rest with - | ⟨c, later⟩
      · exact absurd hdigit (by decide)
      · exact ⟨c, later, rfl⟩
    have hreach := reaches_number_of_dot hdigit later
    obtain ⟨hle, hmem⟩ := hreach.mem rfl
    refine .inl (.of_forall hle hmem trivial fun hs hw => ?_)
    obtain rfl := eq_of_opens_dot (opens_of_matches hs hw)
    exact .inr ⟨hreach.length_le hs hw.1, Nat.le_refl _⟩
  · next hdot =>
    split
    · next hc =>
      subst hc
      refine .inl (.of_forall (Nat.le_add_left 1 _) ⟨quote, rfl, rfl⟩ trivial fun hs hw => ?_)
      obtain rfl := eq_of_opens_quote (opens_of_matches hs hw)
      exact .inr ⟨Nat.le_of_eq (length_eq_of_mem_ofClass hw.1), Nat.le_refl _⟩
    · next hq =>
      split
      · next hc =>
        simp only [Bool.and_eq_true, decide_eq_true_eq] at hc
        obtain ⟨rfl, hname⟩ := hc
        refine .inl (isLongest_name pattern_tag (fun _ => trivial) rfl hname rfl fun hs hw => ?_)
        rcases hcand hs hw with h | ⟨-, h⟩ | ⟨-, h⟩ | ⟨-, h, -⟩ | ⟨h, -⟩ | ⟨-, h, -⟩
        · exact .inl h
        · exact absurd h (by decide)
        · exact absurd h (by decide)
        · exact absurd h (by decide)
        · exact .inr h
        · exact absurd h (by decide)
      · next hhash =>
        split
        · next hc =>
          simp only [Bool.and_eq_true, decide_eq_true_eq] at hc
          obtain ⟨rfl, hname⟩ := hc
          refine .inl (isLongest_name pattern_link (fun _ => trivial) rfl hname rfl fun hs hw => ?_)
          rcases hcand hs hw with h | ⟨-, h⟩ | ⟨-, h⟩ | ⟨-, h, -⟩ | ⟨-, h, -⟩ | ⟨h, -⟩
          · exact .inl h
          · exact absurd h (by decide)
          · exact absurd h (by decide)
          · exact absurd h (by decide)
          · exact absurd h (by decide)
          · exact .inr h
        · next hcaret =>
          -- The rules that were asked for before do not match, so only marks and flags are left.
          have hfew : ∀ {t w after}, w ++ after = b :: rest → Matches lineStart t w after →
              (∃ m, t = .mark m) ∨ t = .flag ∧ isFlagSign b = true := by
            intro t w after hs hw
            rcases hcand hs hw with h | ⟨-, h⟩ | h | ⟨-, h, hx⟩ | ⟨-, h, hx⟩ | ⟨-, h, hx⟩
            · exact .inl h
            · exact absurd h hq
            · exact .inr h
            · exact absurd (by rw [h, hx]; rfl) hdot
            · exact absurd (by rw [h, hx]; rfl) hhash
            · exact absurd (by rw [h, hx]; rfl) hcaret
          exact isFirst_mark hfew

/-! ## Normal text -/

/-- Of the lexemes of normal text each is the longest match, or a character that no rule takes. -/
theorem isFirst_inText (lineStart : Bool) (b : UInt8) (rest : Bytes) :
    IsFirst lineStart (b :: rest) (inText lineStart (b :: rest).length (b :: rest)) := by
  unfold inText
  dsimp only
  have hne : (b :: rest).length ≠ 0 := Nat.succ_ne_zero _
  rw [if_neg hne, List.headD_cons]
  split
  · next hlf =>
    subst hlf
    exact .inl isLongest_newline
  · next hlf =>
    split
    · next hbl => exact .inl (isLongest_blanks hbl)
    · next hbl =>
      split
      · next hsc =>
        subst hsc
        exact .inl isLongest_comment
      · next hsc =>
        split
        · next hm =>
          rw [Bool.and_eq_true] at hm
          rw [hm.1]
          exact .inl (isLongest_skippedLine hm.2)
        · next hm =>
          rw [Bool.and_eq_true] at hm
          split
          · next hd => exact .inl (isLongest_dateOrNumber hd)
          · next hd =>
            split
            · next hl => exact .inl (isLongest_smallWord hl)
            · next hl =>
              split
              · next hu => exact isFirst_capitalWord hu
              · next hu =>
                split
                · next hn => exact isFirst_foreignWord hn
                · next hn =>
                  exact isFirst_sign hm hlf (by simpa using hbl) hsc (by simpa using hd)
                    (by simpa using hl) (by simpa using hu) (by simpa using hn)

/-- Only rules of normal text match. -/
theorem mem_order (h : w ∈ pattern t) : t ∈ order := by
  obtain ⟨b, v, -, hb⟩ := exists_cons_of_mem h
  cases t with
  | mark m => cases m <;> decide
  | literalText | escape | literalLineFeed | closingQuote | discarded | invalid | endOfFile =>
    simp [opens] at hb
  | _ => decide

/-- There is one longest match at most. -/
theorem IsLongest.unique {l l' : Lexeme} (h : IsLongest lineStart bytes l)
    (h' : IsLongest lineStart bytes l') : l = l' := by
  have hs := List.take_append_drop l.length bytes
  have hs' := List.take_append_drop l'.length bytes
  have hlen : (bytes.take l.length).length = l.length := by
    rw [List.length_take, Nat.min_eq_left h.matched.1]
  have hlen' : (bytes.take l'.length).length = l'.length := by
    rw [List.length_take, Nat.min_eq_left h'.matched.1]
  have hle := h'.longest _ _ _ hs h.matched.2
  have hle' := h.longest _ _ _ hs' h'.matched.2
  rw [hlen] at hle
  rw [hlen'] at hle'
  have heq := Nat.le_antisymm hle hle'
  have hidx := h.first _ _ _ hs' h'.matched.2 (by rw [hlen', heq])
  have hidx' := h'.first _ _ _ hs h.matched.2 (by rw [hlen, heq])
  have htag := (List.idxOf_inj (mem_order h.matched.2.1)).1 (Nat.le_antisymm hidx hidx')
  cases l
  cases l'
  simp_all

end LedgerText.Grammar

namespace LedgerText.Reader

open Grammar Utf8

/-- A lexeme that a rule takes is the longest match, wherever it stands. -/
theorem isLongest_of_tag {r : Reader} (hend : (r.lexeme .text).tag ≠ .endOfFile)
    (hinvalid : (r.lexeme .text).tag ≠ .invalid) :
    IsLongest r.atLineStart r.rest (r.lexeme .text) := by
  rcases hrest : r.rest with - | ⟨b, rest⟩
  · have hlexeme : r.lexeme .text = ⟨.endOfFile, 0⟩ := by
      rw [lexeme, hrest]
      rfl
    exact absurd (congrArg Lexeme.tag hlexeme) hend
  · have hlexeme : r.lexeme .text = Lexeme.inText r.atLineStart (b :: rest).length (b :: rest) := by
      rw [lexeme, hrest]
    rw [hlexeme] at hinvalid ⊢
    rcases isFirst_inText r.atLineStart b rest with hlongest | ⟨-, hinv⟩
    · exact hlongest
    · exact absurd (congrArg Lexeme.tag hinv) hinvalid

/-- A lexeme that a rule takes is a word of the rule. -/
theorem text_mem_pattern {r : Reader} (hend : (r.lexeme .text).tag ≠ .endOfFile)
    (hinvalid : (r.lexeme .text).tag ≠ .invalid) :
    r.text .text ∈ pattern (r.lexeme .text).tag :=
  (isLongest_of_tag hend hinvalid).matched.2.1

/-- From every boundary before the end, whether at the start of a line or not, the next lexeme of
normal text is the longest match of the grammar. Where no rule matches it is one character. -/
theorem longest_lexeme {r : Reader} (h : IsBoundary r.source r.pos) (hr : r.pos < r.source.length) :
    IsLongest r.atLineStart r.rest (r.lexeme .text) ∨
      NoMatch r.atLineStart r.rest ∧
        ∃ c cs, r.rest = encode (c :: cs) ∧ r.lexeme .text = ⟨.invalid, (encode [c]).length⟩ := by
  obtain ⟨cs, hcs⟩ := h.isText_drop
  have hlen : r.rest.length = r.source.length - r.pos := r.length_rest
  rcases hrest : r.rest with - | ⟨b, rest⟩
  · rw [hrest, List.length_nil] at hlen
    omega
  have hlex : r.lexeme .text = Lexeme.inText r.atLineStart (b :: rest).length (b :: rest) := by
    rw [lexeme, hrest]
  rw [hlex]
  rcases isFirst_inText r.atLineStart b rest with hl | ⟨hno, hinv⟩
  · exact .inl hl
  · refine .inr ⟨hno, ?_⟩
    have htext : b :: rest = encode cs := hrest.symm.trans hcs
    rcases cs with - | ⟨c, cs⟩
    · simp at htext
    refine ⟨c, cs, htext, hinv.trans ?_⟩
    obtain ⟨b', bs, he, hf⟩ := exists_forms c
    have hb : b = b' := by
      rw [encode_cons, he, List.cons_append] at htext
      exact (List.cons.inj htext).1
    rw [Lexeme.invalid, List.headD_cons, hb, hf.width, encode_cons, he, encode_nil, List.append_nil]
    rfl

/-- Inside a line, grouped digits are the longest match without the comma at their end. -/
theorem longest_lexeme_grouped :
    let r : Reader := { source := ofString "Ä 1,000,", pos := 3, atLineStart := false }
    IsBoundary r.source r.pos ∧ r.pos < r.source.length ∧ r.lexeme .text = ⟨.number, 5⟩ ∧
      (IsLongest r.atLineStart r.rest (r.lexeme .text) ∨
        NoMatch r.atLineStart r.rest ∧
          ∃ c cs, r.rest = encode (c :: cs) ∧ r.lexeme .text = ⟨.invalid, (encode [c]).length⟩) :=
  have h : IsBoundary (ofString "Ä 1,000,") 3 := ⟨['Ä', ' '], "1,000,".toList, by decide, by decide⟩
  have hlt : 3 < (ofString "Ä 1,000,").length := by decide
  have hlongest := longest_lexeme
    (r := { source := ofString "Ä 1,000,", pos := 3, atLineStart := false }) h hlt
  ⟨h, hlt, by decide, hlongest⟩

end LedgerText.Reader
