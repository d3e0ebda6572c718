import LedgerText.Proofs.Grammar.Longest

/-!
# No rule looks beyond the end of a line

A blank or a line feed behind the bytes is to the rules what the end of the bytes is: what matches
in front of it is the same (`matches_append`, `matches_of_append`). So the next lexeme of normal
text is the same as well, unless a rule takes that byte too (`inText_append`).

No word of a rule holds a line feed, apart from the newline, which is nothing else, and only blanks,
comments and skipped lines hold carriage returns (`without_pattern`). So the next lexeme does not
depend on what stands behind its line (`inText_lineFeed`), and few lexemes depend on a carriage
return at the end of it (`inText_carriageReturn`).
-/

namespace LedgerText.Grammar

open Byte
open scoped Computability

variable {p : UInt8 → Bool} {L M : Language UInt8} {w after bytes behind : Bytes} {t : Tag}
  {lineStart : Bool} {z : UInt8}

/-! ## Languages without a byte -/

/-- No word of the language holds the byte `z`. -/
def Without (z : UInt8) (L : Language UInt8) : Prop := ∀ w ∈ L, z ∉ w

namespace Without

theorem ofClass (h : p z = false) : Without z (ofClass p) := by
  rintro w ⟨b, hb, rfl⟩ hmem
  rw [← List.mem_singleton.1 hmem, h] at hb
  cases hb

theorem one : Without z 1 := by
  intro w hw
  rw [(Language.mem_one w).1 hw]
  exact List.not_mem_nil

theorem add (hL : Without z L) (hM : Without z M) : Without z (L + M) := by
  intro w hw
  rcases (Language.mem_add _ _ _).1 hw with hw | hw
  · exact hL w hw
  · exact hM w hw

theorem mul (hL : Without z L) (hM : Without z M) : Without z (L * M) := by
  intro w hw
  obtain ⟨u, hu, v, hv, rfl⟩ := Language.mem_mul.1 hw
  intro hmem
  rcases List.mem_append.1 hmem with hmem | hmem
  · exact hL u hu hmem
  · exact hM v hv hmem

theorem kstar (hL : Without z L) : Without z L∗ := by
  rintro w ⟨ws, rfl, hws⟩ hmem
  obtain ⟨u, hu, hmem⟩ := List.mem_flatten.1 hmem
  exact hL u (hws u hu) hmem

theorem plus (hL : Without z L) : Without z (plus L) := hL.mul hL.kstar

theorem pow (hL : Without z L) (n : Nat) : Without z (L ^ n) := by
  induction n with
  | zero =>
    rw [pow_zero]
    exact one
  | succ n ih =>
    rw [pow_succ]
    exact ih.mul hL

end Without

/-! ## The rules -/

/-- The rules whose words may hold bytes that end a line. -/
def lineTags : List Tag := [.newline, .blank, .comment, .skippedLine]

/-- Most rules take neither line feeds nor carriage returns. -/
theorem without_pattern (hz : z = lineFeed ∨ z = carriageReturn) (ht : t ∉ lineTags) :
    Without z (pattern t) := by
  have hclass (p : UInt8 → Bool) (hlf : p lineFeed = false) (hcr : p carriageReturn = false) :
      Without z (Grammar.ofClass p) := by
    rcases hz with rfl | rfl
    · exact .ofClass hlf
    · exact .ofClass hcr
  have hdigit : Without z digit := hclass _ (by decide) (by decide)
  have hupper : Without z upper := hclass _ (by decide) (by decide)
  have hlower : Without z lower := hclass _ (by decide) (by decide)
  have hforeign : Without z foreign := hclass _ (by decide) (by decide)
  have hdot : Without z (byte '.') := hclass _ (by decide) (by decide)
  have hseparator : Without z (oneOf ['-', '/']) := hclass _ (by decide) (by decide)
  have hname : Without z namePart :=
    ((hupper.add hlower).add hdigit).add (hclass _ (by decide) (by decide))
  have hkey : Without z keyPart :=
    ((hupper.add hlower).add hdigit).add (hclass _ (by decide) (by decide))
  have haccount : Without z accountPart :=
    (((hupper.add hlower).add hdigit).add (hclass _ (by decide) (by decide))).add hforeign
  have hcurrency : Without z currencyPart :=
    (hupper.add hdigit).add (hclass _ (by decide) (by decide))
  have hwhole : Without z whole :=
    hdigit.plus.add
      ((hdigit.mul (hdigit.add (hclass _ (by decide) (by decide))).plus).mul hdigit)
  have hcomponent : Without z component :=
    ((hclass _ (by decide) (by decide)).mul ((hupper.add hdigit).add hforeign)).mul haccount.kstar
  cases t with
  | newline | blank | comment | skippedLine => exact absurd (by decide) ht
  | indent => exact (hclass _ (by decide) (by decide)).plus
  | mark m =>
    rintro w rfl
    rcases hz with rfl | rfl <;> cases m <;> decide
  | openingQuote | flag => exact hclass _ (by decide) (by decide)
  | date =>
    exact ((((((hdigit.pow 4).mul hdigit.kstar).mul hseparator).mul hdigit.plus).mul
      hseparator).mul hdigit.plus)
  | number =>
    exact (hwhole.mul (Without.one.add (hdot.mul hdigit.kstar))).add (hdot.mul hdigit.plus)
  | account => exact ((hupper.add hforeign).mul haccount.kstar).mul hcomponent.plus
  | currency => exact (hupper.mul ((Without.one.add hcurrency).pow 22)).mul (hupper.add hdigit)
  | tag | link => exact (hclass _ (by decide) (by decide)).mul hname.plus
  | key | word => exact hlower.mul hkey.kstar
  | _ => exact fun w hw => absurd hw (Language.notMem_zero w)

/-- A word with a line feed is a newline. -/
theorem eq_lineFeed_of_mem (hw : w ∈ pattern t) (hmem : lineFeed ∈ w) : w = [lineFeed] := by
  have hline : Without lineFeed notLineFeed := .ofClass (by decide)
  have hnone (h : Without lineFeed (pattern t)) : w = [lineFeed] := absurd hmem (h w hw)
  by_cases ht : t ∈ lineTags
  · simp only [lineTags, List.mem_cons, List.not_mem_nil, or_false] at ht
    rcases ht with rfl | rfl | rfl | rfl
    · obtain ⟨b, hb, rfl⟩ := hw
      rw [List.mem_singleton.1 hmem]
    · exact hnone (Without.ofClass (by decide)).plus
    · exact hnone ((Without.ofClass (by decide)).mul hline.kstar)
    · exact hnone ((Without.ofClass (by decide)).mul hline.kstar)
  · exact hnone (without_pattern (.inl rfl) ht)

/-! ## Matches in front of the end of a line -/

/-- A blank or a line feed is no part of a key. -/
theorem isKeyPart_eq_false (hz : isBlank z = true ∨ z = lineFeed) : isKeyPart z = false := by
  simp only [isBlank, isIndent, Bool.or_eq_true, beq_iff_eq] at hz
  rcases hz with ((rfl | rfl) | rfl) | rfl <;> decide

/-- What matches at the end of the bytes matches in front of a blank or a line feed. -/
theorem matches_append (hz : isBlank z = true ∨ z = lineFeed) (h : Matches lineStart t w after)
    (behind : Bytes) : Matches lineStart t w (after ++ z :: behind) := by
  have hkey := isKeyPart_eq_false hz
  have hcolon : z ≠ ':'.toUInt8 := by
    rintro rfl
    rcases hz with hz | hz <;> exact absurd hz (by decide)
  obtain ⟨hw, hcontext⟩ := h
  refine ⟨hw, ?_⟩
  cases t with
  | indent =>
    obtain ⟨hstart, b, rest, rfl, hb⟩ := hcontext
    exact ⟨hstart, b, rest ++ z :: behind, rfl, hb⟩
  | key =>
    obtain ⟨rest, rfl⟩ := hcontext
    exact ⟨rest ++ z :: behind, rfl⟩
  | word =>
    intro b rest hafter
    rcases after with - | ⟨c, cs⟩
    · obtain ⟨rfl, -⟩ := List.cons.inj hafter
      rw [keyPart_eq, singleton_mem_ofClass, hkey]
      exact ⟨Bool.false_ne_true, hcolon⟩
    · exact hcontext b cs (by rw [(List.cons.inj hafter).1])
  | _ => exact hcontext

/-- What matches in front of a blank or a line feed, and does not take it, matches at the end of the
bytes. -/
theorem matches_of_append (hz : isBlank z = true ∨ z = lineFeed) (hle : w.length ≤ bytes.length)
    (hs : w ++ after = bytes ++ z :: behind) (h : Matches lineStart t w after) :
    ∃ rest, w ++ rest = bytes ∧ Matches lineStart t w rest := by
  obtain ⟨hw, hcontext⟩ := h
  obtain ⟨rest, rfl⟩ : w <+: bytes :=
    List.prefix_of_prefix_length_le ⟨after, hs⟩ (List.prefix_append _ _) hle
  rw [List.append_assoc, List.append_cancel_left_eq] at hs
  subst hs
  refine ⟨rest, rfl, hw, ?_⟩
  cases t with
  | indent =>
    obtain ⟨hstart, b, tail, htail, hb⟩ := hcontext
    refine ⟨hstart, ?_⟩
    rcases rest with - | ⟨c, cs⟩
    · obtain ⟨rfl, -⟩ := List.cons.inj htail
      obtain ⟨hindent, hlf, hcr⟩ := notMem_blank_iff.1 hb
      simp [isBlank, hindent, hlf, hcr] at hz
    · exact ⟨b, cs, by rw [(List.cons.inj htail).1], hb⟩
  | key =>
    obtain ⟨tail, htail⟩ := hcontext
    rcases rest with - | ⟨c, cs⟩
    · rw [(List.cons.inj htail).1] at hz
      rcases hz with hz | hz <;> exact absurd hz (by decide)
    · exact ⟨cs, by rw [(List.cons.inj htail).1]⟩
  | word =>
    intro b tail htail
    exact hcontext b (tail ++ z :: behind) (by rw [htail, List.cons_append])
  | _ => exact hcontext

/-! ## Lexemes in front of the end of a line -/

/-- No rule takes more at the front of `bytes ++ behind` than `bytes`. -/
def StopsBefore (lineStart : Bool) (bytes behind : Bytes) : Prop :=
  ∀ t w after, w ++ after = bytes ++ behind → Matches lineStart t w after →
    w.length ≤ bytes.length

/-- The longest match is the same in front of a blank or a line feed that no rule takes. -/
theorem IsLongest.append {l : Lexeme} (hz : isBlank z = true ∨ z = lineFeed)
    (hstop : StopsBefore lineStart bytes (z :: behind)) (h : IsLongest lineStart bytes l) :
    IsLongest lineStart (bytes ++ z :: behind) l where
  matched := by
    obtain ⟨hle, hmatch⟩ := h.matched
    rw [List.take_append_of_le_length hle, List.drop_append_of_le_length hle, List.length_append]
    exact ⟨Nat.le_add_right_of_le hle, matches_append hz hmatch behind⟩
  longest t w after hs hmatch := by
    obtain ⟨rest, hrest, hmatch'⟩ := matches_of_append hz (hstop t w after hs hmatch) hs hmatch
    exact h.longest t w rest hrest hmatch'
  first t w after hs hmatch := by
    obtain ⟨rest, hrest, hmatch'⟩ := matches_of_append hz (hstop t w after hs hmatch) hs hmatch
    exact h.first t w rest hrest hmatch'

/-- The next lexeme of normal text is the same in front of a blank or a line feed that no rule takes
as at the end. -/
theorem inText_append (hz : isBlank z = true ∨ z = lineFeed) (hbytes : bytes ≠ [])
    (hstop : StopsBefore lineStart bytes (z :: behind)) :
    Lexeme.inText lineStart (bytes ++ z :: behind).length (bytes ++ z :: behind) =
      Lexeme.inText lineStart bytes.length bytes := by
  obtain ⟨b, rest, rfl⟩ := List.exists_cons_of_ne_nil hbytes
  have hlong := isFirst_inText lineStart b (rest ++ z :: behind)
  rcases isFirst_inText lineStart b rest with h | ⟨hno, h⟩
  · have happend := h.append hz hstop
    rcases hlong with h' | ⟨hno', -⟩
    · exact h'.unique happend
    · exact absurd happend.matched.2 (hno' _ _ _ (List.take_append_drop _ _))
  · rcases hlong with h' | ⟨-, h'⟩
    · have hs := List.take_append_drop
        (Lexeme.inText lineStart (b :: (rest ++ z :: behind)).length
          (b :: (rest ++ z :: behind))).length (b :: (rest ++ z :: behind))
      obtain ⟨tail, htail, hmatch⟩ :=
        matches_of_append hz (hstop _ _ _ hs h'.matched.2) hs h'.matched.2
      exact absurd hmatch (hno _ _ _ htail)
    · rw [h]
      exact h'

/-- A word that goes on over a byte holds that byte. -/
theorem mem_of_length_lt (hs : w ++ after = bytes ++ z :: behind) (hlt : bytes.length < w.length) :
    z ∈ w := by
  obtain ⟨excess, rfl⟩ : bytes <+: w :=
    List.prefix_of_prefix_length_le (List.prefix_append _ _) ⟨after, hs⟩ (Nat.le_of_lt hlt)
  rw [List.append_assoc, List.append_cancel_left_eq] at hs
  rcases excess with - | ⟨c, excess⟩
  · rw [List.append_nil] at hlt
    exact absurd hlt (Nat.lt_irrefl _)
  · rw [(List.cons.inj hs).1]
    exact List.mem_append_right _ List.mem_cons_self

/-- The next lexeme of normal text is the same in front of a line feed as at the end. -/
theorem inText_lineFeed (lineStart : Bool) (hbytes : bytes ≠ []) (behind : Bytes) :
    Lexeme.inText lineStart (bytes ++ lineFeed :: behind).length (bytes ++ lineFeed :: behind) =
      Lexeme.inText lineStart bytes.length bytes := by
  refine inText_append (.inr rfl) hbytes fun t w after hs hmatch => Nat.le_of_not_lt fun hlt => ?_
  -- A match that goes on over the line feed would be the newline.
  have hlength := congrArg List.length (eq_lineFeed_of_mem hmatch.1 (mem_of_length_lt hs hlt))
  have hpos := List.length_pos_iff.2 hbytes
  rw [List.length_singleton] at hlength
  omega

/-- The next lexeme of normal text is the same in front of a carriage return as at the end, unless
it is a blank, a comment or a skipped line. -/
theorem inText_carriageReturn {b : UInt8} (hlf : b ≠ lineFeed) (hblank : isBlank b = false)
    (hcomment : b ≠ semicolon) (hmarker : ¬(lineStart = true ∧ isLineMarker b = true))
    (bytes behind : Bytes) :
    Lexeme.inText lineStart (b :: bytes ++ carriageReturn :: behind).length
        (b :: bytes ++ carriageReturn :: behind) =
      Lexeme.inText lineStart (b :: bytes).length (b :: bytes) := by
  refine inText_append (.inl (by decide)) (List.cons_ne_nil _ _) fun t w after hs hmatch =>
    Nat.le_of_not_lt fun hlt => ?_
  have hopens := opens_of_matches hs hmatch
  have hmem := mem_of_length_lt hs hlt
  by_cases ht : t ∈ lineTags
  · -- The rules that take carriage returns are told by their first byte.
    simp only [lineTags, List.mem_cons, List.not_mem_nil, or_false] at ht
    rcases ht with rfl | rfl | rfl | rfl
    · exact hlf (by simpa [opens] using hopens)
    · rw [opens, hblank] at hopens
      cases hopens
    · exact hcomment (by simpa [opens] using hopens)
    · exact hmarker ⟨hmatch.2, hopens⟩
  · exact without_pattern (.inr rfl) ht w hmatch.1 hmem

end LedgerText.Grammar
