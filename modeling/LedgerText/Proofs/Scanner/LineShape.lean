import LedgerText.Proofs.Reading.Lexes
import LedgerText.Proofs.Scanner.Lifecycle
import LedgerText.Proofs.Scanner.Tiling
import LedgerText.Proofs.Scanner.Twins

/-!
# The shape of a line

The tokens of a line come in a fixed order as far as its structure goes. An indent or a skipped line
opens its line. Behind an indent there is a lexeme on the same line, behind a comment or a skipped
line its line ends, and behind a key there is a colon (`LineShape`). Each of these is told by the
rule of the lexeme, which looks at what stands behind it (`Lexes.next_of_indent`,
`Lexes.next_of_comment`, `Lexes.next_of_key`).

The first token of a line is marked. Two notions of the start of a line agree on it, whatever the
builder answers: that of the reader, which is behind a line feed (`lineStart_afterCalls`), and that
of the scanner, which counts the tokens that were made (`sinceLineStart_eq_zero_iff`).
-/

namespace LedgerText

open Builder Utf8

namespace Reading

variable {text : String} {before skipped lexeme after : List Char} {r r' : Reading}
  {finding : Finding} {kind : Kind}

/-! ## Behind the end of a line -/

/-- The end of a line is written as a line feed. -/
theorem Comes.eq_lineFeed (h : Comes text r before skipped lexeme after finding r')
    (hends : finding.endsLine = true) : lexeme = ['\n'] := by
  have hfinds := h.finds
  cases hfinds with
  | ending _ kind flags hkind =>
    rcases hkind with ⟨rfl, rfl⟩ | ⟨rfl, rfl⟩ <;> cases hends
  | spelled lineStart hne hquote hlen hspells => exact hspells.eq_lineFeed hends
  | string lines encoding hps hvalid | invalidEscape hps hgood hc | unterminated hps hvalid =>
    cases hends

/-- Behind the end of a line is the first column. -/
theorem Comes.column_of_endsLine (h : Comes text r before skipped lexeme after finding r')
    (hends : finding.endsLine = true) : r'.tracker.column = 1 := by
  obtain rfl := h.eq_lineFeed hends
  have horigin := h.start.placed.origin_le
  rw [h.start.placed.source, h.start.pos] at horigin
  have hbehind : (encode (before ++ (skipped ++ ['\n']))).drop (Reader.origin (ofString text)) =
      (encode before).drop (Reader.origin (ofString text)) ++ encode skipped ++
        Byte.lineFeed :: [] := by
    rw [encode_append, List.drop_append_of_le_length horigin, encode_append, List.append_assoc]
    rfl
  rw [h.stop.tracker, trackerBehind, hbehind, Tracker.place,
    Tracker.lastLineLength_append_lineFeed]
  rfl

/-- No token of the line structure is found to be the first of its line. -/
theorem Finds.lineStart_of_structural {filename contents : String} {location : Location}
    {flags : Flags}
    (h : Finds text filename before lexeme after (.structural kind contents location flags)) :
    flags.lineStart = false := by
  cases h with
  | ending _ kind flags hkind => rcases hkind with ⟨-, rfl⟩ | ⟨-, rfl⟩ <;> rfl
  | spelled lineStart hne hquote hlen hspells =>
    cases hspells
    rfl

/-! ## Behind the lexemes of the line structure -/

/-- Where no line starts a colon is a mark. -/
theorem lexeme_colon (hstart : r.reader.atLineStart = false)
    (h : Between text before (':' :: after) r) : r.reader.lexeme .text = ⟨.mark .colon, 1⟩ := by
  have hcolon : ∀ (n : Nat) (bs : Bytes),
      Lexeme.inText false (n + 1) (Byte.colon :: bs) = ⟨.mark .colon, 1⟩ := by
    intro n bs
    -- There is no mark of two colons, whatever comes next.
    have htwice : (if bs.headD 0 = Byte.colon then Mark.ofTwice? Byte.colon else none) = none := by
      split <;> rfl
    show Lexeme.sign (Byte.colon :: bs) = _
    unfold Lexeme.sign
    dsimp only
    rw [List.headD_cons, List.tail_cons, htwice]
    rfl
  rw [Reader.lexeme, h.rest, hstart]
  exact hcolon _ _

/-- At a colon its mark is asked for, where no line starts. -/
theorem next_of_colon (hmode : r.mode = .normal) (hclosed : r.closed = false)
    (hstart : r.reader.atLineStart = false) (h : Between text before (':' :: after) r) :
    r.next.1 =
      .terminal ⟨.mark .colon, ":", r.tracker.locate (encode [':']), .text ":"⟩ ":" {} := by
  have hlexeme := lexeme_colon hstart h
  have hfront : Between text before ([':'] ++ after) r := h
  have hbytes := Reader.text_eq_encode hfront.rest (congrArg Lexeme.length hlexeme)
  have hfinding : Finding.ofLexeme? (r.reader.lexeme .text).tag (r.reader.text .text)
      (r.tracker.locate (r.reader.text .text)) = some
        (.terminal ⟨.mark .colon, ":", r.tracker.locate (encode [':']), .text ":"⟩ ":" {}) := by
    rw [hbytes, hlexeme, Finding.ofLexeme?, toString_encode]
    rfl
  rw [next_of_found hclosed (step_of_ofLexeme? hmode hfinding)]

namespace Lexes

/-- Behind a key a colon is asked for, right behind it. -/
theorem next_of_key (h : Lexes text r before lexeme after finding r')
    (hmode : r'.mode = .normal) (htag : (r.reader.lexeme .text).tag = .key) :
    ∃ colon contents flags, r'.next.1 = .terminal colon contents flags ∧
      colon.kind = .mark .colon ∧ finding.location.Adjoins text colon.location := by
  have hadjoins := h.adjoins_of_tag (by rw [htag]; decide)
  obtain ⟨cs, rfl⟩ := h.exists_colon htag
  have hstart : r'.reader.atLineStart = false := by
    rw [h.atLineStart, htag]
    rfl
  exact ⟨_, _, _, next_of_colon hmode h.closed hstart h.stop, rfl, hadjoins.locate _⟩

/-- Behind a comment or a skipped line is the end of its line, or that of the file. -/
theorem next_of_comment (h : Lexes text r before lexeme after finding r')
    (hmode : r'.mode = .normal)
    (htag : (r.reader.lexeme .text).tag = .comment ∨
      (r.reader.lexeme .text).tag = .skippedLine) :
    ∃ kind contents location flags, r'.next.1 = .structural kind contents location flags ∧
      (kind = .endOfLine ∨ kind = .endOfFile) ∧ finding.location.Adjoins text location := by
  have hadjoins := h.adjoins_of_tag (by rcases htag with htag | htag <;> rw [htag] <;> decide)
  have hends := h.line_ends htag
  rcases after with - | ⟨c, cs⟩
  · rw [next_of_end hmode h.closed h.stop, finding_endOfInput]
    split_ifs
    · exact ⟨_, _, _, _, rfl, .inl rfl, hadjoins.locate _⟩
    · exact ⟨_, _, _, _, rfl, .inr rfl, hadjoins.locate _⟩
  · obtain rfl := hends c cs rfl
    obtain ⟨hnext, -, -⟩ := next_of_lineFeed hmode h.closed h.stop
    rw [hnext]
    exact ⟨_, _, _, _, rfl, .inl rfl, hadjoins.locate _⟩

/-- Right behind an indent there is a lexeme that does not end the line. -/
theorem next_of_indent (h : Lexes text r before lexeme after finding r')
    (hmode : r'.mode = .normal) (htag : (r.reader.lexeme .text).tag = .indent) :
    ∃ c word rest finding' r'',
      Comes text r' (before ++ lexeme) [] (c :: word) rest finding' r'' ∧
      c ∉ blanks ∧ c ≠ '\n' ∧ finding'.signalsEnd = false ∧ finding'.endsLine = false := by
  obtain ⟨c, cs, rfl, hblank, hfeed⟩ := h.line_goesOn htag
  have hrests : r'.Rests := ⟨by rw [hmode]; decide, fun _ => hmode⟩
  obtain ⟨skipped, word, rest, finding', r'', hsplit, hcomes⟩ := exists_comes h.stop hrests
  -- The next character is no blank, so nothing is passed over.
  have hskipped : skipped = [] := by
    have hpasses := hcomes.passes
    rw [hmode] at hpasses
    cases skipped with
    | nil => rfl
    | cons d ds =>
      rw [(List.cons.inj hsplit).1] at hblank
      exact absurd (hpasses d List.mem_cons_self) hblank
  subst hskipped
  rcases hcomes.finds.oneLexeme with ⟨hgoes, hone⟩ | ⟨hend, rfl⟩
  · obtain ⟨d, word, rfl⟩ := List.exists_cons_of_ne_nil hone.ne_nil
    obtain rfl : c = d := (List.cons.inj hsplit).1
    refine ⟨c, word, rest, finding', r'', hcomes, hblank, hfeed, hgoes, ?_⟩
    rw [Bool.eq_false_iff]
    intro hends
    exact hfeed (List.cons.inj (hcomes.eq_lineFeed hends)).1
  · rw [hcomes.atEnd h.closed hend] at hsplit
    cases hsplit

end Lexes

end Reading

namespace Scanner

open Reading

variable {σ α : Type} {text : String} {s s' : Scanner} {b : Builder σ α} {st : σ} {token : Token α}
  {request : Request} {kind : Kind} {t : Tag}

/-! ## One call -/

/-- A token of the line structure, which has a rule of its own, was found as it is. -/
theorem kind?_of_token (htoken : (s.next b st).1 = .ok token)
    (hkind : token.kind.isStructural = true) (ht : token.kind.tag? = some t) :
    s.reading.next.1.kind? = some token.kind ∧ s.reading.next.1.location = token.location := by
  have hlocation : Outcome.location (s.next b st).1 = token.location := by rw [htoken]; rfl
  refine ⟨?_, (location_next rfl b st).symm.trans hlocation⟩
  have hbecomes := becomes_of_next rfl htoken
  generalize s.reading.next.1 = finding at hbecomes
  cases hbecomes with
  | structural kind text location flags => rfl
  | made hrequest hsynthetic hvalue hmade => exact absurd (hrequest.symm.trans hkind) (by decide)
  | failed hrequest hfails | fault cause text location => cases ht

/-- What is found of a kind with a rule of its own comes of a lexeme of that rule, unless it is the
end of a line. The scanner goes on behind it in normal text. -/
theorem exists_lexes_of_kind? (h : s.Reachable text) (hclosed : s.reading.closed = false)
    (hkind : s.reading.next.1.kind? = some kind) (ht : kind.tag? = some t)
    (hline : t ≠ .newline) :
    ∃ before lexeme after r,
      Lexes text r before lexeme after s.reading.next.1 s.reading.next.2 ∧
      (r.reader.lexeme .text).tag = t ∧ s.reading.next.2.mode = .normal := by
  have hlexeme := Finding.isOfLexeme_of_kind? s.reading.isProper_next hkind ht hline
  obtain ⟨before, after, hbetween⟩ := h.placed.exists_between
  obtain ⟨skipped, lexeme, rest, r, rfl, -, hlexes⟩ :=
    exists_lexes hbetween h.rests hclosed rfl hlexeme
  exact ⟨_, lexeme, rest, r, hlexes, Finding.tag_of_kind? hlexes.found hkind ht,
    hlexes.mode.trans (Finding.modeAfter_of_kind? hkind)⟩

/-! ## Two calls -/

/-- The call after an indent reads a lexeme right behind it, which ends neither the line nor the
source. -/
theorem next_of_indent (h : s.Reachable text) (hclosed : s.reading.closed = false)
    (htoken : (s.next b st).1 = .ok token) (hkind : token.kind = .indent)
    (hs : s'.reading = s.reading.next.2) (st' : σ) :
    token.location.Adjoins text s'.reading.tracker.point ∧
      Outcome.signalsEnd (s'.next b st').1 = false ∧
      (∀ next, (s'.next b st').1 = .ok next → next.kind ≠ .endOfLine) ∧
      ∃ before c word after, s'.Reads text b st' false before [] (c :: word) after ∧
        c ∉ blanks ∧ c ≠ '\n' := by
  obtain ⟨hfound, hlocation⟩ := kind?_of_token htoken (by rw [hkind]; rfl) (by rw [hkind]; rfl)
  rw [hkind] at hfound
  obtain ⟨before, lexeme, after, r, hlexes, htag, hmode⟩ :=
    exists_lexes_of_kind? h hclosed hfound rfl (by decide)
  have hadjoins := hlexes.adjoins_of_tag (by rw [htag]; decide)
  obtain ⟨c, word, rest, finding, r', hcomes, hblank, hfeed, hgoes, hends⟩ :=
    hlexes.next_of_indent hmode htag
  rw [← hs] at hcomes hadjoins hmode
  rw [hlocation] at hadjoins
  have hreads := reads_of_comes hcomes b st'
  rw [hmode] at hreads
  refine ⟨hadjoins, (signalsEnd_next hcomes.next hcomes.finds b st').trans hgoes,
    fun next hnext heol => ?_, _, c, word, rest, hreads, hblank, hfeed⟩
  obtain ⟨contents, location, flags, rfl⟩ :=
    (becomes_of_next hcomes.next hnext).endOfLine_iff.1 heol
  -- An end of a line is written or signals the end.
  cases hsynthetic : flags.synthetic <;>
    simp [Finding.endsLine, Finding.signalsEnd, hsynthetic] at hends hgoes

/-- The call after a comment or a skipped line makes the end of the line or of the file. -/
theorem next_of_comment (h : s.Reachable text) (hclosed : s.reading.closed = false)
    (htoken : (s.next b st).1 = .ok token) (hkind : token.kind = .comment ∨ token.kind = .skipped)
    (hs : s'.reading = s.reading.next.2) (st' : σ) :
    ∃ last, (s'.next b st').1 = .ok last ∧ (last.kind = .endOfLine ∨ last.kind = .endOfFile) ∧
      token.location.Adjoins text last.location := by
  obtain ⟨t, hstructural, ht, htag⟩ : ∃ t, token.kind.isStructural = true ∧
      token.kind.tag? = some t ∧ (t = .comment ∨ t = .skippedLine) := by
    rcases hkind with hkind | hkind
    · exact ⟨.comment, by rw [hkind]; rfl, by rw [hkind]; rfl, .inl rfl⟩
    · exact ⟨.skippedLine, by rw [hkind]; rfl, by rw [hkind]; rfl, .inr rfl⟩
  obtain ⟨hfound, hlocation⟩ := kind?_of_token htoken hstructural ht
  obtain ⟨before, lexeme, after, r, hlexes, rfl, hmode⟩ :=
    exists_lexes_of_kind? h hclosed hfound ht
      (by rcases htag with htag | htag <;> rw [htag] <;> decide)
  obtain ⟨kind, contents, location, flags, hnext, hends, hadjoins⟩ :=
    hlexes.next_of_comment hmode htag
  rw [← hs] at hnext
  rw [hlocation] at hadjoins
  exact ⟨_, (next_of_structural_finding hnext b st').1, hends, hadjoins⟩

/-- The call after a key asks for a colon. -/
theorem next_of_key (h : s.Reachable text) (hclosed : s.reading.closed = false)
    (hrequest : .build request ∈ s.calls b st) (hkind : request.kind = .key)
    (hs : s'.reading = s.reading.next.2) (st' : σ) :
    ∃ colon, .build colon ∈ s'.calls b st' ∧ colon.kind = .mark .colon ∧
      request.location.Adjoins text colon.location := by
  obtain ⟨contents, flags, hfinding⟩ := (build_mem_calls_iff rfl).1 hrequest
  have hfound : s.reading.next.1.kind? = some .key := by
    rw [hfinding, ← hkind]
    rfl
  obtain ⟨before, lexeme, after, r, hlexes, htag, hmode⟩ :=
    exists_lexes_of_kind? h hclosed hfound rfl (by decide)
  obtain ⟨colon, contents, flags, hnext, hcolon, hadjoins⟩ := hlexes.next_of_key hmode htag
  rw [← hs] at hnext
  rw [hfinding] at hadjoins
  exact ⟨colon, (build_mem_calls_iff rfl).2 ⟨contents, flags, hnext⟩, hcolon, hadjoins⟩

/-! ## Marks of first tokens -/

/-- A token is marked if it is the first that the scanner counts on its line, and no end of file. -/
theorem lineStart_iff (h : s.Reachable text) (htoken : (s.next b st).1 = .ok token) :
    token.flags.lineStart = true ↔ token.kind ≠ .endOfFile ∧ s.sinceLineStart = 0 := by
  have hbecomes := becomes_of_next rfl htoken
  obtain ⟨before, skipped, lexeme, after, finding, r, hcomes⟩ := h.exists_comes
  have hfinds := hcomes.finds
  rw [← show s.reading.next.1 = finding from congrArg Prod.fst hcomes.next] at hfinds
  generalize s.reading.next.1 = finding at hbecomes hfinds
  cases hbecomes with
  | structural kind contents location flags =>
    simp [hfinds.lineStart_of_structural, and_comm]
  | made hkind hsynthetic hvalue hmade =>
    refine ⟨fun hfirst => ⟨?_, of_decide_eq_true hfirst⟩, fun hfirst => decide_eq_true hfirst.2⟩
    intro hfile
    have hline : Kind.isStructural .endOfFile = false := hfile ▸ hkind
    cases hline
  | failed hkind hfails => simp
  | fault cause contents location => simp

/-! ## Along a run -/

/-- A line starts before the call `n`: it is the first, or the outcome before it ended a line. -/
def LineStartsAt (b : Builder σ α) (s : Scanner) (st : σ) : Nat → Prop
  | 0 => True
  | n + 1 => ∃ eol, s.outcomeAt b st n = .ok eol ∧ eol.kind = .endOfLine

/-- Every token that was made before the call `n` ended its line, or its line was ended since. -/
def NoneSinceEndOfLine (b : Builder σ α) (s : Scanner) (st : σ) (n : Nat) : Prop :=
  ∀ i < n, ∀ token, s.outcomeAt b st i = .ok token →
    ∃ j eol, i ≤ j ∧ j < n ∧ s.outcomeAt b st j = .ok eol ∧ eol.kind = .endOfLine

/-- After a token none was made since the end of a line exactly if it is the end of a line. -/
theorem noneSinceEndOfLine_of_ok {n : Nat} (htoken : s.outcomeAt b st n = .ok token) :
    s.NoneSinceEndOfLine b st (n + 1) ↔ token.kind = .endOfLine := by
  constructor
  · intro hnone
    obtain ⟨j, eol, hle, hlt, heol, hends⟩ := hnone n (Nat.lt_succ_self n) token htoken
    obtain rfl : j = n := Nat.le_antisymm (Nat.le_of_lt_succ hlt) hle
    cases htoken.symm.trans heol
    exact hends
  · intro hends i hi _ _
    exact ⟨n, token, Nat.le_of_lt_succ hi, Nat.lt_succ_self n, htoken, hends⟩

/-- A report that is refused costs the token, so none was made. -/
theorem noneSinceEndOfLine_of_error {n : Nat} {refused : RefusedReport}
    (herror : s.outcomeAt b st n = .error refused) :
    s.NoneSinceEndOfLine b st (n + 1) ↔ s.NoneSinceEndOfLine b st n := by
  constructor
  · intro hnone i hi token htoken
    obtain ⟨j, eol, hle, hj, heol, hends⟩ := hnone i (Nat.lt_succ_of_lt hi) token htoken
    rcases Nat.lt_succ_iff_lt_or_eq.1 hj with hlt | rfl
    · exact ⟨j, eol, hle, hlt, heol, hends⟩
    · cases herror.symm.trans heol
  · intro hnone i hi token htoken
    rcases Nat.lt_succ_iff_lt_or_eq.1 hi with hlt | rfl
    · obtain ⟨j, eol, hle, hj, heol⟩ := hnone i hlt token htoken
      exact ⟨j, eol, hle, Nat.lt_succ_of_lt hj, heol⟩
    · cases herror.symm.trans htoken

/-- At the start of a line no token was made since the end of a line. -/
theorem LineStartsAt.noneSinceEndOfLine {n : Nat} (h : s.LineStartsAt b st n) :
    s.NoneSinceEndOfLine b st n := by
  cases n with
  | zero => exact fun i hi => absurd hi (Nat.not_lt_zero i)
  | succ n =>
    obtain ⟨eol, heol, hkind⟩ := h
    exact (noneSinceEndOfLine_of_ok heol).2 hkind

theorem reading_afterCalls_succ (b : Builder σ α) (s : Scanner) (st : σ) (n : Nat) :
    (s.afterCalls b st (n + 1)).1.reading = (s.afterCalls b st n).1.reading.next.2 :=
  reading_next ..

/-- The reader is at the start of a line only in normal text in the first column, at the first call
or behind the end of a line. -/
theorem lineStart_afterCalls (h : s.Begins text) (b : Builder σ α) (st : σ) (n : Nat) :
    ((s.afterCalls b st n).1.reading.mode ≠ .normal →
        (s.afterCalls b st n).1.reading.reader.atLineStart = false) ∧
      ((s.afterCalls b st n).1.reading.reader.atLineStart = true →
        (s.afterCalls b st n).1.reading.tracker.column = 1 ∧ s.LineStartsAt b st n) := by
  cases n with
  | zero =>
    refine ⟨fun hmode => absurd h.mode hmode, fun _ => ⟨?_, trivial⟩⟩
    cases h with
    | start filename options => rfl
    | restart h filename encoding => rfl
  | succ n =>
    have hreach := h.reachable.afterCalls b st n
    have hclosed := closed_afterCalls h.reachable h.closed b st n
    obtain ⟨before, skipped, lexeme, after, finding, r, hcomes⟩ := hreach.exists_comes
    have hstart := (s.afterCalls b st n).1.reading.atLineStart_next
      (fun hmode => absurd hmode hreach.rests.notLiteral) hclosed
    rw [reading_afterCalls_succ, hstart, hcomes.next]
    refine ⟨fun hmode => ?_, fun hends => ⟨hcomes.column_of_endsLine hends, ?_⟩⟩
    · -- Only what no rule recognizes leaves normal text, and that ends no line.
      rw [show (finding, r).2.mode = _ from hcomes.mode] at hmode
      cases finding with
      | structural kind contents location flags => exact absurd rfl hmode
      | terminal request contents flags | fault cause contents location => rfl
    · cases finding with
      | structural kind contents location flags =>
        have hkind : kind = .endOfLine := of_decide_eq_true (Bool.and_eq_true_iff.1 hends).1
        have hfinding : (s.afterCalls b st n).1.reading.next.1 =
            .structural kind contents location flags := congrArg Prod.fst hcomes.next
        exact ⟨_, (next_of_structural_finding hfinding b (s.afterCalls b st n).2).1, hkind⟩
      | terminal request contents flags | fault cause contents location => cases hends

/-- The scanner counts no token on its line exactly if none was made since the end of a line. -/
theorem sinceLineStart_eq_zero_iff (h : s.Begins text) (b : Builder σ α) (st : σ) (n : Nat) :
    (s.afterCalls b st n).1.sinceLineStart = 0 ↔ s.NoneSinceEndOfLine b st n := by
  induction n with
  | zero =>
    refine iff_of_true ?_ fun i hi => absurd hi (Nat.not_lt_zero i)
    cases h with
    | start filename options => rfl
    | restart h filename encoding => rfl
  | succ n ih =>
    have hcount := sinceLineStart_next b (s.afterCalls b st n).1 (s.afterCalls b st n).2
    rw [show (s.afterCalls b st (n + 1)).1.sinceLineStart = _ from hcount]
    cases houtcome : ((s.afterCalls b st n).1.next b (s.afterCalls b st n).2).1 with
    | ok token =>
      rw [noneSinceEndOfLine_of_ok houtcome]
      dsimp only
      split_ifs with hkind
      · exact iff_of_true rfl hkind
      · exact iff_of_false (Count.clamp_succ_ne_zero _) hkind
    | error refused =>
      rw [noneSinceEndOfLine_of_error houtcome]
      exact ih

/-- The shape of the lines in the outcomes of the calls for tokens. -/
structure LineShape (text : String) (b : Builder σ α) (s : Scanner) (st : σ) : Prop where
  /-- An indent or a skipped line is in the first column, marked as the first token of its line, and
  it is the first outcome or comes right after the end of a line. -/
  opens : ∀ n token, s.outcomeAt b st n = .ok token →
    token.kind = .indent ∨ token.kind = .skipped →
      token.location.firstColumn = 1 ∧ token.flags.lineStart = true ∧ s.LineStartsAt b st n
  /-- The call after an indent reads a lexeme that starts right behind it, on its line. It ends
  neither the line nor the source. -/
  indent : ∀ n token, s.outcomeAt b st n = .ok token → token.kind = .indent →
    token.location.Adjoins text (s.afterCalls b st (n + 1)).1.reading.tracker.point ∧
      Outcome.signalsEnd (s.outcomeAt b st (n + 1)) = false ∧
      (∀ next, s.outcomeAt b st (n + 1) = .ok next → next.kind ≠ .endOfLine) ∧
      ∃ before c word after,
        (s.afterCalls b st (n + 1)).1.Reads text b (s.afterCalls b st (n + 1)).2 false before []
          (c :: word) after ∧ c ∉ blanks ∧ c ≠ '\n'
  /-- After a comment or a skipped line there is the end of the line or of the file, right behind
  it on its line. -/
  ends : ∀ n token, s.outcomeAt b st n = .ok token →
    token.kind = .comment ∨ token.kind = .skipped →
      ∃ last, s.outcomeAt b st (n + 1) = .ok last ∧
        (last.kind = .endOfLine ∨ last.kind = .endOfFile) ∧
        token.location.Adjoins text last.location
  /-- After a key, whether its value was made or not, a colon is asked for, right behind it on its
  line. -/
  colon : ∀ n request, .build request ∈ s.callsAt b st n → request.kind = .key →
    ∃ colon, .build colon ∈ s.callsAt b st (n + 1) ∧ colon.kind = .mark .colon ∧
      request.location.Adjoins text colon.location
  /-- A token is marked as the first of its line exactly if it is no end of file and no token was
  made since the start or since the last end of a line. -/
  lineStart : ∀ n token, s.outcomeAt b st n = .ok token →
    (token.flags.lineStart = true ↔
      token.kind ≠ .endOfFile ∧ s.NoneSinceEndOfLine b st n)

/-- What opens a line is in the first column, and comes at the start of a line. -/
theorem opens_of_kind (h : s.Begins text) {n : Nat} (htoken : s.outcomeAt b st n = .ok token)
    (hkind : token.kind = .indent ∨ token.kind = .skipped) :
    token.location.firstColumn = 1 ∧ s.LineStartsAt b st n := by
  obtain ⟨hnormal, hline⟩ := lineStart_afterCalls h b st n
  have hclosed := closed_afterCalls h.reachable h.closed b st n
  have hfound : (s.afterCalls b st n).1.reading.next.1.kind? = some token.kind ∧
      (s.afterCalls b st n).1.reading.next.1.location = token.location := by
    rcases hkind with hkind | hkind <;>
      exact kind?_of_token htoken (by rw [hkind]; rfl) (by rw [hkind]; rfl)
  have hopens : (s.afterCalls b st n).1.reading.next.1.opensLine = true := by
    rw [Finding.opensLine, hfound.1]
    rcases hkind with hkind | hkind <;> rw [hkind] <;> decide
  obtain ⟨hstart, hcolumn⟩ := opensLine_next hclosed hnormal hopens
  obtain ⟨hfirst, hstarts⟩ := hline hstart
  rw [← hfound.2, hcolumn]
  exact ⟨hfirst, hstarts⟩

/-- From its start on a scanner makes tokens in lines of one shape, whatever the builder answers. -/
theorem lineShape (h : s.Begins text) (b : Builder σ α) (st : σ) : s.LineShape text b st := by
  have hreach (n : Nat) := h.reachable.afterCalls b st n
  have hclosed (n : Nat) := closed_afterCalls h.reachable h.closed b st n
  have hmarked : ∀ n token, s.outcomeAt b st n = .ok token → (token.flags.lineStart = true ↔
      token.kind ≠ .endOfFile ∧ s.NoneSinceEndOfLine b st n) := by
    intro n token htoken
    rw [lineStart_iff (hreach n) htoken, sinceLineStart_eq_zero_iff h]
  refine
    { opens := fun n token htoken hkind => ?_
      indent := fun n token htoken hkind =>
        next_of_indent (hreach n) (hclosed n) htoken hkind (reading_afterCalls_succ b s st n) _
      ends := fun n token htoken hkind =>
        next_of_comment (hreach n) (hclosed n) htoken hkind (reading_afterCalls_succ b s st n) _
      colon := fun n request hrequest hkind =>
        next_of_key (hreach n) (hclosed n) hrequest hkind (reading_afterCalls_succ b s st n) _
      lineStart := hmarked }
  obtain ⟨hcolumn, hstarts⟩ := opens_of_kind h htoken hkind
  refine ⟨hcolumn, (hmarked n token htoken).2 ⟨?_, hstarts.noneSinceEndOfLine⟩, hstarts⟩
  rcases hkind with hkind | hkind <;> rw [hkind] <;> decide

/-- There are an indent, a key whose value is not made and whose report is refused, a comment and a
skipped line in a text that is read by a scanner that was closed and started again. -/
theorem lineShape_refused_key :
    let text := "\uFEFF k: ;c\n*x"
    let st : Scripted := { script := { failKinds := [.key], refuse := some [] } }
    let s := (Scanner.start (ofString text) "f" {}).close.restart "g" "utf-8"
    s.Begins text ∧
      s.outcomeAt Scripted.builder st 0 =
        .ok ⟨.indent, " ", ⟨"g", 1, 1, 1⟩, none, { lineStart := true }⟩ ∧
      .build ⟨.key, "k", ⟨"g", 1, 2, 2⟩, .text "k"⟩ ∈ s.callsAt Scripted.builder st 1 ∧
      s.outcomeAt Scripted.builder st 3 = .ok ⟨.comment, ";c", ⟨"g", 1, 5, 6⟩, none, {}⟩ ∧
      s.outcomeAt Scripted.builder st 5 =
        .ok ⟨.skipped, "*x", ⟨"g", 2, 1, 2⟩, none, { lineStart := true }⟩ ∧
      s.LineShape text Scripted.builder st := by
  intro text st s
  have hbegins : s.Begins text := .restart (.close (.start "f" {})) "g" "utf-8"
  exact ⟨hbegins, by decide +kernel, by decide +kernel, by decide +kernel, by decide +kernel,
    lineShape hbegins Scripted.builder st⟩

end Scanner

end LedgerText
