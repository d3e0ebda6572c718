import LedgerText.Proofs.Location.Offset
import LedgerText.Proofs.Reading.Findings
import LedgerText.Proofs.Reading.Found
import LedgerText.Proofs.Returns.Lexeme

/-!
# Lexemes that are found

A finding that is neither a signal of the end nor of a string literal comes of a lexeme of normal
text (`Finding.isOfLexeme`). Then the rule of the lexeme and what stands behind it can be told from
the finding (`Lexes`, `exists_lexes`): the lexeme is what a rule matches there, it holds no line
feed unless it is one, and the reading goes on right behind it on the same line (`adjoins`).

A finding that is told by the start of its line comes of the first step, with nothing passed over
(`opensLine_next`).
-/

namespace LedgerText

open Grammar Literal Utf8
open scoped Computability

/-- Whether a finding comes of a lexeme of normal text, and not of a literal or of the end. -/
def Finding.isOfLexeme : Finding → Bool
  | .structural kind _ _ flags => !(kind = .endOfFile || flags.synthetic)
  | .terminal request _ _ => request.kind != .string
  | .fault (.invalidEscape _) _ _ | .fault .unterminatedString _ _ => false
  | .fault _ _ _ => true

/-- The kind of the token that a finding makes or asks for. -/
def Finding.kind? : Finding → Option Kind
  | .structural kind _ _ _ => some kind
  | .terminal request _ _ => some request.kind
  | .fault _ _ _ => none

/-- Whether a finding is told by the start of its line: an indent or a skipped line. -/
def Finding.opensLine (finding : Finding) : Bool :=
  finding.kind? = some .indent || finding.kind? = some .skipped

/-- The rule of the lexemes of a kind, if it is the only kind of the rule. -/
def Kind.tag? : Kind → Option Tag
  | .endOfLine => some .newline
  | .indent => some .indent
  | .comment => some .comment
  | .skipped => some .skippedLine
  | .key => some .key
  | _ => none

/-- The location `l'` is right behind the location `l`, on its line. -/
structure Location.Adjoins (text : String) (l l' : Location) : Prop where
  filename : l'.filename = l.filename
  line : l'.line = l.line
  column : l'.firstColumn = Count.clamp (l.lastColumn + 1)
  /-- In a text whose bytes can be counted no column is at the limit. -/
  exact : (ofString text).length < Count.limit → l'.firstColumn = l.lastColumn + 1

/-- What is right behind a location may have any width. -/
theorem Location.Adjoins.locate {text : String} {l : Location} {t : Tracker}
    (h : l.Adjoins text t.point) (lexeme : Bytes) : l.Adjoins text (t.locate lexeme) :=
  ⟨h.filename, h.line, h.column, h.exact⟩

/-! ## Kinds and rules -/

/-- The kind of the token that a lexeme means. -/
def Sense.kind? : Sense → Option Kind
  | .structural kind | .terminal kind _ => some kind
  | _ => none

/-- The rule of a lexeme is told by its kind. -/
theorem Sense.tag_of_kind? {t u : Tag} {text : String} {kind : Kind}
    (h : (ofLexeme t text).kind? = some kind) (hu : kind.tag? = some u) : t = u := by
  cases t with
  | newline | indent | comment | skippedLine | key =>
    cases h
    exact Option.some.inj hu
  | word =>
    change (ofWord text).kind? = _ at h
    unfold ofWord at h
    split at h
    · cases h
      cases hu
    · cases h
  | date =>
    change (ofDate text).kind? = _ at h
    unfold ofDate at h
    split at h
    · cases h
      cases hu
    · cases h
  | currency =>
    change (ofCurrency text).kind? = _ at h
    unfold ofCurrency at h
    split_ifs at h <;> cases h <;> cases hu
  | _ => cases h <;> cases hu

namespace Finding

variable {t : Tag} {bytes : Bytes} {location : Location} {finding : Finding}

/-- The kind of a finding is that of its lexeme. -/
theorem kind?_of_ofLexeme? (h : ofLexeme? t bytes location = some finding) :
    finding.kind? = (Sense.ofLexeme t (Utf8.toString bytes)).kind? := by
  unfold ofLexeme? at h
  split at h <;> cases h <;> simp [kind?, Sense.kind?, *]

/-- A finding stands where its lexeme does. -/
theorem location_of_ofLexeme? (h : ofLexeme? t bytes location = some finding) :
    finding.location = location := by
  unfold ofLexeme? at h
  split at h <;> cases h <;> rfl

/-- The rule of the lexeme is told by the kind of the finding. -/
theorem tag_of_kind? {u : Tag} {kind : Kind} (h : ofLexeme? t bytes location = some finding)
    (hkind : finding.kind? = some kind) (hu : kind.tag? = some u) : t = u :=
  Sense.tag_of_kind? ((kind?_of_ofLexeme? h).symm.trans hkind) hu

/-- A token of the line structure, or a terminal, leaves a reading in normal text. -/
theorem modeAfter_of_kind? {kind : Kind} (h : finding.kind? = some kind) :
    finding.modeAfter = .normal := by
  cases finding with
  | structural kind text location flags | terminal request text flags => rfl
  | fault cause text location => cases h

/-- What is found of a kind with a rule of its own comes of a lexeme, unless the rule is that of
newlines, since a line may also end where nothing is written. -/
theorem isOfLexeme_of_kind? {u : Tag} {kind : Kind} (hproper : finding.IsProper)
    (hkind : finding.kind? = some kind) (hu : kind.tag? = some u) (hline : u ≠ .newline) :
    finding.isOfLexeme = true := by
  cases finding with
  | structural found contents location flags =>
    cases hkind
    have hfile : kind ≠ .endOfFile := by
      rintro rfl
      cases hu
    have hwritten : flags.synthetic = false := by
      rw [Bool.eq_false_iff]
      intro hsynthetic
      rw [hproper.2.2 hsynthetic] at hu
      exact hline (Option.some.inj hu).symm
    show (!(decide (kind = .endOfFile) || flags.synthetic)) = true
    rw [hwritten, decide_eq_false hfile]
    rfl
  | terminal request contents flags =>
    cases hkind
    refine bne_iff_ne.2 fun hstring => ?_
    rw [hstring] at hu
    cases hu
  | fault cause contents location => cases hkind

/-- What opens a line comes of one of two rules. -/
theorem tag_of_opensLine (h : ofLexeme? t bytes location = some finding)
    (hopens : finding.opensLine = true) : t = .indent ∨ t = .skippedLine := by
  rcases Bool.or_eq_true_iff.1 hopens with hkind | hkind
  · exact .inl (tag_of_kind? h (of_decide_eq_true hkind) rfl)
  · exact .inr (tag_of_kind? h (of_decide_eq_true hkind) rfl)

end Finding

/-- The rules of indents and skipped lines ask for the start of a line. -/
theorem Reader.atLineStart_of_tag {r : Reader}
    (h : (r.lexeme .text).tag = .indent ∨ (r.lexeme .text).tag = .skippedLine) :
    r.atLineStart = true := by
  have hend : (r.lexeme .text).tag ≠ .endOfFile := by
    rcases h with h | h <;> rw [h] <;> decide
  have hinvalid : (r.lexeme .text).tag ≠ .invalid := by
    rcases h with h | h <;> rw [h] <;> decide
  have hcontext := (Reader.isLongest_of_tag hend hinvalid).matched.2.2
  rcases h with h | h
  · rw [h] at hcontext
    exact hcontext.1
  · rw [h] at hcontext
    exact hcontext

/-! ## Places behind lexemes -/

/-- A lexeme without a line feed behind a place is right before the place behind the lexeme. -/
theorem Tracker.adjoins_place {text filename : String} {before lexeme : Bytes}
    (hline : Byte.lineFeed ∉ lexeme) (hpos : 0 < lexeme.length)
    (hsize : lastLineLength before + lexeme.length ≤ (ofString text).length) :
    ((place filename before).locate lexeme).Adjoins text
      ((place filename before).advance lexeme).point := by
  rw [advance_place]
  have hcolumn : (place filename (before ++ lexeme)).column =
      Count.clamp (1 + lastLineLength before + lexeme.length) := by
    rw [place, lastLineLength_append_of_notMem hline, ← Nat.add_assoc]
  have hlast : ((place filename before).locate lexeme).lastColumn =
      Count.clamp (1 + lastLineLength before + (lexeme.length - 1)) := by
    have hmax : max lexeme.length 1 = lexeme.length := Nat.max_eq_left hpos
    rw [locate, Location.spanning, place, Count.clamp_clamp_add, hmax]
  exact
    { filename := rfl
      line := by
        show Count.clamp (1 + (before ++ lexeme).count Byte.lineFeed) = Count.clamp _
        rw [List.count_append, List.count_eq_zero.2 hline, Nat.add_zero]
      column := by
        rw [show (place filename (before ++ lexeme)).point.firstColumn = _ from hcolumn, hlast,
          Count.clamp_clamp_add]
        congr 1
        omega
      exact := fun hlimit => by
        rw [show (place filename (before ++ lexeme)).point.firstColumn = _ from hcolumn, hlast,
          Count.clamp_of_le (by omega), Count.clamp_of_le (by omega)]
        omega }

namespace Reading

variable {text : String} {before skipped lexeme after rest : List Char} {r r' : Reading}
  {finding : Finding}

/-! ## What comes of no lexeme -/

/-- The signal of the end comes of no lexeme. -/
theorem isOfLexeme_endOfInput (r : Reading) (location : Location) :
    (r.endOfInput location).1.isOfLexeme = false := by
  unfold endOfInput
  dsimp only
  split <;> rfl

/-- What is found at a quote comes of a literal. -/
theorem isOfLexeme_of_quote (hmode : r.mode = .normal) (hclosed : r.closed = false)
    (h : Between text before ('"' :: after) r) : r.next.1.isOfLexeme = false := by
  rcases pieces_cases after with ⟨ps, rest, hps, hvalid⟩ | ⟨good, c, more, rest, hps, hgood, hc⟩ |
    ⟨ps, hps, hvalid⟩
  · obtain ⟨lines, r', hnext, -⟩ := next_string hmode hclosed h hps hvalid
    rw [hnext]
    rfl
  · obtain ⟨r', hnext, -⟩ := next_invalidEscape hmode hclosed h hps hgood hc
    rw [hnext]
    rfl
  · obtain ⟨r', hnext, -⟩ := next_unterminated hmode hclosed h hps hvalid
    rw [hnext]
    rfl

/-! ## What comes of a lexeme -/

/-- The open reading `r` in normal text stands at the characters `lexeme` with `after` behind them.
They are the next lexeme, of which it finds `finding`, and then it is the reading `r'`. -/
structure Lexes (text : String) (r : Reading) (before lexeme after : List Char)
    (finding : Finding) (r' : Reading) : Prop where
  start : Between text before (lexeme ++ after) r
  opened : r.closed = false
  ne_nil : lexeme ≠ []
  length : (r.reader.lexeme .text).length = (encode lexeme).length
  found : Finding.ofLexeme? (r.reader.lexeme .text).tag (encode lexeme)
    (r.tracker.locate (encode lexeme)) = some finding
  next : r.next = (finding, r')
  after : r' = { r.move .text with mode := finding.modeAfter }

/-- Where a lexeme is next that is no blank and opens no literal, it is met and found. -/
theorem exists_lexes_of_normal (hmode : r.mode = .normal) (hclosed : r.closed = false)
    (h : Between text before after r) (hne : after ≠ []) (hquote : ∀ cs, after ≠ '"' :: cs)
    (hblank : (r.reader.lexeme .text).tag ≠ .blank) :
    ∃ lexeme rest finding r', after = lexeme ++ rest ∧
      Meets text r before lexeme rest finding r' ∧ Lexes text r before lexeme rest finding r' := by
  obtain ⟨lexeme, rest, rfl, hlexeme, hlen⟩ := exists_lexeme h hne
  have hq : lexeme ≠ ['"'] := by
    rintro rfl
    exact hquote rest rfl
  obtain ⟨finding, hspells, hfinding, hstep, hstop⟩ :=
    exists_found hmode h hlexeme hlen hblank hq
  have hnext := next_of_found hclosed hstep
  refine ⟨lexeme, rest, finding, _, rfl, ?_,
    { start := h
      opened := hclosed
      ne_nil := hlexeme
      length := hlen
      found := hfinding
      next := hnext
      after := rfl }⟩
  rw [h.tracker] at hspells
  exact
    { next := hnext
      finds := .spelled r.reader.atLineStart hlexeme hq
        (by rw [← hlen, Reader.lexeme, h.rest]) hspells
      stop := hstop
      mode := rfl
      atEnd := fun hend => by
        rw [hspells.signalsEnd] at hend
        cases hend
      closed := rfl
      filename := rfl }

/-- A finding that comes of a lexeme is found of the next one behind what is passed over. -/
theorem exists_lexes (h : Between text before after r) (hrests : r.Rests)
    (hclosed : r.closed = false) (hnext : r.next = (finding, r'))
    (hfinding : finding.isOfLexeme = true) :
    ∃ skipped lexeme rest r₁, after = skipped ++ (lexeme ++ rest) ∧
      Comes text r before skipped lexeme rest finding r' ∧
      Lexes text r₁ (before ++ skipped) lexeme rest finding r' := by
  obtain ⟨skipped, rest, r₁, rfl, hpasses, hbetween, hgoes, hready, hblank⟩ :=
    exists_ready h hrests hclosed
  have hmode : r₁.mode = .normal := hgoes.mode
  have hopen : r₁.closed = false := hgoes.closed.trans hclosed
  have hnext₁ : r₁.next = (finding, r') := hready.symm.trans hnext
  have hne : rest ≠ [] := by
    rintro rfl
    have hend := (r₁.move .text).isOfLexeme_endOfInput (r₁.tracker.locate [])
    rw [← next_of_end hmode hopen hbetween, hnext₁, hfinding] at hend
    cases hend
  have hquote : ∀ cs, rest ≠ '"' :: cs := by
    rintro cs rfl
    have hliteral := isOfLexeme_of_quote hmode hopen hbetween
    rw [hnext₁, hfinding] at hliteral
    cases hliteral
  obtain ⟨lexeme, rest, finding', r'', rfl, hmeets, hlexes⟩ :=
    exists_lexes_of_normal hmode hopen hbetween hne hquote hblank
  obtain ⟨rfl, rfl⟩ := Prod.mk.inj (hnext₁.symm.trans hmeets.next)
  exact ⟨skipped, lexeme, rest, r₁, rfl,
    hmeets.comes hclosed h hpasses hready hgoes.closed hgoes.filename, hlexes⟩

namespace Lexes

/-- The reading goes on behind the lexeme. -/
theorem stop (h : Lexes text r before lexeme after finding r') :
    Between text (before ++ lexeme) after r' := by
  rw [h.after]
  exact (h.start.move h.length).congr rfl rfl

/-- The mode behind the lexeme is told by what is found of it. -/
theorem mode (h : Lexes text r before lexeme after finding r') : r'.mode = finding.modeAfter := by
  rw [h.after]

/-- The reading stays open. -/
theorem closed (h : Lexes text r before lexeme after finding r') : r'.closed = false := by
  rw [h.after]
  exact h.opened

/-- What is found stands where the lexeme does. -/
theorem location (h : Lexes text r before lexeme after finding r') :
    finding.location = r.tracker.locate (encode lexeme) :=
  Finding.location_of_ofLexeme? h.found

/-- Behind the lexeme no line starts, unless it is a newline. -/
theorem atLineStart (h : Lexes text r before lexeme after finding r') :
    r'.reader.atLineStart = decide ((r.reader.lexeme .text).tag = .newline) := by
  rw [h.after]
  rfl

/-- A lexeme with a rule is the longest match of the rules. -/
theorem isLongest (h : Lexes text r before lexeme after finding r')
    (htag : (r.reader.lexeme .text).tag ≠ .invalid) :
    IsLongest r.reader.atLineStart (encode (lexeme ++ after)) (r.reader.lexeme .text) := by
  rw [← h.start.rest]
  exact Reader.isLongest_of_tag (tag_ne_endOfFile h.start h.ne_nil) htag

/-- A lexeme of which no rule takes anything is one character. -/
theorem eq_singleton_of_invalid (h : Lexes text r before lexeme after finding r')
    (htag : (r.reader.lexeme .text).tag = .invalid) : ∃ c, lexeme = [c] := by
  obtain ⟨c, cs, rfl⟩ := List.exists_cons_of_ne_nil h.ne_nil
  obtain ⟨b, bs, hbytes, -⟩ := exists_forms c
  have hrest : r.reader.rest = b :: (bs ++ encode (cs ++ after)) := by
    rw [h.start.rest, List.cons_append, encode_cons, hbytes, List.cons_append]
  have hlexeme : r.reader.lexeme .text = Lexeme.inText r.reader.atLineStart
      (b :: (bs ++ encode (cs ++ after))).length (b :: (bs ++ encode (cs ++ after))) := by
    rw [Reader.lexeme, hrest]
  have hlen := h.length
  rcases isFirst_inText r.reader.atLineStart b (bs ++ encode (cs ++ after)) with
    hlongest | ⟨-, hinvalid⟩
  · -- A rule that takes something has another tag.
    have hmatches := hlongest.matched.2.1
    rw [← hlexeme, htag] at hmatches
    exact absurd hmatches (Language.notMem_zero _)
  · have hwidth := width_headD_encode c (cs ++ after)
    rw [encode_cons, hbytes, List.cons_append, List.headD_cons] at hwidth
    rw [hlexeme, hinvalid, Lexeme.invalid, List.headD_cons, hwidth, encode_cons, hbytes,
      List.length_append, left_eq_add, List.length_eq_zero_iff, encode_eq_nil] at hlen
    exact ⟨c, by rw [hlen]⟩

/-- A lexeme with a line feed is a newline. -/
theorem eq_newline (h : Lexes text r before lexeme after finding r') (hline : '\n' ∈ lexeme) :
    lexeme = ['\n'] ∧ r.reader.lexeme .text = ⟨.newline, 1⟩ := by
  have hlexeme : lexeme = ['\n'] := by
    by_cases htag : (r.reader.lexeme .text).tag = .invalid
    · obtain ⟨c, rfl⟩ := h.eq_singleton_of_invalid htag
      rw [List.mem_singleton.1 hline]
    · have hmem : Byte.lineFeed ∈ encode lexeme :=
        List.mem_flatMap.2 ⟨'\n', hline, List.mem_singleton_self _⟩
      have hbytes := eq_lineFeed_of_mem (encode_mem_pattern h.start h.ne_nil h.length htag) hmem
      exact encode_inj.1 hbytes
  subst hlexeme
  exact ⟨rfl, lexeme_newline h.start⟩

/-- Behind a comment or a skipped line its line ends. -/
theorem line_ends (h : Lexes text r before lexeme after finding r')
    (htag : (r.reader.lexeme .text).tag = .comment ∨
      (r.reader.lexeme .text).tag = .skippedLine) :
    ∀ c cs, after = c :: cs → c = '\n' := by
  rintro c cs rfl
  have hrule : (r.reader.lexeme .text).tag ≠ .invalid := by
    rcases htag with htag | htag <;> rw [htag] <;> decide
  obtain ⟨hmem, hcontext⟩ := matches_lexeme h.start h.ne_nil h.length hrule
  by_contra hc
  -- If not, the rule takes the next character too.
  have hnotMem : Byte.lineFeed ∉ encode [c] :=
    notMem_encode (by decide) (by decide) fun hmem => hc (List.mem_singleton.1 hmem).symm
  have hmore : Matches r.reader.atLineStart (r.reader.lexeme .text).tag
      (encode lexeme ++ encode [c]) (encode cs) := by
    have hextend {p : UInt8 → Bool} (hmem : encode lexeme ∈ ofClass p * notLineFeed∗) :
        encode lexeme ++ encode [c] ∈ ofClass p * notLineFeed∗ := by
      obtain ⟨b, v, hbytes, hb, hv⟩ := mem_ofClass_mul.1 hmem
      rw [hbytes]
      refine mem_ofClass_mul.2 ⟨b, v ++ encode [c], rfl, hb, mem_kstar_ofClass.2 ?_⟩
      refine List.forall_mem_append.2 ⟨mem_kstar_ofClass.1 hv, fun x hx => ?_⟩
      refine bne_iff_ne.2 fun heq => hnotMem ?_
      rwa [show x = Byte.lineFeed from heq] at hx
    rcases htag with htag | htag
    · rw [htag] at hmem ⊢
      exact ⟨hextend hmem, trivial⟩
    · rw [htag, pattern_skippedLine] at hmem
      rw [htag] at hcontext ⊢
      refine ⟨?_, hcontext⟩
      rw [pattern_skippedLine]
      exact hextend hmem
  have hle := (h.isLongest hrule).longest _ _ _
    (by rw [encode_append, encode_cons c, encode_cons c, encode_nil, List.append_nil,
      List.append_assoc]) hmore
  have hpos : 0 < (encode [c]).length := by
    rw [List.length_pos_iff, ne_eq, encode_eq_nil]
    exact List.cons_ne_nil c []
  rw [List.length_append, h.length] at hle
  omega

/-- Behind an indent its line goes on with something that is no blank. -/
theorem line_goesOn (h : Lexes text r before lexeme after finding r')
    (htag : (r.reader.lexeme .text).tag = .indent) :
    ∃ c cs, after = c :: cs ∧ c ∉ blanks ∧ c ≠ '\n' := by
  obtain ⟨-, hcontext⟩ := matches_lexeme h.start h.ne_nil h.length (by rw [htag]; decide)
  rw [htag] at hcontext
  obtain ⟨-, b, bs, hbytes, hb⟩ := hcontext
  have hne : after ≠ [] := by
    rintro rfl
    cases hbytes
  obtain ⟨c, cs, rfl⟩ := List.exists_cons_of_ne_nil hne
  obtain ⟨hindent, hlf, hcr⟩ := notMem_blank_iff.1 hb
  refine ⟨c, cs, rfl, fun hblank => ?_, ?_⟩
  · simp only [blanks, List.mem_cons, List.not_mem_nil, or_false] at hblank
    rcases hblank with rfl | rfl | rfl
    · rw [← (List.cons.inj hbytes).1] at hindent
      exact absurd hindent (by decide)
    · rw [← (List.cons.inj hbytes).1] at hindent
      exact absurd hindent (by decide)
    · exact hcr (List.cons.inj hbytes).1.symm
  · rintro rfl
    exact hlf (List.cons.inj hbytes).1.symm

/-- Behind a key there is a colon. -/
theorem exists_colon (h : Lexes text r before lexeme after finding r')
    (htag : (r.reader.lexeme .text).tag = .key) : ∃ cs, after = ':' :: cs := by
  obtain ⟨-, hcontext⟩ := matches_lexeme h.start h.ne_nil h.length (by rw [htag]; decide)
  rw [htag] at hcontext
  obtain ⟨bs, hbytes⟩ := hcontext
  have hne : after ≠ [] := by
    rintro rfl
    cases hbytes
  obtain ⟨c, cs, rfl⟩ := List.exists_cons_of_ne_nil hne
  refine ⟨cs, ?_⟩
  by_contra hc
  have hcolon : c ≠ ':' := fun heq => hc (by rw [heq])
  refine headD_encode_ne (k := Byte.colon) (by decide) (by decide) hcolon cs ?_
  rw [hbytes]
  rfl

/-- A lexeme without a line feed is right before the place behind it. -/
theorem adjoins (h : Lexes text r before lexeme after finding r') (hline : '\n' ∉ lexeme) :
    finding.location.Adjoins text r'.tracker.point := by
  have hnotMem : Byte.lineFeed ∉ encode lexeme := notMem_encode (by decide) (by decide) hline
  have hpos : 0 < (encode lexeme).length := by
    rw [List.length_pos_iff, ne_eq, encode_eq_nil]
    exact h.ne_nil
  have htracker : r'.tracker = r.tracker.advance (encode lexeme) := by
    rw [h.after, ← Reader.text_eq_encode h.start.rest h.length]
    rfl
  -- What is read up to the end of the lexeme is no more than the text.
  have hsize : Tracker.lastLineLength ((encode before).drop (Reader.origin (ofString text))) +
      (encode lexeme).length ≤ (ofString text).length := by
    have hlast := Tracker.lastLineLength_le ((encode before).drop (Reader.origin (ofString text)))
    have hlength : (ofString text).length =
        (encode before).length + ((encode lexeme).length + (encode after).length) := by
      rw [ofString, h.start.split, encode_append, encode_append, List.length_append,
        List.length_append]
    rw [List.length_drop] at hlast
    omega
  rw [h.location, htracker, h.start.tracker, trackerBehind]
  exact Tracker.adjoins_place hnotMem hpos hsize

/-- A lexeme that is no newline is right before the place behind it. -/
theorem adjoins_of_tag (h : Lexes text r before lexeme after finding r')
    (htag : (r.reader.lexeme .text).tag ≠ .newline) :
    finding.location.Adjoins text r'.tracker.point :=
  h.adjoins fun hline => htag (congrArg Lexeme.tag (h.eq_newline hline).2)

end Lexes

/-! ## The start of a line -/

/-- Steps without a finding leave the start of a line, where one may stand only in normal text. -/
theorem atLineStart_of_onward (hstart : r.mode ≠ .normal → r.reader.atLineStart = false)
    (h : r.step = .onward r') : r'.reader.atLineStart = false := by
  unfold step at h
  split at h
  · have hsuits := Sense.suits_ofLexeme (r.reader.lexeme .text).tag
      (Utf8.toString (r.reader.text .text))
    unfold stepText at h
    dsimp only at h
    generalize Sense.ofLexeme (r.reader.lexeme .text).tag
      (Utf8.toString (r.reader.text .text)) = sense at h hsuits
    cases sense with
    | passedOver =>
      cases h
      show decide ((r.reader.lexeme .text).tag = .newline) = false
      rw [show (r.reader.lexeme .text).tag = .blank from hsuits]
      rfl
    | opensLiteral =>
      cases h
      show decide ((r.reader.lexeme .text).tag = .newline) = false
      rw [show (r.reader.lexeme .text).tag = .openingQuote from hsuits]
      rfl
    | _ => cases h
  · next hmode =>
    have hfalse := hstart (by rw [hmode]; decide)
    unfold stepLiteral at h
    dsimp only at h
    split at h
    · cases h
      exact hfalse
    · cases h
      exact hfalse
    · split at h
      · cases h
        exact hfalse
      · cases h
    · cases h
    · cases h
  · next hmode =>
    cases h
    exact hstart (by rw [hmode]; decide)

/-- What a step comes to that opens a line is found in normal text at the start of a line, where the
reading stands. -/
theorem found_of_opensLine (h : r.step = .found finding r') (hopens : finding.opensLine = true) :
    r.mode = .normal ∧ r.reader.atLineStart = true ∧
      finding.location.firstColumn = r.tracker.column := by
  unfold step at h
  split at h
  · next hmode =>
    rcases found_stepText h with ⟨location, rfl, -⟩ | ⟨mode, hfound, -⟩
    · unfold endOfInput at hopens
      dsimp only at hopens
      split at hopens <;> cases hopens
    · refine ⟨hmode, Reader.atLineStart_of_tag (Finding.tag_of_opensLine hfound hopens), ?_⟩
      rw [Finding.location_of_ofLexeme? hfound]
      rfl
  · obtain ⟨hfinding, -⟩ := found_stepLiteral h
    rcases hfinding with rfl | ⟨c, text, location, rfl⟩ | rfl <;> cases hopens
  · cases h

/-- Behind the start of a line nothing is found that opens it. -/
theorem not_opensLine_next (hstart : r.reader.atLineStart = false) :
    r.next.1.opensLine = false := by
  fun_induction Reading.next r with
  | case1 r hclosed =>
    unfold endOfInput
    dsimp only
    split <;> rfl
  | case2 r hopen finding after hs =>
    rw [Bool.eq_false_iff]
    intro hopens
    have hline := (found_of_opensLine hs hopens).2.1
    rw [hstart] at hline
    cases hline
  | case3 r hopen after hs ih => exact ih (atLineStart_of_onward (fun _ => hstart) hs)

/-- What opens a line is found at its start, with nothing passed over. -/
theorem opensLine_next (hclosed : r.closed = false)
    (hstart : r.mode ≠ .normal → r.reader.atLineStart = false)
    (hopens : r.next.1.opensLine = true) :
    r.reader.atLineStart = true ∧ r.next.1.location.firstColumn = r.tracker.column := by
  cases hs : r.step with
  | found finding after =>
    rw [next_of_found hclosed hs] at hopens ⊢
    exact (found_of_opensLine hs hopens).2
  | onward after =>
    have hnot := not_opensLine_next (atLineStart_of_onward hstart hs)
    rw [← next_of_onward hclosed hs, hopens] at hnot
    cases hnot

end Reading

end LedgerText
