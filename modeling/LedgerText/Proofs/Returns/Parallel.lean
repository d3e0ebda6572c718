import LedgerText.Proofs.Reading.Lines
import LedgerText.Proofs.Returns.Lexeme

/-!
# Reading without the carriage returns

A reading of a text and one of the text without its carriage returns are parallel if they stand at
the same place (`Parallel`). Each passes over its own blanks and its own rest of a line, and they
are parallel behind these (`Parallel.of_blanks`, `Parallel.of_recovery`). What they find may differ
in no more than the carriage returns that it holds or that stand before it (`Finding.Alike`).
-/

namespace LedgerText

open Literal Utf8

/-- The reading stands behind a carriage return and a line feed. -/
def Reading.BehindReturn (text : String) (r : Reading) : Prop :=
  ∃ before after, text.toList = before ++ '\r' :: '\n' :: after ∧
    r.reader.pos = (encode (before ++ ['\r', '\n'])).length

/-- What is found of a text, up to where the reading `r` stands, is like what is found without the
carriage returns. The end of a line is in the next column if there is a carriage return before it.
Comments and skipped lines may end in one, and strings and literals that do not end may hold some.
All else is the same. -/
inductive Finding.Alike (text : String) (r : Reading) : Finding → Finding → Prop
  | same {finding : Finding} (h : finding.endsLine = true → ¬r.BehindReturn text) :
    Alike text r finding finding
  | lineEnd {location location' : Location} (h : r.BehindReturn text)
    (hline : location.line = location'.line)
    (hcolumn : location.firstColumn = Count.clamp (location'.firstColumn + 1))
    (hsize : location'.firstColumn + 1 ≤ (ofString text).length) :
    Alike text r (.structural .endOfLine "\n" location {})
      (.structural .endOfLine "\n" location' {})
  | wholeLine {kind : Kind} {line : List Char} {location location' : Location}
    (hkind : kind = .comment ∨ kind = .skipped) (hstart : location.SameStart location') :
    Alike text r (.structural kind (String.ofList (line ++ ['\r'])) location {})
      (.structural kind (String.ofList line) location' {})
  | string {request request' : Request} {contents contents' : String} {flags : Flags}
    (hkind : request.kind = .string) (hkind' : request'.kind = .string)
    (hstart : request.location.SameStart request'.location) :
    Alike text r (.terminal request contents flags) (.terminal request' contents' flags)
  | unterminated {lexeme lexeme' : String} {location : Location} :
    Alike text r (.fault .unterminatedString lexeme location)
      (.fault .unterminatedString lexeme' location)

namespace Finding.Alike

variable {text : String} {r : Reading} {finding finding' : Finding}

/-- The ends of lines correspond. -/
theorem endsLine_eq (h : Alike text r finding finding') :
    finding'.endsLine = finding.endsLine := by
  cases h <;> rfl

/-- The signals of the end correspond. -/
theorem signalsEnd_eq (h : Alike text r finding finding') :
    finding'.signalsEnd = finding.signalsEnd := by
  cases h <;> rfl

/-- Both leave their readings in the same mode. -/
theorem modeAfter_eq (h : Alike text r finding finding') :
    finding'.modeAfter = finding.modeAfter := by
  cases h <;> rfl

end Finding.Alike

namespace Reading

variable {text : String} {before after front rest cs : List Char} {c : Char}
  {r r' r₁ r₁' : Reading}

/-! ## The same place of both texts -/

/-- A place of a text is told by how many bytes stand before it. -/
theorem Between.eq_before (h : Between text before after r) {front rest : List Char}
    (hsplit : text.toList = front ++ rest) (hpos : r.reader.pos = (encode front).length) :
    front = before := by
  have hbytes : encode front ++ encode rest = encode before ++ encode after := by
    rw [← encode_append, ← encode_append, ← hsplit, ← h.split]
  exact encode_inj.1 (List.append_inj hbytes (hpos.symm.trans h.pos)).1

/-- At a place that is not before the line feed of a line's end, a carriage return is not last. -/
theorem Between.not_behindReturn (h : Between text (before ++ ['\n']) after r)
    (hends : ReturnsEndLines before) : ¬r.BehindReturn text := by
  rintro ⟨front, rest, hsplit, hpos⟩
  have hsplit' : text.toList = (front ++ ['\r', '\n']) ++ rest := by
    rw [hsplit, List.append_assoc]
    rfl
  have heq := h.eq_before hsplit' hpos
  have hreturn : front ++ ['\r'] = before := by
    have hassoc : front ++ ['\r'] ++ ['\n'] = front ++ ['\r', '\n'] := List.append_assoc ..
    exact (List.append_inj' (hassoc.trans heq) rfl).1
  exact absurd (hends front [] hreturn.symm) (by decide)

/-- Before a character no more columns are counted than the text has bytes. -/
theorem Between.column_le (h : Between text before (c :: cs) r) :
    r.tracker.column ≤ (ofString text).length := by
  have hlast := Tracker.lastLineLength_le ((encode before).drop (Reader.origin (ofString text)))
  rw [List.length_drop] at hlast
  have hcolumn : r.tracker.column ≤ 1 + (encode before).length := by
    rw [h.tracker]
    exact (Nat.min_le_left _ _).trans
      (Nat.add_le_add_left (hlast.trans (Nat.sub_le _ _)) 1)
  have hlength : (ofString text).length = (encode before).length + (encode (c :: cs)).length := by
    rw [ofString, h.split, encode_append, List.length_append]
  have hpos : 0 < (encode (c :: cs)).length :=
    List.length_pos_iff.2 fun hnil => List.cons_ne_nil c cs (encode_eq_nil.1 hnil)
  omega

/-- Both readings stand at the same line and column, unless they are before the line feed of a
line's end. -/
theorem Between.tracker_stripped {after' : List Char} (h : Between text before after r)
    (h' : Between (stripped text) (withoutReturns before) after' r')
    (hends : ReturnsEndLines text.toList) (hbefore : ReturnsEndLines before)
    (hname : r'.tracker.filename = r.tracker.filename) : r'.tracker = r.tracker := by
  have horigin := h.placed.origin_le
  rw [h.placed.source, h.pos] at horigin
  rw [h.tracker, h'.tracker, hname, trackerBehind_stripped h.split horigin hends hbefore]

/-- Where no blanks are next, none are without the carriage returns. -/
theorem stopsBlanks_withoutReturns (h : StopsBlanks cs) : StopsBlanks (withoutReturns cs) := by
  rcases cs with - | ⟨d, ds⟩
  · exact fun c cs heq => by cases heq
  · have hd : d ≠ '\r' := fun heq => h d ds rfl (heq ▸ by decide)
    rw [withoutReturns_cons hd]
    rintro c cs heq
    obtain rfl := (List.cons.inj heq).1
    exact h d ds rfl

/-- The reading `r` of a text and the reading `r'` of the text without its carriage returns stand at
the same place. -/
structure Parallel (text : String) (before after : List Char) (r r' : Reading) : Prop where
  left : Between text before after r
  right : Between (stripped text) (withoutReturns before) (withoutReturns after) r'
  ends : ReturnsEndLines text.toList
  goesOn : GoesOn r r'
  /-- Before the end of a line it does not matter whether a line starts. -/
  atLineStart : ∀ c cs, after = c :: cs → c ≠ '\n' → r'.reader.atLineStart = r.reader.atLineStart
  notLiteral : r.mode ≠ .literal
  opened : r.closed = false

namespace Parallel

theorem opened' (h : Parallel text before after r r') : r'.closed = false :=
  h.goesOn.closed.trans h.opened

theorem ends_all (h : Parallel text before after r r') : ReturnsEndLines (before ++ after) :=
  h.left.split ▸ h.ends

theorem ends_after (h : Parallel text before after r r') : ReturnsEndLines after :=
  h.ends_all.right

/-- Before any character but a line feed, no carriage return is last. -/
theorem ends_before (h : Parallel text before (c :: cs) r r') (hc : c ≠ '\n') :
    ReturnsEndLines before :=
  h.ends_all.of_append fun hhead => hc (Option.some.inj hhead)

theorem origin_le (h : Parallel text before after r r') :
    Reader.origin (ofString text) ≤ (encode before).length := by
  have horigin := h.left.placed.origin_le
  rwa [h.left.placed.source, h.left.pos] at horigin

/-- Both stand at the same line and column. -/
theorem tracker_eq (h : Parallel text before after r r') (hbefore : ReturnsEndLines before) :
    r'.tracker = r.tracker :=
  h.left.tracker_stripped h.right h.ends hbefore h.goesOn.filename

/-! ## What is passed over -/

/-- Both throw away the rest of their line. -/
theorem of_recovery (h : Parallel text before (front ++ rest) r r') (hmode : r.mode = .recovery)
    (hpasses : Passes .recovery front rest) :
    ∃ r₁ r₁', Parallel text (before ++ front) rest r₁ r₁' ∧ r₁.mode = .normal ∧
      r.next = r₁.next ∧ r'.next = r₁'.next := by
  have hright := h.right
  rw [withoutReturns_append] at hright
  -- Both lines end at the same line feed.
  have hpasses' : Passes .recovery (withoutReturns front) (withoutReturns rest) := by
    refine ⟨fun hmem => hpasses.1 ((mem_withoutReturns (by decide)).1 hmem), fun c cs heq => ?_⟩
    rcases rest with - | ⟨d, ds⟩
    · cases heq
    · obtain rfl := hpasses.2 d ds rfl
      rw [withoutReturns_cons (by decide)] at heq
      exact (List.cons.inj heq).1.symm
  obtain ⟨hstep, hstop⟩ := step_recovery hmode h.left hpasses
  obtain ⟨hstep', hstop'⟩ := step_recovery (h.goesOn.mode.trans hmode) hright hpasses'
  rw [← withoutReturns_append] at hstop'
  refine ⟨_, _, ?_, rfl, next_of_onward h.opened hstep, next_of_onward h.opened' hstep'⟩
  exact
    { left := hstop
      right := hstop'
      ends := h.ends
      goesOn := { h.goesOn with mode := rfl }
      atLineStart := fun c cs heq hc => absurd (hpasses.2 c cs heq) hc
      notLiteral := Mode.noConfusion
      opened := h.opened }

/-- Blanks indent in both texts or in none. -/
theorem indents_iff (h : Parallel text before (front ++ rest) r r') (hne : front ≠ [])
    (hfront : ∀ c ∈ front, c ∈ blanks) (hrest : StopsBlanks rest) :
    Indents r'.reader.atLineStart (withoutReturns front) (withoutReturns rest) ↔
      Indents r.reader.atLineStart front rest := by
  have hline : ∀ d ∈ front, d ≠ '\n' := by
    rintro d hd rfl
    exact absurd (hfront _ hd) (by decide)
  obtain ⟨d, ds, rfl⟩ := List.exists_cons_of_ne_nil hne
  have hstart := h.atLineStart d (ds ++ rest) rfl (hline d List.mem_cons_self)
  rw [Indents, Indents, hstart]
  refine and_congr_right fun _ => ?_
  constructor
  · rintro ⟨-, e, es, heq, he⟩
    rcases rest with - | ⟨c, cs⟩
    · cases heq
    have hc : c ≠ '\r' := fun heq => hrest c cs rfl (heq ▸ by decide)
    rw [withoutReturns_cons hc] at heq
    obtain rfl := (List.cons.inj heq).1
    refine ⟨fun hreturn => ?_, c, cs, rfl, he⟩
    -- Behind a carriage return the line would end.
    rcases h.ends_after.line_cases fun hmem => hline '\n' hmem rfl with hnone | ⟨hhead, -⟩
    · exact hnone hreturn
    · exact he (Option.some.inj hhead)
  · rintro ⟨-, c, cs, rfl, hc⟩
    have hreturn : c ≠ '\r' := fun heq => hrest c cs rfl (heq ▸ by decide)
    exact ⟨return_notMem_withoutReturns _, c, withoutReturns cs, withoutReturns_cons hreturn cs, hc⟩

/-- In normal text blanks that do not indent are passed over. -/
theorem exists_next_of_blank (hmode : r.mode = .normal) (hclosed : r.closed = false)
    (h : Between text before (front ++ rest) r) (hfront : ∀ c ∈ front, c ∈ blanks)
    (hrest : StopsBlanks rest)
    (hindents : front ≠ [] → ¬Indents r.reader.atLineStart front rest) :
    ∃ r₁, Between text (before ++ front) rest r₁ ∧ GoesOn r r₁ ∧ r.next = r₁.next ∧
      (front = [] → r₁ = r) ∧ (front ≠ [] → r₁.reader.atLineStart = false) := by
  by_cases hne : front = []
  · subst hne
    refine ⟨r, ?_, .refl r, rfl, fun _ => rfl, fun hne => absurd rfl hne⟩
    rw [List.append_nil]
    exact h
  · have hlexeme : r.reader.lexeme .text = ⟨.blank, (encode front).length⟩ := by
      rw [Reader.lexeme, h.rest]
      exact inText_blank hne hfront hrest (hindents hne)
    have hblank := congrArg Lexeme.tag hlexeme
    have hgoes : GoesOn r (r.move .text) := .move r .text r.mode
    refine ⟨r.move .text, h.move (congrArg Lexeme.length hlexeme), hgoes,
      next_of_onward hclosed (step_blank hmode hblank), fun h => absurd h hne, fun _ => ?_⟩
    show decide ((r.reader.lexeme .text).tag = .newline) = false
    rw [hblank]
    rfl

/-- Both pass over their blanks. -/
theorem of_blanks (h : Parallel text before (front ++ rest) r r') (hmode : r.mode = .normal)
    (hfront : ∀ c ∈ front, c ∈ blanks) (hrest : StopsBlanks rest)
    (hindents : front ≠ [] → ¬Indents r.reader.atLineStart front rest) :
    ∃ r₁ r₁', Parallel text (before ++ front) rest r₁ r₁' ∧ r₁.mode = .normal ∧
      r.next = r₁.next ∧ r'.next = r₁'.next := by
  have hright := h.right
  rw [withoutReturns_append] at hright
  have hfront' : ∀ c ∈ withoutReturns front, c ∈ blanks :=
    fun c hc => hfront c (List.mem_of_mem_filter hc)
  have hrest' := stopsBlanks_withoutReturns hrest
  have hindents' (hne : withoutReturns front ≠ []) :
      ¬Indents r'.reader.atLineStart (withoutReturns front) (withoutReturns rest) := by
    have hne' : front ≠ [] := by
      rintro rfl
      exact hne rfl
    rw [h.indents_iff hne' hfront hrest]
    exact hindents hne'
  obtain ⟨r₁, hstop, hgoes, hnext, hsame, hstart⟩ :=
    exists_next_of_blank hmode h.opened h.left hfront hrest hindents
  obtain ⟨r₁', hstop', hgoes', hnext', hsame', hstart'⟩ :=
    exists_next_of_blank (h.goesOn.mode.trans hmode) h.opened' hright hfront' hrest' hindents'
  rw [← withoutReturns_append] at hstop'
  refine ⟨r₁, r₁', ?_, hgoes.mode.trans hmode, hnext, hnext'⟩
  exact
    { left := hstop
      right := hstop'
      ends := h.ends
      goesOn := hgoes.symm.trans (h.goesOn.trans hgoes')
      atLineStart := by
        intro c cs heq hc
        -- Behind blanks no line starts, and without any it starts where it did.
        by_cases hne : front = []
        · subst hne
          rw [hsame rfl, hsame' rfl]
          exact h.atLineStart c cs heq hc
        · have hline : '\n' ∉ front := fun hmem => absurd (hfront _ hmem) (by decide)
          have hreturn : '\r' ∉ front := by
            rcases h.ends_after.line_cases hline with hnone | ⟨hhead, -⟩
            · exact hnone
            · rw [heq] at hhead
              exact absurd (Option.some.inj hhead) hc
          rw [hstart hne, hstart' (by rwa [withoutReturns_of_notMem hreturn])]
      notLiteral := by
        rw [hgoes.mode]
        exact h.notLiteral
      opened := hgoes.closed.trans h.opened }

end Parallel

end Reading

end LedgerText
