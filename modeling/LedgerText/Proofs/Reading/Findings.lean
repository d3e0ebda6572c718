import LedgerText.Proofs.Reading.Leads

/-!
# All findings of a text

A reading comes to finitely many findings up to the end of file (`findings`), whatever is passed
over between them. One that leads others has the same findings as they have up to the end of its
text, or up to a literal that is open there (`exists_leadsTo`). At the end of a text these are the
end of the last line, which is not written, and the end of file (`findings_of_end`).
-/

namespace LedgerText

open Literal Utf8

namespace Finding.Spells

variable {lexeme : List Char} {location : Location} {finding : Finding}

/-- No lexeme is the end of file. -/
theorem isEnd (h : finding.Spells lexeme location) : finding.isEnd = false := by
  cases h with
  | structural kind hend hline => exact decide_eq_false hend
  | terminal kind args hvalue hkind | overflow overflow | unrecognized byte => rfl

/-- A lexeme stands where its finding does. -/
theorem location_eq (h : finding.Spells lexeme location) : finding.location = location := by
  cases h <;> rfl

/-- Only a line feed is the end of a line. -/
theorem eq_lineFeed (h : finding.Spells lexeme location) (hends : finding.endsLine = true) :
    lexeme = ['\n'] := by
  cases h with
  | structural kind hend hline => exact hline (of_decide_eq_true (Bool.and_eq_true_iff.1 hends).1)
  | terminal kind args hvalue hkind | overflow overflow | unrecognized byte => cases hends

end Finding.Spells

namespace Reading

/-- The findings up to the end of file. -/
def findings (r : Reading) : List Finding :=
  if r.next.1.isEnd then [r.next.1] else r.next.1 :: r.next.2.findings
termination_by r.weight
decreasing_by exact r.weight_next.resolve_left ‹_›

variable {text text' : String} {k : Nat} {before after front back rest : List Char}
  {r s u : Reading} {fs gs : List Finding}

/-! ## One finding after another -/

/-- Nothing is found behind the end of file. -/
theorem findings_of_isEnd (h : r.next.1.isEnd = true) : r.findings = [r.next.1] := by
  rw [findings, if_pos h]

/-- Behind any other finding are those of the reading after it. -/
theorem findings_of_next (h : r.next.1.isEnd = false) :
    r.findings = r.next.1 :: r.next.2.findings := by
  rw [findings, if_neg (by rw [h]; decide)]

/-- Readings with the same next finding have the same findings. -/
theorem findings_congr (h : r.next = s.next) : r.findings = s.findings := by
  unfold findings
  rw [h]

/-- At the end of a text nothing is found but the end of its last line, which is not written, and
that of the file. -/
theorem findings_of_end (hmode : r.mode = .normal) (hclosed : r.closed = false)
    (hcount : r.endCount = 0) (hterminate : r.options.terminateLastLine = true)
    (h : Between text before [] r) : r.findings =
      [.structural .endOfLine "" (r.tracker.locate []) { synthetic := true },
        .structural .endOfFile "" (r.tracker.locate []) {}] := by
  obtain ⟨r', hnext, hlast⟩ := exists_next_of_end hmode hclosed hcount hterminate h
  have hend : r'.next.1.isEnd = true := by
    rw [hlast]
    rfl
  rw [findings_of_next (by rw [hnext]; rfl), hnext, findings_of_isEnd hend, hlast]

/-- A lexeme of the line structure is found as it is. -/
theorem next_of_lineStructure {kind : Kind} {t : Tag} (hmode : r.mode = .normal)
    (hclosed : r.closed = false) (h : Between text before (front ++ rest) r)
    (hlexeme : r.reader.lexeme .text = ⟨t, (encode front).length⟩)
    (hsense : ∀ text, Sense.ofLexeme t text = .structural kind) :
    r.next = (.structural kind (String.ofList front) (r.tracker.locate (encode front)) {},
        r.move .text) ∧
      Between text (before ++ front) rest (r.move .text) := by
  have hlen : (r.reader.lexeme .text).length = (encode front).length :=
    congrArg Lexeme.length hlexeme
  have hfinding : Finding.ofLexeme? (r.reader.lexeme .text).tag (r.reader.text .text)
      (r.tracker.locate (r.reader.text .text)) =
      some (.structural kind (String.ofList front) (r.tracker.locate (encode front)) {}) := by
    rw [Reader.text_eq_encode h.rest hlen, hlexeme, Finding.ofLexeme?, hsense, toString_encode]
  exact ⟨next_of_ofLexeme? hmode hclosed hfinding rfl, h.move hlen⟩

/-- At a line feed the end of a line is found, and the reading goes on at the start of the next. -/
theorem next_of_lineFeed (hmode : r.mode = .normal) (hclosed : r.closed = false)
    (h : Between text before ('\n' :: after) r) :
    r.next = (.structural .endOfLine "\n" (r.tracker.locate (encode ['\n'])) {}, r.move .text) ∧
      Between text (before ++ ['\n']) after (r.move .text) ∧
      (r.move .text).reader.atLineStart = true := by
  have hlexeme := lexeme_newline h
  have hfront : Between text before (['\n'] ++ after) r := h
  obtain ⟨hnext, hstop⟩ := next_of_lineStructure hmode hclosed hfront hlexeme fun _ => rfl
  refine ⟨hnext, hstop, ?_⟩
  show decide ((r.reader.lexeme .text).tag = .newline) = true
  rw [hlexeme]
  rfl

/-- At a quote a whole literal is found, which is not the end of a line or of the file. -/
theorem next_of_literal (hmode : r.mode = .normal) (hclosed : r.closed = false)
    (h : Between text before ('"' :: after) r) :
    r.next.1.endsLine = false ∧ r.next.1.isEnd = false ∧
      Between text (before ++ whole after) ((pieces after).2.drop 1) r.next.2 ∧
      GoesOn r r.next.2 := by
  unfold whole
  rcases pieces_cases after with ⟨ps, rest, hps, hvalid⟩ | ⟨good, c, more, rest, hps, hgood, hc⟩ |
    ⟨ps, hps, hvalid⟩
  · obtain ⟨lines, r', hnext, -, hstop, hgoes⟩ := next_string hmode hclosed h hps hvalid
    rw [hnext, hps]
    exact ⟨rfl, rfl, hstop, hgoes⟩
  · obtain ⟨r', hnext, hstop, hgoes⟩ := next_invalidEscape hmode hclosed h hps hgood hc
    rw [hnext, hps]
    exact ⟨rfl, rfl, hstop, hgoes⟩
  · obtain ⟨r', hnext, hstop, hgoes⟩ := next_unterminated hmode hclosed h hps hvalid
    have htext := text_pieces after
    rw [hps, List.append_nil] at htext
    rw [hnext, hps, List.take_nil, List.append_nil, htext]
    exact ⟨rfl, rfl, hstop, hgoes⟩

/-- No more lines are counted than there are line feeds before a reading, and one. -/
theorem Between.line_le (h : Between text before after r) :
    r.tracker.line ≤ 1 + before.count '\n' := by
  have hcount := (List.drop_sublist (Reader.origin (ofString text)) (encode before)).count_le
    Byte.lineFeed
  rw [count_encode (d := '\n') (by decide) (by decide)] at hcount
  rw [h.tracker]
  refine Nat.le_trans (Nat.min_le_left _ _) ?_
  omega

/-! ## The same findings -/

/-- The reading `r` comes to the findings `fs`, and is then the reading `s`, which stands behind the
characters `front`. All readings that `r` leads come to these findings too, and then `s` leads
them. -/
structure LeadsTo (text : String) (before front rest : List Char) (r : Reading)
    (fs : List Finding) (s : Reading) : Prop where
  findings : r.findings = fs ++ s.findings
  stop : Between text (before ++ front) rest s
  notLiteral : s.mode ≠ .literal
  goesOn : GoesOn { r with mode := s.mode } s
  /-- The ends of lines are at line feeds before `rest`. -/
  line_le : ∀ finding ∈ fs, finding.endsLine = true →
    finding.location.line ≤ (before ++ front).count '\n'
  led : ∀ ⦃text' k ext before' r'⦄,
    Leads text text' k ext before before' (front ++ rest) r r' →
      ∃ s', r'.findings = fs.map (Finding.shift k) ++ s'.findings ∧
        Leads text text' k ext (before ++ front) (before' ++ front) rest s s'

namespace LeadsTo

theorem refl (h : Between text before rest r) (hmode : r.mode ≠ .literal) :
    LeadsTo text before [] rest r [] r where
  findings := rfl
  stop := by rwa [List.append_nil]
  notLiteral := hmode
  goesOn := .refl r
  line_le finding hmem := absurd hmem List.not_mem_nil
  led text' k ext before' r' h := by
    rw [List.append_nil, List.append_nil]
    exact ⟨r', rfl, h⟩

theorem trans (h₁ : LeadsTo text before front (back ++ rest) r fs s)
    (h₂ : LeadsTo text (before ++ front) back rest s gs u) :
    LeadsTo text before (front ++ back) rest r (fs ++ gs) u where
  findings := by rw [h₁.findings, h₂.findings, List.append_assoc]
  stop := by
    rw [← List.append_assoc]
    exact h₂.stop
  notLiteral := h₂.notLiteral
  goesOn :=
    { options := h₂.goesOn.options.trans h₁.goesOn.options
      encoding := h₂.goesOn.encoding.trans h₁.goesOn.encoding
      mode := rfl
      endCount := h₂.goesOn.endCount.trans h₁.goesOn.endCount
      closed := h₂.goesOn.closed.trans h₁.goesOn.closed
      filename := h₂.goesOn.filename.trans h₁.goesOn.filename }
  line_le finding hmem hends := by
    rw [← List.append_assoc]
    rcases List.mem_append.1 hmem with hmem | hmem
    · exact Nat.le_trans (h₁.line_le finding hmem hends)
        ((List.sublist_append_left _ back).count_le _)
    · exact h₂.line_le finding hmem hends
  led text' k ext before' r' h := by
    rw [List.append_assoc] at h
    obtain ⟨s', hfindings, hs⟩ := h₁.led h
    obtain ⟨u', hfindings', hu⟩ := h₂.led hs
    rw [List.append_assoc, List.append_assoc] at hu
    refine ⟨u', ?_, hu⟩
    rw [hfindings, hfindings', List.map_append, List.append_assoc]

/-- What is passed over leads on without a finding. -/
theorem of_onward (hnext : r.next = s.next) (hstop : Between text (before ++ front) rest s)
    (hmode : s.mode ≠ .literal) (hgoes : GoesOn { r with mode := s.mode } s)
    (hled : ∀ ⦃text' k ext before' r'⦄,
      Leads text text' k ext before before' (front ++ rest) r r' →
        ∃ s', r'.next = s'.next ∧
          Leads text text' k ext (before ++ front) (before' ++ front) rest s s') :
    LeadsTo text before front rest r [] s where
  findings := findings_congr hnext
  stop := hstop
  notLiteral := hmode
  goesOn := hgoes
  line_le finding hmem := absurd hmem List.not_mem_nil
  led text' k ext before' r' h := by
    obtain ⟨s', hnext', hs⟩ := hled h
    exact ⟨s', findings_congr hnext', hs⟩

/-- A finding that is the same for all leads on. -/
theorem of_next (hend : r.next.1.isEnd = false)
    (hstop : Between text (before ++ front) rest r.next.2) (hmode : r.next.2.mode ≠ .literal)
    (hgoes : GoesOn { r with mode := r.next.2.mode } r.next.2)
    (hline : r.next.1.endsLine = true → r.next.1.location.line ≤ (before ++ front).count '\n')
    (hled : ∀ ⦃text' k ext before' r'⦄,
      Leads text text' k ext before before' (front ++ rest) r r' →
        ∃ s', r'.next = (r.next.1.shift k, s') ∧
          Leads text text' k ext (before ++ front) (before' ++ front) rest r.next.2 s') :
    LeadsTo text before front rest r [r.next.1] r.next.2 where
  findings := findings_of_next hend
  stop := hstop
  notLiteral := hmode
  goesOn := hgoes
  line_le finding hmem hends := by
    rw [List.mem_singleton.1 hmem] at hends ⊢
    exact hline hends
  led text' k ext before' r' h := by
    obtain ⟨s', hnext', hs⟩ := hled h
    have hend' : r'.next.1.isEnd = false := by
      rw [hnext', Finding.isEnd_shift, hend]
    refine ⟨s', ?_, hs⟩
    rw [findings_of_next hend', hnext']
    rfl

end LeadsTo

/-! ## Up to the end of the text -/

/-- In recovery the rest of the line is passed over. -/
theorem leadsTo_of_recovery (hmode : r.mode = .recovery) (hopen : r.closed = false)
    (h : Between text before (front ++ rest) r) (hpasses : Passes .recovery front rest) :
    ∃ s, LeadsTo text before front rest r [] s ∧ s.weight < r.weight := by
  obtain ⟨hstep, hstop⟩ := step_recovery hmode h hpasses
  have hnext := next_of_onward hopen hstep
  refine ⟨_, .of_onward hnext hstop Mode.noConfusion (.move r .skipLine .normal) ?_,
    weight_of_step_onward hstep⟩
  intro text' k ext before' r' h'
  exact h'.next_of_recovery hmode hpasses

/-- In normal text a blank is passed over. -/
theorem leadsTo_of_blank (hmode : r.mode = .normal) (hopen : r.closed = false)
    (h : Between text before (front ++ rest) r) (hne : front ≠ [])
    (hlen : (r.reader.lexeme .text).length = (encode front).length)
    (hblank : (r.reader.lexeme .text).tag = .blank) :
    ∃ s, LeadsTo text before front rest r [] s ∧ s.weight < r.weight := by
  have hstep := step_blank hmode hblank
  have hnext := next_of_onward hopen hstep
  have hliteral : (r.move .text).mode ≠ .literal := by
    show r.mode ≠ .literal
    rw [hmode]
    decide
  refine ⟨r.move .text, .of_onward hnext (h.move hlen) hliteral (.move r .text r.mode) ?_,
    weight_of_step_onward hstep⟩
  intro text' k ext before' r' h'
  exact ⟨_, h'.next_of_blank hmode hne hlen hblank⟩

/-- Any other lexeme of normal text is found. -/
theorem leadsTo_of_lexeme (hmode : r.mode = .normal) (hopen : r.closed = false)
    (h : Between text before (front ++ rest) r) (hne : front ≠ [])
    (hlen : (r.reader.lexeme .text).length = (encode front).length)
    (hblank : (r.reader.lexeme .text).tag ≠ .blank) (hquote : front ≠ ['"']) :
    ∃ fs s, LeadsTo text before front rest r fs s ∧ s.weight < r.weight := by
  obtain ⟨finding, hspells, -, hstep, hstop⟩ := exists_found hmode h hne hlen hblank hquote
  have hnext := next_of_found hopen hstep
  have hend : r.next.1.isEnd = false := by
    rw [hnext]
    exact hspells.isEnd
  have hline : r.next.1.endsLine = true →
      r.next.1.location.line ≤ (before ++ front).count '\n' := by
    rw [hnext]
    intro hends
    rw [hspells.eq_lineFeed hends, hspells.location_eq, List.count_append, Nat.add_comm]
    exact h.line_le
  have hleads : LeadsTo text before front rest r [r.next.1] r.next.2 := by
    refine .of_next hend ?_ ?_ ?_ hline fun text' k ext before' r' h' =>
      h'.next_of_lexeme hmode hne hlen hblank hquote
    · rw [hnext]
      exact hstop
    · rw [hnext]
      exact finding.modeAfter_ne_literal
    · rw [hnext]
      exact .move r .text _
  exact ⟨_, _, hleads, r.weight_next.resolve_left (by rw [hend]; decide)⟩

/-- A literal that is closed is found. -/
theorem leadsTo_of_literal {cs : List Char} (hmode : r.mode = .normal) (hopen : r.closed = false)
    (h : Between text before ('"' :: cs) r) (hps : (pieces cs).2 ≠ []) :
    ∃ fs s, LeadsTo text before (whole cs) ((pieces cs).2.drop 1) r fs s ∧
      s.weight < r.weight := by
  obtain ⟨hline, hend, hstop, hgoes⟩ := next_of_literal hmode hopen h
  have hliteral : r.next.2.mode ≠ .literal := by
    rw [hgoes.mode, hmode]
    decide
  have hleads : LeadsTo text before (whole cs) ((pieces cs).2.drop 1) r [r.next.1] r.next.2 := by
    refine .of_next hend hstop hliteral { hgoes with mode := rfl } (fun hends => ?_) ?_
    · rw [hline] at hends
      cases hends
    · intro text' k ext before' r' h'
      rw [whole_append] at h'
      exact h'.next_of_quote hmode (.inl hps)
  exact ⟨_, _, hleads, r.weight_next.resolve_left (by rw [hend]; decide)⟩

/-- In normal text something is passed over or found, unless a literal is open up to the end of the
text, or the text ends. -/
theorem exists_leadsTo_of_normal (hmode : r.mode = .normal) (hopen : r.closed = false)
    (h : Between text before after r) (hne : after ≠ [])
    (hliteral : ∀ cs, after = '"' :: cs → (pieces cs).2 ≠ []) :
    ∃ front rest fs s, after = front ++ rest ∧ LeadsTo text before front rest r fs s ∧
      s.weight < r.weight := by
  by_cases hquote : ∃ cs, after = '"' :: cs
  · obtain ⟨cs, rfl⟩ := hquote
    obtain ⟨fs, s, hleads⟩ := leadsTo_of_literal hmode hopen h (hliteral cs rfl)
    exact ⟨whole cs, _, fs, s, (whole_append cs).symm, hleads⟩
  · obtain ⟨front, rest, rfl, hfront, hlen⟩ := exists_lexeme h hne
    by_cases hblank : (r.reader.lexeme .text).tag = .blank
    · obtain ⟨s, hleads⟩ := leadsTo_of_blank hmode hopen h hfront hlen hblank
      exact ⟨front, rest, [], s, rfl, hleads⟩
    · have hq : front ≠ ['"'] := by
        rintro rfl
        exact hquote ⟨rest, rfl⟩
      obtain ⟨fs, s, hleads⟩ := leadsTo_of_lexeme hmode hopen h hfront hlen hblank hq
      exact ⟨front, rest, fs, s, rfl, hleads⟩

/-- All readings that a reading leads come to the same findings up to the end of its text, or up to
a literal that is open there. -/
theorem exists_leadsTo (hmode : r.mode ≠ .literal) (hopen : r.closed = false)
    (h : Between text before after r) :
    ∃ front rest fs s, after = front ++ rest ∧ LeadsTo text before front rest r fs s ∧
      s.mode = .normal ∧ (rest = [] ∨ ∃ cs, rest = '"' :: cs ∧ (pieces cs).2 = []) := by
  -- What is passed over or found makes the reading lighter, so the induction is on its weight.
  induction hn : r.weight using Nat.strongRecOn generalizing r before after with
  | _ n ih =>
    subst hn
    have hstep : (∃ front rest fs s, after = front ++ rest ∧
        LeadsTo text before front rest r fs s ∧ s.weight < r.weight) ∨
        r.mode = .normal ∧ (after = [] ∨ ∃ cs, after = '"' :: cs ∧ (pieces cs).2 = []) := by
      cases hm : r.mode with
      | literal => exact absurd hm hmode
      | recovery =>
        obtain ⟨front, rest, rfl, hpasses⟩ := exists_passes_recovery after
        obtain ⟨s, hleads⟩ := leadsTo_of_recovery hm hopen h hpasses
        exact .inl ⟨front, rest, [], s, rfl, hleads⟩
      | normal =>
        by_cases hstop : after = [] ∨ ∃ cs, after = '"' :: cs ∧ (pieces cs).2 = []
        · exact .inr ⟨rfl, hstop⟩
        · rw [not_or, not_exists] at hstop
          exact .inl (exists_leadsTo_of_normal hm hopen h hstop.1
            fun cs heq hnil => hstop.2 cs ⟨heq, hnil⟩)
    rcases hstep with ⟨front, rest, fs, s, rfl, hleads, hlt⟩ | ⟨hnormal, hstop⟩
    · obtain ⟨front', rest', gs, u, rfl, hleads', hend⟩ :=
        ih s.weight hlt hleads.notLiteral (hleads.goesOn.closed.trans hopen) hleads.stop rfl
      exact ⟨front ++ front', rest', fs ++ gs, u, (List.append_assoc _ _ _).symm,
        hleads.trans hleads', hend⟩
    · exact ⟨[], after, [], r, rfl, .refl h hmode, hnormal, hstop⟩

/-! ## A text that ends where the other does -/

/-- Where both texts end both find the end. -/
theorem Leads.findings_of_end {before' : List Char} {r' : Reading}
    (h : Leads text text' k [] before before' [] r r') (hmode : r.mode = .normal) :
    r'.findings = r.findings.map (Finding.shift k) := by
  have hcount : r'.endCount = 0 := h.goesOn.endCount.trans h.fresh
  have hterminate : r'.options.terminateLastLine = true := by
    rw [h.goesOn.options]
    exact h.terminates
  rw [Reading.findings_of_end hmode h.opened h.fresh h.terminates h.left,
    Reading.findings_of_end (h.goesOn.mode.trans hmode) h.opened' hcount hterminate h.right,
    h.tracker_eq]
  rfl

/-- A reading that leads another to the end of both texts has the same findings. -/
theorem Leads.findings_eq {before' : List Char} {r' : Reading}
    (h : Leads text text' k [] before before' after r r') :
    r'.findings = r.findings.map (Finding.shift k) := by
  obtain ⟨front, rest, fs, s, rfl, hleads, hmode, hstop⟩ :=
    exists_leadsTo h.notLiteral h.opened h.left
  obtain ⟨s', hfindings, hs⟩ := hleads.led h
  rw [hfindings, hleads.findings, List.map_append]
  congr 1
  rcases hstop with rfl | ⟨cs, rfl, hps⟩
  · exact hs.findings_of_end hmode
  · -- The literal that is open at the end is one more finding.
    obtain ⟨-, hend, -, hgoes⟩ := next_of_literal hmode hs.opened hs.left
    obtain ⟨u', hnext, hu⟩ := hs.next_of_quote hmode (.inr rfl)
    have hend' : s'.next.1.isEnd = false := by rw [hnext, Finding.isEnd_shift, hend]
    rw [hps] at hu
    have hlast := hu.findings_of_end (hgoes.mode.trans hmode)
    rw [findings_of_next hend, findings_of_next hend', hnext, List.map_cons, ← hlast]

/-! ## A text that goes on behind a line feed -/

/-- If the text `s` goes on by a line feed, and that line feed is found to be the end of a line when
nothing follows it, then all that is found of `s` is found in front of it as well, whatever follows.
Only the end of the last line is then written, and the reading goes on in the next line. -/
theorem exists_findings_lineFeed {text₁ text₂ : String} {before₁ before₂ later : List Char}
    {r₁ r₂ : Reading} (h₁ : Leads text text₁ 0 ['\n'] before before₁ after r r₁)
    (h₂ : Leads text text₂ 0 ('\n' :: later) before before₂ after r r₂)
    (hline : ∃ finding ∈ r₁.findings, finding.endsLine = true ∧
      text.toList.count '\n' < finding.location.line) :
    ∃ fs location r', r.findings =
        fs ++ [.structural .endOfLine "" location { synthetic := true },
          .structural .endOfFile "" location {}] ∧
      r₂.findings = fs ++ .structural .endOfLine "\n" location {} :: r'.findings ∧
      Between text₂ (before₂ ++ after ++ ['\n']) later r' ∧
      GoesOn { r with mode := .normal } r' ∧ r'.reader.atLineStart = true := by
  have hzero (fs : List Finding) : fs.map (Finding.shift 0) = fs := by
    rw [List.map_congr_left fun finding _ => finding.shift_zero, List.map_id']
  obtain ⟨front, rest, fs, s, rfl, hleads, hmode, hstop⟩ :=
    exists_leadsTo h₁.notLiteral h₁.opened h₁.left
  rcases hstop with rfl | ⟨cs, rfl, hps⟩
  · -- Where the one text ends the other has its line feed, at the same place.
    obtain ⟨s₂, hfindings₂, hs⟩ := hleads.led h₂
    have hfindings := Reading.findings_of_end hmode hs.opened hs.fresh hs.terminates hs.left
    have hright : Between text₂ (before₂ ++ front) ('\n' :: later) s₂ := hs.right
    obtain ⟨hnext, hstop, hstart⟩ :=
      next_of_lineFeed (hs.goesOn.mode.trans hmode) hs.opened' hright
    have hlocate : s₂.tracker.locate (encode ['\n']) = s.tracker.locate [] := by
      rw [hs.tracker_eq]
      rfl
    rw [hlocate] at hnext
    refine ⟨fs, s.tracker.locate [], s₂.move .text, ?_, ?_, ?_, ?_, hstart⟩
    · rw [hleads.findings, hfindings]
    · rw [hfindings₂, hzero, findings_of_next (by rw [hnext]; rfl), hnext]
    · rw [List.append_nil]
      exact hstop
    · exact
        { options := hs.goesOn.options.trans hleads.goesOn.options
          encoding := hs.goesOn.encoding.trans hleads.goesOn.encoding
          mode := hs.goesOn.mode.trans hmode
          endCount := hs.goesOn.endCount.trans hleads.goesOn.endCount
          closed := hs.goesOn.closed.trans hleads.goesOn.closed
          filename := hs.goesOn.filename.trans hleads.goesOn.filename }
  · -- An open literal goes on over the line feed, so no line ends there.
    obtain ⟨s₁, hfindings₁, hs⟩ := hleads.led h₁
    have hright : Between text₁ (before₁ ++ front) ('"' :: (cs ++ ['\n'])) s₁ := hs.right
    have hmode₁ := hs.goesOn.mode.trans hmode
    obtain ⟨hends, hend, hlast, hgoes⟩ := next_of_literal hmode₁ hs.opened' hright
    rw [pieces_concat_lineFeed hps, List.drop_nil] at hlast
    have hfindings := Reading.findings_of_end (hgoes.mode.trans hmode₁)
      (hgoes.closed.trans hs.opened') (hgoes.endCount.trans (hs.goesOn.endCount.trans hs.fresh))
      (by rw [hgoes.options, hs.goesOn.options, hs.terminates]) hlast
    obtain ⟨finding, hmem, hfinding, hlt⟩ := hline
    rw [hfindings₁, hzero, findings_of_next hend, hfindings] at hmem
    rcases List.mem_append.1 hmem with hmem | hmem
    · -- The lines that were ended before are those of earlier line feeds.
      have hle := hleads.line_le finding hmem hfinding
      have hcount := (List.sublist_append_left (before ++ front) ('"' :: cs)).count_le '\n'
      rw [← hleads.stop.split] at hcount
      omega
    · simp only [List.mem_cons, List.not_mem_nil, or_false] at hmem
      rcases hmem with rfl | rfl | rfl
      · rw [hends] at hfinding
        cases hfinding
      · cases hfinding
      · cases hfinding

end Reading

end LedgerText
