import LedgerText.Proofs.Scanner.Outcome

/-!
# Where findings come from

A finding is the signal of the end that a closed reading gives, or a step in normal text or in a
literal comes to it, where the steps before that step found nothing (`next_cases`). A step in normal
text comes to the signal of the end or to what is made of its lexeme (`found_stepText`), and a step
in a literal to a string or to one of two faults (`found_stepLiteral`).

So what a finding may be is told once for all of them (`isProper_next`). To come to a finding
changes nothing of the file that is read (`goesOn_next`), and of all findings only the signals of
the end are counted (`signal_next`).
-/

namespace LedgerText

/-- A finding is what its form says: a token of the line structure is of a kind that never has a
value and stands for no error, a terminal is of a kind that has one, and a fault is one of the
source. -/
def Finding.IsProper : Finding → Prop
  | .structural kind _ _ flags => kind.isStructural = true ∧ kind ≠ .lexError ∧
    (flags.synthetic = true → kind = .endOfLine)
  | .terminal request _ flags =>
    request.kind.isStructural = false ∧ flags.lineStart = false ∧ flags.synthetic = false
  | .fault cause _ _ => cause.isAnswer = false

namespace Reading

variable {r r' : Reading} {finding : Finding}

/-! ## Single steps -/

/-- A step in normal text comes to the signal of the end, or to what is made of its lexeme. -/
theorem found_stepText (h : r.stepText = .found finding r') :
    (∃ location, finding = (r.endOfInput location).1 ∧
        r' = ((r.move .text).endOfInput location).2) ∨
      ∃ mode, Finding.ofLexeme? (r.reader.lexeme .text).tag (r.reader.text .text)
          (r.tracker.locate (r.reader.text .text)) = some finding ∧
        r' = { r.move .text with mode } := by
  unfold stepText at h
  unfold Finding.ofLexeme?
  dsimp only at h ⊢
  generalize Sense.ofLexeme (r.reader.lexeme .text).tag
    (Utf8.toString (r.reader.text .text)) = sense at h ⊢
  cases sense with
  | passedOver | opensLiteral => cases h
  | endOfInput =>
    cases h
    exact .inl ⟨_, rfl, rfl⟩
  | structural kind | terminal kind args | fault cause =>
    cases h
    exact .inr ⟨r.mode, rfl, rfl⟩
  | unrecognized =>
    cases h
    exact .inr ⟨.recovery, rfl, rfl⟩

/-- A step in a literal comes to a string, to an escape sequence that means nothing, or to the end
of the source. -/
theorem found_stepLiteral (h : r.stepLiteral = .found finding r') :
    (finding = (r.move .literal).literalFinding ∨
        (∃ c text location, finding = .fault (.invalidEscape c) text location) ∨
        finding = (r.move .literal).unterminatedFinding) ∧
      GoesOn { r with mode := r'.mode } r' := by
  unfold stepLiteral at h
  dsimp only at h
  split at h
  · cases h
  · cases h
  · split at h
    · cases h
    · cases h
      exact ⟨.inr (.inl ⟨_, _, _, rfl⟩), rfl, rfl, rfl, rfl, rfl, rfl⟩
  · cases h
    exact ⟨.inl rfl, rfl, rfl, rfl, rfl, rfl, rfl⟩
  · cases h
    exact ⟨.inr (.inr rfl), rfl, rfl, rfl, rfl, rfl, rfl⟩

/-! ## The next finding -/

/-- A closed reading signals the end. Any other comes without a finding to a step that has one. -/
theorem next_cases (r : Reading) :
    (r.closed = true ∧ r.next = r.endOfInput r.tracker.point) ∨
      ∃ r₀, GoesOn { r with mode := r₀.mode } r₀ ∧
        (r₀.stepText = .found r.next.1 r.next.2 ∨ r₀.stepLiteral = .found r.next.1 r.next.2) := by
  fun_induction Reading.next r with
  | case1 r hclosed => exact .inl ⟨hclosed, rfl⟩
  | case2 r hopen finding after hs =>
    refine .inr ⟨r, .refl r, ?_⟩
    unfold step at hs
    split at hs
    · exact .inl hs
    · exact .inr hs
    · cases hs
  | case3 r hopen after hs ih =>
    have hgoes := goesOn_of_step_onward hs
    rcases ih with ⟨hclosed, -⟩ | ⟨r₀, hgoes₀, hfound⟩
    · exact absurd (hgoes.closed.symm.trans hclosed) hopen
    · have hmode : GoesOn { r with mode := r₀.mode } { after with mode := r₀.mode } :=
        { hgoes with mode := rfl }
      exact .inr ⟨r₀, hmode.trans hgoes₀, hfound⟩

/-! ## What is found -/

/-- The signal of the end is of the line structure. -/
theorem isProper_endOfInput (r : Reading) (location : Location) :
    (r.endOfInput location).1.IsProper := by
  unfold endOfInput
  dsimp only
  split
  · exact ⟨rfl, Kind.noConfusion, fun _ => rfl⟩
  · exact ⟨rfl, Kind.noConfusion, fun h => Bool.noConfusion h⟩

/-- Only four kinds of the line structure are found of lexemes. -/
theorem Sense.kind_of_structural {t : Tag} {text : String} {kind : Kind}
    (h : Sense.ofLexeme t text = .structural kind) :
    kind.isStructural = true ∧ kind ≠ .lexError := by
  cases t with
  | newline | indent | comment | skippedLine =>
    cases h
    exact ⟨rfl, Kind.noConfusion⟩
  | word =>
    change Sense.ofWord text = _ at h
    unfold Sense.ofWord at h
    split at h <;> cases h
  | date =>
    change Sense.ofDate text = _ at h
    unfold Sense.ofDate at h
    split at h <;> cases h
  | currency =>
    change Sense.ofCurrency text = _ at h
    unfold Sense.ofCurrency at h
    split_ifs at h
  | _ => cases h

/-- What is made of a lexeme is what its form says. -/
theorem isProper_ofLexeme? {t : Tag} {bytes : Bytes} {location : Location}
    (h : Finding.ofLexeme? t bytes location = some finding) : finding.IsProper := by
  have hsuits := Sense.suits_ofLexeme t (Utf8.toString bytes)
  unfold Finding.ofLexeme? at h
  split at h
  · next kind hsense =>
    cases h
    obtain ⟨hkind, herror⟩ := Sense.kind_of_structural hsense
    exact ⟨hkind, herror, fun h => Bool.noConfusion h⟩
  · next kind args hsense =>
    cases h
    rw [hsense] at hsuits
    exact ⟨hsuits.1, rfl, rfl⟩
  · next cause hsense =>
    cases h
    rw [hsense] at hsuits
    obtain ⟨overflow, rfl⟩ := hsuits
    rfl
  · cases h
    rfl
  all_goals cases h

/-- Every finding is what its form says. -/
theorem isProper_next (r : Reading) : r.next.1.IsProper := by
  rcases r.next_cases with ⟨-, hnext⟩ | ⟨r₀, -, hfound | hfound⟩
  · rw [hnext]
    exact isProper_endOfInput ..
  · rcases found_stepText hfound with ⟨location, hfinding, -⟩ | ⟨mode, hfinding, -⟩
    · rw [hfinding]
      exact isProper_endOfInput ..
    · exact isProper_ofLexeme? hfinding
  · obtain ⟨hfinding, -⟩ := found_stepLiteral hfound
    rcases hfinding with hfinding | ⟨c, text, location, hfinding⟩ | hfinding
    · rw [hfinding]
      exact ⟨rfl, rfl, rfl⟩
    · rw [hfinding]
      rfl
    · rw [hfinding]
      rfl

/-! ## What a finding changes -/

/-- A lexeme is no signal of the end. -/
theorem signalsEnd_ofLexeme? {t : Tag} {bytes : Bytes} {location : Location}
    (h : Finding.ofLexeme? t bytes location = some finding) : finding.signalsEnd = false := by
  have hsuits := Sense.suits_ofLexeme t (Utf8.toString bytes)
  unfold Finding.ofLexeme? at h
  split at h
  · next kind hsense =>
    cases h
    rw [hsense] at hsuits
    simp [Finding.signalsEnd, hsuits.1]
  · cases h
    rfl
  · cases h
    rfl
  · cases h
    rfl
  all_goals cases h

/-- Readings of one file, of which the end was signalled as often, signal it alike. -/
theorem endOfInput_congr {r₀ : Reading} (h : GoesOn { r with mode := r₀.mode } r₀)
    (location : Location) : (r₀.endOfInput location).1 = (r.endOfInput location).1 := by
  unfold endOfInput
  rw [h.endCount, h.options, h.closed]

/-- The end is signalled, which is counted, or something else is found, which is not. -/
theorem signal_next (r : Reading) :
    (∃ location, r.next.1 = (r.endOfInput location).1 ∧
        r.next.2.endCount = Count.clamp (r.endCount + 1)) ∨
      r.next.1.signalsEnd = false ∧ r.next.2.endCount = r.endCount := by
  rcases r.next_cases with ⟨-, hnext⟩ | ⟨r₀, hgoes, hfound | hfound⟩
  · rw [hnext]
    exact .inl ⟨_, rfl, rfl⟩
  · rcases found_stepText hfound with ⟨location, hfinding, hafter⟩ | ⟨mode, hfinding, hafter⟩
    · refine .inl ⟨location, hfinding.trans (endOfInput_congr hgoes location), ?_⟩
      rw [hafter]
      exact congrArg (fun n => Count.clamp (n + 1)) hgoes.endCount
    · refine .inr ⟨signalsEnd_ofLexeme? hfinding, ?_⟩
      rw [hafter]
      exact hgoes.endCount
  · obtain ⟨hfinding, hgoes'⟩ := found_stepLiteral hfound
    refine .inr ⟨?_, hgoes'.endCount.trans hgoes.endCount⟩
    rcases hfinding with hfinding | ⟨c, text, location, hfinding⟩ | hfinding <;> rw [hfinding] <;>
      rfl

/-- A finding leaves a reading in the file that it reads. -/
theorem goesOn_next (r : Reading) :
    GoesOn { r with mode := r.next.2.mode, endCount := r.next.2.endCount } r.next.2 := by
  rcases r.next_cases with ⟨-, hnext⟩ | ⟨r₀, hgoes, hfound⟩
  · rw [hnext]
    exact ⟨rfl, rfl, rfl, rfl, rfl, rfl⟩
  · have hbefore : GoesOn { r with mode := r.next.2.mode, endCount := r.next.2.endCount }
        { r₀ with mode := r.next.2.mode, endCount := r.next.2.endCount } :=
      { hgoes with mode := rfl, endCount := rfl }
    have hafter : GoesOn { r₀ with mode := r.next.2.mode, endCount := r.next.2.endCount }
        r.next.2 := by
      rcases hfound with hfound | hfound
      · rcases found_stepText hfound with ⟨location, -, hafter⟩ | ⟨mode, -, hafter⟩ <;>
          rw [hafter] <;> exact ⟨rfl, rfl, rfl, rfl, rfl, rfl⟩
      · exact { (found_stepLiteral hfound).2 with endCount := rfl }
    exact hbefore.trans hafter

end Reading

end LedgerText
