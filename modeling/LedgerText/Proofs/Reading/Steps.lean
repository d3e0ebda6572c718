import LedgerText.Proofs.Reading.Found

/-!
# How many steps a finding takes

The next finding is looked for step by step, until a step comes to one. A reader that gives up after
`n` steps looks for it with `nextWithin`. It finds it whenever `n` is more than the bytes that are
left and the one step that may return from recovery to normal text without a byte (`stepsLeft`),
since a step without a finding makes that number smaller (`stepsLeft_of_onward`).
-/

namespace LedgerText.Reading

variable {r r' : Reading}

/-- The next finding of a reading and the reading after it, if at most `n` steps come to it. -/
def nextWithin (r : Reading) : Nat → Option (Finding × Reading)
  | 0 => none
  | n + 1 =>
    if r.closed then some (r.endOfInput r.tracker.point)
    else
      match r.step with
      | .found finding after => some (finding, after)
      | .onward after => after.nextWithin n

/-- How many steps without a finding a reading can take: one for every byte that is left, and one to
return to normal text. -/
def stepsLeft (r : Reading) : Nat := r.reader.rest.length + if r.mode = .recovery then 1 else 0

/-- A step without a finding reads a byte of normal text or of a literal, or throws away the rest of
a line and returns to normal text. -/
theorem onward_cases (h : r.step = .onward r') :
    (r'.mode ≠ .recovery ∧ r'.reader.rest.length < r.reader.rest.length) ∨
      r.mode = .recovery ∧ r'.mode = .normal ∧
        r'.reader.rest.length ≤ r.reader.rest.length := by
  cases hmode : r.mode with
  | normal =>
    rw [step, hmode] at h
    have hsuits := Sense.suits_ofLexeme (r.reader.lexeme .text).tag
      (Utf8.toString (r.reader.text .text))
    have hlt (hend : (r.reader.lexeme .text).tag ≠ .endOfFile) :=
      Reader.length_rest_after_lt (.inl rfl) hend
    unfold stepText at h
    dsimp only at h
    generalize Sense.ofLexeme (r.reader.lexeme .text).tag
      (Utf8.toString (r.reader.text .text)) = sense at h hsuits
    cases sense with
    | passedOver =>
      cases h
      refine .inl ⟨?_, hlt ?_⟩
      · show r.mode ≠ .recovery
        rw [hmode]
        decide
      · rw [show (r.reader.lexeme .text).tag = .blank from hsuits]
        decide
    | opensLiteral =>
      cases h
      refine .inl ⟨Mode.noConfusion, hlt ?_⟩
      rw [show (r.reader.lexeme .text).tag = .openingQuote from hsuits]
      decide
    | _ => cases h
  | literal =>
    rw [step, hmode] at h
    have hstays : r.mode ≠ .recovery := by
      rw [hmode]
      decide
    have hlt (hend : (r.reader.lexeme .literal).tag ≠ .endOfFile) :=
      Reader.length_rest_after_lt (.inr rfl) hend
    unfold stepLiteral at h
    dsimp only at h
    split at h
    · next htag =>
      cases h
      exact .inl ⟨hstays, hlt (by rw [htag]; decide)⟩
    · next htag =>
      cases h
      exact .inl ⟨hstays, hlt (by rw [htag]; decide)⟩
    · next htag =>
      split at h
      · cases h
        exact .inl ⟨hstays, hlt (by rw [htag]; decide)⟩
      · cases h
    · cases h
    · cases h
  | recovery =>
    rw [step, hmode] at h
    cases h
    exact .inr ⟨rfl, rfl, r.reader.length_rest_after_le .skipLine⟩

/-- After a step without a finding there are fewer steps left. -/
theorem stepsLeft_of_onward (h : r.step = .onward r') : r'.stepsLeft < r.stepsLeft := by
  unfold stepsLeft
  rcases onward_cases h with ⟨hmode', hlt⟩ | ⟨hmode, hmode', hle⟩
  · rw [if_neg hmode']
    exact Nat.lt_add_right _ hlt
  · rw [if_pos hmode, if_neg (by rw [hmode']; decide)]
    exact Nat.lt_succ_of_le hle

/-- More steps than are left come to the next finding. -/
theorem nextWithin_of_stepsLeft_lt {n : Nat} (h : r.stepsLeft < n) :
    r.nextWithin n = some r.next := by
  induction n generalizing r with
  | zero => exact absurd h (Nat.not_lt_zero _)
  | succ n ih =>
    rw [nextWithin]
    cases hclosed : r.closed with
    | true =>
      rw [next, if_pos hclosed]
      rfl
    | false =>
      cases hstep : r.step with
      | found finding r' =>
        rw [next_of_found hclosed hstep]
        rfl
      | onward r' =>
        have hfewer : r'.stepsLeft < n :=
          Nat.lt_of_lt_of_le (stepsLeft_of_onward hstep) (Nat.le_of_lt_succ h)
        rw [next_of_onward hclosed hstep]
        exact ih hfewer

/-- Two steps more than there are bytes left come to the next finding. -/
theorem nextWithin_eq (r : Reading) {n : Nat} (h : r.reader.rest.length + 2 ≤ n) :
    r.nextWithin n = some r.next := by
  refine nextWithin_of_stepsLeft_lt ?_
  unfold stepsLeft
  split <;> omega

end LedgerText.Reading
