import LedgerText.Reading

/-!
# From finding to finding

A reading comes to its next finding in finitely many steps: every step that comes to none makes the
reading lighter (`weight_of_step_onward`). So does every finding but the end of file, hence the end
of file is always reached (`weight_next`).
-/

namespace LedgerText.Reading

/-- What bounds the steps of a reading: the bytes that are left, the return to normal text, and the
first signal of the end. -/
def weight (r : Reading) : Nat :=
  3 * r.reader.rest.length + (if r.mode = .normal then 0 else 1) + (if r.endCount = 0 then 1 else 0)

/-- A finding is the end of file or leaves a lighter reading. -/
def Lighter (r : Reading) (finding : Finding) (next : Reading) : Prop :=
  finding.isEnd = true ∨ next.weight < r.weight

/-- A step leads on to a lighter reading, or to a finding that is the end of file or leaves one. -/
def Descends (r : Reading) : Step → Prop
  | .onward next => next.weight < r.weight
  | .found finding next => r.Lighter finding next

/-! ## Single steps -/

/-- Fewer bytes left weigh more than a change of mode. -/
theorem weight_lt_of_rest_lt {r next : Reading}
    (hrest : next.reader.rest.length < r.reader.rest.length) (hcount : next.endCount = r.endCount) :
    next.weight < r.weight := by
  unfold weight
  rw [hcount]
  split <;> split <;> omega

/-- The return to normal text makes a reading lighter. -/
theorem weight_lt_of_mode {r next : Reading}
    (hrest : next.reader.rest.length ≤ r.reader.rest.length) (hcount : next.endCount = r.endCount)
    (hmode : r.mode ≠ .normal) (hnext : next.mode = .normal) : next.weight < r.weight := by
  unfold weight
  rw [hcount, if_neg hmode, if_pos hnext]
  split <;> omega

/-- The signal of the end is the end of file, or it was the first signal. -/
theorem endOfInput_isEnd_or (r : Reading) (location : Location) :
    (r.endOfInput location).1.isEnd = true ∨
      r.endCount = 0 ∧ (r.endOfInput location).2.endCount = 1 := by
  unfold endOfInput
  dsimp only
  split
  · next h =>
    simp only [Bool.and_eq_true, decide_eq_true_eq] at h
    have h1 := h.1.1
    refine .inr ⟨?_, h1⟩
    simp only [Count.clamp, Count.limit] at h1
    omega
  · exact .inl rfl

/-- The signal of the end is the end of file or leaves a lighter reading. -/
theorem lighter_endOfInput {r next : Reading} (location : Location)
    (hrest : next.reader.rest.length ≤ r.reader.rest.length) (hcount : next.endCount = r.endCount)
    (hmode : next.mode = r.mode) :
    r.Lighter (next.endOfInput location).1 (next.endOfInput location).2 := by
  rcases next.endOfInput_isEnd_or location with h | ⟨h0, h1⟩
  · exact .inl h
  · refine .inr ?_
    have hr : (next.endOfInput location).2.reader = next.reader := rfl
    have hm : (next.endOfInput location).2.mode = next.mode := rfl
    unfold weight
    rw [h1, hr, hm, hmode, ← hcount, h0]
    simp only [Nat.one_ne_zero, ↓reduceIte]
    omega

/-- A step in normal text descends. -/
theorem descends_stepText (r : Reading) : r.Descends r.stepText := by
  by_cases hend : (r.reader.lexeme .text).tag = .endOfFile
  · have hs : Sense.ofLexeme (r.reader.lexeme .text).tag (Utf8.toString (r.reader.text .text)) =
        .endOfInput := by rw [hend]; rfl
    simp only [stepText, hs]
    exact lighter_endOfInput _ (r.reader.length_rest_after_le .text) rfl rfl
  · have hlt := Reader.length_rest_after_lt (.inl rfl) hend
    unfold stepText
    dsimp only
    split
    · exact weight_lt_of_rest_lt hlt rfl
    · next hs => exact absurd (Sense.ofLexeme_eq_endOfInput hs) hend
    · exact .inr (weight_lt_of_rest_lt hlt rfl)
    · exact weight_lt_of_rest_lt hlt rfl
    · exact .inr (weight_lt_of_rest_lt hlt rfl)
    · exact .inr (weight_lt_of_rest_lt hlt rfl)
    · exact .inr (weight_lt_of_rest_lt hlt rfl)

/-- A step in a string literal descends. -/
theorem descends_stepLiteral {r : Reading} (hmode : r.mode = .literal) :
    r.Descends r.stepLiteral := by
  have hne : r.mode ≠ .normal := by rw [hmode]; decide
  have hle := r.reader.length_rest_after_le .literal
  have hlt (h : (r.reader.lexeme .literal).tag ≠ .endOfFile) :=
    Reader.length_rest_after_lt (.inr rfl) h
  unfold stepLiteral
  dsimp only
  split
  · next ht => exact weight_lt_of_rest_lt (hlt (by simp [ht])) rfl
  · next ht => exact weight_lt_of_rest_lt (hlt (by simp [ht])) rfl
  · next ht =>
    split
    · exact weight_lt_of_rest_lt (hlt (by simp [ht])) rfl
    · have hskip := (r.reader.after .literal).length_rest_after_le .skipLiteral
      exact .inr (weight_lt_of_mode (Nat.le_trans hskip hle) rfl hne rfl)
  · exact .inr (weight_lt_of_mode hle rfl hne rfl)
  · exact .inr (weight_lt_of_mode hle rfl hne rfl)

/-- Every step descends. -/
theorem descends_step (r : Reading) : r.Descends r.step := by
  unfold step
  cases hmode : r.mode with
  | normal => exact r.descends_stepText
  | literal => exact descends_stepLiteral hmode
  | recovery =>
    have hne : r.mode ≠ .normal := by rw [hmode]; decide
    exact weight_lt_of_mode (r.reader.length_rest_after_le .skipLine) rfl hne rfl

/-- A step without a finding makes the reading lighter. -/
theorem weight_of_step_onward {r next : Reading} (h : r.step = .onward next) :
    next.weight < r.weight := by
  have := r.descends_step
  rwa [h] at this

/-! ## The next finding -/

/-- The next finding of a reading, and the reading after it. -/
def next (r : Reading) : Finding × Reading :=
  if r.closed then r.endOfInput r.tracker.point
  else
    match _ : r.step with
    | .found finding after => (finding, after)
    | .onward after => after.next
termination_by r.weight
decreasing_by exact weight_of_step_onward ‹_›

/-- A finding is the end of file, or the reading after it is lighter. -/
theorem weight_next (r : Reading) : r.Lighter r.next.1 r.next.2 := by
  fun_induction next r with
  | case1 r _ => exact lighter_endOfInput _ (Nat.le_refl _) rfl rfl
  | case2 r _ finding after h =>
    have := r.descends_step
    rwa [h] at this
  | case3 r _ after h ih =>
    rcases ih with h1 | h1
    · exact .inl h1
    · exact .inr (Nat.lt_trans h1 (weight_of_step_onward h))

end LedgerText.Reading
