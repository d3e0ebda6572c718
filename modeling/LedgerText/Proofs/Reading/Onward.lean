import LedgerText.Proofs.Reading.Placed

/-!
# Steps without a finding

A step that comes to no finding does not change what is found next (`next_of_onward`). Blanks are
passed over in such steps, so in normal text the next finding is that of the reading behind them
(`next_of_skipsTo`).
-/

namespace LedgerText

/-- From a reader of normal text to a later one there are nothing but blanks. -/
inductive Reader.SkipsTo : Reader → Reader → Prop
  | refl (r : Reader) : SkipsTo r r
  | blank {r r' : Reader} (h : (r.lexeme .text).tag = .blank) (h' : SkipsTo (r.after .text) r') :
    SkipsTo r r'

namespace Reading

variable {text : String} {r r' : Reading}

/-! ## From step to step -/

/-- A finding is found where a step comes to it. -/
theorem next_of_found {finding : Finding} (hclosed : r.closed = false)
    (h : r.step = .found finding r') : r.next = (finding, r') := by
  rw [next, if_neg (by rw [hclosed]; decide)]
  split
  · next hs =>
    rw [h] at hs
    cases hs
    rfl
  · next hs =>
    rw [h] at hs
    cases hs

/-- A step without a finding does not change what is found. -/
theorem next_of_onward (hclosed : r.closed = false) (h : r.step = .onward r') :
    r.next = r'.next := by
  rw [next, if_neg (by rw [hclosed]; decide)]
  split
  · next hs =>
    rw [h] at hs
    cases hs
  · next hs =>
    rw [h] at hs
    cases hs
    rfl

/-! ## Readings of one file -/

/-- The reading `r'` reads the same file in the same mode as `r`, and the end of it was signalled as
often. -/
structure GoesOn (r r' : Reading) : Prop where
  options : r'.options = r.options
  encoding : r'.encoding = r.encoding
  mode : r'.mode = r.mode
  endCount : r'.endCount = r.endCount
  closed : r'.closed = r.closed
  filename : r'.tracker.filename = r.tracker.filename

namespace GoesOn

theorem refl (r : Reading) : GoesOn r r := ⟨rfl, rfl, rfl, rfl, rfl, rfl⟩

/-- Readings of all sources start in one way. -/
theorem start (source source' : Bytes) (options : Options) (filename encoding : String) :
    GoesOn (start source options filename encoding) (start source' options filename encoding) :=
  ⟨rfl, rfl, rfl, rfl, rfl, rfl⟩

/-- Reading on goes on in any mode. -/
theorem move (r : Reading) (m : Move) (mode : Mode) :
    GoesOn { r with mode } { r.move m with mode } := ⟨rfl, rfl, rfl, rfl, rfl, rfl⟩

theorem symm (h : GoesOn r r') : GoesOn r' r :=
  ⟨h.options.symm, h.encoding.symm, h.mode.symm, h.endCount.symm, h.closed.symm, h.filename.symm⟩

theorem trans {r₁ r₂ : Reading} (h₁ : GoesOn r r₁) (h₂ : GoesOn r₁ r₂) : GoesOn r r₂ where
  options := h₂.options.trans h₁.options
  encoding := h₂.encoding.trans h₁.encoding
  mode := h₂.mode.trans h₁.mode
  endCount := h₂.endCount.trans h₁.endCount
  closed := h₂.closed.trans h₁.closed
  filename := h₂.filename.trans h₁.filename

end GoesOn

/-- A step without a finding goes on in the same file. -/
theorem goesOn_of_step_onward (h : r.step = .onward r') : GoesOn { r with mode := r'.mode } r' := by
  unfold step at h
  split at h
  · unfold stepText at h
    dsimp only at h
    split at h <;> cases h <;> exact ⟨rfl, rfl, rfl, rfl, rfl, rfl⟩
  · unfold stepLiteral at h
    dsimp only at h
    split at h
    · cases h
      exact ⟨rfl, rfl, rfl, rfl, rfl, rfl⟩
    · cases h
      exact ⟨rfl, rfl, rfl, rfl, rfl, rfl⟩
    · split at h <;> cases h
      exact ⟨rfl, rfl, rfl, rfl, rfl, rfl⟩
    · cases h
    · cases h
  · cases h
    exact ⟨rfl, rfl, rfl, rfl, rfl, rfl⟩

/-! ## Blanks -/

/-- A step passes over a blank. -/
theorem step_blank (hmode : r.mode = .normal) (h : (r.reader.lexeme .text).tag = .blank) :
    r.step = .onward (r.move .text) := by
  rw [step, hmode]
  unfold stepText
  dsimp only
  rw [h]
  rfl

/-- The next finding is that of the reading behind the blanks. -/
theorem next_of_skipsTo {reader : Reader} (hmode : r.mode = .normal) (hclosed : r.closed = false)
    (h : Placed text r) (hskip : r.reader.SkipsTo reader) :
    ∃ r', r'.reader = reader ∧ Placed text r' ∧ GoesOn r r' ∧ r.next = r'.next := by
  generalize hr : r.reader = start at hskip
  induction hskip generalizing r with
  | refl => exact ⟨r, hr, h, .refl r, rfl⟩
  | blank hblank _ ih =>
    subst hr
    have hgoes : GoesOn r (r.move .text) := .move r .text r.mode
    obtain ⟨r', hreader, hplaced, hgoes', hnext⟩ :=
      ih (r := r.move .text) hmode hclosed (h.move .text) rfl
    refine ⟨r', hreader, hplaced, hgoes.trans hgoes', ?_⟩
    exact (next_of_onward hclosed (step_blank hmode hblank)).trans hnext

end Reading

end LedgerText
