import LedgerText.Proofs.Scanner.Trace

/-!
# Between calls

A call for a token leaves nothing behind of a string literal. Outside literals a reading has nothing
collected (`Tidy`), every step keeps that (`keepsTidy_step`), and a finding always ends the literal
that it is made of: it leaves a reading with nothing collected, in the mode that belongs to it
(`Tidy.next`). So between the operations of a session the scanner is never in a literal, and in
recovery only behind a call that came to input that no rule recognizes, whatever the builder
answered (`idle_after`). Whatever were left of a literal, nothing would be seen of it in what is
done later.
-/

namespace LedgerText

open Builder

/-- What no rule recognizes is a fault that names a byte. -/
theorem Finding.exists_of_isUnrecognized {finding : Finding} (h : finding.isUnrecognized = true) :
    ∃ byte text location, finding = .fault (.unrecognizedByte byte) text location := by
  unfold isUnrecognized at h
  split at h
  · exact ⟨_, _, _, rfl⟩
  · cases h

/-- Only input that no rule recognizes leads to recovery. -/
theorem Finding.modeAfter_eq_recovery_iff {finding : Finding} :
    finding.modeAfter = .recovery ↔ finding.isUnrecognized = true := by
  unfold modeAfter
  split <;> simp_all

namespace Reading

variable {r : Reading}

/-! ## Steps -/

/-- Nothing is collected outside a literal, and a closed reading is in normal text. -/
structure Tidy (r : Reading) : Prop where
  collected : r.mode ≠ .literal → r.buffer.bytes = []
  ofClosed : r.closed = true → r.mode = .normal

/-- A step leads on to a tidy reading, or to a finding behind which nothing is collected and the
mode is that of the finding. -/
def KeepsTidy : Step → Prop
  | .found finding next => next.mode = finding.modeAfter ∧ next.buffer.bytes = []
  | .onward next => next.Tidy

/-- An open reading is tidy if it has nothing collected outside a literal. -/
theorem tidy_of_open (hopen : r.closed = false) (h : r.mode ≠ .literal → r.buffer.bytes = []) :
    r.Tidy where
  collected := h
  ofClosed hclosed := absurd (hopen.symm.trans hclosed) Bool.false_ne_true

/-- A step in normal text keeps a reading tidy. -/
theorem keepsTidy_stepText (hopen : r.closed = false) (hmode : r.mode = .normal)
    (hempty : r.buffer.bytes = []) : KeepsTidy r.stepText := by
  have hsuits := Sense.suits_ofLexeme (r.reader.lexeme .text).tag
    (Utf8.toString (r.reader.text .text))
  unfold stepText
  dsimp only
  generalize Sense.ofLexeme (r.reader.lexeme .text).tag
    (Utf8.toString (r.reader.text .text)) = sense at hsuits
  cases sense with
  | passedOver => exact tidy_of_open hopen fun _ => hempty
  | endOfInput =>
    obtain ⟨-, hafter⟩ := (r.move .text).signalsEnd_endOfInput
      (r.tracker.locate (r.reader.text .text))
    exact ⟨hmode.trans hafter.symm, hempty⟩
  | opensLiteral => exact tidy_of_open hopen fun hliteral => absurd rfl hliteral
  | structural kind | terminal kind args => exact ⟨hmode, hempty⟩
  | fault cause =>
    obtain ⟨overflow, rfl⟩ := hsuits
    exact ⟨hmode, hempty⟩
  | unrecognized => exact ⟨rfl, hempty⟩

/-- A step in a literal collects more of it, or comes to a finding and leaves the literal. -/
theorem keepsTidy_stepLiteral (hopen : r.closed = false) (hmode : r.mode = .literal) :
    KeepsTidy r.stepLiteral := by
  have hcollect (buffer : TextBuffer) : KeepsTidy (.onward { r.move .literal with buffer }) :=
    tidy_of_open hopen fun hliteral => absurd hmode hliteral
  unfold stepLiteral
  dsimp only
  split
  · exact hcollect _
  · exact hcollect _
  · split
    · exact hcollect _
    · exact ⟨rfl, rfl⟩
  · exact ⟨rfl, rfl⟩
  · exact ⟨rfl, rfl⟩

/-- Every step keeps a reading tidy. -/
theorem keepsTidy_step (hopen : r.closed = false) (h : r.Tidy) : KeepsTidy r.step := by
  unfold step
  cases hmode : r.mode with
  | normal => exact keepsTidy_stepText hopen hmode (h.collected (by rw [hmode]; decide))
  | literal => exact keepsTidy_stepLiteral hopen hmode
  | recovery =>
    have hempty := h.collected (by rw [hmode]; decide)
    exact tidy_of_open hopen fun _ => hempty

/-! ## Findings -/

/-- Behind a finding nothing is collected, and the mode is that of the finding. -/
theorem Tidy.next (h : r.Tidy) :
    r.next.2.mode = r.next.1.modeAfter ∧ r.next.2.buffer.bytes = [] := by
  fun_induction Reading.next r with
  | case1 r hclosed =>
    have hmode := h.ofClosed hclosed
    obtain ⟨-, hafter⟩ := r.signalsEnd_endOfInput r.tracker.point
    exact ⟨hmode.trans hafter.symm, h.collected (by rw [hmode]; decide)⟩
  | case2 r hopen finding after hs =>
    have hkeeps := keepsTidy_step (Bool.eq_false_iff.2 hopen) h
    rwa [hs] at hkeeps
  | case3 r hopen after hs ih =>
    have hkeeps := keepsTidy_step (Bool.eq_false_iff.2 hopen) h
    rw [hs] at hkeeps
    exact ih hkeeps

/-- The reading rests between findings, and nothing is collected. -/
structure Bare (r : Reading) : Prop extends r.Rests where
  empty : r.buffer.bytes = []

/-- A bare reading is tidy. -/
theorem Bare.tidy (h : r.Bare) : r.Tidy := ⟨fun _ => h.empty, h.ofClosed⟩

/-- Behind a finding the reading is bare again. -/
theorem Bare.next (h : r.Bare) : r.next.2.Bare := by
  obtain ⟨hmode, hempty⟩ := h.tidy.next
  refine ⟨⟨?_, fun hclosed => ?_⟩, hempty⟩
  · rw [hmode]
    exact r.next.1.modeAfter_ne_literal
  · -- A closed reading finds the signal of the end.
    have hclose : r.closed = true := r.goesOn_next.closed.symm.trans hclosed
    rw [Reading.next, if_pos hclose]
    exact h.ofClosed hclose

/-- The reading with other remains of a literal: what was collected, and where it started. -/
def withRemains (r : Reading) (bytes : Bytes) (opening : Opening) : Reading :=
  { r with buffer := { r.buffer with bytes }, opening }

/-- Outside a literal it does not matter what remains of one. -/
theorem interchangeable_withRemains (h : r.mode ≠ .literal) (bytes : Bytes) (opening : Opening) :
    r.Interchangeable (r.withRemains bytes opening) where
  reader := ⟨rfl, rfl, rfl⟩
  tracker := rfl
  encoding := rfl
  mode := rfl
  endCount := rfl
  closed := rfl
  literalCapacity := rfl
  terminateLastLine := rfl
  room := rfl
  literal hliteral := absurd hliteral h

end Reading

namespace Session

variable {σ α : Type}

/-! ## Calls that come to unrecognized input -/

/-- The next call for a token comes to input that no rule recognizes. That error is reported, and
the outcome is the token that stands for it or the refusal of the report. -/
def MeetsUnrecognized (b : Builder σ α) (s : Session σ) : Prop :=
  ∃ byte location, s.calls b = [.report ⟨.unrecognizedByte byte, location⟩] ∧
    ((∃ token, s.outcome b = .ok token ∧ token.kind = .lexError ∧ token.location = location) ∨
      ∃ reason, s.outcome b = .error ⟨⟨.unrecognizedByte byte, location⟩, reason⟩)

/-- A call comes to such input where the reading finds it. -/
theorem meetsUnrecognized_iff (b : Builder σ α) (s : Session σ) :
    s.MeetsUnrecognized b ↔ s.scanner.reading.next.1.isUnrecognized = true := by
  constructor
  · rintro ⟨byte, location, hcalls, -⟩
    have hcall : .report ⟨.unrecognizedByte byte, location⟩ ∈ s.calls b := by
      rw [hcalls]
      exact List.mem_singleton_self _
    obtain ⟨text, hfinding⟩ := (Scanner.report_mem_calls_iff rfl rfl).1 hcall
    rw [hfinding]
    rfl
  · intro hunrecognized
    obtain ⟨byte, text, location, hfinding⟩ := Finding.exists_of_isUnrecognized hunrecognized
    have hreports := Scanner.reports_of_fault (Prod.ext hfinding rfl) b s.state
    refine ⟨byte, location, hreports.calls, ?_⟩
    rcases hanswer : b.report ⟨.unrecognizedByte byte, location⟩ s.state with ⟨reason | done, st'⟩
    · exact .inr ⟨reason, hreports.refused reason st' hanswer⟩
    · obtain ⟨token, htoken, hkind, -, hlocation, -⟩ := hreports.accepted st' hanswer
      exact .inl ⟨token, htoken, hkind, hlocation⟩

/-! ## Sessions -/

/-- The session with other remains of a literal. -/
def withRemains (s : Session σ) (bytes : Bytes) (opening : Opening) : Session σ :=
  { s with scanner := { s.scanner with reading := s.scanner.reading.withRemains bytes opening } }

/-- Outside a literal nothing is seen of what remains of one. -/
theorem trace_withRemains {s : Session σ} (h : s.scanner.reading.mode ≠ .literal) (bytes : Bytes)
    (opening : Opening) (steps : List (Builder σ α × Operation)) :
    (s.withRemains bytes opening).trace steps = s.trace steps := by
  have hsame : s.scanner.Interchangeable (s.withRemains bytes opening).scanner :=
    ⟨Reading.interchangeable_withRemains h bytes opening, rfl, rfl⟩
  exact trace_eq hsame s.state steps

/-- Between calls nothing is collected, and the reading is in normal text, or in recovery behind a
call that came to unrecognized input. -/
structure Idle (b : Builder σ α) (start : Session σ) (ops : List Operation) : Prop where
  mode : (start.after b ops).scanner.reading.mode ≠ .literal
  empty : (start.after b ops).scanner.reading.buffer.bytes = []
  recovery : (start.after b ops).scanner.reading.mode = .recovery ↔
    ∃ before, ops = before ++ [.next] ∧ (start.after b before).MeetsUnrecognized b
  /-- Whatever remained of a literal, nothing would be seen of it later. -/
  unseen : ∀ (bytes : Bytes) (opening : Opening) (steps : List (Builder σ α × Operation)),
    ((start.after b ops).withRemains bytes opening).trace steps = (start.after b ops).trace steps

variable {start : Session σ}

/-- Operations keep a reading bare. -/
theorem bare_after (b : Builder σ α) (h : start.scanner.reading.Bare) (ops : List Operation) :
    (start.after b ops).scanner.reading.Bare := by
  induction ops using List.reverseRecOn with
  | nil => exact h
  | append_singleton ops op ih =>
    rw [after_concat]
    cases op with
    | next =>
      show (Scanner.next b _ _).2.1.reading.Bare
      rw [Scanner.reading_next]
      exact ih.next
    | restart filename encoding => exact ⟨⟨Mode.noConfusion, fun _ => rfl⟩, rfl⟩
    | close => exact ⟨⟨Mode.noConfusion, fun _ => rfl⟩, rfl⟩

/-- A call leads to recovery exactly if it comes to unrecognized input. -/
theorem mode_next_eq_recovery_iff (b : Builder σ α) {s : Session σ} (h : s.scanner.reading.Bare) :
    (s.perform b .next).2.scanner.reading.mode = .recovery ↔ s.MeetsUnrecognized b := by
  have hreading : (s.perform b .next).2.scanner.reading = s.scanner.reading.next.2 :=
    Scanner.reading_next ..
  obtain ⟨hmode, -⟩ := h.tidy.next
  rw [hreading, hmode, Finding.modeAfter_eq_recovery_iff, meetsUnrecognized_iff]

/-- A session is in recovery exactly if its last operation was a call that came to unrecognized
input, if it started in normal text. -/
theorem mode_after_eq_recovery_iff (b : Builder σ α) (h : start.scanner.reading.Bare)
    (hmode : start.scanner.reading.mode = .normal) (ops : List Operation) :
    (start.after b ops).scanner.reading.mode = .recovery ↔
      ∃ before, ops = before ++ [.next] ∧ (start.after b before).MeetsUnrecognized b := by
  rcases List.eq_nil_or_concat' ops with rfl | ⟨before, op, rfl⟩
  · refine iff_of_false ?_ ?_
    · show start.scanner.reading.mode ≠ .recovery
      rw [hmode]
      decide
    · rintro ⟨before, hops, -⟩
      exact List.append_ne_nil_of_right_ne_nil before (List.cons_ne_nil _ _) hops.symm
  · have hlast : (∃ before', before ++ [op] = before' ++ [.next] ∧
        (start.after b before').MeetsUnrecognized b) ↔
        op = .next ∧ (start.after b before).MeetsUnrecognized b := by
      constructor
      · rintro ⟨before', hops, hmeets⟩
        obtain ⟨rfl, hop⟩ := List.append_inj' hops rfl
        exact ⟨List.singleton_inj.1 hop, hmeets⟩
      · rintro ⟨rfl, hmeets⟩
        exact ⟨before, rfl, hmeets⟩
    rw [hlast, after_concat]
    cases op with
    | next => exact (mode_next_eq_recovery_iff b (bare_after b h before)).trans (by simp)
    | restart filename encoding =>
      exact iff_of_false Mode.noConfusion fun h => Operation.noConfusion h.1
    | close => exact iff_of_false Mode.noConfusion fun h => Operation.noConfusion h.1

/-- In every session, whatever the source, the options and the builder, the scanner is idle between
the operations. -/
theorem idle_after (source : Bytes) (filename : String) (options : Options) (b : Builder σ α)
    (st : σ) (ops : List Operation) :
    let start : Session σ := ⟨.start source filename options, st⟩
    Idle b start ops := by
  intro start
  have hstart : start.scanner.reading.Bare := ⟨⟨Mode.noConfusion, fun _ => rfl⟩, rfl⟩
  have hbare := bare_after b hstart ops
  exact
    { mode := hbare.notLiteral
      empty := hbare.empty
      recovery := mode_after_eq_recovery_iff b hstart rfl ops
      unseen := trace_withRemains hbare.notLiteral }

end Session

end LedgerText
