import LedgerText.Proofs.Reading.Finds

/-!
# Outcomes of calls

What can be seen of one call for a token: its outcome, which is a token or an error whose report was
refused, and the calls to the builder. Both are told by what was found. The outcome and all calls
have the location of the finding (`location_next`, `location_of_mem_calls`), a token has its text
(`text_next`), the builder is asked for exactly the terminals (`build_mem_calls_iff`), and told of
exactly the faults, apart from those that are its own answers (`report_mem_calls_iff`).
-/

namespace LedgerText

/-- Whether a fault is an answer of the builder, and not found in the source. -/
def Fault.isAnswer : Fault → Bool
  | .builderFailure _ | .builderAbsentResult _ => true
  | _ => false

/-- Where an outcome stands: the location of the token, or of the error in its place. -/
def Outcome.location {α : Type} : Outcome α → Location
  | .ok token => token.location
  | .error refused => refused.error.location

/-- Whether an outcome signals the end of the source. -/
def Outcome.signalsEnd {α : Type} : Outcome α → Bool
  | .ok token => token.kind = .endOfFile || token.flags.synthetic
  | .error _ => false

namespace Builder

variable {σ α : Type} {b : Builder σ α} {request : Request} {st st' : σ} {fault : Fault}
  {value : α}

/-- Where a call to the builder is about. -/
def Call.location : Call → Location
  | .build request => request.location
  | .report error => error.location

/-- A value that is not made is a fault of the builder. -/
theorem isAnswer_of_construct (h : b.construct request st = (.error fault, st')) :
    fault.isAnswer = true := by
  unfold construct at h
  split at h
  · cases h
  · cases h
    rfl
  · cases h
    rfl

/-- A value that is made is the builder's answer. -/
theorem build_of_construct (h : b.construct request st = (.ok value, st')) :
    (b.build request st).1 = .ok (some value) := by
  unfold construct at h
  split at h
  · next answer st₁ hbuild =>
    cases h
    rw [hbuild]
  · cases h
  · cases h

end Builder

namespace Scanner

open Builder

variable {σ α : Type} {s : Scanner} {r : Reading} {finding : Finding} {token : Token α}

/-! ## The outcome -/

/-- A rejected lexeme stands where the fault does. -/
theorem location_reject (b : Builder σ α) (s : Scanner) (fault : Fault) (text : String)
    (location : Location) (st : σ) :
    Outcome.location (s.reject b fault text location st).1 = location := by
  unfold reject Reports.submit
  rcases b.report ⟨fault, location⟩ st with ⟨answer, st'⟩
  rcases answer with reason | -
  · rfl
  · rfl

/-- The token of a rejected lexeme. -/
theorem token_of_reject {b : Builder σ α} {fault : Fault} {text : String} {location : Location}
    {st : σ} (h : (s.reject b fault text location st).1 = .ok token) :
    token = ⟨.lexError, text, location, none, { lineStart := s.sinceLineStart = 0 }⟩ := by
  unfold reject Reports.submit at h
  generalize b.report ⟨fault, location⟩ st = entry at h
  obtain ⟨reason | done, st'⟩ := entry
  · cases h
  · rw [← Except.ok.inj h]
    simp

/-- The outcome stands where the finding does. -/
theorem location_next (h : s.reading.next = (finding, r)) (b : Builder σ α) (st : σ) :
    Outcome.location (s.next b st).1 = finding.location := by
  rw [next_eq_settle h]
  unfold settle
  cases finding with
  | structural kind text location flags => rfl
  | terminal request text flags =>
    dsimp only
    split
    · rfl
    · exact location_reject ..
  | fault cause text location => exact location_reject ..

/-- A token has the text of the finding. -/
theorem text_next (h : s.reading.next = (finding, r)) {b : Builder σ α} {st : σ}
    (htoken : (s.next b st).1 = .ok token) : token.text = finding.text := by
  rw [next_eq_settle h] at htoken
  unfold settle at htoken
  cases finding with
  | structural kind text location flags =>
    cases htoken
    rfl
  | terminal request text flags =>
    dsimp only at htoken
    split at htoken
    · cases htoken
      rfl
    · rw [token_of_reject htoken]
      rfl
  | fault cause text location =>
    rw [token_of_reject htoken]
    rfl

/-! ## The calls -/

/-- All calls to the builder are about the place of the finding. -/
theorem location_of_mem_calls (h : s.reading.next = (finding, r)) {b : Builder σ α} {st : σ}
    {call : Call} (hcall : call ∈ s.calls b st) : call.location = finding.location := by
  rw [calls_eq, h] at hcall
  cases finding with
  | structural kind text location flags => exact absurd hcall List.not_mem_nil
  | terminal request text flags =>
    unfold callsFor at hcall
    dsimp only at hcall
    split at hcall
    · rw [List.mem_singleton.1 hcall]
      rfl
    · rcases List.mem_cons.1 hcall with rfl | hcall
      · rfl
      · rw [List.mem_singleton.1 hcall]
        rfl
  | fault cause text location =>
    rw [List.mem_singleton.1 hcall]
    rfl

/-- The builder is asked for a terminal, and for nothing else. -/
theorem build_mem_calls_iff (h : s.reading.next = (finding, r)) {b : Builder σ α} {st : σ}
    {request : Request} :
    .build request ∈ s.calls b st ↔ ∃ text flags, finding = .terminal request text flags := by
  rw [calls_eq, h]
  cases finding with
  | structural kind text location flags => simp [callsFor]
  | terminal request' text flags =>
    unfold callsFor
    dsimp only
    split <;> simp [eq_comm]
  | fault cause text location => simp [callsFor]

/-- The builder is told of a fault that is found, and of no other but its own answers. -/
theorem report_mem_calls_iff (h : s.reading.next = (finding, r)) {b : Builder σ α} {st : σ}
    {error : LexicalError} (herror : error.fault.isAnswer = false) :
    .report error ∈ s.calls b st ↔ ∃ text, finding = .fault error.fault text error.location := by
  rw [calls_eq, h]
  cases finding with
  | structural kind text location flags => simp [callsFor]
  | terminal request text flags =>
    unfold callsFor
    dsimp only
    split
    · simp
    · next fault hconstruct =>
      have hfault := isAnswer_of_construct (Prod.ext hconstruct rfl)
      simp only [List.mem_cons, reduceCtorEq, Call.report.injEq, List.not_mem_nil, or_false,
        false_or, exists_false, iff_false]
      rintro rfl
      rw [herror] at hfault
      cases hfault
  | fault cause text location =>
    obtain ⟨fault, place⟩ := error
    simp [callsFor, eq_comm]

/-! ## The end of the source -/

variable {text filename : String} {before lexeme after : List Char}

/-- The end is signalled where it is found. -/
theorem signalsEnd_next (h : s.reading.next = (finding, r))
    (hfinds : Reading.Finds text filename before lexeme after finding) (b : Builder σ α) (st : σ) :
    Outcome.signalsEnd (s.next b st).1 = finding.signalsEnd := by
  have hreject : ∀ (s : Scanner) (cause : Fault) (text : String) (location : Location) (st : σ),
      Outcome.signalsEnd (s.reject b cause text location st).1 = false := by
    intro s cause text location st
    cases houtcome : (s.reject b cause text location st).1 with
    | ok token =>
      rw [token_of_reject houtcome]
      rfl
    | error refused => rfl
  rw [next_eq_settle h]
  unfold settle
  cases finding with
  | structural kind text location flags => rfl
  | terminal request text flags =>
    -- No terminal is of the line structure.
    have hterminal : request.kind ≠ .endOfFile ∧ flags.synthetic = false := by
      cases hfinds with
      | spelled lineStart hne hquote hlen hspells =>
        cases hspells with
        | terminal kind args hvalue hkind =>
          refine ⟨?_, rfl⟩
          rintro rfl
          cases hvalue
      | string lines encoding hps hvalid => exact ⟨Kind.noConfusion, rfl⟩
    dsimp only
    split
    · simp [Outcome.signalsEnd, emit, hterminal, Finding.signalsEnd]
    · exact hreject ..
  | fault cause text location => exact hreject ..

end Scanner

end LedgerText
