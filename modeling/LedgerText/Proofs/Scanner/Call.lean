import LedgerText.Scanner
import Mathlib.Logic.Basic

/-!
# Calls to the builder

What one call for a token asks of the builder and tells it (`calls`), by what is found. A terminal
is asked for once, and only a builder that makes no value of it is told of an error (`Asks`). A
fault is reported once, and the builder is not asked for anything (`Reports`). To keep a record of
the calls changes nothing else (`next_recording`).
-/

namespace LedgerText

namespace Builder

/-- The request that a call makes, if it makes one. -/
def Call.request? : Call → Option Request
  | .build request => some request
  | .report _ => none

end Builder

namespace Scanner

open Builder

variable {σ α : Type} {s : Scanner} {b : Builder σ α} {st : σ} {r : Reading} {request : Request}
  {text : String} {flags : Flags} {fault : Fault} {location : Location}

/-- The calls to the builder in the next call for a token. -/
def calls (s : Scanner) (b : Builder σ α) (st : σ) : List Call :=
  (s.next b.recording (st, [])).2.2.2

/-! ## Records -/

/-- A request under a record is answered as without, and recorded. -/
theorem construct_recording (b : Builder σ α) (request : Request) (st : σ) (log : List Call) :
    b.recording.construct request (st, log) =
      ((b.construct request st).1, ((b.construct request st).2, log ++ [.build request])) := by
  have hbuild : b.recording.build request (st, log) =
      ((b.build request st).1, ((b.build request st).2, log ++ [.build request])) := rfl
  rw [construct, construct, hbuild]
  rcases b.build request st with ⟨answer, st'⟩
  rcases answer with message | value
  · rfl
  · rcases value with - | value
    · rfl
    · rfl

/-- A fault under a record is reported as without, and recorded. -/
theorem reject_recording (b : Builder σ α) (s : Scanner) (fault : Fault) (text : String)
    (location : Location) (st : σ) (log : List Call) :
    s.reject b.recording fault text location (st, log) =
      ((s.reject b fault text location st).1, (s.reject b fault text location st).2.1,
        ((s.reject b fault text location st).2.2, log ++ [.report ⟨fault, location⟩])) := by
  have hreport : b.recording.report ⟨fault, location⟩ (st, log) =
      ((b.report ⟨fault, location⟩ st).1,
        ((b.report ⟨fault, location⟩ st).2, log ++ [.report ⟨fault, location⟩])) := rfl
  rw [reject, reject, Reports.submit, Reports.submit, hreport]
  rcases b.report ⟨fault, location⟩ st with ⟨answer, st'⟩
  rcases answer with reason | -
  · rfl
  · rfl

/-- The calls that a finding leads to. -/
def callsFor (b : Builder σ α) (st : σ) : Finding → List Call
  | .structural _ _ _ _ => []
  | .terminal request _ _ =>
    match (b.construct request st).1 with
    | .ok _ => [.build request]
    | .error fault => [.build request, .report ⟨fault, request.location⟩]
  | .fault fault _ location => [.report ⟨fault, location⟩]

/-- What becomes of a finding is the same under a record, which gains the calls for the finding. -/
theorem settle_recording (b : Builder σ α) (s : Scanner) (finding : Finding) (st : σ)
    (log : List Call) :
    s.settle b.recording finding (st, log) =
      ((s.settle b finding st).1, (s.settle b finding st).2.1,
        ((s.settle b finding st).2.2, log ++ callsFor b st finding)) := by
  cases finding with
  | structural kind text location flags =>
    rw [callsFor, List.append_nil]
    rfl
  | terminal request text flags =>
    unfold settle
    dsimp only
    rw [construct_recording, callsFor]
    rcases b.construct request st with ⟨answer, st'⟩
    rcases answer with fault | value
    · dsimp only
      rw [reject_recording, List.append_assoc]
      rfl
    · rfl
  | fault fault text location => exact reject_recording b s fault text location st log

/-- The calls are those for what is found. -/
theorem calls_eq (s : Scanner) (b : Builder σ α) (st : σ) :
    s.calls b st = callsFor b st s.reading.next.1 := by
  unfold calls next
  dsimp only
  rw [settle_recording, List.nil_append]

/-- The outcome is what becomes of what is found. -/
theorem next_eq_settle {finding : Finding} (h : s.reading.next = (finding, r)) (b : Builder σ α)
    (st : σ) : s.next b st = ({ s with reading := r } : Scanner).settle b finding st := by
  rw [next, h]

/-- To keep a record of the calls changes nothing else. -/
theorem next_recording (b : Builder σ α) (s : Scanner) (st : σ) (log : List Call) :
    s.next b.recording (st, log) =
      ((s.next b st).1, (s.next b st).2.1, ((s.next b st).2.2, log ++ s.calls b st)) := by
  rw [calls_eq]
  unfold next
  dsimp only
  rw [settle_recording]

/-! ## The line structure -/

/-- A token of the line structure is made without the builder. -/
theorem next_of_structural {kind : Kind}
    (h : s.reading.next = (.structural kind text location flags, r)) (b : Builder σ α) (st : σ) :
    ∃ token s', s.next b st = (.ok token, s', st) ∧ s'.reading = r ∧ token.kind = kind ∧
      token.text = text ∧ token.location = location ∧ token.value = none ∧
      token.flags.synthetic = flags.synthetic := by
  rw [next_eq_settle h]
  exact ⟨_, _, rfl, rfl, rfl, rfl, rfl, rfl, rfl⟩

/-! ## Terminals -/

/-- In the next call for a token the builder is asked once. If it answers with a value it is told of
nothing, and the token has that value. If not, it is told only of the fault that its answer is. -/
structure Asks (s : Scanner) (b : Builder σ α) (st : σ) (request : Request) (text : String)
    (multiLine : Bool) : Prop where
  /-- There is one request. -/
  once : (s.calls b st).filterMap Call.request? = [request]
  /-- A value makes a token. -/
  answered : ∀ value st', b.build request st = (.ok (some value), st') →
    s.calls b st = [.build request] ∧ (s.next b st).2.2 = st' ∧
      ∃ token, (s.next b st).1 = .ok token ∧ token.kind = request.kind ∧ token.text = text ∧
        token.location = request.location ∧ token.value = some value ∧
        token.flags.multiLine = multiLine
  /-- Another answer is a fault of the lexeme. -/
  declined : ∀ fault st', b.construct request st = (.error fault, st') →
    s.calls b st = [.build request, .report ⟨fault, request.location⟩]

/-- A terminal is asked for. -/
theorem asks_of_terminal (h : s.reading.next = (.terminal request text flags, r))
    (b : Builder σ α) (st : σ) : s.Asks b st request text flags.multiLine where
  once := by
    rw [calls_eq, h, callsFor]
    rcases b.construct request st with ⟨answer, st'⟩
    rcases answer with fault | value
    · rfl
    · rfl
  answered value st' hb := by
    have hconstruct : b.construct request st = (.ok value, st') := by
      rw [construct, hb]
    rw [next_eq_settle h, settle, calls_eq, h, callsFor, hconstruct]
    exact ⟨rfl, rfl, _, rfl, rfl, rfl, rfl, rfl, rfl⟩
  declined fault st' hb := by rw [calls_eq, h, callsFor, hb]

/-! ## Faults -/

/-- In the next call for a token an error is reported, and the builder is asked for nothing. If the
report is accepted there is a token of an error, and if not the refusal. -/
structure Reports (s : Scanner) (b : Builder σ α) (st : σ) (error : LexicalError) (text : String) :
    Prop where
  /-- There is no call but the report. -/
  calls : s.calls b st = [.report error]
  /-- An accepted report makes a token. -/
  accepted : ∀ st', b.report error st = (.ok (), st') →
    ∃ token, (s.next b st).1 = .ok token ∧ token.kind = .lexError ∧ token.text = text ∧
      token.location = error.location ∧ token.value = none
  /-- A refused report makes none. -/
  refused : ∀ reason st', b.report error st = (.error reason, st') →
    (s.next b st).1 = .error ⟨error, reason⟩

/-- A fault is reported. -/
theorem reports_of_fault (h : s.reading.next = (.fault fault text location, r)) (b : Builder σ α)
    (st : σ) : s.Reports b st ⟨fault, location⟩ text where
  calls := by rw [calls_eq, h, callsFor]
  accepted st' hb := by
    rw [next_eq_settle h, settle, reject, Reports.submit, hb]
    exact ⟨_, rfl, rfl, rfl, rfl, rfl⟩
  refused reason st' hb := by
    rw [next_eq_settle h, settle, reject, Reports.submit, hb]
    rfl

end Scanner

end LedgerText
