import LedgerText.Proofs.Reading.Found
import LedgerText.Proofs.Scanner.History

/-!
# What passes between a scanner and its builder

In one call for a token a scanner asks its builder for one value at most, and reports one error at
most: nothing is asked for a token of the line structure, a value that is made ends the call, and an
error ends it too, be it one of the source or the builder's own answer (`Exchange`). No call goes
any other way (`exchange_next`).

So a token has a value exactly if its kind is one that has values, and the errors that a scanner
counts are those that were reported since its start, whether the builder accepted them or not
(`exchanges`).
-/

namespace LedgerText

open Builder

/-- Whether a call to a builder is the report of an error. -/
def Builder.Call.isReport : Call → Bool
  | .report _ => true
  | .build _ => false

namespace Scanner

variable {σ α : Type} {b : Builder σ α} {st st' : σ} {error : LexicalError} {outcome : Outcome α}

/-! ## Definitions -/

/-- The report of an error, made of a builder in the state `st`, ends a call. If it is accepted
there is a token of an error in the place of the error, and if it is refused there is none. -/
inductive EndsInReport (b : Builder σ α) (error : LexicalError) (st : σ) : Outcome α → σ → Prop
  | accepted {token : Token α} {st' : σ} (hanswer : b.report error st = (.ok (), st'))
    (hkind : token.kind = .lexError) (hlocation : token.location = error.location)
    (hvalue : token.value = none) : EndsInReport b error st (.ok token) st'
  | refused {reason : String} {st' : σ} (hanswer : b.report error st = (.error reason, st')) :
    EndsInReport b error st (.error ⟨error, reason⟩) st'

/-- The calls to a builder in the state `st` during one call for a token, the outcome of that call,
and the builder's state after it. -/
inductive Exchange (b : Builder σ α) (st : σ) : List Call → Outcome α → σ → Prop
  /-- A token of the line structure is made without the builder. -/
  | silent {token : Token α} (hkind : token.kind.isStructural = true)
    (herror : token.kind ≠ .lexError) (hvalue : token.value = none) : Exchange b st [] (.ok token) st
  /-- The builder makes the value of a token. -/
  | made {request : Request} {value : α} {st' : σ} {token : Token α}
    (hrequest : request.kind.isStructural = false)
    (hbuild : b.build request st = (.ok (some value), st')) (hkind : token.kind = request.kind)
    (hlocation : token.location = request.location) (hvalue : token.value = some value) :
    Exchange b st [.build request] (.ok token) st'
  /-- The builder fails, and is told so. -/
  | failed {request : Request} {message : String} {st₁ st' : σ} {outcome : Outcome α}
    (hrequest : request.kind.isStructural = false)
    (hbuild : b.build request st = (.error message, st₁))
    (hreport : EndsInReport b ⟨.builderFailure message, request.location⟩ st₁ outcome st') :
    Exchange b st [.build request, .report ⟨.builderFailure message, request.location⟩] outcome st'
  /-- The builder makes no value, and is told so. -/
  | absent {request : Request} {st₁ st' : σ} {outcome : Outcome α}
    (hrequest : request.kind.isStructural = false) (hbuild : b.build request st = (.ok none, st₁))
    (hreport : EndsInReport b ⟨.builderAbsentResult request.kind, request.location⟩ st₁ outcome
      st') :
    Exchange b st [.build request, .report ⟨.builderAbsentResult request.kind, request.location⟩]
      outcome st'
  /-- The builder is told of an error of the source. -/
  | fault {error : LexicalError} {outcome : Outcome α} {st' : σ}
    (hfault : error.fault.isAnswer = false) (hreport : EndsInReport b error st outcome st') :
    Exchange b st [.report error] outcome st'

/-! ## One call -/

/-- To reject a lexeme ends a call in a report. -/
theorem endsInReport_reject (b : Builder σ α) (s : Scanner) (fault : Fault) (text : String)
    (location : Location) (st : σ) :
    EndsInReport b ⟨fault, location⟩ st (s.reject b fault text location st).1
      (s.reject b fault text location st).2.2 := by
  unfold reject Reports.submit
  rcases hanswer : b.report ⟨fault, location⟩ st with ⟨reason | done, st'⟩
  · exact .refused hanswer
  · exact .accepted hanswer rfl rfl rfl

/-- Every call for a token is one of the exchanges. -/
theorem exchange_next (s : Scanner) (b : Builder σ α) (st : σ) :
    Exchange b st (s.calls b st) (s.next b st).1 (s.next b st).2.2 := by
  have hproper := s.reading.isProper_next
  generalize hnext : s.reading.next = entry at hproper
  obtain ⟨finding, r⟩ := entry
  rw [calls_eq, hnext, next_eq_settle hnext]
  cases finding with
  | structural kind text location flags => exact .silent hproper.1 hproper.2.1 rfl
  | fault cause text location => exact .fault hproper (endsInReport_reject ..)
  | terminal request text flags =>
    -- The builder fails, makes no value or makes one.
    unfold settle callsFor construct
    dsimp only
    rcases hbuild : b.build request st with ⟨message | value, st₁⟩
    · exact .failed hproper.1 hbuild (endsInReport_reject ..)
    · cases value with
      | none => exact .absent hproper.1 hbuild (endsInReport_reject ..)
      | some value => exact .made hproper.1 hbuild rfl rfl rfl

/-- A token has a value exactly if its kind has values. -/
theorem Exchange.value_isSome_iff {calls : List Call} {token : Token α}
    (h : Exchange b st calls (.ok token) st') :
    token.value.isSome = true ↔ token.kind.isStructural = false := by
  -- A token that comes of a report is of an error, and has no value.
  have hreport : ∀ {error : LexicalError} {st₁ : σ}, EndsInReport b error st₁ (.ok token) st' →
      (token.value.isSome = true ↔ token.kind.isStructural = false) := by
    rintro error st₁ (⟨hanswer, hkind, hlocation, hvalue⟩)
    rw [hkind, hvalue]
    exact ⟨Bool.noConfusion, Bool.noConfusion⟩
  cases h with
  | silent hkind herror hvalue =>
    rw [hkind, hvalue]
    exact ⟨Bool.noConfusion, Bool.noConfusion⟩
  | made hrequest hbuild hkind hlocation hvalue =>
    rw [hkind, hvalue, hrequest]
    exact ⟨fun _ => rfl, fun _ => rfl⟩
  | failed hrequest hbuild hends => exact hreport hends
  | absent hrequest hbuild hends => exact hreport hends
  | fault hfault hends => exact hreport hends

/-! ## Counting the errors -/

/-- To reject a lexeme counts one error. -/
theorem count_reject (b : Builder σ α) (s : Scanner) (fault : Fault) (text : String)
    (location : Location) (st : σ) :
    (s.reject b fault text location st).2.1.reports.count = s.reports.count + 1 := by
  unfold reject Reports.submit
  rcases b.report ⟨fault, location⟩ st with ⟨reason | done, st'⟩
  · rfl
  · rfl

/-- A call for a token counts the errors that it reports. -/
theorem count_next (s : Scanner) (b : Builder σ α) (st : σ) :
    (s.next b st).2.1.reports.count = s.reports.count + (s.calls b st).countP Call.isReport := by
  generalize hnext : s.reading.next = entry
  obtain ⟨finding, r⟩ := entry
  rw [calls_eq, hnext, next_eq_settle hnext]
  cases finding with
  | structural kind text location flags => rfl
  | fault cause text location => exact count_reject ..
  | terminal request text flags =>
    unfold settle callsFor
    dsimp only
    rcases b.construct request st with ⟨fault | value, st₁⟩
    · exact count_reject ..
    · rfl

end Scanner

/-! ## Runs -/

namespace Session

variable {σ α : Type}

/-- The errors that a scanner counts are those that it reported since its start. -/
theorem count_after (b : Builder σ α) {s : Session σ} (hs : s.scanner.reports.count = 0)
    (ops : List Operation) : (s.after b ops).scanner.reports.count =
      ((s.history b ops).flatMap Event.calls).countP Call.isReport := by
  induction ops using List.reverseRecOn with
  | nil => exact hs
  | append_singleton ops op ih =>
    rw [after_concat, history_concat]
    cases op with
    | next =>
      have hcount : ((s.after b ops).perform b .next).2.scanner.reports.count =
          (s.after b ops).scanner.reports.count +
            ((s.after b ops).calls b).countP Call.isReport := Scanner.count_next ..
      rw [hcount, ih, remember, List.flatMap_append, List.countP_append]
      simp [Event.calls]
    | restart filename encoding => rfl
    | close =>
      rw [remember, List.flatMap_append, List.countP_append, ← ih]
      rfl

/-- Every call for a token is an exchange with the builder that asks for one value at most and
reports one error at most. So a token has a value exactly if its kind has values, and the errors
that are counted are those that were reported since the start, the refused ones among them. -/
theorem exchanges (source : Bytes) (filename : String) (options : Options) (b : Builder σ α) :
    (∀ (s : Scanner) (st : σ),
      Scanner.Exchange b st (s.calls b st) (s.next b st).1 (s.next b st).2.2) ∧
    ∀ (st : σ) (ops : List Operation),
      let start : Session σ := ⟨.start source filename options, st⟩
      (∀ token, (start.after b ops).outcome b = .ok token →
        (token.value.isSome = true ↔ token.kind.isStructural = false)) ∧
      (start.after b ops).scanner.reports.count =
        ((start.history b ops).flatMap Event.calls).countP Call.isReport := by
  refine ⟨fun s st => s.exchange_next b st, ?_⟩
  intro st ops start
  refine ⟨fun token htoken => ?_, count_after b rfl ops⟩
  have hexchange := (start.after b ops).scanner.exchange_next b (start.after b ops).state
  rw [show ((start.after b ops).scanner.next b (start.after b ops).state).1 = .ok token from
    htoken] at hexchange
  exact hexchange.value_isSome_iff

end Session

end LedgerText
