import LedgerText.Proofs.Reading.Found
import LedgerText.Scanner.Session

/-!
# The builder does not touch the scan

Two sessions that do the same operations on one scanner, each with a builder of its own, always
agree on the reading: on the offset, the mode, the line and column, the signals of the end, and the
room for literals (`reading_after`). So the next call of either is about the same lexeme, and tells
its builder of the same fault, if there is one (`twins_of_reading`). Only what a builder answers
tells them apart. A value that is not made costs the token its kind, and a report that is refused
costs the call its token, so that it is not counted on its line (`RefusedOnLine`); the end of the
line makes up for that (`sinceLineStart_or_refused`).
-/

namespace LedgerText

open Builder

/-! ## Kinds of terminals -/

namespace Reading

/-- A finding asks for nothing of the line structure, and marks nothing of it. -/
def AsksProperly : Finding → Prop
  | .terminal request _ flags =>
    request.kind.isStructural = false ∧ flags.lineStart = false ∧ flags.synthetic = false
  | _ => True

/-- Nothing of the line structure is ever asked for. -/
theorem asksProperly_next (r : Reading) : AsksProperly r.next.1 := by
  have hproper := r.isProper_next
  cases hfinding : r.next.1 with
  | structural kind text location flags | fault cause text location => trivial
  | terminal request text flags =>
    rw [hfinding] at hproper
    exact hproper

end Reading

/-! ## What becomes of a finding -/

namespace Scanner

variable {σ α : Type} {s : Scanner} {b : Builder σ α} {st : σ} {r : Reading} {finding : Finding}
  {token : Token α}

/-- The builder makes no value in the next call for a token. -/
def BuildFails (b : Builder σ α) (s : Scanner) (st : σ) : Prop :=
  ∃ error, error.fault.isAnswer = true ∧ .report error ∈ s.calls b st

/-- The token that a finding becomes: a terminal has the value that the builder makes, and a fault,
like a terminal without a value, becomes the token of an error. -/
inductive Becomes (b : Builder σ α) (s : Scanner) (st : σ) : Finding → Token α → Prop
  | structural (kind : Kind) (text : String) (location : Location) (flags : Flags) :
    Becomes b s st (.structural kind text location flags) ⟨kind, text, location, none,
      { flags with
        lineStart := flags.lineStart || (s.sinceLineStart = 0 && kind != .endOfFile) }⟩
  | made {request : Request} {text : String} {flags : Flags} {value : α}
    (hkind : request.kind.isStructural = false) (hsynthetic : flags.synthetic = false)
    (hvalue : (b.build request st).1 = .ok (some value)) (hmade : ¬s.BuildFails b st) :
    Becomes b s st (.terminal request text flags) ⟨request.kind, text, request.location, some value,
      { flags with lineStart := s.sinceLineStart = 0 }⟩
  | failed {request : Request} {text : String} {flags : Flags}
    (hkind : request.kind.isStructural = false) (hfails : s.BuildFails b st) :
    Becomes b s st (.terminal request text flags)
      ⟨.lexError, text, request.location, none, { lineStart := s.sinceLineStart = 0 }⟩
  | fault (fault : Fault) (text : String) (location : Location) :
    Becomes b s st (.fault fault text location)
      ⟨.lexError, text, location, none, { lineStart := s.sinceLineStart = 0 }⟩

/-- A token ends the line exactly if it was found as the end of the line. -/
theorem Becomes.endOfLine_iff (h : Becomes b s st finding token) : token.kind = .endOfLine ↔
    ∃ text location flags, finding = .structural .endOfLine text location flags := by
  cases h with
  | structural kind text location flags =>
    constructor
    · rintro rfl
      exact ⟨text, location, flags, rfl⟩
    · rintro ⟨_, _, _, heq⟩
      cases heq
      rfl
  | made hkind hsynthetic hvalue hmade =>
    constructor
    · intro heq
      have hline : Kind.isStructural .endOfLine = false := heq ▸ hkind
      cases hline
    · rintro ⟨_, _, _, heq⟩
      cases heq
  | failed hkind hfails => simp
  | fault cause text location => simp

/-- A token is what the finding becomes. -/
theorem becomes_of_next (h : s.reading.next = (finding, r)) (htoken : (s.next b st).1 = .ok token) :
    Becomes b s st finding token := by
  have hproper := s.reading.asksProperly_next
  have hcalls := s.calls_eq b st
  rw [h] at hproper hcalls
  rw [next_eq_settle h] at htoken
  unfold settle at htoken
  cases finding with
  | structural kind text location flags =>
    cases htoken
    exact .structural kind text location flags
  | fault cause text location =>
    rw [token_of_reject htoken]
    exact .fault cause text location
  | terminal request text flags =>
    obtain ⟨hkind, hline, hsynthetic⟩ := hproper
    unfold callsFor at hcalls
    dsimp only at htoken hcalls
    cases hconstruct : b.construct request st with
    | mk answer st' =>
      rw [hconstruct] at hcalls htoken
      cases answer with
      | ok value =>
        have hne : (request.kind != .endOfFile) = true := by
          rw [bne_iff_ne]
          rintro heq
          rw [heq] at hkind
          cases hkind
        have hflags : ({ flags with
            lineStart := flags.lineStart || (s.sinceLineStart = 0 && request.kind != .endOfFile) } :
              Flags) = { flags with lineStart := s.sinceLineStart = 0 } := by
          rw [hline, hne, Bool.false_or, Bool.and_true]
        have hemit : token = ⟨request.kind, text, request.location, some value, { flags with
            lineStart := flags.lineStart ||
              (s.sinceLineStart = 0 && request.kind != .endOfFile) }⟩ :=
          (Except.ok.inj htoken).symm
        have hmade : ¬s.BuildFails b st := by
          rintro ⟨error, -, hreport⟩
          rw [hcalls] at hreport
          cases List.mem_singleton.1 hreport
        rw [hemit, hflags]
        exact .made hkind hsynthetic (build_of_construct hconstruct) hmade
      | error fault =>
        have hreport : .report ⟨fault, request.location⟩ ∈ s.calls b st := by
          rw [hcalls]
          exact List.mem_cons_of_mem _ (List.mem_singleton_self _)
        have hreject : (({ s with reading := r } : Scanner).reject b fault text request.location
          st').1 = .ok token := htoken
        rw [token_of_reject hreject]
        exact .failed hkind ⟨_, isAnswer_of_construct hconstruct, hreport⟩

/-- A rejected lexeme counts on its line if there is a token for it. -/
theorem sinceLineStart_reject (b : Builder σ α) (s : Scanner) (fault : Fault) (text : String)
    (location : Location) (st : σ) :
    (s.reject b fault text location st).2.1.sinceLineStart =
      match (s.reject b fault text location st).1 with
      | .ok token => if token.kind = .endOfLine then 0 else Count.clamp (s.sinceLineStart + 1)
      | .error _ => s.sinceLineStart := by
  unfold reject
  split <;> rfl

/-- How many tokens there are on the line after the next call is told by its outcome. -/
theorem sinceLineStart_next (b : Builder σ α) (s : Scanner) (st : σ) :
    (s.next b st).2.1.sinceLineStart =
      match (s.next b st).1 with
      | .ok token => if token.kind = .endOfLine then 0 else Count.clamp (s.sinceLineStart + 1)
      | .error _ => s.sinceLineStart := by
  unfold next settle
  dsimp only
  split
  · rfl
  · split
    · rfl
    · exact sinceLineStart_reject ..
  · exact sinceLineStart_reject ..

end Scanner

/-! ## Twins -/

namespace Session

variable {σ α σ₁ α₁ σ₂ α₂ : Type}

/-- The session after operations. -/
def after (b : Builder σ α) (s : Session σ) (ops : List Operation) : Session σ :=
  ops.foldl (fun s op => (s.perform b op).2) s

/-- The outcome of the next call for a token. -/
def outcome (b : Builder σ α) (s : Session σ) : Outcome α := (s.scanner.next b s.state).1

/-- The calls to the builder in the next call for a token. -/
def calls (b : Builder σ α) (s : Session σ) : List Call := s.scanner.calls b s.state

/-- The builder makes no value in the next call for a token. -/
def BuildFails (b : Builder σ α) (s : Session σ) : Prop := s.scanner.BuildFails b s.state

/-- The builder makes the value of the token when it is asked for it. -/
def Makes (b : Builder σ α) (s : Session σ) (request : Request) (token : Token α) : Prop :=
  .build request ∈ s.calls b ∧
    ∃ value, (b.build request s.state).1 = .ok (some value) ∧ token.value = some value

/-- What the next call for a token in one session has in common with that in another, whose builder
answers differently. -/
structure Twins (b₁ : Builder σ₁ α₁) (b₂ : Builder σ₂ α₂) (s₁ : Session σ₁) (s₂ : Session σ₂) :
    Prop where
  /-- They are about the same place, whether there is a token or an error in its place. -/
  location : (s₁.outcome b₁).location = (s₂.outcome b₂).location
  text : ∀ t₁ t₂, s₁.outcome b₁ = .ok t₁ → s₂.outcome b₂ = .ok t₂ → t₁.text = t₂.text
  /-- Both builders are asked for the same. -/
  request : ∀ request, .build request ∈ s₁.calls b₁ ↔ .build request ∈ s₂.calls b₂
  /-- Both builders are told of the same fault of the source. -/
  fault : ∀ error, error.fault.isAnswer = false →
    (.report error ∈ s₁.calls b₁ ↔ .report error ∈ s₂.calls b₂)
  /-- Unless a builder makes no value, the tokens differ at most in the values that are made. -/
  made : ∀ t₁ t₂, s₁.outcome b₁ = .ok t₁ → s₂.outcome b₂ = .ok t₂ → ¬s₁.BuildFails b₁ →
    ¬s₂.BuildFails b₂ → t₁.kind = t₂.kind ∧ t₁.flags.multiLine = t₂.flags.multiLine ∧
      (t₁.value = none ∧ t₂.value = none ∨
        ∃ request, s₁.Makes b₁ request t₁ ∧ s₂.Makes b₂ request t₂)
  /-- A token whose value is not made stands for an error. -/
  rejected₁ : ∀ t₁, s₁.outcome b₁ = .ok t₁ → s₁.BuildFails b₁ →
    t₁.kind = .lexError ∧ t₁.value = none
  rejected₂ : ∀ t₂, s₂.outcome b₂ = .ok t₂ → s₂.BuildFails b₂ →
    t₂.kind = .lexError ∧ t₂.value = none
  synthetic : ∀ t₁ t₂, s₁.outcome b₁ = .ok t₁ → s₂.outcome b₂ = .ok t₂ →
    t₁.flags.synthetic = t₂.flags.synthetic
  /-- Both lines end at once. -/
  endOfLine : ∀ t₁ t₂, s₁.outcome b₁ = .ok t₁ → s₂.outcome b₂ = .ok t₂ →
    (t₁.kind = .endOfLine ↔ t₂.kind = .endOfLine)
  /-- After as many tokens on the line the tokens open it both or not. -/
  lineStart : s₁.scanner.sinceLineStart = s₂.scanner.sinceLineStart →
    ∀ t₁ t₂, s₁.outcome b₁ = .ok t₁ → s₂.outcome b₂ = .ok t₂ →
      t₁.flags.lineStart = t₂.flags.lineStart

variable {b₁ : Builder σ₁ α₁} {b₂ : Builder σ₂ α₂} {s₁ : Session σ₁} {s₂ : Session σ₂}

/-- A token that stands for a build that failed is one of an error. -/
theorem rejected_of_buildFails {b : Builder σ α} {s : Session σ} {token : Token α}
    (htoken : s.outcome b = .ok token) (hfails : s.BuildFails b) :
    token.kind = .lexError ∧ token.value = none := by
  generalize hnext : s.scanner.reading.next = entry
  obtain ⟨finding, r⟩ := entry
  have hbecomes := Scanner.becomes_of_next hnext htoken
  cases hbecomes with
  | structural kind text location flags =>
    obtain ⟨error, -, hreport⟩ := hfails
    rw [Scanner.calls_eq, hnext] at hreport
    exact absurd hreport List.not_mem_nil
  | made hkind hsynthetic hvalue hmade => exact absurd hfails hmade
  | failed hkind hfails => exact ⟨rfl, rfl⟩
  | fault cause text location => exact ⟨rfl, rfl⟩

/-- Sessions whose readings agree are twins. -/
theorem twins_of_reading (h : s₁.scanner.reading = s₂.scanner.reading) : Twins b₁ b₂ s₁ s₂ := by
  generalize hnext : s₁.scanner.reading.next = entry
  obtain ⟨finding, r⟩ := entry
  have hnext₂ : s₂.scanner.reading.next = (finding, r) := by rw [← h, hnext]
  have hbecomes : ∀ t₁ t₂, s₁.outcome b₁ = .ok t₁ → s₂.outcome b₂ = .ok t₂ →
      s₁.scanner.Becomes b₁ s₁.state finding t₁ ∧ s₂.scanner.Becomes b₂ s₂.state finding t₂ :=
    fun t₁ t₂ h₁ h₂ => ⟨Scanner.becomes_of_next hnext h₁, Scanner.becomes_of_next hnext₂ h₂⟩
  exact
    { location := (Scanner.location_next hnext b₁ s₁.state).trans
        (Scanner.location_next hnext₂ b₂ s₂.state).symm
      text := fun t₁ t₂ h₁ h₂ =>
        (Scanner.text_next hnext h₁).trans (Scanner.text_next hnext₂ h₂).symm
      request := fun request =>
        (Scanner.build_mem_calls_iff hnext).trans (Scanner.build_mem_calls_iff hnext₂).symm
      fault := fun error herror => (Scanner.report_mem_calls_iff hnext herror).trans
        (Scanner.report_mem_calls_iff hnext₂ herror).symm
      made := fun t₁ t₂ h₁ h₂ hmade₁ hmade₂ => by
        obtain ⟨h₁, h₂⟩ := hbecomes t₁ t₂ h₁ h₂
        cases h₁ with
        | structural kind text location flags =>
          cases h₂
          exact ⟨rfl, rfl, .inl ⟨rfl, rfl⟩⟩
        | fault cause text location =>
          cases h₂
          exact ⟨rfl, rfl, .inl ⟨rfl, rfl⟩⟩
        | failed hkind hfails => exact absurd hfails hmade₁
        | @made request text flags value₁ hkind hsynthetic hvalue₁ =>
          cases h₂ with
          | failed hkind hfails => exact absurd hfails hmade₂
          | @made _ _ _ value₂ hkind hsynthetic hvalue₂ =>
            have hcall₁ : .build request ∈ s₁.calls b₁ :=
              (Scanner.build_mem_calls_iff hnext).2 ⟨text, flags, rfl⟩
            have hcall₂ : .build request ∈ s₂.calls b₂ :=
              (Scanner.build_mem_calls_iff hnext₂).2 ⟨text, flags, rfl⟩
            exact ⟨rfl, rfl, .inr ⟨request, ⟨hcall₁, value₁, hvalue₁, rfl⟩,
              ⟨hcall₂, value₂, hvalue₂, rfl⟩⟩⟩
      rejected₁ := fun t₁ => rejected_of_buildFails
      rejected₂ := fun t₂ => rejected_of_buildFails
      synthetic := fun t₁ t₂ h₁ h₂ => by
        obtain ⟨h₁, h₂⟩ := hbecomes t₁ t₂ h₁ h₂
        cases h₁ <;> cases h₂ <;> simp [*]
      endOfLine := fun t₁ t₂ h₁ h₂ => by
        obtain ⟨h₁, h₂⟩ := hbecomes t₁ t₂ h₁ h₂
        exact h₁.endOfLine_iff.trans h₂.endOfLine_iff.symm
      lineStart := fun hcount t₁ t₂ h₁ h₂ => by
        obtain ⟨h₁, h₂⟩ := hbecomes t₁ t₂ h₁ h₂
        cases h₁ <;> cases h₂ <;> rw [hcount] }

/-! ## Runs -/

/-- A report was refused, and since then the line did not end and there was no new start. -/
inductive RefusedOnLine (b : Builder σ α) (s : Session σ) : List Operation → Prop
  | refused {ops : List Operation} {refused : RefusedReport}
    (h : (s.after b ops).outcome b = .error refused) : RefusedOnLine b s (ops ++ [.next])
  | token {ops : List Operation} {token : Token α} (h : RefusedOnLine b s ops)
    (htoken : (s.after b ops).outcome b = .ok token) (hkind : token.kind ≠ .endOfLine) :
    RefusedOnLine b s (ops ++ [.next])
  | close {ops : List Operation} (h : RefusedOnLine b s ops) : RefusedOnLine b s (ops ++ [.close])

/-- One more operation goes on from the session after the others. -/
theorem after_concat (b : Builder σ α) (s : Session σ) (ops : List Operation) (op : Operation) :
    s.after b (ops ++ [op]) = ((s.after b ops).perform b op).2 := by
  unfold after
  rw [List.foldl_append]
  rfl

/-- Operations lead from a reachable scanner to reachable ones. -/
theorem reachable_after {text : String} (b : Builder σ α) {s : Session σ}
    (h : s.scanner.Reachable text) (ops : List Operation) :
    (s.after b ops).scanner.Reachable text := by
  induction ops using List.reverseRecOn with
  | nil => exact h
  | append_singleton ops op ih =>
    rw [after_concat]
    cases op with
    | next => exact ih.next b (s.after b ops).state
    | restart filename encoding => exact ih.restart filename encoding
    | close => exact ih.close

/-- Whatever the builders answer, the same operations lead to the same reading. -/
theorem reading_after (b₁ : Builder σ₁ α₁) (b₂ : Builder σ₂ α₂)
    (h : s₁.scanner.reading = s₂.scanner.reading) (ops : List Operation) :
    (s₁.after b₁ ops).scanner.reading = (s₂.after b₂ ops).scanner.reading := by
  induction ops using List.reverseRecOn with
  | nil => exact h
  | append_singleton ops op ih =>
    rw [after_concat, after_concat]
    cases op with
    | next =>
      show (Scanner.next b₁ _ _).2.1.reading = (Scanner.next b₂ _ _).2.1.reading
      rw [Scanner.reading_next, Scanner.reading_next, ih]
    | restart filename encoding =>
      show (Reading.restart _ _ _) = Reading.restart _ _ _
      rw [ih]
    | close =>
      show Reading.close _ = Reading.close _
      rw [ih]

/-- Only a report that is refused on the line makes the count of its tokens differ. -/
theorem sinceLineStart_or_refused (b₁ : Builder σ₁ α₁) (b₂ : Builder σ₂ α₂)
    (h : s₁.scanner = s₂.scanner) (ops : List Operation) :
    s₁.RefusedOnLine b₁ ops ∨ s₂.RefusedOnLine b₂ ops ∨
      (s₁.after b₁ ops).scanner.sinceLineStart = (s₂.after b₂ ops).scanner.sinceLineStart := by
  induction ops using List.reverseRecOn with
  | nil => exact .inr (.inr (congrArg Scanner.sinceLineStart h))
  | append_singleton ops op ih =>
    rw [after_concat, after_concat]
    cases op with
    | restart filename encoding => exact .inr (.inr rfl)
    | close =>
      rcases ih with hrefused | hrefused | hcount
      · exact .inl (.close hrefused)
      · exact .inr (.inl (.close hrefused))
      · exact .inr (.inr hcount)
    | next =>
      have hreading := reading_after b₁ b₂ (congrArg Scanner.reading h) ops
      have htwins : Twins b₁ b₂ (s₁.after b₁ ops) (s₂.after b₂ ops) := twins_of_reading hreading
      cases hout₁ : (s₁.after b₁ ops).outcome b₁ with
      | error refused => exact .inl (.refused hout₁)
      | ok t₁ =>
        cases hout₂ : (s₂.after b₂ ops).outcome b₂ with
        | error refused => exact .inr (.inl (.refused hout₂))
        | ok t₂ =>
          have hline := htwins.endOfLine t₁ t₂ hout₁ hout₂
          have hcount₁ := Scanner.sinceLineStart_next b₁ (s₁.after b₁ ops).scanner
            (s₁.after b₁ ops).state
          have hcount₂ := Scanner.sinceLineStart_next b₂ (s₂.after b₂ ops).scanner
            (s₂.after b₂ ops).state
          rw [show (Scanner.next b₁ _ _).1 = _ from hout₁] at hcount₁
          rw [show (Scanner.next b₂ _ _).1 = _ from hout₂] at hcount₂
          dsimp only at hcount₁ hcount₂
          by_cases hkind : t₁.kind = .endOfLine
          · rw [if_pos hkind] at hcount₁
            rw [if_pos (hline.1 hkind)] at hcount₂
            exact .inr (.inr (hcount₁.trans hcount₂.symm))
          · have hkind₂ : t₂.kind ≠ .endOfLine := fun heq => hkind (hline.2 heq)
            rw [if_neg hkind] at hcount₁
            rw [if_neg hkind₂] at hcount₂
            rcases ih with hrefused | hrefused | hcount
            · exact .inl (.token hrefused hout₁ hkind)
            · exact .inr (.inl (.token hrefused hout₂ hkind₂))
            · rw [← hcount] at hcount₂
              exact .inr (.inr (hcount₁.trans hcount₂.symm))

/-- Two builders and the same operations on the same scanner: the reading is the same after every
operation, and the next calls are twins. Only after a report that was refused on the same line can
the tokens be counted differently, and differ in whether they open the line. -/
theorem twins_after (b₁ : Builder σ₁ α₁) (b₂ : Builder σ₂ α₂) (s : Scanner) (st₁ : σ₁) (st₂ : σ₂)
    (ops : List Operation) :
    let s₁ : Session σ₁ := ⟨s, st₁⟩
    let s₂ : Session σ₂ := ⟨s, st₂⟩
    (s₁.after b₁ ops).scanner.reading = (s₂.after b₂ ops).scanner.reading ∧
      Twins b₁ b₂ (s₁.after b₁ ops) (s₂.after b₂ ops) ∧
      (s₁.RefusedOnLine b₁ ops ∨ s₂.RefusedOnLine b₂ ops ∨
        (s₁.after b₁ ops).scanner.sinceLineStart = (s₂.after b₂ ops).scanner.sinceLineStart ∧
        ∀ t₁ t₂, (s₁.after b₁ ops).outcome b₁ = .ok t₁ → (s₂.after b₂ ops).outcome b₂ = .ok t₂ →
          t₁.flags.lineStart = t₂.flags.lineStart) := by
  intro s₁ s₂
  have hreading : (s₁.after b₁ ops).scanner.reading = (s₂.after b₂ ops).scanner.reading :=
    reading_after b₁ b₂ rfl ops
  have htwins : Twins b₁ b₂ (s₁.after b₁ ops) (s₂.after b₂ ops) := twins_of_reading hreading
  refine ⟨hreading, htwins, ?_⟩
  have hscanner : s₁.scanner = s₂.scanner := rfl
  rcases sinceLineStart_or_refused b₁ b₂ hscanner ops with hrefused | hrefused | hcount
  · exact .inl hrefused
  · exact .inr (.inl hrefused)
  · exact .inr (.inr ⟨hcount, htwins.lineStart hcount⟩)

end Session

end LedgerText
