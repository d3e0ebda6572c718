import LedgerText.Proofs.Reading.Found
import LedgerText.Proofs.Scanner.History

/-!
# The life of a scanner

From its start to the next one a scanner signals the end of the source only where nothing is left to
read, or once it is closed, and counts the signals. The first signal ends the last line if that was
chosen and the scanner is open, and every other one ends the file. After the first signal, and once
it is closed, a scanner is done (`IsDone`): it finds the end of file wherever it stands, and goes on
to do so (`Comes.isDone`, `next_of_isDone`).

What holds of a scanner and its history (`Lived`) is kept by every call for a token
(`Lived.next`) and by closing it (`Lived.close`), and begins anew with every start. So it holds in
every session, and the protocol of the end follows (`lifecycle_after`).
-/

namespace LedgerText

namespace Reading

variable {text : String} {before skipped lexeme after : List Char} {r r' : Reading}
  {finding : Finding} {location : Location}

/-! ## Readings that are done -/

/-- Nothing is left to find but the end of file: the reading is closed, or its end was signalled and
nothing is left to read. -/
def IsDone (text : String) (r : Reading) : Prop :=
  r.closed = true ∨ r.endCount ≠ 0 ∧ r.mode = .normal ∧ ∃ before, Between text before [] r

/-- The signal of the end ends the line if it is the first, that was chosen and the reading is open,
and ends the file if not. -/
theorem finding_endOfInput (r : Reading) (location : Location) :
    (r.endOfInput location).1 =
      if r.endCount = 0 ∧ r.options.terminateLastLine = true ∧ r.closed = false then
        .structural .endOfLine "" location { synthetic := true }
      else .structural .endOfFile "" location {} := by
  have hfirst : Count.clamp (r.endCount + 1) = 1 ↔ r.endCount = 0 := by
    unfold Count.clamp Count.limit
    omega
  unfold endOfInput
  simp [hfirst, and_assoc]

/-- A reading that is done finds the end of file, and stays where it is. -/
theorem next_of_isDone (h : r.IsDone text) :
    ∃ location, r.next.1 = .structural .endOfFile "" location {} ∧ r.next.2.mode = r.mode ∧
      r.next.2.tracker = r.tracker := by
  cases hclosed : r.closed with
  | true =>
    have hnext : r.next = r.endOfInput r.tracker.point := by rw [next, if_pos hclosed]
    rw [hnext]
    refine ⟨r.tracker.point, ?_, rfl, rfl⟩
    rw [finding_endOfInput, if_neg fun h => absurd (hclosed.symm.trans h.2.2) (by decide)]
  | false =>
    rcases h with h | ⟨hcount, hmode, before, hend⟩
    · rw [hclosed] at h
      cases h
    -- The end was signalled before, so this signal is not the first.
    rw [next_of_end hmode hclosed hend]
    refine ⟨r.tracker.locate [], ?_, rfl, hend.move_end.tracker.trans hend.tracker.symm⟩
    rw [finding_endOfInput, if_neg fun h => hcount h.1]

/-- A reading that signals the end is done. -/
theorem Comes.isDone (h : Comes text r before skipped lexeme after finding r')
    (hsignal : finding.signalsEnd = true) : r'.IsDone text := by
  cases hclosed : r.closed with
  | true => exact .inl (h.closed.trans hclosed)
  | false =>
    have hcount : r'.endCount ≠ 0 := by
      rcases r.signal_next with ⟨location, -, hcount⟩ | ⟨hnone, -⟩
      · rw [h.next] at hcount
        rw [hcount]
        exact Count.clamp_succ_ne_zero _
      · rw [h.next, hsignal] at hnone
        cases hnone
    have hmode : finding.modeAfter = .normal := by
      cases finding with
      | structural kind text location flags => rfl
      | terminal request text flags => cases hsignal
      | fault cause text location => cases hsignal
    obtain rfl := h.atEnd hclosed hsignal
    exact .inr ⟨hcount, h.mode.trans hmode, _, h.stop⟩

/-- At the end of a text the whole source is read. -/
theorem Between.pos_of_end (h : Between text before [] r) :
    r.reader.pos = (Utf8.ofString text).length := by
  rw [h.pos, Utf8.ofString, h.split, List.append_nil]

end Reading

/-- A finding of the line structure becomes a token, without the builder. -/
theorem Scanner.next_of_structural_finding {σ α : Type} {s : Scanner} {kind : Kind} {text : String}
    {location : Location} {flags : Flags}
    (h : s.reading.next.1 = .structural kind text location flags) (b : Builder σ α) (st : σ) :
    (s.next b st).1 = .ok ⟨kind, text, location, none, { flags with
        lineStart := flags.lineStart || (s.sinceLineStart = 0 && kind != .endOfFile) }⟩ ∧
      s.calls b st = [] ∧ (s.next b st).2.1.reports = s.reports := by
  have hnext : s.reading.next = (.structural kind text location flags, s.reading.next.2) :=
    Prod.ext h rfl
  rw [calls_eq, next_eq_settle hnext, h]
  exact ⟨rfl, rfl, rfl⟩

namespace Session

open Builder Reading

variable {σ α : Type} {text : String} {options : Options} {past : List (Event α)}
  {session : Session σ}

/-! ## What can be seen of the end -/

/-- Whether a call for a token signalled the end of the source. -/
def Event.signalsEnd : Event α → Bool
  | call outcome _ => Outcome.signalsEnd outcome
  | close => false

/-- Whether a call for a token made a token that stands for no text of the source. -/
def Event.isSynthetic : Event α → Bool
  | call (.ok token) _ => token.flags.synthetic
  | _ => false

/-- Whether the scanner has nothing more to find: the end was signalled, by an end of file or by the
end of a last line, or the scanner was closed. -/
def Event.isFinal : Event α → Bool
  | call outcome _ => Outcome.signalsEnd outcome
  | close => true

/-- Whatever makes a synthetic token signals the end. -/
theorem Event.signalsEnd_of_isSynthetic {event : Event α} (h : event.isSynthetic = true) :
    event.signalsEnd = true := by
  match event with
  | call (.ok token) calls =>
    have hsynthetic : token.flags.synthetic = true := h
    simp [signalsEnd, Outcome.signalsEnd, hsynthetic]
  | call (.error refused) calls => cases h
  | close => cases h

/-- The protocol of the end of the source, for a session of which `past` is the history since the
last start. -/
structure Lifecycle (text : String) (options : Options) (b : Builder σ α) (past : List (Event α))
    (session : Session σ) : Prop where
  /-- The signals of the end are counted. -/
  count : session.scanner.reading.endCount = Count.clamp (past.countP Event.signalsEnd)
  /-- The end is signalled where nothing is left to read, or after the scanner was closed. -/
  place : Outcome.signalsEnd (session.outcome b) = true →
    (session.perform b .next).2.scanner.reading.reader.pos = (Utf8.ofString text).length ∨
      Event.close ∈ past
  /-- A synthetic token is the end of a line without text. -/
  synthetic : ∀ token calls, .call (.ok token) calls ∈ past → token.flags.synthetic = true →
    token.kind = .endOfLine ∧ token.text = ""
  /-- There is one synthetic token at most. -/
  once : past.countP Event.isSynthetic ≤ 1
  /-- The first signal is synthetic if that was chosen and the scanner was not closed before. -/
  first : past.countP Event.signalsEnd = 0 → ∀ token, session.outcome b = .ok token →
    Outcome.signalsEnd (session.outcome b) = true →
      (token.flags.synthetic = true ↔ options.terminateLastLine = true ∧ Event.close ∉ past)
  /-- From then on, and from the closing on, there is nothing but the end of file. -/
  final : (∃ event ∈ past, event.isFinal = true) →
    (∃ location, session.outcome b = .ok ⟨.endOfFile, "", location, none, {}⟩) ∧
      session.calls b = [] ∧
      (session.perform b .next).2.scanner.reading.mode = session.scanner.reading.mode ∧
      (session.perform b .next).2.scanner.reading.tracker.line =
        session.scanner.reading.tracker.line ∧
      (session.perform b .next).2.scanner.reading.tracker.column =
        session.scanner.reading.tracker.column ∧
      (session.perform b .next).2.scanner.reports.count = session.scanner.reports.count
  /-- After the closing there is no room for literals. -/
  released : Event.close ∈ past → session.scanner.reading.buffer.capacity = 0

/-! ## What is kept -/

/-- What is known of a scanner with the history `past`. -/
structure Lived (text : String) (options : Options) (past : List (Event α)) (s : Scanner) :
    Prop where
  reachable : s.Reachable text
  options : s.reading.options = options
  closed : s.reading.closed = true ↔ Event.close ∈ past
  released : s.reading.closed = true → s.reading.buffer.capacity = 0
  count : s.reading.endCount = Count.clamp (past.countP Event.signalsEnd)
  done : (∃ event ∈ past, event.isFinal = true) → s.reading.IsDone text
  synthetic : ∀ token calls, .call (.ok token) calls ∈ past → token.flags.synthetic = true →
    token.kind = .endOfLine ∧ token.text = ""
  once : past.countP Event.isSynthetic ≤ 1

/-- A scanner that was just started has no history. -/
theorem lived_nil {s : Scanner} (hreachable : s.Reachable text)
    (hoptions : s.reading.options = options) (hclosed : s.reading.closed = false)
    (hcount : s.reading.endCount = 0) : Lived text options ([] : List (Event α)) s where
  reachable := hreachable
  options := hoptions
  closed := by simp [hclosed]
  released h := by
    rw [hclosed] at h
    cases h
  count := hcount
  done := by simp
  synthetic token calls h := absurd h List.not_mem_nil
  once := Nat.zero_le 1

namespace Lived

variable {s : Scanner}

/-- The scanner after a signal of the end is done. The end was signalled at the end of the source or
by a closed scanner, and by a synthetic end of the line exactly if it is the first signal, that was
chosen and the scanner is open. -/
theorem exists_signal (h : Lived text options past s) {b : Builder σ α} {st : σ}
    (hsignal : Outcome.signalsEnd (s.next b st).1 = true) :
    (s.next b st).2.1.reading.IsDone text ∧
      ((s.next b st).2.1.reading.reader.pos = (Utf8.ofString text).length ∨
        s.reading.closed = true) ∧
      ∃ location lineStart, (s.next b st).1 = .ok
        (if s.reading.endCount = 0 ∧ s.reading.options.terminateLastLine = true ∧
            s.reading.closed = false then
          ⟨.endOfLine, "", location, none, { lineStart, synthetic := true }⟩
        else ⟨.endOfFile, "", location, none, {}⟩) := by
  obtain ⟨before, skipped, lexeme, after, finding, r, hcomes⟩ := h.reachable.exists_comes
  rw [Scanner.signalsEnd_next hcomes.next hcomes.finds] at hsignal
  refine ⟨?_, ?_, ?_⟩
  · rw [Scanner.reading_next, hcomes.next]
    exact hcomes.isDone hsignal
  · rw [Scanner.reading_next, hcomes.next]
    cases hclosed : s.reading.closed with
    | true => exact .inr rfl
    | false =>
      -- An open reading signals the end only where nothing is left.
      obtain rfl := hcomes.atEnd hclosed hsignal
      exact .inl hcomes.stop.pos_of_end
  · rcases s.reading.signal_next with ⟨location, hfinding, -⟩ | ⟨hnone, -⟩
    · refine ⟨location, s.sinceLineStart = 0, ?_⟩
      rw [finding_endOfInput] at hfinding
      split_ifs at hfinding ⊢
      · rw [(Scanner.next_of_structural_finding hfinding b st).1]
        simp
      · rw [(Scanner.next_of_structural_finding hfinding b st).1]
        simp
    · rw [hcomes.next, hsignal] at hnone
      cases hnone

/-- A synthetic token is the end of a line without text, and the first signal of the end. -/
theorem of_isSynthetic (h : Lived text options past s) {b : Builder σ α} {st : σ} {token : Token α}
    (htoken : (s.next b st).1 = .ok token) (hsynthetic : token.flags.synthetic = true) :
    token.kind = .endOfLine ∧ token.text = "" ∧ past.countP Event.signalsEnd = 0 := by
  have hsignal : Outcome.signalsEnd (s.next b st).1 = true := by
    rw [htoken]
    simp [Outcome.signalsEnd, hsynthetic]
  obtain ⟨-, -, location, lineStart, houtcome⟩ := h.exists_signal hsignal
  rw [htoken] at houtcome
  split_ifs at houtcome with hfirst
  · cases houtcome
    have hcount := h.count.symm.trans hfirst.1
    unfold Count.clamp Count.limit at hcount
    exact ⟨rfl, rfl, by omega⟩
  · cases houtcome
    cases hsynthetic

/-- A call for a token that signals the end is counted. -/
theorem endCount_next (h : Lived text options past s) (b : Builder σ α) (st : σ) :
    (s.next b st).2.1.reading.endCount = Count.clamp
      ((past ++ [Event.call (s.next b st).1 (s.calls b st)]).countP Event.signalsEnd) := by
  obtain ⟨before, skipped, lexeme, after, finding, r, hcomes⟩ := h.reachable.exists_comes
  have hsignal := Scanner.signalsEnd_next hcomes.next hcomes.finds b st
  have hevent : (Event.call (s.next b st).1 (s.calls b st)).signalsEnd = finding.signalsEnd :=
    hsignal
  rw [Scanner.reading_next, List.countP_append, List.countP_singleton, hevent]
  rcases s.reading.signal_next with ⟨location, hfinding, hcount⟩ | ⟨hnone, hcount⟩
  · rw [hcomes.next] at hfinding
    have hends := (signalsEnd_endOfInput s.reading location).1
    rw [← hfinding] at hends
    rw [hcount, h.count, if_pos hends, Count.clamp_clamp_add]
  · rw [hcomes.next] at hnone
    have hends : ¬finding.signalsEnd = true := by
      rw [hnone]
      decide
    rw [hcount, h.count, if_neg hends, Nat.add_zero]

/-- A call for a token is kept. -/
theorem next (h : Lived text options past s) (b : Builder σ α) (st : σ) :
    Lived text options (past ++ [.call (s.next b st).1 (s.calls b st)]) (s.next b st).2.1 := by
  have hgoes := s.reading.goesOn_next
  have hmem {event : Event α} (hevent : event ∈ past ++ [.call (s.next b st).1 (s.calls b st)]) :
      event ∈ past ∨ event = .call (s.next b st).1 (s.calls b st) := by
    simpa using hevent
  have hclosed : (s.next b st).2.1.reading.closed = s.reading.closed := by
    rw [Scanner.reading_next]
    exact hgoes.closed
  exact
    { reachable := h.reachable.next b st
      options := by
        rw [Scanner.reading_next]
        exact hgoes.options.trans h.options
      closed := by
        rw [hclosed, h.closed]
        simp
      released := fun hclose => by
        have hopen := hclosed.symm.trans hclose
        rw [Scanner.reading_next, Reading.next, if_pos hopen]
        exact h.released hopen
      count := h.endCount_next b st
      done := fun ⟨event, hevent, hfinal⟩ => by
        by_cases hsignal : Outcome.signalsEnd (s.next b st).1 = true
        · exact (h.exists_signal hsignal).1
        · rcases hmem hevent with hevent | rfl
          · -- A scanner that was done would have signalled the end.
            obtain ⟨location, hfinding, -⟩ := next_of_isDone (h.done ⟨event, hevent, hfinal⟩)
            refine absurd ?_ hsignal
            rw [(Scanner.next_of_structural_finding hfinding b st).1]
            rfl
          · exact absurd hfinal hsignal
      synthetic := fun token calls hcall hsynthetic => by
        rcases hmem hcall with hcall | hcall
        · exact h.synthetic token calls hcall hsynthetic
        · obtain ⟨hkind, htext, -⟩ := h.of_isSynthetic (Event.call.inj hcall).1.symm hsynthetic
          exact ⟨hkind, htext⟩
      once := by
        rw [List.countP_append, List.countP_singleton]
        split_ifs with hsynthetic
        · -- Before the first signal there is no synthetic token either.
          have hnone : past.countP Event.signalsEnd = 0 := by
            cases houtcome : (s.next b st).1 with
            | ok token =>
              rw [houtcome] at hsynthetic
              exact (h.of_isSynthetic houtcome hsynthetic).2.2
            | error refused =>
              rw [houtcome] at hsynthetic
              cases hsynthetic
          have hle : past.countP Event.isSynthetic ≤ past.countP Event.signalsEnd :=
            List.countP_mono_left fun event _ => event.signalsEnd_of_isSynthetic
          omega
        · exact h.once }

/-- The closing of a scanner is kept. -/
theorem close (h : Lived text options past s) : Lived text options (past ++ [.close]) s.close where
  reachable := h.reachable.close
  options := h.options
  closed := iff_of_true rfl (List.mem_append_right _ (List.mem_singleton_self _))
  released _ := rfl
  count := by
    rw [List.countP_append, List.countP_singleton]
    exact h.count
  done _ := .inl rfl
  synthetic token calls hcall := h.synthetic token calls (by simpa using hcall)
  once := by
    rw [List.countP_append, List.countP_singleton]
    exact h.once

/-- The protocol of the end follows from what is known of the scanner. -/
theorem lifecycle (h : Lived text options past session.scanner) (b : Builder σ α) :
    Lifecycle text options b past session where
  count := h.count
  place hsignal := (h.exists_signal hsignal).2.1.imp_right h.closed.1
  synthetic := h.synthetic
  once := h.once
  first hnone token htoken hsignal := by
    obtain ⟨-, -, location, lineStart, houtcome⟩ := h.exists_signal hsignal
    have hcount : session.scanner.reading.endCount = 0 := by
      rw [h.count, hnone]
      rfl
    have hopen : session.scanner.reading.closed = false ↔ Event.close ∉ past := by
      rw [← h.closed, Bool.not_eq_true]
    rw [show (session.scanner.next b session.state).1 = .ok token from htoken, h.options] at houtcome
    split_ifs at houtcome with hfirst
    · cases houtcome
      exact iff_of_true rfl ⟨hfirst.2.1, hopen.1 hfirst.2.2⟩
    · cases houtcome
      exact iff_of_false Bool.false_ne_true fun hchosen =>
        hfirst ⟨hcount, hchosen.1, hopen.2 hchosen.2⟩
  final hfinal := by
    obtain ⟨location, hfinding, hmode, htracker⟩ := next_of_isDone (h.done hfinal)
    obtain ⟨houtcome, hcalls, hreports⟩ :=
      Scanner.next_of_structural_finding hfinding b session.state
    have hreading : (session.perform b .next).2.scanner.reading =
        session.scanner.reading.next.2 := Scanner.reading_next ..
    have htoken : session.outcome b = .ok ⟨.endOfFile, "", location, none, {}⟩ :=
      houtcome.trans (by simp)
    rw [hreading, htracker]
    exact ⟨⟨location, htoken⟩, hcalls, hmode, rfl, rfl, congrArg Reports.count hreports⟩
  released hclose := h.released (h.closed.2 hclose)

end Lived

/-! ## Runs -/

/-- In every session the scanner has the life that its history tells. -/
theorem lived_after (text filename : String) (options : Options) (b : Builder σ α) (st : σ)
    (ops : List Operation) :
    let start : Session σ := ⟨.start (Utf8.ofString text) filename options, st⟩
    Lived text options (start.history b ops) (start.after b ops).scanner := by
  intro start
  -- The induction is on the last operation, since a history grows at its end.
  induction ops using List.reverseRecOn with
  | nil => exact lived_nil (.start filename options) rfl rfl rfl
  | append_singleton ops op ih =>
    rw [after_concat, history_concat]
    cases op with
    | next => exact ih.next b (start.after b ops).state
    | restart filename encoding =>
      exact lived_nil (ih.reachable.restart filename encoding) ih.options rfl rfl
    | close => exact ih.close

/-- In every session, whatever the source, the options and the builder, the end of the source is
signalled by the protocol from every start of the scanner to the next. -/
theorem lifecycle_after (text filename : String) (options : Options) (b : Builder σ α) (st : σ)
    (ops : List Operation) :
    let start : Session σ := ⟨.start (Utf8.ofString text) filename options, st⟩
    Lifecycle text options b (start.history b ops) (start.after b ops) := by
  intro start
  exact (lived_after text filename options b st ops).lifecycle b

end Session

end LedgerText
