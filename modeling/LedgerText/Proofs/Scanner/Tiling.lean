import LedgerText.Builder.Scripted
import LedgerText.Proofs.Scanner.Outcome

/-!
# Nothing of a source is lost

Call by call a scanner reads a text from its start to its end. Each call goes over the characters
from one place of the text to the next, first some that are passed over and then one lexeme, which
is all that its token, its request or its error speaks of (`Reads`). That is so for every call of
a reachable scanner (`exists_reads`). Along a run the calls follow each other without a gap up to
the first signal of the end, which comes when nothing is left (`tiles_text`), whatever the builder
answers on the way.
-/

namespace LedgerText

open Builder Literal Utf8 Reading

/-! ## Lexemes -/

/-- The characters `lexeme` before `after` are a string literal, from its opening quote up to its
closing quote or to the end of the text. -/
def Literal.IsWhole (lexeme after : List Char) : Prop :=
  ∃ cs, lexeme = whole cs ∧ lexeme ++ after = '"' :: cs

/-- The characters `lexeme` before `after` are a single lexeme: the next one of normal text, or a
whole string literal. -/
inductive OneLexeme (lexeme after : List Char) : Prop
  | inText (lineStart : Bool) (hne : lexeme ≠ [])
    (hlen : (Lexeme.inText lineStart (encode (lexeme ++ after)).length
      (encode (lexeme ++ after))).length = (encode lexeme).length)
  | literal (h : IsWhole lexeme after)

/-- Every lexeme has a character. -/
theorem OneLexeme.ne_nil {lexeme after : List Char} (h : OneLexeme lexeme after) :
    lexeme ≠ [] := by
  cases h with
  | inText lineStart hne hlen => exact hne
  | literal h =>
    obtain ⟨cs, rfl, -⟩ := h
    exact List.cons_ne_nil _ _

/-- The token that ends the file signals the end of the source. -/
theorem Outcome.signalsEnd_of_isEnd {α : Type} {outcome : Outcome α} (h : outcome.isEnd = true) :
    outcome.signalsEnd = true := by
  cases outcome with
  | ok token =>
    have hkind : decide (token.kind = .endOfFile) = true := h
    rw [signalsEnd, hkind, Bool.true_or]
  | error refused => cases h

/-- A call reports input that no rule recognizes. -/
def Builder.Call.isUnrecognized : Call → Bool
  | .report ⟨.unrecognizedByte _, _⟩ => true
  | _ => false

namespace Reading.Finds

variable {text filename : String} {before lexeme after : List Char} {finding : Finding}

/-- From an opening quote up to the quote behind the pieces, if there is one, a literal is whole. -/
theorem isWhole_of_pieces {ps : List Piece} {rest : List Char}
    (hps : pieces (Literal.text ps ++ rest) = (ps, rest)) :
    IsWhole ('"' :: (Literal.text ps ++ rest.take 1)) (rest.drop 1) := by
  refine ⟨Literal.text ps ++ rest, ?_, ?_⟩
  · rw [whole, hps]
  · rw [List.cons_append, List.append_assoc, List.take_append_drop]

/-- What is found is found of a single lexeme, unless it is the end, which is found of nothing. -/
theorem oneLexeme (h : Finds text filename before lexeme after finding) :
    finding.signalsEnd = false ∧ OneLexeme lexeme after ∨
      finding.signalsEnd = true ∧ lexeme = [] := by
  cases h with
  | ending _ kind flags hkind =>
    refine .inr ⟨?_, rfl⟩
    rcases hkind with ⟨rfl, rfl⟩ | ⟨rfl, rfl⟩ <;> rfl
  | spelled lineStart hne hquote hlen hspells =>
    exact .inl ⟨hspells.signalsEnd, .inText lineStart hne hlen⟩
  | string lines encoding hps hvalid => exact .inl ⟨rfl, .literal (isWhole_of_pieces hps)⟩
  | invalidEscape hps hgood hc => exact .inl ⟨rfl, .literal (isWhole_of_pieces hps)⟩
  | @unterminated ps hps hvalid =>
    have happend : pieces (Literal.text ps ++ []) = (ps, []) := by rw [List.append_nil, hps]
    have hwhole := isWhole_of_pieces happend
    rw [List.take_nil, List.drop_nil, List.append_nil] at hwhole
    exact .inl ⟨rfl, .literal hwhole⟩

/-- The text of a finding is its lexeme, but for strings and invalid escape sequences. -/
theorem text_eq (h : Finds text filename before lexeme after finding)
    (hstring : ∀ request text flags, finding = .terminal request text flags →
      request.kind ≠ .string)
    (hescape : ∀ c text location, finding ≠ .fault (.invalidEscape c) text location) :
    finding.text = String.ofList lexeme := by
  cases h with
  | ending _ kind flags hkind => rfl
  | spelled lineStart hne hquote hlen hspells => cases hspells <;> rfl
  | string lines encoding hps hvalid => exact absurd rfl (hstring _ _ _ rfl)
  | invalidEscape hps hgood hc => exact absurd rfl (hescape _ _ _)
  | unterminated hps hvalid => rfl

/-- A terminal is asked for by its lexeme. -/
theorem lexeme_eq {request : Request} {contents : String} {flags : Flags}
    (h : Finds text filename before lexeme after (.terminal request contents flags)) :
    request.lexeme = String.ofList lexeme := by
  cases h with
  | spelled lineStart hne hquote hlen hspells =>
    cases hspells
    rfl
  | string lines encoding hps hvalid => rfl

/-- An invalid escape sequence is found of the whole literal. -/
theorem isWhole_of_invalidEscape {c : Char} {sequence : String} {location : Location}
    (h : Finds text filename before lexeme after (.fault (.invalidEscape c) sequence location)) :
    IsWhole lexeme after := by
  cases h with
  | spelled lineStart hne hquote hlen hspells => cases hspells
  | invalidEscape hps hgood hc => exact isWhole_of_pieces hps

end Reading.Finds

namespace Scanner

variable {σ α : Type} {text : String} {s : Scanner} {b : Builder σ α} {st : σ}

/-! ## One call -/

/-- The next call for a token goes over the characters `skipped` and `lexeme` of the text, which
stand between `before` and `after`. The first of them are passed over: after a call that reported
input that no rule recognizes (`recovers`) all that is left of its line, and otherwise blanks. -/
structure Reads (text : String) (b : Builder σ α) (s : Scanner) (st : σ) (recovers : Bool)
    (before skipped lexeme after : List Char) : Prop where
  split : text.toList = before ++ (skipped ++ (lexeme ++ after))
  start : s.reading.reader.pos = (encode before).length
  stop : (s.next b st).2.1.reading.reader.pos = (encode (before ++ (skipped ++ lexeme))).length
  blank : recovers = false → ∀ c ∈ skipped, c ∈ blanks
  restOfLine : recovers = true →
    '\n' ∉ skipped ∧ ∀ c cs, lexeme ++ after = c :: cs → c = '\n'
  /-- What is read behind them is one lexeme. -/
  oneLexeme : Outcome.signalsEnd (s.next b st).1 = false → OneLexeme lexeme after
  /-- The end is signalled of nothing. -/
  ends : Outcome.signalsEnd (s.next b st).1 = true → lexeme = []
  /-- An open scanner signals the end where nothing is left. -/
  atEnd : s.reading.closed = false → Outcome.signalsEnd (s.next b st).1 = true → after = []
  /-- A token has the lexeme as its text, but for strings and invalid escape sequences. -/
  text : ∀ token, (s.next b st).1 = .ok token →
    (∀ request, .build request ∈ s.calls b st → request.kind ≠ .string) →
    (∀ c location, .report ⟨.invalidEscape c, location⟩ ∉ s.calls b st) →
    token.text = String.ofList lexeme
  /-- A terminal is asked for by its lexeme. -/
  request : ∀ request, .build request ∈ s.calls b st → request.lexeme = String.ofList lexeme
  /-- No token has a value that was not asked for. -/
  asked : ∀ token, (s.next b st).1 = .ok token → token.value ≠ none →
    ∃ request, .build request ∈ s.calls b st ∧ request.kind = token.kind
  /-- An invalid escape sequence is reported of a whole literal. -/
  invalidEscape : ∀ c location, .report ⟨.invalidEscape c, location⟩ ∈ s.calls b st →
    IsWhole lexeme after

/-- Only a request makes a value. -/
theorem exists_request_of_value {token : Token α} (htoken : (s.next b st).1 = .ok token)
    (hvalue : token.value ≠ none) :
    ∃ request, .build request ∈ s.calls b st ∧ request.kind = token.kind := by
  generalize hnext : s.reading.next = entry
  obtain ⟨finding, r⟩ := entry
  rw [next_eq_settle hnext] at htoken
  cases finding with
  | structural kind text location flags =>
    cases htoken
    exact absurd rfl hvalue
  | terminal request text flags =>
    refine ⟨request, (build_mem_calls_iff hnext).2 ⟨text, flags, rfl⟩, ?_⟩
    unfold settle at htoken
    dsimp only at htoken
    split at htoken
    · cases htoken
      rfl
    · rw [token_of_reject htoken] at hvalue
      exact absurd rfl hvalue
  | fault cause text location =>
    rw [token_of_reject htoken] at hvalue
    exact absurd rfl hvalue

/-- A call reads what its finding comes of. -/
theorem reads_of_comes {before skipped lexeme after : List Char} {finding : Finding} {r : Reading}
    (hcomes : Comes text s.reading before skipped lexeme after finding r) (b : Builder σ α)
    (st : σ) : s.Reads text b st (s.reading.mode = .recovery) before skipped lexeme after := by
  have hnext := hcomes.next
  have hfinds := hcomes.finds
  have hsignals := signalsEnd_next hnext hfinds b st
  exact
    { split := hcomes.start.split
      start := hcomes.start.pos
      stop := by
        rw [reading_next, hnext]
        exact hcomes.stop.pos
      blank := fun hmode => by
        have hpasses := hcomes.passes
        unfold Passes at hpasses
        split at hpasses
        · next hrecovery => exact absurd hrecovery (of_decide_eq_false hmode)
        · exact hpasses
      restOfLine := fun hmode => by
        have hpasses := hcomes.passes
        rw [of_decide_eq_true hmode] at hpasses
        exact hpasses
      oneLexeme := fun hout => by
        rcases hfinds.oneLexeme with ⟨-, hone⟩ | ⟨hend, -⟩
        · exact hone
        · rw [hsignals, hend] at hout
          cases hout
      ends := fun hout => by
        have hend := hsignals.symm.trans hout
        rcases hfinds.oneLexeme with ⟨hgoes, -⟩ | ⟨-, hnil⟩
        · rw [hend] at hgoes
          cases hgoes
        · exact hnil
      atEnd := fun hclosed hout => hcomes.atEnd hclosed (hsignals.symm.trans hout)
      text := fun token htoken hstring hescape => by
        rw [text_next hnext htoken]
        refine hfinds.text_eq (fun request text flags hterminal => ?_)
          fun c text location hfault => ?_
        · exact hstring request ((build_mem_calls_iff hnext).2 ⟨text, flags, hterminal⟩)
        · exact hescape c location ((report_mem_calls_iff hnext rfl).2 ⟨text, hfault⟩)
      request := fun request hcall => by
        obtain ⟨text, flags, rfl⟩ := (build_mem_calls_iff hnext).1 hcall
        exact hfinds.lexeme_eq
      asked := fun token => exists_request_of_value
      invalidEscape := fun c location hcall => by
        obtain ⟨text, rfl⟩ := (report_mem_calls_iff hnext rfl).1 hcall
        exact hfinds.isWhole_of_invalidEscape }

/-- Every call goes over a part of the text. -/
theorem exists_reads (h : s.Reachable text) (b : Builder σ α) (st : σ) :
    ∃ before skipped lexeme after,
      s.Reads text b st (s.reading.mode = .recovery) before skipped lexeme after := by
  obtain ⟨before, skipped, lexeme, after, finding, r, hcomes⟩ := h.exists_comes
  exact ⟨before, skipped, lexeme, after, reads_of_comes hcomes b st⟩

/-- A call that does not signal the end goes over a byte. -/
theorem pos_lt_next (h : s.Reachable text) (hgoes : Outcome.signalsEnd (s.next b st).1 = false) :
    s.reading.reader.pos < (s.next b st).2.1.reading.reader.pos := by
  obtain ⟨before, skipped, lexeme, after, hreads⟩ := exists_reads h b st
  have hlexeme : 0 < (encode lexeme).length := by
    rw [List.length_pos_iff, ne_eq, encode_eq_nil]
    exact (hreads.oneLexeme hgoes).ne_nil
  rw [hreads.start, hreads.stop, encode_append, encode_append, List.length_append,
    List.length_append]
  omega

/-- No call goes back. -/
theorem pos_le_next (h : s.Reachable text) (b : Builder σ α) (st : σ) :
    s.reading.reader.pos ≤ (s.next b st).2.1.reading.reader.pos := by
  obtain ⟨before, skipped, lexeme, after, hreads⟩ := exists_reads h b st
  rw [hreads.start, hreads.stop, encode_append, List.length_append]
  exact Nat.le_add_right _ _

/-- The next call recovers exactly if this one reports input that no rule recognizes. -/
theorem mode_next_eq_recovery_iff (h : s.Reachable text) (b : Builder σ α) (st : σ) :
    decide ((s.next b st).2.1.reading.mode = .recovery) =
      (s.calls b st).any Call.isUnrecognized := by
  obtain ⟨before, skipped, lexeme, after, finding, r, hcomes⟩ := h.exists_comes
  have hmode : decide (r.mode = .recovery) = finding.isUnrecognized := by
    rw [hcomes.mode, Finding.modeAfter]
    cases finding.isUnrecognized <;> rfl
  rw [reading_next, calls_eq, hcomes.next, hmode]
  cases finding with
  | structural kind text location flags => rfl
  | terminal request text flags =>
    unfold callsFor
    dsimp only
    split
    · rfl
    · next cause hconstruct =>
      -- A fault that is an answer of the builder is not in the source.
      have hanswer := isAnswer_of_construct (Prod.ext hconstruct rfl)
      cases cause with
      | builderFailure message | builderAbsentResult kind => rfl
      | _ => cases hanswer
  | fault cause text location => cases cause <;> rfl

/-! ## Runs -/

/-- A scanner of a text from its start on: a new one, or one that was started again. -/
inductive Begins (text : String) : Scanner → Prop
  | start (filename : String) (options : Options) :
    Begins text (.start (ofString text) filename options)
  | restart {s : Scanner} (h : s.Reachable text) (filename encoding : String) :
    Begins text (s.restart filename encoding)

/-- The scanner and the builder after `n` calls for a token. -/
def afterCalls (b : Builder σ α) (s : Scanner) (st : σ) : Nat → Scanner × σ
  | 0 => (s, st)
  | n + 1 => ((afterCalls b s st n).1.next b (afterCalls b s st n).2).2

/-- The offset before the call `n`, and so after the call before it. -/
def offsetAt (b : Builder σ α) (s : Scanner) (st : σ) (n : Nat) : Nat :=
  (s.afterCalls b st n).1.reading.reader.pos

/-- The outcome of the call `n`. -/
def outcomeAt (b : Builder σ α) (s : Scanner) (st : σ) (n : Nat) : Outcome α :=
  ((s.afterCalls b st n).1.next b (s.afterCalls b st n).2).1

/-- The calls to the builder in the call `n`. -/
def callsAt (b : Builder σ α) (s : Scanner) (st : σ) (n : Nat) : List Call :=
  (s.afterCalls b st n).1.calls b (s.afterCalls b st n).2

/-- Whether the call before the call `n` reported input that no rule recognizes. -/
def recoversAt (b : Builder σ α) (s : Scanner) (st : σ) : Nat → Bool
  | 0 => false
  | n + 1 => ((s.afterCalls b st n).1.calls b (s.afterCalls b st n).2).any Call.isUnrecognized

namespace Begins

theorem reachable (h : s.Begins text) : s.Reachable text := by
  cases h with
  | start filename options => exact .start filename options
  | restart h filename encoding => exact h.restart filename encoding

theorem mode (h : s.Begins text) : s.reading.mode = .normal := by
  cases h with
  | start filename options => rfl
  | restart h filename encoding => rfl

theorem closed (h : s.Begins text) : s.reading.closed = false := by
  cases h with
  | start filename options => rfl
  | restart h filename encoding => rfl

/-- A scanner begins behind the byte-order mark. -/
theorem pos (h : s.Begins text) :
    s.reading.reader.pos = if startsWithMark (ofString text) then 3 else 0 := by
  cases h with
  | start filename options => rfl
  | restart h filename encoding =>
    have hsource := h.placed.source
    rw [← hsource]
    rfl

end Begins

/-- Calls for tokens keep a scanner reachable. -/
theorem Reachable.afterCalls (h : s.Reachable text) (b : Builder σ α) (st : σ) (n : Nat) :
    (s.afterCalls b st n).1.Reachable text := by
  induction n with
  | zero => exact h
  | succ n ih => exact ih.next b _

/-- Calls for tokens do not close a scanner. -/
theorem closed_afterCalls (h : s.Reachable text) (hclosed : s.reading.closed = false)
    (b : Builder σ α) (st : σ) (n : Nat) : (s.afterCalls b st n).1.reading.closed = false := by
  induction n with
  | zero => exact hclosed
  | succ n ih =>
    obtain ⟨before, skipped, lexeme, after, finding, r, hcomes⟩ :=
      (h.afterCalls b st n).exists_comes
    rw [afterCalls, reading_next, hcomes.next]
    exact hcomes.closed.trans ih

/-- Along a run a call recovers exactly if the call before it reported input that no rule
recognizes. -/
theorem recoversAt_eq (h : s.Begins text) (b : Builder σ α) (st : σ) (n : Nat) :
    s.recoversAt b st n = decide ((s.afterCalls b st n).1.reading.mode = .recovery) := by
  cases n with
  | zero =>
    rw [afterCalls, h.mode]
    rfl
  | succ n => exact (mode_next_eq_recovery_iff (h.reachable.afterCalls b st n) b _).symm

/-- Every run comes to the end: before it each call leaves a lighter reading. -/
theorem exists_signalsEnd (b : Builder σ α) (s : Scanner) (st : σ) :
    ∃ n, Outcome.signalsEnd (s.outcomeAt b st n) = true := by
  by_contra hnever
  have hlighter : ∀ n, (s.afterCalls b st n).1.reading.weight + n ≤ s.reading.weight := by
    intro n
    induction n with
    | zero => exact Nat.le_refl _
    | succ n ih =>
      have hend : (s.outcomeAt b st n).isEnd = false := by
        rw [Bool.eq_false_iff]
        intro hend
        exact hnever ⟨n, Outcome.signalsEnd_of_isEnd hend⟩
      have hlt : (s.afterCalls b st (n + 1)).1.reading.weight <
        (s.afterCalls b st n).1.reading.weight := weight_next hend
      omega
  have := hlighter (s.reading.weight + 1)
  omega

/-- From its start on a scanner reads the whole text, call by call and without a gap, whatever the
builder answers. Every call up to the first signal of the end reads a lexeme behind what is passed
over, and when the end is signalled nothing is left. -/
theorem tiles_text (h : s.Begins text) (b : Builder σ α) (st : σ) :
    s.offsetAt b st 0 = (if startsWithMark (ofString text) then 3 else 0) ∧
      ∃ n, Outcome.signalsEnd (s.outcomeAt b st n) = true ∧
        s.offsetAt b st (n + 1) = (ofString text).length ∧
        (∀ i < n, Outcome.signalsEnd (s.outcomeAt b st i) = false ∧
          s.offsetAt b st i < s.offsetAt b st (i + 1)) ∧
        ∀ i ≤ n, ∃ before skipped lexeme after,
          (s.afterCalls b st i).1.Reads text b (s.afterCalls b st i).2 (s.recoversAt b st i)
            before skipped lexeme after := by
  have hreads : ∀ i, ∃ before skipped lexeme after,
      (s.afterCalls b st i).1.Reads text b (s.afterCalls b st i).2 (s.recoversAt b st i)
        before skipped lexeme after := by
    intro i
    rw [recoversAt_eq h]
    exact exists_reads (h.reachable.afterCalls b st i) b _
  have hexists := exists_signalsEnd b s st
  have hfirst := Nat.find_spec hexists
  refine ⟨h.pos, Nat.find hexists, hfirst, ?_, fun i hi => ?_, fun i _ => hreads i⟩
  · obtain ⟨before, skipped, lexeme, after, hread⟩ := hreads (Nat.find hexists)
    have hlexeme := hread.ends hfirst
    have hafter := hread.atEnd (closed_afterCalls h.reachable h.closed b st _) hfirst
    have hsplit := hread.split
    rw [hlexeme, hafter, List.append_nil] at hsplit
    rw [ofString, hsplit]
    have hstop := hread.stop
    rw [hlexeme] at hstop
    exact hstop
  · have hgoes := Bool.eq_false_iff.2 (Nat.find_min hexists hi)
    refine ⟨hgoes, ?_⟩
    obtain ⟨before, skipped, lexeme, after, hread⟩ := hreads i
    have hlexeme : 0 < (encode lexeme).length := by
      rw [List.length_pos_iff, ne_eq, encode_eq_nil]
      exact (hread.oneLexeme hgoes).ne_nil
    have hstart : s.offsetAt b st i = (encode before).length := hread.start
    have hstop : s.offsetAt b st (i + 1) = (encode (before ++ (skipped ++ lexeme))).length :=
      hread.stop
    rw [hstart, hstop, encode_append, encode_append, List.length_append, List.length_append]
    omega

/-- An open literal behind the byte-order mark is read up to the end by a scanner that was closed
and started again, also if all reports are refused. -/
theorem tiles_text_restart :
    let text := "\uFEFF\"a"
    let s := (Scanner.start (ofString text) "f" {}).close.restart "g" "utf-8"
    let st : Scripted := { script := { refuse := some [] } }
    s.Begins text ∧ s.offsetAt Scripted.builder st 0 = 3 ∧
      ∃ n, Outcome.signalsEnd (s.outcomeAt Scripted.builder st n) = true ∧
        s.offsetAt Scripted.builder st (n + 1) = 5 ∧
        (∀ i < n, Outcome.signalsEnd (s.outcomeAt Scripted.builder st i) = false ∧
          s.offsetAt Scripted.builder st i < s.offsetAt Scripted.builder st (i + 1)) ∧
        ∀ i ≤ n, ∃ before skipped lexeme after,
          (s.afterCalls Scripted.builder st i).1.Reads text Scripted.builder
            (s.afterCalls Scripted.builder st i).2 (s.recoversAt Scripted.builder st i)
            before skipped lexeme after := by
  intro text s st
  have hbegins : s.Begins text := .restart (.close (.start "f" {})) "g" "utf-8"
  have hmark : startsWithMark (ofString text) = true := by decide
  have hlength : (ofString text).length = 5 := by decide
  obtain ⟨hstart, n, hend, hstop, hcalls, hreads⟩ := tiles_text hbegins Scripted.builder st
  rw [if_pos hmark] at hstart
  rw [hlength] at hstop
  exact ⟨hbegins, hstart, n, hend, hstop, hcalls, hreads⟩

end Scanner

end LedgerText
