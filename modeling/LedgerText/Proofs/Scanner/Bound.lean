import LedgerText.Proofs.Reading.Steps
import LedgerText.Proofs.Scanner.Lifecycle
import LedgerText.Proofs.Scanner.Tiling
import LedgerText.Tokenize

/-!
# How many calls a source takes

Every finding but the end of file goes over a byte of the source or signals the end of the last
line, which is done once. So from a start on there is a bound on the calls for tokens up to the end
of file: one for every byte behind the byte-order mark, one for the end of file, and one for the
last line if it is to be ended (`callBound`). Each of these calls takes no more steps than there are
bytes left, and two (`nextWithin_eq`). Hence the end is come to in linear time (`endsLinearly`).

Nothing of this depends on the builder, which may decline every request and refuse every report. To
close a scanner only brings the end nearer.
-/

namespace LedgerText

open Builder Utf8

namespace Reading

variable {text : String} {before skipped lexeme after : List Char} {r r' : Reading}
  {finding : Finding}

/-- How many findings there can be before the end of file: one for every byte that is left, and one
for the end of the last line if that is still to come. -/
def findingsLeft (r : Reading) : Nat :=
  r.reader.rest.length +
    if r.endCount = 0 ∧ r.options.terminateLastLine = true ∧ r.closed = false then 1 else 0

/-- A finding but the signal of the end goes over a byte. -/
theorem Comes.rest_lt (h : Comes text r before skipped lexeme after finding r')
    (hgoes : finding.signalsEnd = false) : r'.reader.rest.length < r.reader.rest.length := by
  have hlexeme : 0 < (encode lexeme).length := by
    rcases h.finds.oneLexeme with ⟨-, hone⟩ | ⟨hend, -⟩
    · rw [List.length_pos_iff, ne_eq, encode_eq_nil]
      exact hone.ne_nil
    · rw [hgoes] at hend
      cases hend
  rw [h.start.rest, h.stop.rest, encode_append, encode_append, List.length_append,
    List.length_append]
  omega

/-- A finding never goes back. -/
theorem Comes.rest_le (h : Comes text r before skipped lexeme after finding r') :
    r'.reader.rest.length ≤ r.reader.rest.length := by
  rw [h.start.rest, h.stop.rest, encode_append, encode_append, List.length_append,
    List.length_append]
  omega

/-- After any finding but the end of file there can be fewer. -/
theorem Comes.findingsLeft_lt (h : Comes text r before skipped lexeme after finding r')
    (hend : finding.isEnd = false) : r'.findingsLeft < r.findingsLeft := by
  have hgoes := r.goesOn_next
  have hsignal := r.signal_next
  rw [h.next] at hgoes hsignal
  unfold findingsLeft
  rw [show r'.options = r.options from hgoes.options, show r'.closed = r.closed from hgoes.closed]
  rcases hsignal with ⟨location, hfinding, hcount⟩ | ⟨hnone, hcount⟩
  · rw [finding_endOfInput] at hfinding
    -- The end was signalled for the last line, and so for the first time.
    split_ifs at hfinding with hfirst
    · have hcount' : r'.endCount ≠ 0 := by
        rw [show r'.endCount = _ from hcount]
        exact Count.clamp_succ_ne_zero _
      rw [if_neg fun hagain => hcount' hagain.1, if_pos hfirst]
      exact Nat.lt_succ_of_le h.rest_le
    · rw [show finding = _ from hfinding] at hend
      cases hend
  · rw [show r'.endCount = r.endCount from hcount]
    exact Nat.add_lt_add_right (h.rest_lt hnone) _

/-- In a closed reading there are no more findings left. -/
theorem findingsLeft_close (r : Reading) : r.close.findingsLeft ≤ r.findingsLeft := by
  unfold findingsLeft
  rw [if_neg fun h => Bool.noConfusion h.2.2]
  exact Nat.le_add_right _ _

end Reading

namespace Scanner

open Reading

variable {σ α : Type} {text : String} {s : Scanner} {b : Builder σ α} {st : σ}

/-! ## One call -/

/-- The next call for a token, if at most `n` steps of the reading come to its end. -/
def nextWithin (b : Builder σ α) (s : Scanner) (st : σ) (n : Nat) :
    Option (Outcome α × Scanner × σ) :=
  (s.reading.nextWithin n).map fun (finding, reading) => { s with reading }.settle b finding st

/-- A call takes at most two steps more than there are bytes left. -/
theorem nextWithin_eq (b : Builder σ α) (s : Scanner) (st : σ) {n : Nat}
    (h : s.reading.reader.rest.length + 2 ≤ n) : s.nextWithin b st n = some (s.next b st) := by
  rw [nextWithin, s.reading.nextWithin_eq h]
  rfl

/-- After a call that does not come to the end of file there is less to find. -/
theorem findingsLeft_next (h : s.Reachable text) (hend : (s.next b st).1.isEnd = false) :
    (s.next b st).2.1.reading.findingsLeft < s.reading.findingsLeft := by
  obtain ⟨before, skipped, lexeme, after, finding, r, hcomes⟩ := h.exists_comes
  have hfinding : finding.isEnd = false := by
    rw [Bool.eq_false_iff]
    intro hfinding
    rw [next_eq_settle hcomes.next, isEnd_settle b _ st hfinding] at hend
    cases hend
  rw [reading_next, hcomes.next]
  exact hcomes.findingsLeft_lt hfinding

/-! ## All tokens -/

/-- The tokens up to the end of file, or the first error whose report is refused, if at most `n`
calls of at most `steps` steps each come to it. -/
def tokensWithin (b : Builder σ α) (s : Scanner) (st : σ) (steps : Nat) :
    Nat → Option (Except RefusedReport (List (Token α)) × σ)
  | 0 => none
  | n + 1 =>
    match s.nextWithin b st steps with
    | none => none
    | some (.error refused, _, st) => some (.error refused, st)
    | some (.ok token, s, st) =>
      if token.kind = .endOfFile then some (.ok [token], st)
      else (s.tokensWithin b st steps n).map fun (rest, st) => (rest.map (token :: ·), st)

/-- No more is left to read than the text. -/
theorem Reachable.rest_le (h : s.Reachable text) :
    s.reading.reader.rest.length ≤ (ofString text).length := by
  rw [Cursor.length_rest, h.placed.source]
  exact Nat.sub_le _ _

/-- More calls than there are findings left come to all tokens. -/
theorem tokensWithin_eq {steps n : Nat} (h : s.Reachable text)
    (hsteps : (ofString text).length + 2 ≤ steps) (hn : s.reading.findingsLeft < n) :
    s.tokensWithin b st steps n = some (s.tokens b st) := by
  induction n generalizing s st with
  | zero => exact absurd hn (Nat.not_lt_zero _)
  | succ n ih =>
    have hnext := nextWithin_eq b s st
      (Nat.le_trans (Nat.add_le_add_right h.rest_le 2) hsteps)
    generalize hentry : s.next b st = entry at hnext
    obtain ⟨refused | token, s', st'⟩ := entry
    · rw [tokensWithin, hnext, tokens_of_next_error hentry]
    · by_cases hkind : token.kind = .endOfFile
      · rw [tokensWithin, hnext, tokens_of_next_end hentry hkind]
        exact if_pos hkind
      · have hend : (s.next b st).1.isEnd = false := by
          rw [hentry]
          exact decide_eq_false hkind
        have hless := findingsLeft_next h hend
        have hreach := h.next b st
        rw [hentry] at hless hreach
        rw [tokensWithin, hnext, tokens_of_next hentry hkind]
        dsimp only
        rw [if_neg hkind, ih hreach (by omega)]
        rfl

/-! ## The bound -/

/-- How many calls for tokens a text takes at most, up to the end of file: one for every byte behind
the byte-order mark, one for the end of file, and one for the end of the last line. -/
def callBound (text : String) (options : Options) : Nat :=
  (ofString text).length - (if startsWithMark (ofString text) then 3 else 0) +
    if options.terminateLastLine then 2 else 1

/-- From its start on a scanner has less to find than the bound. -/
theorem Begins.findingsLeft_lt (h : s.Begins text) :
    s.reading.findingsLeft < callBound text s.reading.options := by
  have hrest : s.reading.reader.rest.length =
      (ofString text).length - if startsWithMark (ofString text) then 3 else 0 := by
    rw [Cursor.length_rest, h.reachable.placed.source, h.pos]
  have hlast : (if s.reading.endCount = 0 ∧ s.reading.options.terminateLastLine = true ∧
        s.reading.closed = false then 1 else 0) <
      if s.reading.options.terminateLastLine then 2 else 1 := by
    split_ifs with hfirst hterminate hterminate
    · decide
    · exact absurd hfirst.2.1 hterminate
    · decide
    · decide
  unfold Reading.findingsLeft callBound
  rw [hrest]
  exact Nat.add_lt_add_left hlast _

end Scanner

namespace Session

open Reading

variable {σ α : Type} {text : String} {b : Builder σ α} {session : Session σ}

/-- The outcomes of the calls for tokens among operations, in their order. -/
def outcomes (b : Builder σ α) (session : Session σ) (ops : List Operation) : List (Outcome α) :=
  (session.run b ops).filterMap Prod.fst

theorem outcomes_next (b : Builder σ α) (session : Session σ) (ops : List Operation) :
    session.outcomes b (.next :: ops) =
      session.outcome b :: (session.perform b .next).2.outcomes b ops := rfl

theorem outcomes_close (b : Builder σ α) (session : Session σ) (ops : List Operation) :
    session.outcomes b (.close :: ops) = (session.perform b .close).2.outcomes b ops := rfl

/-- Among more calls for tokens than there are findings left one comes to the end of file, whenever
the scanner is closed. -/
theorem exists_isEnd {ops : List Operation} {n : Nat} (h : session.scanner.Reachable text)
    (hops : ∀ op ∈ ops, op = .next ∨ op = .close) (hcalls : n ≤ ops.count .next)
    (hn : session.scanner.reading.findingsLeft < n) :
    ∃ outcome ∈ (session.outcomes b ops).take n, outcome.isEnd = true := by
  induction ops generalizing session n with
  | nil =>
    rw [List.count_nil] at hcalls
    omega
  | cons op ops ih =>
    obtain ⟨hop, hrest⟩ := List.forall_mem_cons.1 hops
    rcases hop with rfl | rfl
    · obtain ⟨n, rfl⟩ := Nat.exists_eq_succ_of_ne_zero (Nat.ne_zero_of_lt hn)
      rw [outcomes_next, List.take_succ_cons]
      cases hend : (session.outcome b).isEnd with
      | true => exact ⟨_, List.mem_cons_self, hend⟩
      | false =>
        -- The call found something, so there is one finding less left to come.
        have hless : (session.perform b .next).2.scanner.reading.findingsLeft <
            session.scanner.reading.findingsLeft := Scanner.findingsLeft_next h hend
        rw [List.count_cons_self] at hcalls
        have hreach : (session.perform b .next).2.scanner.Reachable text := h.next b session.state
        obtain ⟨outcome, houtcome, hlast⟩ := ih (n := n) hreach hrest (by omega) (by omega)
        exact ⟨outcome, List.mem_cons_of_mem _ houtcome, hlast⟩
    · have hclose := session.scanner.reading.findingsLeft_close
      rw [List.count_cons_of_ne (by decide)] at hcalls
      rw [outcomes_close]
      have hreach : (session.perform b .close).2.scanner.Reachable text := h.close
      exact ih hreach hrest hcalls (Nat.lt_of_le_of_lt hclose hn)

/-- A session comes to the end of file in linear time, whatever the builder answers. -/
structure EndsLinearly (text : String) (b : Builder σ α) (session : Session σ) : Prop where
  /-- Every call for a token returns, after at most two steps more than there are bytes left. -/
  returns : ∀ ops, (session.after b ops).scanner.nextWithin b (session.after b ops).state
      ((session.after b ops).scanner.reading.reader.rest.length + 2) =
    some ((session.after b ops).scanner.next b (session.after b ops).state)
  /-- Every call but the signals of the end moves on by a byte or more. -/
  advances : ∀ ops, Outcome.signalsEnd ((session.after b ops).outcome b) = false →
    (session.after b ops).scanner.reading.reader.pos + 1 ≤
      ((session.after b ops).perform b .next).2.scanner.reading.reader.pos
  /-- There are no more calls up to the first end of file than the bound, also where the scanner is
  closed between them. -/
  ends : ∀ ops, (∀ op ∈ ops, op = .next ∨ op = .close) →
    Scanner.callBound text session.scanner.reading.options ≤ ops.count .next →
      ∃ outcome ∈ (session.outcomes b ops).take
        (Scanner.callBound text session.scanner.reading.options), outcome.isEnd = true

/-- From its start on every session comes to the end of file in linear time. All tokens of a text
are come to by as many calls as its bound is, of as many steps as it has bytes, and two. -/
theorem endsLinearly (h : session.scanner.Begins text) (b : Builder σ α) :
    session.EndsLinearly text b ∧ ∀ filename,
      (Scanner.start (ofString text) filename {}).tokensWithin b session.state
          ((ofString text).length + 2) (Scanner.callBound text {}) =
        some (tokenize b text filename session.state) := by
  refine ⟨?_, fun filename => ?_⟩
  · exact
      { returns := fun ops => Scanner.nextWithin_eq b _ _ (Nat.le_refl _)
        advances := fun ops hgoes =>
          Scanner.pos_lt_next (reachable_after b h.reachable ops) hgoes
        ends := fun ops hops hcalls => exists_isEnd h.reachable hops hcalls h.findingsLeft_lt }
  · have hbegins : (Scanner.start (ofString text) filename {}).Begins text := .start filename {}
    exact Scanner.tokensWithin_eq hbegins.reachable (Nat.le_refl _) hbegins.findingsLeft_lt

/-- Started again, a scanner comes through a byte-order mark, a zero byte and an open literal with a
backslash at its end, also if no value is made and no report accepted. -/
theorem endsLinearly_open_literal :
    let text := "\uFEFF1\x00\n\"\\"
    let st : Scripted := { script := { failLexemes := ["1"], refuse := some [] } }
    let session : Session Scripted :=
      ⟨(Scanner.start (ofString text) "f" {}).close.restart "g" "utf-8", st⟩
    session.scanner.Begins text ∧ Scanner.callBound text session.scanner.reading.options = 7 ∧
      session.EndsLinearly text Scripted.builder ∧ ∀ filename,
        (Scanner.start (ofString text) filename {}).tokensWithin Scripted.builder session.state
            ((ofString text).length + 2) (Scanner.callBound text {}) =
          some (tokenize Scripted.builder text filename session.state) := by
  intro text st session
  have hbegins : session.scanner.Begins text := .restart (.close (.start "f" {})) "g" "utf-8"
  exact ⟨hbegins, by decide, endsLinearly hbegins Scripted.builder⟩

end Session

end LedgerText
