import LedgerText.Proofs.Reading.Lines
import LedgerText.Proofs.Scanner.Uniform
import LedgerText.Tokenize

/-!
# Texts are scanned line by line

What stands before the end of a line has no effect on what stands behind it, and the end of a text
ends its last line as a line feed would. So under a uniform builder the tokens of two texts with a
line feed between them are those of each: of the first without its end of file, with its last line
ended by the line feed, and of the second as many lines further down as there are line feeds before
it. The calls to the builder are those for each of the texts too (`tokenize_lines`).
-/

namespace LedgerText

open Builder Utf8

variable {σ α : Type}

/-! ## Further down -/

/-- The token `k` lines further down. -/
def Token.shift (k : Nat) (t : Token α) : Token α := { t with location := t.location.shift k }

/-- The error `k` lines further down. -/
def LexicalError.shift (k : Nat) (e : LexicalError) : LexicalError :=
  { e with location := e.location.shift k }

/-- The call to a builder about what is `k` lines further down. -/
def Builder.Call.shift (k : Nat) : Call → Call
  | .build request => .build (request.shift k)
  | .report error => .report (error.shift k)

namespace Scanner

variable {b : Builder σ α}

/-- The value of a request is the same further down. -/
theorem construct_shift (hb : b.IsUniform) (st : σ) (k : Nat) (request : Request) :
    (b.construct (request.shift k) st).1 = (b.construct request st).1 := by
  apply construct_eq hb
  · rfl
  · rfl
  · rfl

/-- Further down a finding makes the same token, further down. -/
theorem tokenOf_shift (hb : b.IsUniform) (st : σ) (first : Bool) (k : Nat) (finding : Finding) :
    tokenOf b st first (finding.shift k) = (tokenOf b st first finding).shift k := by
  cases finding with
  | structural kind text location flags => rfl
  | terminal request text flags =>
    unfold Finding.shift tokenOf
    dsimp only
    rw [construct_shift hb]
    split <;> rfl
  | fault cause text location => rfl

/-- Further down findings make the same tokens, further down. -/
theorem tokensOf_shift (hb : b.IsUniform) (st : σ) (first : Bool) (k : Nat) (fs : List Finding) :
    tokensOf b st first (fs.map (Finding.shift k)) =
      (tokensOf b st first fs).map (Token.shift k) := by
  induction fs generalizing first with
  | nil => rfl
  | cons finding fs ih =>
    have htoken := tokenOf_shift hb st first k finding
    have hkind : (tokenOf b st first (finding.shift k)).kind =
        (tokenOf b st first finding).kind := by
      rw [htoken]
      rfl
    rw [List.map_cons, tokensOf, tokensOf, List.map_cons, hkind, ih, htoken]

/-- Further down a finding leads to the same calls, further down. -/
theorem callsFor_shift (hb : b.IsUniform) (st : σ) (k : Nat) (finding : Finding) :
    callsFor b st (finding.shift k) = (callsFor b st finding).map (Call.shift k) := by
  cases finding with
  | structural kind text location flags => rfl
  | terminal request text flags =>
    unfold Finding.shift callsFor
    dsimp only
    rw [construct_shift hb]
    split <;> rfl
  | fault cause text location => rfl

/-- Further down findings lead to the same calls, further down. -/
theorem flatMap_callsFor_shift (hb : b.IsUniform) (st : σ) (k : Nat) (fs : List Finding) :
    (fs.map (Finding.shift k)).flatMap (callsFor b st) =
      (fs.flatMap (callsFor b st)).map (Call.shift k) := by
  rw [List.flatMap_map, List.map_flatMap]
  simp only [callsFor_shift hb]

end Scanner

/-! ## The tokens of a text -/

/-- The calls to the builder while the tokens of a text are made. -/
def tokenizeCalls (b : Builder σ α) (text filename : String) (st : σ) : List Call :=
  (tokenize b.recording text filename (st, [])).2.2

/-- The findings of a whole text under the usual options. -/
def findingsOf (text filename : String) : List Finding :=
  (Reading.start (ofString text) {} filename ({} : Options).encoding).findings

/-- The tokens of a text and the calls to the builder are those of its findings. -/
theorem tokenize_eq {b : Builder σ α} (hb : b.IsUniform) (text filename : String) (st : σ) :
    (tokenize b text filename st).1 =
        .ok (Scanner.tokensOf b st true (findingsOf text filename)) ∧
      tokenizeCalls b text filename st =
        (findingsOf text filename).flatMap (Scanner.callsFor b st) := by
  obtain ⟨st', htokens, hcalls⟩ :=
    Scanner.exists_tokens hb (.start (ofString text) filename {}) st st []
  refine ⟨?_, ?_⟩
  · rw [tokenize, htokens]
    rfl
  · rw [tokenizeCalls, tokenize, hcalls]
    rfl

/-! ## Line by line -/

/-- When the tokens of the text are made with a line feed behind it, that line feed ends a line, and
is not a part of a literal: there is a token of the end of a line, which is written, on the last
line of the text. -/
def LineFeedEnds (b : Builder σ α) (text filename : String) (st : σ) : Prop :=
  ∃ tokens, (tokenize b (text ++ "\n") filename st).1 = .ok tokens ∧
    ∃ eol ∈ tokens, eol.kind = .endOfLine ∧ eol.flags.synthetic = false ∧
      eol.location.line = 1 + text.toList.count '\n'

instance (b : Builder σ α) (text filename : String) (st : σ) :
    Decidable (LineFeedEnds b text filename st) :=
  match h : (tokenize b (text ++ "\n") filename st).1 with
  | .ok tokens =>
    decidable_of_iff (∃ eol ∈ tokens, eol.kind = .endOfLine ∧ eol.flags.synthetic = false ∧
        eol.location.line = 1 + text.toList.count '\n')
      ⟨fun hex => ⟨tokens, h, hex⟩, fun ⟨_, h', hex⟩ => Except.ok.inj (h.symm.trans h') ▸ hex⟩
  | .error _ => isFalse fun ⟨_, h', _⟩ => nomatch h.symm.trans h'

/-- The token of the end of a line whose line feed is written. -/
def Token.written (t : Token α) : Token α :=
  { t with text := "\n", flags := { t.flags with synthetic := false } }

/-- A line feed that ends a line is found. -/
theorem LineFeedEnds.exists_finding {b : Builder σ α} (hb : b.IsUniform) {text filename : String}
    {st : σ} (h : LineFeedEnds b text filename st) :
    ∃ finding ∈ findingsOf (text ++ "\n") filename, finding.endsLine = true ∧
      text.toList.count '\n' < finding.location.line := by
  obtain ⟨tokens, htokens, eol, hmem, hkind, hwritten, hline⟩ := h
  rw [(tokenize_eq hb _ _ _).1] at htokens
  cases htokens
  obtain ⟨finding, hfinding, first, rfl⟩ := Scanner.exists_of_mem_tokensOf hmem
  have hproper := Reading.asksProperly_of_mem_findings hfinding
  refine ⟨finding, hfinding, Scanner.endsLine_of_tokenOf hproper hkind hwritten, ?_⟩
  rw [Scanner.location_tokenOf] at hline
  omega

/-- The tokens of two texts with a line feed between them are those of the first, without its end of
file and with its last line ended by the line feed, and those of the second further down. So are
the calls to the builder. -/
theorem tokenize_lines {b : Builder σ α} (hb : b.IsUniform) {first second filename : String}
    {st : σ} (hline : LineFeedEnds b first filename st)
    (hmark : second.toList.head? ≠ some '\uFEFF')
    (hsize : (ofString (first ++ "\n" ++ second)).length < Count.limit) :
    ∃ front eol eof rest,
      (tokenize b first filename st).1 = .ok (front ++ [eol, eof]) ∧
      eol.kind = .endOfLine ∧ eol.text = "" ∧ eol.flags.synthetic = true ∧
      eof.kind = .endOfFile ∧
      (tokenize b second filename st).1 = .ok rest ∧
      (tokenize b (first ++ "\n" ++ second) filename st).1 = .ok (front ++ eol.written ::
        rest.map (Token.shift (1 + first.toList.count '\n'))) ∧
      tokenizeCalls b (first ++ "\n" ++ second) filename st =
        tokenizeCalls b first filename st ++ (tokenizeCalls b second filename st).map
          (Call.shift (1 + first.toList.count '\n')) := by
  obtain ⟨fs, location, hfirst, hboth⟩ :=
    Reading.findings_lines hmark rfl hsize (hline.exists_finding hb)
  obtain ⟨htokens, hcalls⟩ := tokenize_eq hb first filename st
  obtain ⟨htokens₂, hcalls₂⟩ := tokenize_eq hb second filename st
  obtain ⟨htokens₃, hcalls₃⟩ := tokenize_eq hb (first ++ "\n" ++ second) filename st
  -- The end of the line is a token in the same place, whether it is written or not.
  obtain ⟨starts, happend⟩ := Scanner.exists_tokensOf_append b st true fs
  rw [findingsOf, hfirst] at htokens hcalls
  rw [findingsOf, hboth] at htokens₃ hcalls₃
  rw [happend] at htokens htokens₃
  refine ⟨_, _, _, _, htokens, rfl, rfl, rfl, rfl, htokens₂, ?_, ?_⟩
  · rw [htokens₃, ← Scanner.tokensOf_shift hb]
    rfl
  · -- The line structure makes no calls, at the end of the first text or behind it.
    rw [hcalls₃, hcalls, hcalls₂, List.flatMap_append, List.flatMap_append, List.append_assoc,
      ← Scanner.flatMap_callsFor_shift hb]
    rfl

/-- Before the line feed there are a mark, a literal over two lines and input that no rule
recognizes. -/
theorem tokenize_lines_recovery :
    let first := "\uFEFF\"a\nb\" \x07 \""
    let second := "1 \"c"
    LineFeedEnds echo first "f" () ∧ second.toList.head? ≠ some '\uFEFF' ∧
      (ofString (first ++ "\n" ++ second)).length < Count.limit ∧
      ∃ front eol eof rest,
        (tokenize echo first "f" ()).1 = .ok (front ++ [eol, eof]) ∧
        eol.kind = .endOfLine ∧ eol.text = "" ∧ eol.flags.synthetic = true ∧
        eof.kind = .endOfFile ∧
        (tokenize echo second "f" ()).1 = .ok rest ∧
        (tokenize echo (first ++ "\n" ++ second) "f" ()).1 =
          .ok (front ++ eol.written :: rest.map (Token.shift 2)) ∧
        tokenizeCalls echo (first ++ "\n" ++ second) "f" () =
          tokenizeCalls echo first "f" () ++
            (tokenizeCalls echo second "f" ()).map (Call.shift 2) := by
  intro first second
  have huniform : echo.IsUniform :=
    ⟨fun request request' st st' hkind hlexeme hargs => congrArg (Except.ok ∘ some) hargs,
      fun error st => rfl⟩
  have hline : LineFeedEnds echo first "f" () := by decide +kernel
  have hmark : second.toList.head? ≠ some '\uFEFF' := by decide
  have hsize : (ofString (first ++ "\n" ++ second)).length < Count.limit := by decide
  have hcount : 1 + first.toList.count '\n' = 2 := by decide
  rw [← hcount]
  exact ⟨hline, hmark, hsize, tokenize_lines huniform hline hmark hsize⟩

end LedgerText
