import LedgerText.Builder.Scripted
import LedgerText.Proofs.Lexeme.Denotes
import LedgerText.Proofs.Reading.Found
import LedgerText.Proofs.Scanner.Twins

/-!
# What a builder may rely on

Every request to a builder is about a lexeme that stands in the text where the scanner has read it,
and gives the arguments that this lexeme denotes (`requests_denote`). In normal text this follows
from the rule that the lexeme obeys, and at a quote from the pieces of the literal
(`exists_denotes`).
-/

namespace LedgerText

open Literal Utf8

namespace Reading

variable {text : String} {before after : List Char} {r r' : Reading} {request : Request}
  {contents : String} {flags : Flags}

/-- The request that a literal at a quote leads to. -/
theorem exists_denotes_quote (hmode : r.mode = .normal) (hclosed : r.closed = false)
    (h : Between text before ('"' :: after) r)
    (hnext : r.next = (.terminal request contents flags, r')) :
    ∃ lexeme rest, text.toList = before ++ (lexeme ++ rest) ∧
      request.lexeme = String.ofList lexeme ∧
      r'.reader.pos = (encode (before ++ lexeme)).length ∧
      Denotes text r.encoding lexeme rest request.kind request.args := by
  have htext := text_pieces after
  rcases pieces_cases after with ⟨ps, rest, hps, hvalid⟩ | ⟨good, c, more, rest, hps, hgood, hc⟩ |
    ⟨ps, hps, hvalid⟩
  · obtain ⟨lines, r₁, hstring, hlines, hstop, -⟩ := next_string hmode hclosed h hps hvalid
    rw [hnext] at hstring
    obtain ⟨⟨rfl, -, -⟩, rfl⟩ := (by simpa using hstring :
      (request = stringRequest text r before ps lines ∧ _ ∧ _) ∧ r' = r₁)
    rw [hps] at htext
    refine ⟨quoted ps, rest, ?_, rfl, hstop.pos, ?_⟩
    · rw [← List.append_assoc]
      exact hstop.split
    · refine .string ps lines rfl (by rw [htext, hps]) hvalid fun hsize => ?_
      rw [hlines hsize, count_encode (d := '\n') (by decide) (by decide)]
  · obtain ⟨r₁, hfault, -, -⟩ := next_invalidEscape hmode hclosed h hps hgood hc
    rw [hnext] at hfault
    cases hfault
  · obtain ⟨r₁, hfault, -, -⟩ := next_unterminated hmode hclosed h hps hvalid
    rw [hnext] at hfault
    cases hfault

/-- The request that any other lexeme of normal text leads to. -/
theorem exists_denotes_lexeme (hmode : r.mode = .normal) (hclosed : r.closed = false)
    (h : Between text before after r) (hne : after ≠ []) (hquote : ∀ cs, after ≠ '"' :: cs)
    (hblank : (r.reader.lexeme .text).tag ≠ .blank)
    (hnext : r.next = (.terminal request contents flags, r')) :
    ∃ lexeme rest, text.toList = before ++ (lexeme ++ rest) ∧
      request.lexeme = String.ofList lexeme ∧
      r'.reader.pos = (encode (before ++ lexeme)).length ∧
      Denotes text r.encoding lexeme rest request.kind request.args := by
  obtain ⟨lexeme, rest, rfl, hlexeme, hlen⟩ := exists_lexeme h hne
  have hq : lexeme ≠ ['"'] := by
    rintro rfl
    exact hquote rest rfl
  obtain ⟨finding, -, hfinding, hstep, hstop⟩ := exists_found hmode h hlexeme hlen hblank hq
  obtain ⟨rfl, rfl⟩ := Prod.mk.inj (hnext.symm.trans (next_of_found hclosed hstep))
  -- A lexeme without a rule is a fault.
  have htag : (r.reader.lexeme .text).tag ≠ .invalid := by
    intro hinvalid
    rw [hinvalid] at hfinding
    cases hfinding
  have hmatches := matches_lexeme h hlexeme hlen htag
  unfold Finding.ofLexeme? at hfinding
  rw [toString_encode] at hfinding
  split at hfinding
  · cases hfinding
  · next kind args hsense =>
    cases hfinding
    exact ⟨lexeme, rest, h.split, rfl, hstop.pos, Sense.denotes_of_sense hmatches hsense⟩
  all_goals cases hfinding

/-- A request is about a lexeme of the text, and gives what the lexeme denotes. -/
theorem exists_denotes (h : Between text before after r) (hrests : r.Rests)
    (hnext : r.next = (.terminal request contents flags, r')) :
    ∃ front lexeme rest, text.toList = front ++ (lexeme ++ rest) ∧
      request.lexeme = String.ofList lexeme ∧
      r'.reader.pos = (encode (front ++ lexeme)).length ∧
      Denotes text r.encoding lexeme rest request.kind request.args := by
  have hsignal {location : Location} {r₁ r₂ : Reading}
      (hend : r₁.endOfInput location = (.terminal request contents flags, r₂)) : False := by
    have hsignals := (r₁.signalsEnd_endOfInput location).1
    rw [hend] at hsignals
    cases hsignals
  cases hclosed : r.closed with
  | true =>
    rw [Reading.next, if_pos hclosed] at hnext
    exact (hsignal hnext).elim
  | false =>
    obtain ⟨skipped, rest, r₁, rfl, -, hbetween, hgoes, hready, hblank⟩ :=
      exists_ready h hrests hclosed
    have hmode : r₁.mode = .normal := hgoes.mode
    have hopen : r₁.closed = false := hgoes.closed.trans hclosed
    have hencoding : r₁.encoding = r.encoding := hgoes.encoding
    rw [hready] at hnext
    rw [← hencoding]
    rcases rest with - | ⟨c, cs⟩
    · rw [next_of_end hmode hopen hbetween] at hnext
      exact (hsignal hnext).elim
    by_cases hc : c = '"'
    · subst hc
      exact ⟨_, exists_denotes_quote hmode hopen hbetween hnext⟩
    · exact ⟨_, exists_denotes_lexeme hmode hopen hbetween (List.cons_ne_nil c cs)
        (fun ds hds => hc (List.cons.inj hds).1) hblank hnext⟩

end Reading

namespace Session

open Builder

variable {σ α : Type}

/-- The name of the encoding after operations: that of the last start, or that of the options. -/
def encodingAfter (options : Options) (ops : List Operation) : String :=
  ops.foldl (fun encoding op =>
    match op with
    | .restart _ encoding => encoding
    | _ => encoding) options.encoding

/-- A scanner tells builders of the encoding of its last start. -/
theorem encoding_after (source : Bytes) (filename : String) (options : Options) (b : Builder σ α)
    (st : σ) (ops : List Operation) :
    ((⟨.start source filename options, st⟩ : Session σ).after b ops).scanner.reading.encoding =
      encodingAfter options ops := by
  induction ops using List.reverseRecOn with
  | nil => rfl
  | append_singleton ops op ih =>
    rw [after_concat, encodingAfter, List.foldl_append, List.foldl_cons, List.foldl_nil]
    cases op with
    | next =>
      show (Scanner.next b _ _).2.1.reading.encoding = _
      rw [Scanner.reading_next]
      exact (Reading.goesOn_next _).encoding.trans ih
    | restart filename encoding => rfl
    | close => exact ih

/-- Whatever a builder is asked for in a session, the lexeme stands in the text where the scanner
has read it, it is a word of its kind, and the arguments are what it denotes. -/
theorem requests_denote (text filename : String) (options : Options) (b : Builder σ α) (st : σ)
    (ops : List Operation) (request : Request) :
    let session := (⟨.start (ofString text) filename options, st⟩ : Session σ).after b ops
    .build request ∈ session.calls b →
    ∃ before lexeme after, text.toList = before ++ (lexeme ++ after) ∧
      request.lexeme = String.ofList lexeme ∧
      (session.perform b .next).2.scanner.reading.reader.pos =
        (encode (before ++ lexeme)).length ∧
      Denotes text (encodingAfter options ops) lexeme after request.kind request.args := by
  intro session hcall
  have hreachable : session.scanner.Reachable text := reachable_after b (.start filename options) ops
  obtain ⟨before, after, hbetween⟩ := hreachable.placed.exists_between
  have hread : (session.perform b .next).2.scanner.reading = session.scanner.reading.next.2 :=
    Scanner.reading_next ..
  obtain ⟨contents, flags, hfinding⟩ := (Scanner.build_mem_calls_iff rfl).1 hcall
  rw [hread, ← encoding_after (ofString text) filename options b st ops]
  exact Reading.exists_denotes hbetween hreachable.rests (Prod.ext hfinding rfl)

/-- A literal that is read by a builder that refuses everything, again and under another encoding. -/
theorem requests_denote_restart :
    let text := "\"a\\n\""
    let st : Scripted := { script := { failKinds := [.string], refuse := some [] } }
    let ops : List Operation := [.next, .restart "g" "latin-1"]
    let session := (⟨.start (ofString text) "f" {}, st⟩ : Session Scripted).after Scripted.builder ops
    let request : Request :=
      ⟨.string, "\"a\\n\"", ⟨"g", 1, 1, 5⟩, .string "a\n" 0 "latin-1"⟩
    .build request ∈ session.calls Scripted.builder ∧
      ∃ before lexeme after, text.toList = before ++ (lexeme ++ after) ∧
        request.lexeme = String.ofList lexeme ∧
        (session.perform Scripted.builder .next).2.scanner.reading.reader.pos =
          (encode (before ++ lexeme)).length ∧
        Denotes text (encodingAfter {} ops) lexeme after request.kind request.args := by
  intro text st ops session request
  have hcall : .build request ∈ session.calls Scripted.builder := by decide +kernel
  exact ⟨hcall, requests_denote text "f" {} Scripted.builder st ops request hcall⟩

end Session

end LedgerText
