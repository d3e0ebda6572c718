import LedgerText.Builder.Scripted
import LedgerText.Proofs.Scanner.Trace

/-!
# The byte-order mark cannot be seen

A reader starts behind a byte-order mark. So what is left for it to read is the text behind the
mark, and the readings of a text with a mark and without one are interchangeable from their start
on, although their offsets differ by the bytes of the mark. Hence both show the same under all
operations (`trace_byteOrderMark`).
-/

namespace LedgerText

open Utf8

namespace Reader

/-- From the start of a text without a byte-order mark the whole text is left. -/
theorem rest_start {text : String} (h : text.toList.head? ≠ some '\uFEFF') :
    (start (ofString text)).rest = ofString text := by
  have hmark : startsWithMark (ofString text) = false :=
    Bool.eq_false_iff.2 fun hmark => h (startsWithMark_encode.1 hmark)
  rw [start, startAt, hmark]
  rfl

/-- From the start of a text with a byte-order mark the text behind the mark is left. -/
theorem rest_start_mark (text : String) :
    (start (ofString ("\uFEFF" ++ text))).rest = ofString text := by
  have hbytes : ofString ("\uFEFF" ++ text) = byteOrderMark ++ ofString text := by
    rw [ofString, String.toList_append, encode_append]
    rfl
  have hmark : startsWithMark (byteOrderMark ++ ofString text) = true :=
    List.isPrefixOf_iff_prefix.2 ⟨ofString text, rfl⟩
  rw [hbytes, start, startAt, hmark]
  rfl

end Reader

namespace Session

/-- Whatever is done with a scanner, for whichever builders, a byte-order mark before the text
changes nothing that can be seen. The first lexeme behind the mark is the first of its line. -/
theorem trace_byteOrderMark {text : String} (h : text.toList.head? ≠ some '\uFEFF')
    (filename : String) (options : Options) :
    let plain : Scanner := .start (ofString text) filename options
    let marked : Scanner := .start (ofString ("\uFEFF" ++ text)) filename options
    marked.view = plain.view ∧
      (∀ ⦃σ α : Type⦄ (st : σ) (steps : List (Builder σ α × Operation)),
        (⟨marked, st⟩ : Session σ).trace steps = (⟨plain, st⟩ : Session σ).trace steps) ∧
      marked.reading.reader.lexeme .text =
        .inText true (ofString text).length (ofString text) := by
  intro plain marked
  have hrest : (Reader.start (ofString ("\uFEFF" ++ text))).rest =
      (Reader.start (ofString text)).rest := by
    rw [Reader.rest_start h, Reader.rest_start_mark]
  have hsame : plain.Interchangeable marked := ⟨.start hrest rfl rfl _ _, rfl, rfl⟩
  refine ⟨hsame.view, fun σ α st steps => trace_eq hsame st steps, ?_⟩
  show Lexeme.inText true (Reader.start (ofString ("\uFEFF" ++ text))).rest.length
    (Reader.start (ofString ("\uFEFF" ++ text))).rest = _
  rw [Reader.rest_start_mark]

/-- An indent, an escape sequence that means nothing and a line of its own, behind a mark and
without one, with all reports refused, and read again after a closing. -/
theorem trace_byteOrderMark_indent :
    let text := "\t\"a\\q\"\n^x"
    let st : Scripted := { script := { refuse := some [] } }
    let plain : Scanner := .start (ofString text) "f" {}
    let marked : Scanner := .start (ofString ("\uFEFF" ++ text)) "f" {}
    let steps : List (Builder Scripted Args × Operation) :=
      [.next, .next, .close, .next, .restart "g" "latin-1", .next].map (Scripted.builder, ·)
    text.toList.head? ≠ some '\uFEFF' ∧ marked.view = plain.view ∧
      (⟨marked, st⟩ : Session Scripted).trace steps = (⟨plain, st⟩ : Session Scripted).trace steps ∧
      marked.reading.reader.lexeme .text =
        .inText true (ofString text).length (ofString text) := by
  intro text st plain marked steps
  have hhead : text.toList.head? ≠ some '\uFEFF' := by decide
  obtain ⟨hview, htrace, hfirst⟩ := trace_byteOrderMark hhead "f" {}
  exact ⟨hhead, hview, htrace st steps, hfirst⟩

end Session

end LedgerText
