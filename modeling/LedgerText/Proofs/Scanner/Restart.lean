import LedgerText.Proofs.Scanner.Requests
import LedgerText.Proofs.Scanner.Trace

/-!
# A new start leaves nothing behind

Whatever was done with a scanner, for whichever builders, it keeps its source and its options
(`Later.reachable`, `Later.options`). To start it again takes nothing else over, so it is then
interchangeable with a scanner that was never used: they look the same and show the same under all
operations (`trace_restart`). The two differ in no more than the encoding that their options name,
which only a first start looks at; until the next start both tell builders of the encoding that was
given (`encoding_of_mem_trace`).
-/

namespace LedgerText

open Builder Utf8

namespace Scanner

variable {σ α : Type} {text : String} {s s' : Scanner} {b : Builder σ α} {st : σ}
  {request : Request}

/-- What may have become of a scanner that was asked for tokens, for any builders, started again and
closed, in any order. -/
inductive Later (s : Scanner) : Scanner → Prop
  | now : Later s s
  | next {σ α : Type} (b : Builder σ α) (st : σ) {s' : Scanner} (h : Later s s') :
    Later s (s'.next b st).2.1
  | restart (filename encoding : String) {s' : Scanner} (h : Later s s') :
    Later s (s'.restart filename encoding)
  | close {s' : Scanner} (h : Later s s') : Later s s'.close

/-- A scanner of a text stays one. -/
theorem Later.reachable (h : s.Later s') (hs : s.Reachable text) : s'.Reachable text := by
  induction h with
  | now => exact hs
  | next b st h ih => exact ih.next b st
  | restart filename encoding h ih => exact ih.restart filename encoding
  | close h ih => exact ih.close

/-- A scanner keeps its options. -/
theorem Later.options (h : s.Later s') : s'.reading.options = s.reading.options := by
  induction h with
  | now => rfl
  | next b st h ih =>
    rw [reading_next]
    exact (Reading.goesOn_next _).options.trans ih
  | restart filename encoding h ih => exact ih
  | close h ih => exact ih

/-- Started again, a scanner is interchangeable with a new one. -/
theorem Later.interchangeable_restart {filename : String} {options : Options}
    (h : Later (.start (ofString text) filename options) s) (filename' encoding : String) :
    Interchangeable (.start (ofString text) filename' { options with encoding })
      (s.restart filename' encoding) := by
  have hsource := (h.reachable (.start filename options)).placed.source
  have hoptions : s.reading.options = options := h.options
  have hreading : s.reading.restart filename' encoding =
      .start (ofString text) options filename' encoding := by
    rw [Reading.restart, hsource, hoptions]
  refine ⟨?_, rfl, rfl⟩
  show Reading.Interchangeable (.start (ofString text) { options with encoding } filename' encoding)
    (s.reading.restart filename' encoding)
  rw [hreading]
  refine .start ?_ ?_ ?_ filename' encoding <;> rfl

/-- A builder is told of the encoding of the scanner. -/
theorem Reachable.encoding_of_mem_calls (h : s.Reachable text)
    (hcall : .build request ∈ s.calls b st) {contents name : String} {lines : Nat}
    (hargs : request.args = .string contents lines name) : name = s.reading.encoding := by
  obtain ⟨before, after, hbetween⟩ := h.placed.exists_between
  obtain ⟨text', flags, hfinding⟩ := (build_mem_calls_iff rfl).1 hcall
  obtain ⟨front, lexeme, rest, -, -, -, hdenotes⟩ :=
    Reading.exists_denotes hbetween h.rests (Prod.ext hfinding rfl)
  rw [hargs] at hdenotes
  generalize request.kind = kind at hdenotes
  cases hdenotes
  rfl

end Scanner

namespace Session

variable {σ α : Type} {text : String} {s : Scanner}

/-- Up to a new start all strings are asked for in the encoding of the scanner. -/
theorem encoding_of_mem_trace (h : s.Reachable text) (st : σ)
    {steps : List (Builder σ α × Operation)}
    (hsteps : ∀ b filename encoding, (b, .restart filename encoding) ∉ steps) {entry : Seen σ α}
    (hentry : entry ∈ (⟨s, st⟩ : Session σ).trace steps) {request : Request}
    (hcall : .build request ∈ entry.calls) {contents name : String} {lines : Nat}
    (hargs : request.args = .string contents lines name) : name = s.reading.encoding := by
  induction steps generalizing s st with
  | nil => exact absurd hentry List.not_mem_nil
  | cons step steps ih =>
    obtain ⟨b, op⟩ := step
    have hrest : ∀ b filename encoding, (b, .restart filename encoding) ∉ steps :=
      fun b filename encoding hmem => hsteps b filename encoding (List.mem_cons_of_mem _ hmem)
    rw [trace] at hentry
    cases op with
    | restart filename encoding => exact absurd List.mem_cons_self (hsteps b filename encoding)
    | close =>
      rcases List.mem_cons.1 hentry with rfl | hentry
      · exact absurd hcall List.not_mem_nil
      · have hclosed := ih h.close st hrest hentry
        exact hclosed
    | next =>
      rcases List.mem_cons.1 hentry with rfl | hentry
      · exact h.encoding_of_mem_calls hcall hargs
      · have hencoding : (s.next b st).2.1.reading.encoding = s.reading.encoding := by
          rw [Scanner.reading_next]
          exact (Reading.goesOn_next _).encoding
        exact (ih (h.next b st) (s.next b st).2.2 hrest hentry).trans hencoding

/-- Whatever was done with a scanner, once it is started again it looks like a new scanner with the
same options but for the encoding, and shows the same under all operations. Up to another start all
strings are asked for in the encoding that was given. -/
theorem trace_restart {text filename : String} {options : Options} {s : Scanner}
    (h : Scanner.Later (.start (ofString text) filename options) s) (filename' encoding : String) :
    let again : Scanner := s.restart filename' encoding
    let fresh : Scanner := .start (ofString text) filename' { options with encoding }
    again.view = fresh.view ∧
      ∀ ⦃σ α : Type⦄ (st : σ) (steps : List (Builder σ α × Operation)),
        (⟨again, st⟩ : Session σ).trace steps = (⟨fresh, st⟩ : Session σ).trace steps ∧
          ((∀ b filename encoding, (b, .restart filename encoding) ∉ steps) →
            ∀ entry ∈ (⟨again, st⟩ : Session σ).trace steps, ∀ request,
              .build request ∈ entry.calls → ∀ contents lines name,
                request.args = .string contents lines name → name = encoding) := by
  intro again fresh
  have hsame : fresh.Interchangeable again := h.interchangeable_restart filename' encoding
  have hagain : again.Reachable text :=
    (h.reachable (.start filename options)).restart filename' encoding
  refine ⟨hsame.view, fun σ α st steps => ⟨trace_eq hsame st steps, ?_⟩⟩
  intro hsteps entry hentry request hcall contents lines name hargs
  exact encoding_of_mem_trace hagain st hsteps hentry hcall hargs

/-- A scanner that is closed in recovery, behind a report that was refused, and started again. -/
theorem trace_restart_recovery :
    let text := "$ \"a\"\n\"b\""
    let st : Scripted := { script := { refuse := some [] } }
    let start : Scanner := .start (ofString text) "f" {}
    let broken : Scanner := (start.next Scripted.builder st).2.1
    let again : Scanner := broken.close.restart "g" "latin-1"
    let fresh : Scanner := .start (ofString text) "g" { encoding := "latin-1" }
    let steps : List (Builder Scripted Args × Operation) :=
      [.next, .next, .next, .close, .next].map (Scripted.builder, ·)
    broken.reading.mode = .recovery ∧ start.Later broken.close ∧ again.view = fresh.view ∧
      (⟨again, st⟩ : Session Scripted).trace steps = (⟨fresh, st⟩ : Session Scripted).trace steps ∧
      (∀ b filename encoding, (b, .restart filename encoding) ∉ steps) ∧
      ∀ entry ∈ (⟨again, st⟩ : Session Scripted).trace steps, ∀ request,
        .build request ∈ entry.calls → ∀ contents lines name,
          request.args = .string contents lines name → name = "latin-1" := by
  intro text st start broken again fresh steps
  have hlater : start.Later broken.close := .close (.next Scripted.builder st .now)
  obtain ⟨hview, htrace⟩ := trace_restart hlater "g" "latin-1"
  obtain ⟨hsame, hencoding⟩ := htrace st steps
  have hsteps : ∀ b filename encoding, (b, .restart filename encoding) ∉ steps := by
    intro b filename encoding hmem
    simp [steps] at hmem
  exact ⟨by decide +kernel, hlater, hview, hsame, hsteps, hencoding hsteps⟩

end Session

end LedgerText
