import LedgerText.Proofs.Reading.Findings
import LedgerText.Proofs.Scanner.Twins

/-!
# Builders that answer alike

A uniform builder accepts every report, and answers requests by their kind, lexeme and arguments
alone. Under such a builder each finding makes one token, which depends on nothing but the finding
and on whether it is the first of its line (`tokenOf`). So all tokens of a scanner are told by the
findings of its reading, and all calls to the builder are told by them too (`exists_tokens`).
-/

namespace LedgerText

/-- A builder accepts all reports, and its answers to requests depend only on their kinds, lexemes
and arguments. -/
structure Builder.IsUniform {σ α : Type} (b : Builder σ α) : Prop where
  build : ∀ request request' st st', request.kind = request'.kind →
    request.lexeme = request'.lexeme → request.args = request'.args →
      (b.build request st).1 = (b.build request' st').1
  accepts : ∀ error st, (b.report error st).1 = .ok ()

/-- The builder whose values are what it is given. -/
def Builder.echo : Builder Unit Args where
  build request st := (.ok (some request.args), st)
  report _ st := (.ok (), st)

/-- Nothing is asked for or marked improperly in what a reading finds. -/
theorem Reading.asksProperly_of_mem_findings {r : Reading} {finding : Finding}
    (h : finding ∈ r.findings) : AsksProperly finding := by
  fun_induction findings r with
  | case1 r hend =>
    rw [List.mem_singleton.1 h]
    exact r.asksProperly_next
  | case2 r hend ih =>
    rcases List.mem_cons.1 h with rfl | h
    · exact r.asksProperly_next
    · exact ih h

namespace Scanner

open Builder

variable {σ α : Type} {b : Builder σ α} {finding : Finding} {fs : List Finding} {token : Token α}

/-! ## The token of a finding -/

/-- The value of a request is the same in all states. -/
theorem construct_eq (hb : b.IsUniform) {request request' : Request}
    (hkind : request.kind = request'.kind) (hlexeme : request.lexeme = request'.lexeme)
    (hargs : request.args = request'.args) (st st' : σ) :
    (b.construct request st).1 = (b.construct request' st').1 := by
  have hbuild := hb.build request request' st st' hkind hlexeme hargs
  unfold construct
  generalize b.build request st = entry at hbuild ⊢
  generalize b.build request' st' = entry' at hbuild ⊢
  obtain ⟨answer, st₁⟩ := entry
  obtain ⟨answer', st₁'⟩ := entry'
  obtain rfl : answer = answer' := hbuild
  rcases answer with message | value
  · rfl
  · rcases value with - | value
    · rw [hkind]
    · rfl

/-- The token that a uniform builder makes of a finding, which is the first of its line or not. -/
def tokenOf (b : Builder σ α) (st : σ) (first : Bool) : Finding → Token α
  | .structural kind text location flags =>
    ⟨kind, text, location, none,
      { flags with lineStart := flags.lineStart || (first && kind != .endOfFile) }⟩
  | .terminal request text flags =>
    match (b.construct request st).1 with
    | .ok value => ⟨request.kind, text, request.location, some value,
        { flags with lineStart := flags.lineStart || (first && request.kind != .endOfFile) }⟩
    | .error _ => ⟨.lexError, text, request.location, none, { lineStart := first }⟩
  | .fault _ text location => ⟨.lexError, text, location, none, { lineStart := first }⟩

/-- The tokens of findings, of which the first may be the first of its line. -/
def tokensOf (b : Builder σ α) (st : σ) (first : Bool) : List Finding → List (Token α)
  | [] => []
  | finding :: fs => tokenOf b st first finding ::
      tokensOf b st ((tokenOf b st first finding).kind = .endOfLine) fs

/-- The tokens of later findings depend on the earlier ones only by whether a line starts. -/
theorem exists_tokensOf_append (b : Builder σ α) (st : σ) (first : Bool) (fs : List Finding) :
    ∃ later, ∀ gs, tokensOf b st first (fs ++ gs) =
      tokensOf b st first fs ++ tokensOf b st later gs := by
  induction fs generalizing first with
  | nil => exact ⟨first, fun gs => rfl⟩
  | cons finding fs ih =>
    obtain ⟨later, hlater⟩ := ih ((tokenOf b st first finding).kind = .endOfLine)
    exact ⟨later, fun gs => congrArg (tokenOf b st first finding :: ·) (hlater gs)⟩

/-- Every token is that of a finding. -/
theorem exists_of_mem_tokensOf {st : σ} {first : Bool} (h : token ∈ tokensOf b st first fs) :
    ∃ finding ∈ fs, ∃ first, token = tokenOf b st first finding := by
  induction fs generalizing first with
  | nil => exact absurd h List.not_mem_nil
  | cons finding fs ih =>
    rcases List.mem_cons.1 h with rfl | h
    · exact ⟨finding, List.mem_cons_self, first, rfl⟩
    · obtain ⟨finding', hmem, hfinding'⟩ := ih h
      exact ⟨finding', List.mem_cons_of_mem finding hmem, hfinding'⟩

/-- A token stands where its finding does. -/
theorem location_tokenOf (b : Builder σ α) (st : σ) (first : Bool) (finding : Finding) :
    (tokenOf b st first finding).location = finding.location := by
  unfold tokenOf
  split
  · rfl
  · split <;> rfl
  · rfl

/-- Only of a finding of the line structure there is a token of that kind. -/
theorem exists_structural_of_kind {st : σ} {first : Bool} {kind : Kind}
    (h : Reading.AsksProperly finding) (hkind : kind.isStructural = true)
    (herror : kind ≠ .lexError) (htoken : (tokenOf b st first finding).kind = kind) :
    ∃ text location flags, finding = .structural kind text location flags := by
  cases finding with
  | structural kind' text location flags =>
    subst htoken
    exact ⟨text, location, flags, rfl⟩
  | terminal request text flags =>
    unfold tokenOf at htoken
    dsimp only at htoken
    split at htoken
    · rw [← htoken, h.1] at hkind
      cases hkind
    · exact absurd htoken.symm herror
  | fault cause text location => exact absurd htoken.symm herror

/-- The token of the end of file is that of its finding. -/
theorem kind_tokenOf_eq_endOfFile (h : Reading.AsksProperly finding) (b : Builder σ α) (st : σ)
    (first : Bool) :
    decide ((tokenOf b st first finding).kind = .endOfFile) = finding.isEnd := by
  rw [Bool.eq_iff_iff, decide_eq_true_iff]
  constructor
  · intro htoken
    obtain ⟨text, location, flags, rfl⟩ :=
      exists_structural_of_kind h rfl (by decide) htoken
    rfl
  · intro hend
    cases finding with
    | structural kind text location flags => exact of_decide_eq_true hend
    | terminal request text flags | fault cause text location => cases hend

/-- A token that ends a line which is written is that of its finding. -/
theorem endsLine_of_tokenOf {st : σ} {first : Bool} (h : Reading.AsksProperly finding)
    (hkind : (tokenOf b st first finding).kind = .endOfLine)
    (hwritten : (tokenOf b st first finding).flags.synthetic = false) :
    finding.endsLine = true := by
  obtain ⟨text, location, flags, rfl⟩ := exists_structural_of_kind h rfl (by decide) hkind
  have hflags : flags.synthetic = false := hwritten
  rw [Finding.endsLine, hflags]
  rfl

/-! ## All tokens -/

/-- Behind a token a line starts exactly if the token ends one. -/
theorem sinceLineStart_emit (s : Scanner) (kind : Kind) (text : String) (location : Location)
    (value : Option α) (flags : Flags) :
    (s.emit kind text location value flags).2.sinceLineStart = 0 ↔ kind = .endOfLine := by
  unfold emit
  dsimp only
  by_cases hkind : kind = .endOfLine
  · rw [if_pos hkind]
    exact iff_of_true rfl hkind
  · rw [if_neg hkind]
    exact iff_of_false (Count.clamp_succ_ne_zero _) hkind

/-- A uniform builder accepts that a lexeme is rejected. -/
theorem exists_reject (hb : b.IsUniform) (s : Scanner) (fault : Fault) (text : String)
    (location : Location) (st : σ) :
    ∃ s' st', s.reject b fault text location st =
        (.ok ⟨.lexError, text, location, none, { lineStart := s.sinceLineStart = 0 }⟩, s', st') ∧
      s'.reading = s.reading ∧ (s'.sinceLineStart = 0 ↔ Kind.lexError = .endOfLine) := by
  have haccepts := hb.accepts ⟨fault, location⟩ st
  let told : Scanner := { s with reports := ⟨s.reports.count + 1⟩ }
  have htoken : (told.emit .lexError text location (none : Option α) {}).1 =
      ⟨.lexError, text, location, none, { lineStart := s.sinceLineStart = 0 }⟩ := by
    simp [emit, told]
  refine ⟨(told.emit .lexError text location (none : Option α) {}).2,
    (b.report ⟨fault, location⟩ st).2, ?_, rfl, sinceLineStart_emit ..⟩
  rw [← htoken, reject, Reports.submit]
  generalize b.report ⟨fault, location⟩ st = entry at haccepts ⊢
  obtain ⟨answer, st'⟩ := entry
  obtain rfl : answer = .ok () := haccepts
  rfl

/-- A uniform builder makes the token of the finding. -/
theorem exists_settle (hb : b.IsUniform) (s : Scanner) (finding : Finding) (st st₀ : σ) :
    ∃ s' st', s.settle b finding st =
        (.ok (tokenOf b st₀ (s.sinceLineStart = 0) finding), s', st') ∧
      s'.reading = s.reading ∧ (s'.sinceLineStart = 0 ↔
        (tokenOf b st₀ (s.sinceLineStart = 0) finding).kind = .endOfLine) := by
  cases finding with
  | structural kind text location flags =>
    exact ⟨_, _, rfl, rfl, s.sinceLineStart_emit kind text location (none : Option α) flags⟩
  | terminal request text flags =>
    have hconstruct : (b.construct request st).1 = (b.construct request st₀).1 :=
      construct_eq hb rfl rfl rfl st st₀
    unfold settle tokenOf
    dsimp only
    generalize b.construct request st = entry at hconstruct ⊢
    generalize b.construct request st₀ = entry₀ at hconstruct ⊢
    obtain ⟨answer, st'⟩ := entry
    obtain ⟨answer₀, st₀'⟩ := entry₀
    obtain rfl : answer = answer₀ := hconstruct
    cases answer with
    | ok value =>
      exact ⟨_, _, rfl, rfl,
        s.sinceLineStart_emit request.kind text request.location (some value) flags⟩
    | error fault => exact exists_reject hb s fault text request.location st'
  | fault cause text location => exact exists_reject hb s cause text location st

/-- The calls that a finding leads to are the same in all states. -/
theorem callsFor_eq (hb : b.IsUniform) (finding : Finding) (st st₀ : σ) :
    callsFor b st finding = callsFor b st₀ finding := by
  cases finding with
  | structural kind text location flags => rfl
  | terminal request text flags =>
    have hconstruct : (b.construct request st).1 = (b.construct request st₀).1 :=
      construct_eq hb rfl rfl rfl st st₀
    unfold callsFor
    dsimp only
    rw [hconstruct]
  | fault cause text location => rfl

/-- Under a uniform builder the tokens of a scanner are those of its findings, and so are the calls
to the builder. -/
theorem exists_tokens (hb : b.IsUniform) (s : Scanner) (st st₀ : σ) (log : List Call) :
    ∃ st', s.tokens b st =
        (.ok (tokensOf b st₀ (s.sinceLineStart = 0) s.reading.findings), st') ∧
      s.tokens b.recording (st, log) =
        (.ok (tokensOf b st₀ (s.sinceLineStart = 0) s.reading.findings),
          (st', log ++ s.reading.findings.flatMap (callsFor b st₀))) := by
  -- Every finding but the end of file makes the reading lighter, so the induction is on its weight.
  induction hn : s.reading.weight using Nat.strongRecOn generalizing s st log with
  | _ n ih =>
    subst hn
    have hproper := s.reading.asksProperly_next
    have hend := kind_tokenOf_eq_endOfFile hproper b st₀ (s.sinceLineStart = 0)
    obtain ⟨s', st', hsettle, hreading, hstart⟩ :=
      exists_settle hb ({ s with reading := s.reading.next.2 } : Scanner) s.reading.next.1 st st₀
    have hnext := (next_eq_settle (s := s) (r := s.reading.next.2) rfl b st).trans hsettle
    have hrecord := next_recording b s st log
    rw [hnext, calls_eq, callsFor_eq hb _ st st₀] at hrecord
    cases hisEnd : s.reading.next.1.isEnd with
    | true =>
      have hkind := of_decide_eq_true (hend.trans hisEnd)
      rw [Reading.findings_of_isEnd hisEnd]
      refine ⟨st', tokens_of_next_end hnext hkind, ?_⟩
      rw [tokens_of_next_end hrecord hkind, List.flatMap_singleton]
      rfl
    | false =>
      have hkind := of_decide_eq_false (hend.trans hisEnd)
      have hlt : s'.reading.weight < s.reading.weight := by
        rw [hreading]
        exact s.reading.weight_next.resolve_left (by rw [hisEnd]; decide)
      obtain ⟨st'', htokens, hcalls⟩ := ih _ hlt s' st' _ rfl
      rw [decide_eq_decide.2 hstart, hreading] at htokens hcalls
      rw [Reading.findings_of_next hisEnd]
      refine ⟨st'', ?_, ?_⟩
      · rw [tokens_of_next hnext hkind, htokens]
        rfl
      · rw [tokens_of_next hrecord hkind, hcalls, List.flatMap_cons, List.append_assoc]
        rfl

end Scanner

end LedgerText
