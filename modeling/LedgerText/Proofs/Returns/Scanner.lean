import LedgerText.Proofs.Returns.Reading
import LedgerText.Proofs.Scanner.Uniform

/-!
# Scans of a text without its carriage returns

A builder that gives back what it is given makes one token of each finding, so of findings that are
alike it makes tokens that resemble each other (`Finding.Alike.resembles`). Two scanners whose
readings are parallel make tokens that correspond, and are parallel behind them
(`Parallel.next`). So are all tokens of a text and of the text without its carriage returns
(`corresponds_stripped`), up to the ends of file.
-/

namespace LedgerText

open Builder Utf8

variable {σ : Type} {b : Builder σ Args} {text : String} {r : Reading}
  {finding finding' : Finding} {st st' : σ} {log log' : List Call}

/-! ## Builders that give back what they are given -/

/-- A builder gives back what it is given, and accepts all reports. -/
structure Builder.Echoes (b : Builder σ Args) : Prop where
  build : ∀ request st, (b.build request st).1 = .ok (some request.args)
  accepts : ∀ error st, (b.report error st).1 = .ok ()

/-- What is given back does not depend on the state. -/
theorem Builder.Echoes.isUniform (hb : b.Echoes) : b.IsUniform where
  build request request' st st' _ _ hargs := by rw [hb.build, hb.build, hargs]
  accepts := hb.accepts

/-- Every request is answered with a value. -/
theorem Builder.Echoes.construct (hb : b.Echoes) (request : Request) (st : σ) :
    (b.construct request st).1 = .ok request.args := by
  have hbuild := hb.build request st
  unfold Builder.construct
  generalize b.build request st = entry at hbuild ⊢
  obtain ⟨answer, st'⟩ := entry
  obtain rfl : answer = .ok (some request.args) := hbuild
  rfl

/-- The fault that a builder is told of in a call. -/
def Builder.Call.fault? : Call → Option Fault
  | .build _ => none
  | .report error => some error.fault

/-- The fault that is found, if one is. -/
def Finding.fault? : Finding → Option Fault
  | .fault cause _ _ => some cause
  | _ => none

/-- A builder that gives back what it is given is told of nothing but the faults that are found. -/
theorem Builder.Echoes.faults_callsFor (hb : b.Echoes) (st : σ) (finding : Finding) :
    (Scanner.callsFor b st finding).filterMap Call.fault? = finding.fault?.toList := by
  cases finding with
  | structural kind text location flags => rfl
  | terminal request text flags =>
    unfold Scanner.callsFor
    dsimp only
    rw [hb.construct]
    rfl
  | fault cause text location => rfl

/-- The value of a terminal is what is given of it. -/
theorem Builder.Echoes.tokenOf_terminal (hb : b.Echoes) (st : σ) (first : Bool) (request : Request)
    (text : String) (flags : Flags) :
    Scanner.tokenOf b st first (.terminal request text flags) =
      ⟨request.kind, text, request.location, some request.args,
        { flags with
          lineStart := flags.lineStart || (first && request.kind != .endOfFile) }⟩ := by
  unfold Scanner.tokenOf
  dsimp only
  rw [hb.construct]

/-! ## Tokens that resemble each other -/

/-- The token ends a line in a carriage return and a line feed, behind which the reading stands. -/
def Token.EndsInReturn (text : String) (r : Reading) (token : Token Args) : Prop :=
  token.kind = .endOfLine ∧ token.flags.synthetic = false ∧ r.BehindReturn text

/-- The token of a text, behind which the reading `r` stands, resembles that of the text without its
carriage returns. Of the faults that are reported up to there, `fault` is the last. -/
structure Token.Resembles (text : String) (r : Reading) (fault : Option Fault)
    (token token' : Token Args) : Prop where
  kind : token.kind = token'.kind
  flags : token.flags = token'.flags
  line : token.location.line = token'.location.line
  firstColumn : ¬token.EndsInReturn text r →
    token.location.firstColumn = token'.location.firstColumn
  /-- Behind a carriage return a line ends one column further on. -/
  lineEnd : token.EndsInReturn text r →
    token.location.firstColumn = Count.clamp (token'.location.firstColumn + 1)
  /-- In a text whose columns can be counted this is the next column. -/
  nextColumn : token.EndsInReturn text r → (ofString text).length ≤ Count.limit →
    token.location.firstColumn = token'.location.firstColumn + 1
  /-- Only these tokens may hold carriage returns. -/
  text : token.kind ≠ .string → token.kind ≠ .comment → token.kind ≠ .skipped →
    ¬(token.kind = .lexError ∧ fault = some .unterminatedString) → token.text = token'.text
  value : token.kind ≠ .string → token.value = token'.value
  /-- Comments and skipped lines may end in a carriage return. -/
  wholeLine : token.kind = .comment ∨ token.kind = .skipped →
    token.text = token'.text ∨ token.text = token'.text ++ "\r"

/-- A token resembles itself, if it does not end a line in a carriage return. -/
theorem Token.Resembles.refl {fault : Option Fault} {token : Token Args}
    (h : ¬token.EndsInReturn text r) : token.Resembles text r fault token where
  kind := rfl
  flags := rfl
  line := rfl
  firstColumn := fun _ => rfl
  lineEnd := fun hends => absurd hends h
  nextColumn := fun hends => absurd hends h
  text := fun _ _ _ _ => rfl
  value := fun _ => rfl
  wholeLine := fun _ => .inl rfl

namespace Finding.Alike

/-- The same faults are found. -/
theorem fault?_eq (h : Alike text r finding finding') : finding'.fault? = finding.fault? := by
  cases h <;> rfl

/-- Of findings that are alike there are tokens that resemble each other. -/
theorem resembles (h : Alike text r finding finding') (hb : b.Echoes)
    (hproper : Reading.AsksProperly finding) {fault : Option Fault}
    (hfault : ∀ cause, finding.fault? = some cause → fault = some cause) (st : σ) (first : Bool) :
    (Scanner.tokenOf b st first finding).Resembles text r fault
      (Scanner.tokenOf b st first finding') := by
  cases h with
  | same hline =>
    exact .refl fun hends => hline (Scanner.endsLine_of_tokenOf hproper hends.1 hends.2.1) hends.2.2
  | @lineEnd location location' hreturn hline hcolumn hsize =>
    have hnext (hlimit : (ofString text).length ≤ Count.limit) :
        location.firstColumn = location'.firstColumn + 1 :=
      hcolumn.trans (Count.clamp_of_le (hsize.trans hlimit))
    exact
      { kind := rfl
        flags := rfl
        line := hline
        firstColumn := fun hends => absurd ⟨rfl, rfl, hreturn⟩ hends
        lineEnd := fun _ => hcolumn
        nextColumn := fun _ => hnext
        text := fun _ _ _ _ => rfl
        value := fun _ => rfl
        wholeLine := fun _ => .inl rfl }
  | @wholeLine kind line location location' hkind hstart =>
    have hends : kind ≠ .endOfLine := by
      rintro rfl
      rcases hkind with hkind | hkind <;> cases hkind
    have htext : String.ofList (line ++ ['\r']) = String.ofList line ++ "\r" :=
      String.ofList_append
    exact
      { kind := rfl
        flags := rfl
        line := hstart.line
        firstColumn := fun _ => hstart.firstColumn
        lineEnd := fun h => absurd h.1 hends
        nextColumn := fun h => absurd h.1 hends
        text := fun _ hcomment hskipped => (hkind.elim hcomment hskipped).elim
        value := fun _ => rfl
        wholeLine := fun _ => .inr htext }
  | @string request request' contents contents' flags hkind hkind' hstart =>
    rw [hb.tokenOf_terminal, hb.tokenOf_terminal, hkind, hkind']
    exact
      { kind := rfl
        flags := rfl
        line := hstart.line
        firstColumn := fun _ => hstart.firstColumn
        lineEnd := fun h => Kind.noConfusion h.1
        nextColumn := fun h => Kind.noConfusion h.1
        text := fun h => absurd rfl h
        value := fun h => absurd rfl h
        wholeLine := fun h => by rcases h with h | h <;> cases h }
  | unterminated =>
    exact
      { kind := rfl
        flags := rfl
        line := rfl
        firstColumn := fun _ => rfl
        lineEnd := fun h => Kind.noConfusion h.1
        nextColumn := fun h => Kind.noConfusion h.1
        text := fun _ _ _ h => absurd ⟨rfl, hfault _ rfl⟩ h
        value := fun _ => rfl
        wholeLine := fun h => by rcases h with h | h <;> cases h }

end Finding.Alike

/-! ## Scanners -/

/-- What the calls for the next tokens came to in a scan of a text and in one of the text without
its carriage returns: there are tokens, which resemble each other, and up to there the same faults
were reported in the same order. -/
def Corresponds (text : String) (entry entry' : Outcome Args × Scanner × σ × List Call) : Prop :=
  ∃ token token', entry.1 = .ok token ∧ entry'.1 = .ok token' ∧
    token.Resembles text entry.2.1.reading (entry.2.2.2.filterMap Call.fault?).getLast? token' ∧
    entry.2.2.2.filterMap Call.fault? = entry'.2.2.2.filterMap Call.fault?

namespace Scanner

variable {s s' : Scanner}

/-- The readings of both scanners are parallel, and a token may be the first of its line in both or
in none. -/
structure Parallel (text : String) (s s' : Scanner) : Prop where
  reading : ∃ before after, s.reading.Parallel text before after s'.reading
  lineStart : s'.sinceLineStart = 0 ↔ s.sinceLineStart = 0

/-- A builder that gives back what it is given makes the token of what is found. -/
theorem exists_next_recording (hb : b.Echoes) (s : Scanner) (st st₀ : σ) (log : List Call) :
    ∃ after st', s.next b.recording (st, log) =
        (.ok (tokenOf b st₀ (s.sinceLineStart = 0) s.reading.next.1), after, st',
          log ++ callsFor b st s.reading.next.1) ∧
      after.reading = s.reading.next.2 ∧ (after.sinceLineStart = 0 ↔
        (tokenOf b st₀ (s.sinceLineStart = 0) s.reading.next.1).kind = .endOfLine) := by
  obtain ⟨after, st', hsettle, hreading, hstart⟩ := exists_settle hb.isUniform
    ({ s with reading := s.reading.next.2 } : Scanner) s.reading.next.1 st st₀
  refine ⟨after, st', ?_, hreading, hstart⟩
  rw [next_recording, calls_eq, (next_eq_settle rfl b st).trans hsettle]

/-- The next tokens of parallel scanners correspond, and the scanners are parallel behind them. -/
theorem Parallel.next (h : Parallel text s s') (hb : b.Echoes) (st st' : σ)
    (hlog : log.filterMap Call.fault? = log'.filterMap Call.fault?) :
    Corresponds text (s.next b.recording (st, log)) (s'.next b.recording (st', log')) ∧
      Parallel text (s.next b.recording (st, log)).2.1 (s'.next b.recording (st', log')).2.1 := by
  obtain ⟨before, after, hparallel⟩ := h.reading
  have halike := hparallel.agrees.alike
  obtain ⟨s₁, st₁, hnext, hreading, hstart⟩ := exists_next_recording hb s st st log
  obtain ⟨s₁', st₁', hnext', hreading', hstart'⟩ := exists_next_recording hb s' st' st log'
  rw [decide_eq_decide.2 h.lineStart] at hnext' hstart'
  have hfaults : (log ++ callsFor b st s.reading.next.1).filterMap Call.fault? =
      (log' ++ callsFor b st' s'.reading.next.1).filterMap Call.fault? := by
    rw [List.filterMap_append, List.filterMap_append, hlog, hb.faults_callsFor, hb.faults_callsFor,
      halike.fault?_eq]
  have hlast : ∀ cause, s.reading.next.1.fault? = some cause →
      ((log ++ callsFor b st s.reading.next.1).filterMap Call.fault?).getLast? = some cause := by
    intro cause hcause
    rw [List.filterMap_append, hb.faults_callsFor, hcause]
    exact List.getLast?_concat
  have hresembles := halike.resembles hb s.reading.asksProperly_next hlast st
    (s.sinceLineStart = 0)
  rw [hnext, hnext']
  refine ⟨⟨_, _, rfl, rfl, ?_, hfaults⟩, ?_, ?_⟩
  · rw [hreading]
    exact hresembles
  · rw [hreading, hreading']
    exact hparallel.next
  · rw [hstart, hstart', hresembles.kind]

/-- All tokens of parallel scanners correspond, up to the ends of file. -/
theorem Parallel.drain (h : Parallel text s s') (hb : b.Echoes)
    (hlog : log.filterMap Call.fault? = log'.filterMap Call.fault?) :
    List.Forall₂ (Corresponds text) (s.drain b.recording (st, log))
      (s'.drain b.recording (st', log')) := by
  -- Every token but the end of file leaves a lighter reading of the first text, so the induction is
  -- on its weight.
  induction hn : s.reading.weight using Nat.strongRecOn generalizing s s' st st' log log' with
  | _ n ih =>
    subst hn
    obtain ⟨hcorresponds, hparallel⟩ := h.next hb st st' hlog
    have ⟨token, token', htoken, htoken', hresembles, hfaults⟩ := hcorresponds
    have hends : (s'.next b.recording (st', log')).1.isEnd =
        (s.next b.recording (st, log)).1.isEnd := by
      rw [htoken, htoken', Outcome.isEnd, Outcome.isEnd, hresembles.kind]
    unfold Scanner.drain
    dsimp only
    rw [hends]
    cases hend : (s.next b.recording (st, log)).1.isEnd with
    | true => exact .cons hcorresponds .nil
    | false => exact .cons hcorresponds (ih _ (weight_next hend) hparallel hfaults rfl)

end Scanner

/-- A text in which every carriage return stands before a line feed is scanned like the text without
its carriage returns: there are as many tokens, each of which corresponds to one, if the builder
gives back what it is given. -/
theorem corresponds_stripped (hb : b.Echoes) (hends : ReturnsEndLines text.toList)
    (filename : String) (options : Options) (st : σ) :
    List.Forall₂ (Corresponds text)
      ((Scanner.start (ofString text) filename options).drain b.recording (st, []))
      ((Scanner.start (ofString (stripped text)) filename options).drain b.recording (st, [])) := by
  have hparallel : Scanner.Parallel text (.start (ofString text) filename options)
      (.start (ofString (stripped text)) filename options) :=
    { reading := Reading.exists_parallel_start hends options filename options.encoding
      lineStart := ⟨fun _ => rfl, fun _ => rfl⟩ }
  exact hparallel.drain hb rfl

/-- There are a comment, a continued literal, a skipped line and a literal that does not end, each
with a carriage return. -/
theorem corresponds_stripped_continued :
    let text := "1 ; a\r\n\"b\\\r\n c\r\n\" #\r\n* d\r\n \r\n\"e\r\n"
    ReturnsEndLines text.toList ∧ List.Forall₂ (Corresponds text)
      ((Scanner.start (ofString text) "f" {}).drain Builder.echo.recording ((), []))
      ((Scanner.start (ofString (stripped text)) "f" {}).drain Builder.echo.recording ((), [])) := by
  intro text
  have hends : ReturnsEndLines text.toList := by decide
  exact ⟨hends, corresponds_stripped ⟨fun _ _ => rfl, fun _ _ => rfl⟩ hends "f" {} ()⟩

end LedgerText
