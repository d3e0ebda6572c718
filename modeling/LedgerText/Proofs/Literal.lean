import LedgerText.Escape
import Mathlib.Data.List.TakeWhile

/-!
# String literals, as they are written

What stands behind an opening quote is read from left to right in pieces: a backslash with a
carriage return and a line feed, a backslash with any other character, or one plain character. The
pieces end before the first quote that is none of their characters, or with the text (`pieces`).

Nothing is lost between the pieces (`text_pieces`), and only an escape sequence that is not in the
table has no contents.
-/

namespace LedgerText.Literal

/-- What stands between the quotes of a literal. -/
inductive Piece where
  /-- A character that stands for itself. -/
  | plain (c : Char)
  /-- A backslash and a character. -/
  | escape (c : Char)
  /-- A backslash, a carriage return and a line feed. -/
  | continuation
deriving DecidableEq

/-- The characters that may be escaped, and what they stand for. -/
def escapes : List (Char × Char) :=
  [('n', '\n'), ('t', '\t'), ('r', '\r'), ('b', '\x08'), ('f', '\x0c'), ('\\', '\\'), ('"', '"'),
    ('\n', '\n')]

namespace Piece

/-- A piece as written. -/
def text : Piece → List Char
  | plain c => [c]
  | escape c => ['\\', c]
  | continuation => ['\\', '\r', '\n']

/-- The character that a piece stands for, if it stands for one. -/
def contents? : Piece → Option Char
  | plain c => some c
  | escape c => escapes.lookup c
  | continuation => some '\n'

/-- A piece means something. -/
def IsValid (p : Piece) : Prop := p.contents? ≠ none

instance (p : Piece) : Decidable p.IsValid := inferInstanceAs (Decidable (_ ≠ _))

end Piece

/-- Pieces as written. -/
def text (ps : List Piece) : List Char := ps.flatMap Piece.text

/-- A literal as written, with its quotes. -/
def quoted (ps : List Piece) : List Char := '"' :: text ps ++ ['"']

/-- The characters that pieces stand for. -/
def contents (ps : List Piece) : List Char := ps.filterMap Piece.contents?

/-- The pieces at the front of the characters, and what is left: nothing, or a quote that ends the
literal and what follows it. -/
def pieces : List Char → List Piece × List Char
  | [] => ([], [])
  | '"' :: cs => ([], '"' :: cs)
  | '\\' :: '\r' :: '\n' :: cs => (.continuation :: (pieces cs).1, (pieces cs).2)
  | '\\' :: c :: cs => (.escape c :: (pieces cs).1, (pieces cs).2)
  | c :: cs => (.plain c :: (pieces cs).1, (pieces cs).2)

@[simp]
theorem text_cons (p : Piece) (ps : List Piece) : text (p :: ps) = p.text ++ text ps := rfl

@[simp]
theorem text_append (ps qs : List Piece) : text (ps ++ qs) = text ps ++ text qs :=
  List.flatMap_append

@[simp]
theorem contents_append (ps qs : List Piece) : contents (ps ++ qs) = contents ps ++ contents qs :=
  List.filterMap_append

/-- The pieces and what is left are all of the characters. -/
theorem text_pieces (cs : List Char) : text (pieces cs).1 ++ (pieces cs).2 = cs := by
  fun_induction pieces cs with
  | case1 => rfl
  | case2 cs => rfl
  | case3 cs ih => simpa [Piece.text] using ih
  | case4 c cs _ ih => simpa [Piece.text] using ih
  | case5 c cs _ _ _ ih => simpa [Piece.text] using ih

/-- The pieces end with the text or before a quote. -/
theorem pieces_rest (cs : List Char) :
    (pieces cs).2 = [] ∨ ∃ rest, (pieces cs).2 = '"' :: rest := by
  fun_induction pieces cs with
  | case1 => exact .inl rfl
  | case2 cs => exact .inr ⟨cs, rfl⟩
  | case3 cs ih => exact ih
  | case4 c cs _ ih => exact ih
  | case5 c cs _ _ _ ih => exact ih

/-- Either all pieces mean something, or there is a first that does not. -/
theorem valid_or_exists_first (ps : List Piece) : (∀ p ∈ ps, p.IsValid) ∨
    ∃ good c more, ps = good ++ .escape c :: more ∧ (∀ p ∈ good, p.IsValid) ∧
      ¬(Piece.escape c).IsValid := by
  induction ps with
  | nil => exact .inl fun p hp => absurd hp List.not_mem_nil
  | cons p ps ih =>
    by_cases hp : p.IsValid
    · rcases ih with hall | ⟨good, c, more, rfl, hgood, hc⟩
      · exact .inl (List.forall_mem_cons.2 ⟨hp, hall⟩)
      · exact .inr ⟨p :: good, c, more, rfl, List.forall_mem_cons.2 ⟨hp, hgood⟩, hc⟩
    · cases p with
      | plain c => exact absurd (Option.some_ne_none c) hp
      | escape c => exact .inr ⟨[], c, ps, rfl, fun p hp => absurd hp List.not_mem_nil, hp⟩
      | continuation => exact absurd (Option.some_ne_none _) hp

/-- The pieces end before a quote and all mean something, or one of them means nothing, or they end
with the text. -/
theorem pieces_cases (cs : List Char) :
    (∃ ps rest, pieces cs = (ps, '"' :: rest) ∧ ∀ p ∈ ps, p.IsValid) ∨
      (∃ good c more rest, pieces cs = (good ++ .escape c :: more, rest) ∧
        (∀ p ∈ good, p.IsValid) ∧ ¬(Piece.escape c).IsValid) ∨
      ∃ ps, pieces cs = (ps, []) ∧ ∀ p ∈ ps, p.IsValid := by
  rcases valid_or_exists_first (pieces cs).1 with hvalid | ⟨good, c, more, hps, hgood, hc⟩
  · rcases pieces_rest cs with hnil | ⟨rest, hquote⟩
    · exact .inr (.inr ⟨_, Prod.ext rfl hnil, hvalid⟩)
    · exact .inl ⟨_, rest, Prod.ext rfl hquote, hvalid⟩
  · exact .inr (.inl ⟨good, c, more, _, Prod.ext hps rfl, hgood, hc⟩)

/-! ## What the characters begin with -/

/-- The characters that stand for themselves, the line feed apart, which starts a new line. -/
def isPlain (c : Char) : Bool := c != '"' && c != '\\' && c != '\n'

/-- How characters may begin: with a quote, a line feed or a backslash, or with plain characters up
to one of these. -/
inductive Front : List Char → Prop
  | nil : Front []
  | quote (cs : List Char) : Front ('"' :: cs)
  | lineFeed (cs : List Char) : Front ('\n' :: cs)
  | backslash : Front ['\\']
  | continuation (cs : List Char) : Front ('\\' :: '\r' :: '\n' :: cs)
  | escape (c : Char) (cs : List Char) (h : ∀ rest, c :: cs ≠ '\r' :: '\n' :: rest) :
    Front ('\\' :: c :: cs)
  | run (run cs : List Char) (hne : run ≠ []) (hrun : ∀ c ∈ run, isPlain c = true)
    (hstop : ∀ c rest, cs = c :: rest → isPlain c = false) : Front (run ++ cs)

/-- All characters begin in one of these ways. -/
theorem front (cs : List Char) : Front cs := by
  rcases cs with - | ⟨c, cs⟩
  · exact .nil
  -- All plain characters at the front are taken together.
  by_cases hplain : isPlain c = true
  · have h : Front (((c :: cs).takeWhile isPlain) ++ ((c :: cs).dropWhile isPlain)) := by
      refine .run _ _ ?_ (fun d hd => List.mem_takeWhile_imp hd) fun d rest hd => ?_
      · rw [List.takeWhile_cons_of_pos hplain]
        exact List.cons_ne_nil _ _
      · have hhead := List.head?_dropWhile_not isPlain (c :: cs)
        rw [hd] at hhead
        simpa using hhead
    rwa [List.takeWhile_append_dropWhile] at h
  · simp only [isPlain, Bool.and_eq_true, bne_iff_ne, ne_eq, not_and, not_not] at hplain
    by_cases hq : c = '"'
    · subst hq
      exact .quote cs
    by_cases hb : c = '\\'
    · subst hb
      rcases cs with - | ⟨d, cs⟩
      · exact .backslash
      by_cases hcrlf : ∃ rest, d :: cs = '\r' :: '\n' :: rest
      · obtain ⟨rest, hrest⟩ := hcrlf
        rw [hrest]
        exact .continuation rest
      · exact .escape d cs fun rest h => hcrlf ⟨rest, h⟩
    · rw [hplain ⟨hq, hb⟩]
      exact .lineFeed cs

/-! ## Pieces by what the characters begin with -/

theorem pieces_plain {c : Char} (hq : c ≠ '"') (hb : c ≠ '\\') (cs : List Char) :
    pieces (c :: cs) = (.plain c :: (pieces cs).1, (pieces cs).2) := by
  rw [pieces]
  · exact hq
  · exact fun _ h _ => hb h
  · exact fun _ _ h _ => hb h

theorem pieces_lineFeed (cs : List Char) :
    pieces ('\n' :: cs) = (.plain '\n' :: (pieces cs).1, (pieces cs).2) :=
  pieces_plain (by decide) (by decide) cs

theorem pieces_escape {c : Char} {cs : List Char} (h : ∀ rest, c :: cs ≠ '\r' :: '\n' :: rest) :
    pieces ('\\' :: c :: cs) = (.escape c :: (pieces cs).1, (pieces cs).2) := by
  rw [pieces]
  intro rest hc hcs
  exact h rest (by rw [hc, hcs])

/-- Plain characters are pieces of their own. -/
theorem pieces_run {run : List Char} (h : ∀ c ∈ run, isPlain c = true) (cs : List Char) :
    pieces (run ++ cs) = (run.map .plain ++ (pieces cs).1, (pieces cs).2) := by
  induction run with
  | nil => rfl
  | cons c run ih =>
    rw [List.forall_mem_cons] at h
    obtain ⟨hc, hrun⟩ := h
    simp only [isPlain, Bool.and_eq_true, bne_iff_ne, ne_eq] at hc
    -- What is left are the patterns that come before that of a plain character.
    rw [List.cons_append, pieces, ih hrun]
    · rfl
    all_goals simp_all

/-! ## What stands behind -/

/-- Behind a quote that ends a literal anything may stand. -/
theorem pieces_append {cs : List Char} (h : (pieces cs).2 ≠ []) (more : List Char) :
    pieces (cs ++ more) = ((pieces cs).1, (pieces cs).2 ++ more) := by
  fun_induction pieces cs with
  | case1 => exact absurd rfl h
  | case2 cs => rfl
  | case3 cs ih => rw [List.cons_append, List.cons_append, List.cons_append, pieces, ih h]
  | case4 c cs hcrlf ih =>
    have hescape : ∀ rest, c :: (cs ++ more) ≠ '\r' :: '\n' :: rest := by
      rintro rest heq
      obtain ⟨hc, hcs⟩ := List.cons.inj heq
      cases cs with
      | nil => exact h rfl
      | cons d cs =>
        rw [(List.cons.inj hcs).1] at hcrlf
        exact hcrlf cs hc rfl
    rw [List.cons_append, List.cons_append, pieces_escape hescape, ih h]
  | case5 c cs hquote _ hescape ih =>
    -- A backslash would be the last character, and then nothing is left.
    have hbackslash : c ≠ '\\' := by
      rintro rfl
      cases cs with
      | nil => exact h rfl
      | cons d cs => exact hescape d cs rfl rfl
    rw [List.cons_append, pieces_plain hquote hbackslash, ih h]

/-- A line feed at the end of the text closes no literal. -/
theorem pieces_concat_lineFeed {cs : List Char} (h : (pieces cs).2 = []) :
    (pieces (cs ++ ['\n'])).2 = [] := by
  fun_induction pieces cs with
  | case1 => rfl
  | case2 cs => cases h
  | case3 cs ih =>
    rw [List.cons_append, List.cons_append, List.cons_append, pieces]
    exact ih h
  | case4 c cs hcrlf ih =>
    rw [List.cons_append, List.cons_append]
    by_cases hcont : ∃ rest, c :: (cs ++ ['\n']) = '\r' :: '\n' :: rest
    · -- The line feed itself makes a continuation of the escape sequence.
      obtain ⟨rest, heq⟩ := hcont
      obtain ⟨hc, hcs⟩ := List.cons.inj heq
      cases cs with
      | nil =>
        rw [hc]
        rfl
      | cons d cs =>
        rw [(List.cons.inj hcs).1] at hcrlf
        exact absurd rfl (hcrlf cs hc)
    · rw [pieces_escape fun rest heq => hcont ⟨rest, heq⟩]
      exact ih h
  | case5 c cs hquote _ hescape ih =>
    rw [List.cons_append]
    by_cases hbackslash : c = '\\'
    · subst hbackslash
      cases cs with
      | nil => rfl
      | cons d cs => exact absurd rfl (hescape d cs rfl)
    · rw [pieces_plain hquote hbackslash]
      exact ih h

/-! ## Plain characters -/

theorem text_map_plain (run : List Char) : text (run.map .plain) = run := by
  induction run with
  | nil => rfl
  | cons c run ih => exact congrArg (c :: ·) ih

theorem contents_map_plain (run : List Char) : contents (run.map .plain) = run := by
  induction run with
  | nil => rfl
  | cons c run ih => exact congrArg (c :: ·) ih

end LedgerText.Literal
