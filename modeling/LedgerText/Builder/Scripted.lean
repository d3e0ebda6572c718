import LedgerText.Builder

/-!
# Scripted builders

A scripted builder makes no values of its own: the value of a token is what the builder was given.
Its script names the kinds and lexemes for which it fails or answers without a value, and the
reports that it refuses. Reports are numbered from zero over the builder's whole life, also when its
script is exchanged.
-/

namespace LedgerText

/-- What a scripted builder does. -/
structure Script where
  /-- The kinds for which it fails. -/
  failKinds : List Kind := []
  /-- The kinds for which it answers without a value. -/
  absentKinds : List Kind := []
  /-- The lexemes for which it fails. -/
  failLexemes : List String := []
  /-- The lexemes for which it answers without a value. -/
  absentLexemes : List String := []
  /-- The numbers of the reports that it refuses, where no number stands for all of them; without a
  list it refuses none. -/
  refuse : Option (List Nat) := none
deriving DecidableEq

/-- A script and the number of the next report. -/
structure Scripted where
  /-- The script. -/
  script : Script := {}
  /-- How many errors were reported. -/
  reports : Nat := 0
deriving DecidableEq

namespace Script

/-- Whether the script has the builder fail. -/
def fails (s : Script) (r : Request) : Bool :=
  s.failKinds.contains r.kind || s.failLexemes.contains r.lexeme

/-- Whether the script has the builder answer without a value. -/
def answersNone (s : Script) (r : Request) : Bool :=
  s.absentKinds.contains r.kind || s.absentLexemes.contains r.lexeme

/-- Whether the script has the builder refuse the report of the given number. -/
def refuses (s : Script) (number : Nat) : Bool :=
  match s.refuse with
  | none => false
  | some numbers => numbers.isEmpty || numbers.contains number

end Script

/-- The builder that follows its script. -/
def Scripted.builder : Builder Scripted Args where
  build request st :=
    if st.script.fails request then
      (.error ("cannot build " ++ request.kind.name ++ " from " ++ request.lexeme), st)
    else if st.script.answersNone request then (.ok none, st)
    else (.ok (some request.args), st)
  report _ st :=
    let next := { st with reports := st.reports + 1 }
    if st.script.refuses st.reports then
      (.error ("report " ++ Nat.repr st.reports ++ " refused"), next)
    else (.ok (), next)

end LedgerText
