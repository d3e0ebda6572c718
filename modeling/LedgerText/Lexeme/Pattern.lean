import LedgerText.Byte

/-!
# Patterns

How far each pattern of the language reaches at the front of the given bytes: the length of its
longest match there, or none. In the usual notation the patterns are

* number: `([0-9]+|[0-9][0-9,]+[0-9])(\.[0-9]*)?` or `\.[0-9]+`,
* date: `[0-9]{4,}S[0-9]+S[0-9]+`, where `S` is a hyphen or a slash,
* account: `AC*(:BC*)+`, where `A` is a capital letter or outside ASCII, `B` is that or a digit, and
  `C` is a letter, a digit, a hyphen or outside ASCII,
* currency: `[A-Z][A-Z0-9'._-]{0,22}[A-Z0-9]`,
* name of a tag or a link: `[A-Za-z0-9_/.-]+` after its sign.
-/

namespace LedgerText.Pattern

open Byte

/-! ## Numbers -/

/-- The whole part of a number: digits and commas that end in a digit. -/
def wholeLength (bytes : Bytes) : Nat :=
  (trimEnd (· == comma) (bytes.takeWhile fun b => isDigit b || b == comma)).length

/-- The length of a number, at bytes that start with a digit or with a full stop. -/
def numberLength (bytes : Bytes) : Nat :=
  let whole := wholeLength bytes
  match bytes.drop whole with
  | b :: fraction => if b = dot then whole + 1 + run isDigit fraction else whole
  | [] => whole

/-! ## Dates -/

/-- The length of a separator and the digits after it. -/
def dateFieldLength? : Bytes → Option Nat
  | [] => none
  | b :: bytes =>
    if isDateSeparator b && 0 < run isDigit bytes then some (1 + run isDigit bytes) else none

/-- The length of a date: at least four digits and two more fields. -/
def dateLength? (bytes : Bytes) : Option Nat :=
  let year := run isDigit bytes
  if year < 4 then none
  else do
    let month ← dateFieldLength? (bytes.drop year)
    let day ← dateFieldLength? (bytes.drop (year + month))
    return year + month + day

/-! ## Accounts and currencies -/

/-- The length of the components of an account after its first, each with the colon before it. -/
def componentsLength : Bytes → Nat
  | a :: b :: bytes =>
    if a = colon && isComponentStart b then
      let n := run isAccountPart bytes
      2 + n + componentsLength (bytes.drop n)
    else 0
  | _ => 0
termination_by bytes => bytes.length
decreasing_by simp; omega

/-- The length of an account, which has two components at least. -/
def accountLength? : Bytes → Option Nat
  | [] => none
  | b :: bytes =>
    let first := run isAccountPart bytes
    let later := componentsLength (bytes.drop first)
    if isAccountStart b && 0 < later then some (1 + first + later) else none

/-- The greatest length of a currency. -/
def currencyLimit : Nat := 24

/-- The length of a currency, which has two bytes at least. -/
def currencyLength? : Bytes → Option Nat
  | [] => none
  | b :: bytes =>
    let parts := (bytes.take (currencyLimit - 1)).takeWhile isCurrencyPart
    let later := trimEnd (!isCurrencyEnd ·) parts
    if isUpper b && 0 < later.length then some (1 + later.length) else none

/-! ## Tags and links -/

/-- The length of the name after the sign that the bytes start with. -/
def nameLength (bytes : Bytes) : Nat := run isNamePart bytes.tail

/-! ## Every match reads a byte -/

/-- A number that starts with a digit has a whole part. -/
theorem wholeLength_pos {bytes : Bytes} (h : isDigit (bytes.headD 0) = true) :
    0 < wholeLength bytes := by
  cases bytes with
  | nil => simp [isDigit] at h
  | cons b bytes =>
    have hb : isDigit b = true := h
    have hc : (b == comma) = false := by
      cases hbc : b == comma with
      | false => rfl
      | true =>
        have : b = comma := by simpa using hbc
        subst this
        exact absurd hb (by decide)
    have hm : b ∈ (b :: bytes).takeWhile fun b => isDigit b || b == comma := by simp [hb]
    exact List.length_pos_iff.2 (trimEnd_ne_nil hm hc)

/-- The whole part is part of the number. -/
theorem wholeLength_le_numberLength (bytes : Bytes) : wholeLength bytes ≤ numberLength bytes := by
  unfold numberLength
  dsimp only
  split
  · split <;> omega
  · exact Nat.le_refl _

/-- A number has a byte. -/
theorem numberLength_pos {bytes : Bytes}
    (h : isDigit (bytes.headD 0) = true ∨ bytes.headD 0 = dot) : 0 < numberLength bytes := by
  by_cases hw : 0 < wholeLength bytes
  · exact Nat.lt_of_lt_of_le hw (wholeLength_le_numberLength bytes)
  · rcases h with h | h
    · exact absurd (wholeLength_pos h) hw
    · have hz : wholeLength bytes = 0 := by omega
      cases bytes with
      | nil => exact absurd h (by decide)
      | cons b bytes =>
        have hb : b = dot := h
        subst hb
        simp only [numberLength, hz, List.drop_zero, ↓reduceIte]
        omega

/-- A date has a byte. -/
theorem dateLength?_pos {bytes : Bytes} {n : Nat} (h : dateLength? bytes = some n) : 0 < n := by
  unfold dateLength? at h
  dsimp only at h
  split at h
  · simp at h
  · simp only [Option.bind_eq_bind, Option.bind_eq_some_iff, Option.pure_def,
      Option.some.injEq] at h
    obtain ⟨_, _, _, _, rfl⟩ := h
    omega

/-- An account has a byte. -/
theorem accountLength?_pos {bytes : Bytes} {n : Nat} (h : accountLength? bytes = some n) :
    0 < n := by
  cases bytes with
  | nil => simp [accountLength?] at h
  | cons b bytes =>
    simp only [accountLength?] at h
    split at h
    · simp only [Option.some.injEq] at h; omega
    · simp at h

/-- A currency has a byte. -/
theorem currencyLength?_pos {bytes : Bytes} {n : Nat} (h : currencyLength? bytes = some n) :
    0 < n := by
  cases bytes with
  | nil => simp [currencyLength?] at h
  | cons b bytes =>
    simp only [currencyLength?] at h
    split at h
    · simp only [Option.some.injEq] at h; omega
    · simp at h

end LedgerText.Pattern
