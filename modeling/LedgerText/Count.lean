/-!
# Bounded counts

Lines, columns and the counters of a scanner stop at a greatest value instead of starting over.
-/

namespace LedgerText.Count

/-- The greatest count. -/
def limit : Nat := 0xFFFFFFFF

/-- A count that stays at the limit once it has reached it. -/
def clamp (n : Nat) : Nat := min n limit

end LedgerText.Count
