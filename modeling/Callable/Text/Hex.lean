/-!
Numbers written in hexadecimal digits of either case.
-/
namespace Callable.Text

def hexValue? (c : Char) : Option Nat :=
  if c.isDigit then some (c.toNat - 48)
  else if 'a' ≤ c ∧ c ≤ 'f' then some (c.toNat - 87)
  else if 'A' ≤ c ∧ c ≤ 'F' then some (c.toNat - 55)
  else none

/-- The number that follows `high` when these digits are read on from it. -/
def hexFrom? (high : Nat) : List Char → Option Nat
  | [] => some high
  | c :: rest => do hexFrom? (high * 16 + (← hexValue? c)) rest

/-- The number that digits stand for; no digits stand for zero. -/
def hexNumber? (digits : List Char) : Option Nat := hexFrom? 0 digits

end Callable.Text
