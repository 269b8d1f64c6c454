import Callable.Decimal.Binary
import Callable.Word
/-!
Reading decimal numerals. Integers have an optional sign and digits; real numbers may have a point
with digits on one side of it at least, and an exponent.
-/
namespace Callable.Decimal

/-- A sign at the front of a text: whether it is a minus, and the rest. -/
def splitSign : List Char → Bool × List Char
  | '-' :: rest => (true, rest)
  | '+' :: rest => (false, rest)
  | rest => (false, rest)

def isNumeral (digits : List Char) : Bool := !digits.isEmpty && digits.all Char.isDigit

/-- The integer of a numeral that fits 64 bits. -/
def integer? (text : List Char) : Option Int :=
  let (negative, digits) := splitSign text
  if isNumeral digits then
    let n : Int := Nat.ofDigitChars 10 digits 0
    let n := if negative then -n else n
    if Word.fitsSigned n then some n else none
  else none

/-- The power of ten that an exponent part stands for; no part stands for zero. -/
def exponent? : List Char → Option Int
  | [] => some 0
  | letter :: rest =>
    let (negative, digits) := splitSign rest
    if (letter = 'e' ∨ letter = 'E') ∧ isNumeral digits then
      let n : Int := Nat.ofDigitChars 10 digits 0
      some (if negative then -n else n)
    else none

def Format.real? (f : Format) (text : List Char) : Option Binary := do
  let (negative, text) := splitSign text
  let whole := text.takeWhile Char.isDigit
  let rest := text.dropWhile Char.isDigit
  let (fraction, rest) := match rest with
    | '.' :: rest => (rest.takeWhile Char.isDigit, rest.dropWhile Char.isDigit)
    | rest => ([], rest)
  if whole.isEmpty && fraction.isEmpty then none
  let k ← exponent? rest
  let (m, e) ← f.ofDecimal? (Nat.ofDigitChars 10 (whole ++ fraction) 0) (k - fraction.length)
  return ⟨negative, m, e⟩

end Callable.Decimal
