/-!
Finite binary floating-point numbers as exact values, and the rounding of quotients to them.
A number is `± mantissa * 2 ^ exponent`; a format bounds the mantissa and the exponent. Rounding
goes to the nearest number of the format, and a tie goes to the even mantissa.
-/
namespace Callable.Decimal

/-- Mantissas lie below `2 ^ precision`, exponents between `lowest` and `highest`. -/
structure Format where
  precision : Nat
  lowest : Int
  highest : Int

def Format.double : Format := ⟨53, -1074, 971⟩

def Format.single : Format := ⟨24, -149, 104⟩

structure Binary where
  negative : Bool
  mantissa : Nat
  exponent : Int
  deriving DecidableEq, Repr

def pow2 (n : Nat) : Nat := Nat.pow 2 n

def pow10 (n : Nat) : Nat := Nat.pow 10 n

/-- The quotient rounded to the nearest integer, a tie to the even one. -/
def nearest (num den : Nat) : Nat :=
  let q := num / den
  let r := num % den
  if den < 2 * r ∨ (den = 2 * r ∧ q % 2 = 1) then q + 1 else q

/-- The exponent `k` with `2 ^ k ≤ num / den < 2 ^ (k + 1)`. -/
def binaryOrder (num den : Nat) : Int :=
  let k : Int := (Nat.log2 num : Int) - Nat.log2 den
  if num * pow2 (-k).toNat < den * pow2 k.toNat then k - 1 else k

/-- The number of the format nearest to `num / den`; none when it lies above the format. -/
def Format.round? (f : Format) (num den : Nat) : Option (Nat × Int) :=
  if num = 0 then some (0, f.lowest)
  else
    let e := max f.lowest (binaryOrder num den - (f.precision - 1))
    let q := nearest (num * pow2 (-e).toNat) (den * pow2 e.toNat)
    let (m, e) := if q = pow2 f.precision then (pow2 (f.precision - 1), e + 1) else (q, e)
    if f.highest < e then none else some (m, e)

def digitCount (n : Nat) : Nat := (Nat.toDigits 10 n).length

/-- The number of the format nearest to `m * 10 ^ k`; none when it lies above the format. Beyond
four hundred places the answer does not depend on the digits. -/
def Format.ofDecimal? (f : Format) (m : Nat) (k : Int) : Option (Nat × Int) :=
  if m = 0 then some (0, f.lowest)
  else if 400 < k then none
  else if k + digitCount m < -400 then some (0, f.lowest)
  else f.round? (m * pow10 k.toNat) (pow10 (-k).toNat)

end Callable.Decimal
