import Callable.Decimal.Binary
/-!
The shortest decimal that reads back. Around a number lies the interval of reals that round to it,
its ends included when the mantissa is even. For one digit, two digits and so on the two neighbours
of the number on that decimal grid are tested; the first grid with a neighbour in the interval wins,
of two neighbours the nearer, and of two equally near ones the even.
-/
namespace Callable.Decimal

/-- Compares `a * 10 ^ s` with `b * 2 ^ t`. -/
def compareScaled (a : Nat) (s : Int) (b : Nat) (t : Int) : Ordering :=
  compare (a * pow10 s.toNat * pow2 (-t).toNat) (b * pow2 t.toNat * pow10 (-s).toNat)

/-- Whether `a * 10 ^ s` rounds to `m * 2 ^ e`. Below a power of two the neighbour is half as far
away. -/
def Format.readsBack (f : Format) (m : Nat) (e : Int) (a : Nat) (s : Int) : Bool :=
  let below := if m = pow2 (f.precision - 1) ∧ f.lowest < e then 4 * m - 1 else 4 * m - 2
  let low := compareScaled a s below (e - 2)
  let high := compareScaled a s (4 * m + 2) (e - 2)
  if m % 2 = 0 then low != .lt && high != .gt else low == .gt && high == .lt

def wholeSteps (m : Nat) (e s : Int) : Nat :=
  (m * pow2 e.toNat * pow10 (-s).toNat) / (pow2 (-e).toNat * pow10 s.toNat)

/-- The point position `p` with `10 ^ (p - 1) ≤ m * 2 ^ e < 10 ^ p`, for numbers above `10 ^ -400`. -/
def pointPosition (m : Nat) (e : Int) : Int :=
  (digitCount (wholeSteps m e (-400)) : Int) - 400

def Format.onGrid? (f : Format) (m : Nat) (e s : Int) : Option Nat :=
  let a := wholeSteps m e s
  match f.readsBack m e a s, f.readsBack m e (a + 1) s with
  | true, false => some a
  | false, true => some (a + 1)
  | false, false => none
  | true, true =>
    match compareScaled (2 * a + 1) s (2 * m) e with
    | .gt => some a
    | .lt => some (a + 1)
    | .eq => some (a + a % 2)

def Format.search (f : Format) (m : Nat) (e p : Int) : Nat → Int → Nat × Int
  | 0, n => (wholeSteps m e (p - n), p - n)
  | more + 1, n =>
    match f.onGrid? m e (p - n) with
    | some a => (a, p - n)
    | none => f.search m e p more (n + 1)

/-- The digits `d` and the exponent `s` of the shortest decimal `d * 10 ^ s` for a positive number. -/
def Format.shortest (f : Format) (m : Nat) (e : Int) : Nat × Int :=
  f.search m e (pointPosition m e) 17 1

end Callable.Decimal
