import Callable.Decimal.Shortest
/-!
The text of a floating-point number: its shortest digits, written plainly or with an exponent. A
layout says which numbers are written plainly and how whole numbers and zero look.
-/
namespace Callable.Decimal

structure Layout where
  /-- The least exponent of the leading digit that is written plainly. -/
  plainFrom : Int
  /-- The greatest exponent of the leading digit that is written plainly. -/
  plainTo : Int
  /-- Whole numbers written plainly end in `.0`. -/
  pointZero : Bool
  /-- Negative zero keeps its sign. -/
  signedZero : Bool

def Layout.json : Layout := ⟨-5, 15, true, true⟩

/-- Numbers in canonical JSON: an exponent comes in later, and no two texts mean one number. -/
def Layout.canonical : Layout := ⟨-6, 20, false, false⟩

def zeros (n : Nat) : List Char := List.replicate n '0'

def significant (digits : List Char) : List Char :=
  (digits.reverse.dropWhile (· == '0')).reverse

/-- The digits of a number whose leading digit has the exponent `k`, with the point in place. -/
def Layout.plain (l : Layout) (digits : List Char) (k : Int) : List Char :=
  if k < 0 then '0' :: '.' :: zeros (-k - 1).toNat ++ digits
  else
    let whole := k.toNat + 1
    if digits.length ≤ whole then
      digits ++ zeros (whole - digits.length) ++ (if l.pointZero then ['.', '0'] else [])
    else digits.take whole ++ '.' :: digits.drop whole

/-- One digit before the point and a signed exponent. -/
def scientific (digits : List Char) (k : Int) : List Char :=
  let fraction := digits.drop 1
  digits.take 1 ++ (if fraction.isEmpty then [] else '.' :: fraction) ++
    'e' :: (if k < 0 then '-' else '+') :: Nat.toDigits 10 k.natAbs

def Layout.magnitude (l : Layout) (f : Format) (m : Nat) (e : Int) : List Char :=
  if m = 0 then if l.pointZero then ['0', '.', '0'] else ['0']
  else
    let (d, s) := f.shortest m e
    let all := Nat.toDigits 10 d
    let k := s + all.length - 1
    let digits := significant all
    if l.plainFrom ≤ k ∧ k ≤ l.plainTo then l.plain digits k else scientific digits k

def Layout.write (l : Layout) (f : Format) (x : Binary) : String :=
  let sign := x.negative && (l.signedZero || x.mantissa != 0)
  String.ofList ((if sign then ['-'] else []) ++ l.magnitude f x.mantissa x.exponent)

end Callable.Decimal
