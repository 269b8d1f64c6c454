import Callable.Text.Split
/-!
Dates and times of TOML: a day, a time of day, or both, and then with or without the offset from
universal time. Each number has its own count of digits, so that a text is read in one way only. What is
read stands at the front of a text, and the rest of the text is returned; each moment is written in one
form.
-/
namespace Callable.Toml

structure Date where
  year : Nat
  month : Nat
  day : Nat
  deriving DecidableEq, Repr

structure TimeOfDay where
  hour : Nat
  minute : Nat
  /-- A minute may have a leap second. -/
  second : Option Nat
  nanosecond : Option Nat
  deriving DecidableEq, Repr

inductive TimeOffset where
  | universal
  | minutes (n : Int)
  deriving DecidableEq, Repr

inductive Moment where
  | date (date : Date)
  | time (time : TimeOfDay)
  | dateTime (date : Date) (time : TimeOfDay) (offset : Option TimeOffset)
  deriving DecidableEq, Repr

def isLeapYear (year : Nat) : Bool := year % 4 = 0 ∧ (year % 100 ≠ 0 ∨ year % 400 = 0)

def daysInMonth (year month : Nat) : Nat :=
  if month = 2 then (if isLeapYear year then 29 else 28)
  else if month ∈ [4, 6, 9, 11] then 30
  else 31

/-- A number within bounds, of so many digits and no more. -/
def number? (width low high : Nat) (text : List Char) : Option (Nat × List Char) :=
  let digits := text.takeWhile Char.isDigit
  let n := Nat.ofDigitChars 10 digits 0
  if digits.length = width ∧ low ≤ n ∧ n ≤ high then some (n, text.dropWhile Char.isDigit)
  else none

/-- A number with a sign before it that separates it from another. -/
def numberAfter? (sign : Char) (width low high : Nat) (text : List Char) :
    Option (Nat × List Char) := do
  number? width low high (← Text.dropPrefix? [sign] text)

def date? (text : List Char) : Option (Date × List Char) := do
  let (year, text) ← number? 4 0 9999 text
  let (month, text) ← numberAfter? '-' 2 1 12 text
  let (day, text) ← numberAfter? '-' 2 1 (daysInMonth year month) text
  return (⟨year, month, day⟩, text)

/-- The fraction of a second in nanoseconds; digits beyond those are passed over. -/
def nanoseconds? (text : List Char) : Option (Option Nat × List Char) :=
  match text with
  | '.' :: text =>
    let digits := text.takeWhile Char.isDigit
    if digits.isEmpty then none
    else
      let digits := (digits ++ List.replicate 9 '0').take 9
      some (some (Nat.ofDigitChars 10 digits 0), text.dropWhile Char.isDigit)
  | text => some (none, text)

def timeOfDay? (text : List Char) : Option (TimeOfDay × List Char) := do
  let (hour, text) ← number? 2 0 23 text
  let (minute, text) ← numberAfter? ':' 2 0 59 text
  match text with
  | ':' :: text =>
    let (second, text) ← number? 2 0 60 text
    let (nanosecond, text) ← nanoseconds? text
    return (⟨hour, minute, some second, nanosecond⟩, text)
  | text => return (⟨hour, minute, none, none⟩, text)

/-- An offset that ends the text. -/
def offset? : List Char → Option TimeOffset
  | ['Z'] | ['z'] => some .universal
  | sign :: text => do
    let (hours, text) ← number? 2 0 23 text
    let (minutes, text) ← numberAfter? ':' 2 0 59 text
    let minutes : Int := hours * 60 + minutes
    match sign, text with
    | '+', [] => some (.minutes minutes)
    | '-', [] => some (.minutes (-minutes))
    | _, _ => none
  | [] => none

/-- The moment that a text stands for. The letter between a date and a time may be a blank. -/
def moment? (text : List Char) : Option Moment :=
  match date? text with
  | some (date, []) => some (.date date)
  | some (date, c :: text) =>
    if c = 'T' ∨ c = 't' ∨ c = ' ' then
      match timeOfDay? text with
      | some (time, []) => some (.dateTime date time none)
      | some (time, text) => (offset? text).map fun offset => .dateTime date time (some offset)
      | none => none
    else none
  | none =>
    match timeOfDay? text with
    | some (time, []) => some (.time time)
    | _ => none

/-- The digits of a number, with zeros before them up to a width. -/
def padded (width n : Nat) : String :=
  let digits := toString n
  String.ofList (List.replicate (width - digits.length) '0') ++ digits

def Date.text (d : Date) : String :=
  padded 4 d.year ++ "-" ++ padded 2 d.month ++ "-" ++ padded 2 d.day

/-- The digits of a fraction without zeros at the end; one digit stays. -/
def fractionText (nanosecond : Nat) : String :=
  let digits := ((padded 9 nanosecond).toList.reverse.dropWhile (· = '0')).reverse
  if digits.isEmpty then "0" else String.ofList digits

def TimeOfDay.text (t : TimeOfDay) : String :=
  let second := match t.second with
    | some second => ":" ++ padded 2 second
    | none => ""
  let fraction := match t.nanosecond with
    | some nanosecond => "." ++ fractionText nanosecond
    | none => ""
  padded 2 t.hour ++ ":" ++ padded 2 t.minute ++ second ++ fraction

def TimeOffset.text : TimeOffset → String
  | universal => "Z"
  | minutes n =>
    (if n < 0 then "-" else "+") ++ padded 2 (n.natAbs / 60) ++ ":" ++ padded 2 (n.natAbs % 60)

def Moment.text : Moment → String
  | date d => d.text
  | time t => t.text
  | dateTime d t offset =>
    d.text ++ "T" ++ t.text ++ (match offset with
      | some offset => offset.text
      | none => "")

end Callable.Toml
