import Callable.Decimal.Numeral
import Callable.Json.Draft
import Callable.Text.Hex
import Callable.Word
/-!
The tokens of JSON text. Splitting a text into tokens never fails: what is no token becomes a
broken token, which ends the list, and the reader decides what it means where it stands.
-/
namespace Callable.Json

inductive Token where
  | openArray
  | closeArray
  | openObject
  | closeObject
  | comma
  | colon
  /-- A string; `none` when it holds half a surrogate pair. -/
  | str (content : Option String)
  /-- A value that is no string, array or object. -/
  | atom (value : Draft)
  /-- A string that does not end as one. -/
  | brokenString (what : Break)
  /-- What is no word and no number. -/
  | brokenAtom (what : Break)

/-- What a tokenizing step found, and the text after it. -/
abbrev Found (α : Type) := α × List Char

def hexQuad : List Char → Except Flaw Nat
  | a :: b :: c :: d :: _ =>
    match Text.hexNumber? [a, b, c, d] with
    | some n => .ok n
    | none => .error .malformed
  | short => .error (if (String.ofList short).utf8ByteSize < 4 then .unfinished else .malformed)

def shortEscape? : Char → Option Char
  | '"' => some '"'
  | '\\' => some '\\'
  | '/' => some '/'
  | 'b' => some '\x08'
  | 'f' => some '\x0c'
  | 'n' => some '\n'
  | 'r' => some '\r'
  | 't' => some '\t'
  | _ => none

/-- A string that does not end, `lost` when half a surrogate pair stood in it. -/
def stringBreak (lost : Bool) (flaw : Flaw) : Found Token :=
  (.brokenString ⟨if lost then .malformed else flaw, flaw⟩, [])

/-- The rest of a string after its opening quote; `pending` is the first half of a surrogate pair
whose second half is due, `done` holds the characters so far in reverse and is lost once a half
stands alone. -/
def stringBody (pending : Option Nat) (done : Option (List Char)) : List Char → Found Token
  | [] => stringBreak done.isNone .unfinished
  | '"' :: rest =>
    let whole := if pending.isSome then none else done
    (.str (whole.map fun cs => String.ofList cs.reverse), rest)
  | '\\' :: 'u' :: rest =>
    match hexQuad rest with
    | .error flaw => stringBreak done.isNone flaw
    | .ok n =>
      match rest with
      | _ :: _ :: _ :: _ :: after =>
        match pending with
        | some high =>
          if 0xDC00 ≤ n ∧ n ≤ 0xDFFF then
            let c := Char.ofNat (0x10000 + (high - 0xD800) * 0x400 + (n - 0xDC00))
            stringBody none (done.map (c :: ·)) after
          else stringBody none none after
        | none =>
          if 0xD800 ≤ n ∧ n ≤ 0xDBFF then stringBody (some n) done after
          else if 0xDC00 ≤ n ∧ n ≤ 0xDFFF then stringBody none none after
          else stringBody none (done.map (Char.ofNat n :: ·)) after
      | _ => stringBreak done.isNone .unfinished
  | '\\' :: c :: rest =>
    match shortEscape? c with
    | some e => stringBody none (if pending.isSome then none else done.map (e :: ·)) rest
    | none => stringBreak done.isNone .malformed
  | ['\\'] => stringBreak done.isNone .unfinished
  | c :: rest =>
    if c.toNat < 0x20 then stringBreak done.isNone .malformed
    else stringBody none (if pending.isSome then none else done.map (c :: ·)) rest

def expectWord (value : Draft) : List Char → List Char → Found Token
  | [], rest => (.atom value, rest)
  | _ :: _, [] => (.brokenAtom (.of .unfinished), [])
  | w :: word, c :: rest =>
    if w = c then expectWord value word rest else (.brokenAtom (.of .malformed), [])

def floatAtom (negative : Bool) (m : Nat) (k : Int) : Token :=
  match Decimal.Format.double.ofDecimal? m k with
  | some (m, e) => .atom (.float ⟨negative, m, e⟩)
  | none => .atom .unreadable

/-- A number without fraction or exponent. It stays an integer when it fits 64 bits, signed or
unsigned, and is no negative zero. -/
def integerAtom (negative : Bool) (n : Nat) : Token :=
  let value : Int := if negative then -n else n
  if (negative ∧ n = 0) ∨ ¬ Word.fits value then floatAtom negative n 0 else .atom (.int value)

/-- A number in which a digit is missing before `rest`. -/
def numberBreak (rest : List Char) : Token :=
  .brokenAtom ⟨if rest.isEmpty then .unfinished else .malformed, .malformed⟩

def exponentPart (negative : Bool) (m : Nat) (k : Int) (text : List Char) : Found Token :=
  let (minus, text) := Decimal.splitSign text
  let digits := text.takeWhile Char.isDigit
  let rest := text.dropWhile Char.isDigit
  if digits.isEmpty then (numberBreak rest, [])
  else
    let n := Nat.ofDigitChars 10 digits 0
    (floatAtom negative m (if minus then k - n else k + n), rest)

def number (negative : Bool) (text : List Char) : Found Token :=
  let whole := text.takeWhile Char.isDigit
  let rest := text.dropWhile Char.isDigit
  match whole with
  | [] => (numberBreak rest, [])
  | '0' :: _ :: _ => (.brokenAtom (.of .malformed), [])
  | _ =>
    match rest with
    | '.' :: rest =>
      let fraction := rest.takeWhile Char.isDigit
      let rest := rest.dropWhile Char.isDigit
      if fraction.isEmpty then (numberBreak rest, [])
      else
        let m := Nat.ofDigitChars 10 (whole ++ fraction) 0
        match rest with
        | 'e' :: rest => exponentPart negative m (-fraction.length) rest
        | 'E' :: rest => exponentPart negative m (-fraction.length) rest
        | rest => (floatAtom negative m (-fraction.length), rest)
    | 'e' :: rest => exponentPart negative (Nat.ofDigitChars 10 whole 0) 0 rest
    | 'E' :: rest => exponentPart negative (Nat.ofDigitChars 10 whole 0) 0 rest
    | rest => (integerAtom negative (Nat.ofDigitChars 10 whole 0), rest)

def firstToken (c : Char) (rest : List Char) : Found Token :=
  match c with
  | '[' => (.openArray, rest)
  | ']' => (.closeArray, rest)
  | '\x7b' => (.openObject, rest)
  | '\x7d' => (.closeObject, rest)
  | ',' => (.comma, rest)
  | ':' => (.colon, rest)
  | '"' => stringBody none (some []) rest
  | 'n' => expectWord .null ['u', 'l', 'l'] rest
  | 't' => expectWord (.bool true) ['r', 'u', 'e'] rest
  | 'f' => expectWord (.bool false) ['a', 'l', 's', 'e'] rest
  | '-' => number true rest
  | c => if c.isDigit then number false (c :: rest) else (.brokenAtom (.of .malformed), [])

/-- The tokens of a text, of which at most `size` are read: each takes at least a character. -/
def tokensWithin : Nat → List Char → List Token
  | 0, _ => []
  | _, [] => []
  | size + 1, c :: rest =>
    if c = ' ' ∨ c = '\n' ∨ c = '\t' ∨ c = '\r' then tokensWithin size rest
    else
      let (token, rest) := firstToken c rest
      token :: tokensWithin size rest

def tokens (text : List Char) : List Token := tokensWithin text.length text

end Callable.Json
