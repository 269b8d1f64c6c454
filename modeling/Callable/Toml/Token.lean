import Callable.Text.Hex
import Callable.Toml.Moment
/-!
The tokens of TOML text. Blanks and comments are dropped, line ends are kept because entries and
headers end there. What stands without quotes is one word up to the next blank or mark, dots and
all: only its place tells a dotted key from a fraction. Every text that has no tokens is no TOML.
-/
namespace Callable.Toml

inductive Token where
  | newline
  | comma
  | equals
  /-- With a flag for another such bracket just behind it. -/
  | openBracket (double : Bool)
  | closeBracket (double : Bool)
  | openBrace
  | closeBrace
  /-- A value without quotes, or parts of a key with the dots between them. -/
  | word (text : List Char)
  /-- A string; one with triple quotes is no key. -/
  | quoted (content : String) (triple : Bool)
  deriving DecidableEq, Repr

/-- Characters that may stand in a comment or string: no control characters but the tab. -/
def isPlain (c : Char) : Bool := c == '\t' || (0x20 ≤ c.toNat && c.toNat != 0x7F)

def isBlank (c : Char) : Bool := c == ' ' || c == '\t'

def isWordChar (c : Char) : Bool := c.isAlphanum || c ∈ ['_', '-', '+', '.', ':']

/-- How many characters at the front of a text make a word. A time may follow its date after a
single blank. -/
def wordWidth (text : List Char) : Nat :=
  let word := text.takeWhile isWordChar
  match date? word, text.drop word.length with
  | some (_, []), ' ' :: rest =>
    let time := rest.takeWhile isWordChar
    if (timeOfDay? time).isSome then word.length + 1 + time.length else word.length
  | _, _ => word.length

def shortEscape? : Char → Option Char
  | '"' => some '"'
  | '\\' => some '\\'
  | 'b' => some '\x08'
  | 'e' => some '\x1b'
  | 'f' => some '\x0c'
  | 'n' => some '\n'
  | 'r' => some '\r'
  | 't' => some '\t'
  | _ => none

/-- The character that hexadecimal digits number; surrogates are no characters. -/
def numbered? (digits : List Char) : Option Char := do
  let n ← Text.hexNumber? digits
  if n.isValidChar then some (Char.ofNat n) else none

def spaceWidth : List Char → Nat
  | '\n' :: rest => spaceWidth rest + 1
  | '\r' :: '\n' :: rest => spaceWidth rest + 2
  | c :: rest => if isBlank c then spaceWidth rest + 1 else 0
  | [] => 0

/-- What a backslash before this text stands for, and how much of the text belongs to it. In triple
quotes a backslash at the end of a line takes away the line end and all blank space after it. -/
def escape? (triple : Bool) (text : List Char) : Option (List Char × Nat) :=
  match text with
  | 'x' :: a :: b :: _ => (numbered? [a, b]).map ([·], 3)
  | 'u' :: a :: b :: c :: d :: _ => (numbered? [a, b, c, d]).map ([·], 5)
  | 'U' :: a :: b :: c :: d :: e :: f :: g :: h :: _ =>
    (numbered? [a, b, c, d, e, f, g, h]).map ([·], 9)
  | c :: _ =>
    match shortEscape? c with
    | some e => some ([e], 1)
    | none =>
      let width := spaceWidth text
      if triple ∧ '\n' ∈ text.take width then some ([], width) else none
  | [] => none

/-- The content of a string and the text after it; `done` holds the characters so far in reverse. A
string in triple quotes goes over lines, and up to two quotes before the last three belong to it. -/
def stringBody (quote : Char) (triple : Bool) (done : List Char) :
    List Char → Option (List Char × List Char)
  | [] => none
  | c :: rest =>
    if c = quote then
      if !triple then some (done.reverse, rest)
      else if rest.take 2 = [quote, quote] then
        let quotes := ((rest.drop 2).take 2).takeWhile (· = quote)
        some (done.reverse ++ quotes, rest.drop (2 + quotes.length))
      else stringBody quote triple (c :: done) rest
    else if c = '\\' ∧ quote = '"' then
      match escape? triple rest with
      | some (meant, width) => stringBody quote triple (meant ++ done) (rest.drop width)
      | none => none
    else if isPlain c ∨ (triple ∧ (c = '\n' ∨ (c = '\r' ∧ rest.head? = some '\n'))) then
      stringBody quote triple (c :: done) rest
    else none
termination_by text => text.length
decreasing_by all_goals simp only [List.length_cons, List.length_drop]; omega

/-- A line end just after opening triple quotes is no part of the string. -/
def dropLineEnd : List Char → List Char
  | '\n' :: rest => rest
  | '\r' :: '\n' :: rest => rest
  | text => text

def stringToken (quote : Char) (text : List Char) : Option (Token × List Char) := do
  let triple := text.take 2 = [quote, quote]
  let body := if triple then dropLineEnd (text.drop 2) else text
  let (content, rest) ← stringBody quote triple [] body
  return (.quoted (String.ofList content) triple, rest)

def firstToken (c : Char) (rest : List Char) : Option (Token × List Char) :=
  match c with
  | '\n' => some (.newline, rest)
  | '\r' =>
    match rest with
    | '\n' :: rest => some (.newline, rest)
    | _ => none
  | ',' => some (.comma, rest)
  | '=' => some (.equals, rest)
  | '[' => some (.openBracket (rest.head? = some '['), rest)
  | ']' => some (.closeBracket (rest.head? = some ']'), rest)
  | '\x7b' => some (.openBrace, rest)
  | '\x7d' => some (.closeBrace, rest)
  | '"' => stringToken '"' rest
  | '\'' => stringToken '\'' rest
  | c =>
    match wordWidth (c :: rest) with
    | 0 => none
    | width + 1 => some (.word (c :: rest.take width), rest.drop width)

/-- The tokens of a text after those in `done`, which stand in reverse. At most `size` steps are
made: each takes at least a character. -/
def tokensWithin (done : List Token) : Nat → List Char → Option (List Token)
  | _, [] => some done.reverse
  | 0, _ => none
  | size + 1, c :: rest =>
    if isBlank c then tokensWithin done size rest
    else if c = '#' then tokensWithin done size (rest.dropWhile isPlain)
    else
      match firstToken c rest with
      | some (token, rest) => tokensWithin (token :: done) size rest
      | none => none

def tokens? (text : List Char) : Option (List Token) := tokensWithin [] text.length text

end Callable.Toml
