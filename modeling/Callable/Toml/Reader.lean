import Callable.Decimal.Numeral
import Callable.Text.Split
import Callable.Toml.Basic
import Callable.Toml.Token
/-!
Reading TOML text. A document is a list of sections: the entries before the first header, and the
entries under each header. The sections are put into one table in the order written.
-/
namespace Callable.Toml

inductive KeyPart where
  | name (text : String)
  | dot

def isNameChar (c : Char) : Bool := c.isAlphanum || c == '_' || c == '-'

def wordParts (word : List Char) : List KeyPart :=
  [.dot].intercalate <| (Text.splitAt '.' word).map fun name =>
    if name.isEmpty then [] else [.name (String.ofList name)]

def Token.keyParts? : Token → Option (List KeyPart)
  | .word text => if text.all fun c => isNameChar c || c == '.' then some (wordParts text) else none
  | .quoted content false => some [.name content]
  | _ => none

def path? : List KeyPart → Option (List String)
  | [.name text] => some [text]
  | .name text :: .dot :: rest => (path? rest).map (text :: ·)
  | _ => none

def Token.inKey : Token → Bool
  | .word _ | .quoted _ _ => true
  | _ => false

def keyPath (text : List Token) : Option (List String × List Token) := do
  let parts ← (text.takeWhile Token.inKey).mapM Token.keyParts?
  return (← path? parts.flatten, text.dropWhile Token.inKey)

/-- A number in some base. Underscores stand between digits. -/
def digits? (base : Nat) (text : List Char) : Option Nat := do
  let groups := Text.splitAt '_' text
  if groups.any List.isEmpty then none
  let values ← groups.flatten.mapM Text.hexValue?
  if values.any (base ≤ ·) then none
  return values.foldl (fun n digit => n * base + digit) 0

/-- A decimal number without sign; only zero itself begins with a zero. -/
def decimal? (text : List Char) : Option Nat :=
  match text with
  | '0' :: _ :: _ => none
  | text => digits? 10 text

def integer? (text : List Char) : Option Int :=
  match text with
  | '0' :: 'x' :: text => (digits? 16 text).map Int.ofNat
  | '0' :: 'o' :: text => (digits? 8 text).map Int.ofNat
  | '0' :: 'b' :: text => (digits? 2 text).map Int.ofNat
  | text =>
    let (negative, text) := Decimal.splitSign text
    (decimal? text).map fun n => if negative then -n else n

def isFigure (c : Char) : Bool := c.isDigit || c == '_'

def isExponent : List Char → Bool
  | [] => false
  | letter :: text =>
    (letter == 'e' || letter == 'E') && (digits? 10 (Decimal.splitSign text).2).isSome

/-- What follows the whole part of a number that is no integer: a fraction, an exponent or both. -/
def isFraction : List Char → Bool
  | '.' :: text =>
    let rest := text.dropWhile isFigure
    (digits? 10 (text.takeWhile isFigure)).isSome && (rest.isEmpty || isExponent rest)
  | text => isExponent text

def isFloat (text : List Char) : Bool :=
  let text := (Decimal.splitSign text).2
  text ∈ ["inf".toList, "nan".toList] ||
    ((decimal? (text.takeWhile isFigure)).isSome && isFraction (text.dropWhile isFigure))

def wordValue? (text : List Char) : Option Toml :=
  if text = "true".toList then some (.boolean true)
  else if text = "false".toList then some (.boolean false)
  else
    match integer? text, moment? text with
    | some n, _ => some (.integer n)
    | none, some m => some (.moment m)
    | none, none => if isFloat text then some (.float (String.ofList text)) else none

def skipLineEnds (text : List Token) : List Token := text.dropWhile (· = .newline)

/-- A key with its equals sign in a table in braces, and the tokens from the value on. Line ends may
stand around the sign, but not within a dotted key. -/
def bracedKey (text : List Token) : Option (List String × List Token) := do
  let (path, rest) ← keyPath text
  match skipLineEnds rest with
  | .equals :: rest => some (path, skipLineEnds rest)
  | _ => none

mutual

/-- A value and the tokens after it. Each step takes a token, and `size` bounds the steps. -/
def value : Nat → List Token → Option (Toml × List Token)
  | size + 1, token :: rest =>
    match token with
    | .word text => (wordValue? text).map (·, rest)
    | .quoted content _ => some (.string content, rest)
    | .openBracket _ => items [] size rest
    | .openBrace => entries [] size rest
    | _ => none
  | _, _ => none

/-- The rest of an array where an item or the end is due. -/
def items (done : List Toml) : Nat → List Token → Option (Toml × List Token)
  | size + 1, token :: rest =>
    match token with
    | .newline => items done size rest
    | .closeBracket _ => some (.array done.reverse, rest)
    | _ =>
      match value size (token :: rest) with
      | some (item, rest) => moreItems (item :: done) size rest
      | none => none
  | _, _ => none

def moreItems (done : List Toml) : Nat → List Token → Option (Toml × List Token)
  | size + 1, token :: rest =>
    match token with
    | .newline => moreItems done size rest
    | .closeBracket _ => some (.array done.reverse, rest)
    | .comma => items done size rest
    | _ => none
  | _, _ => none

/-- The rest of a table in braces where an entry or the end is due. -/
def entries (done : Table Toml) : Nat → List Token → Option (Toml × List Token)
  | size + 1, token :: rest =>
    match token with
    | .newline => entries done size rest
    | .closeBrace => some (.table .braces done, rest)
    | _ =>
      match bracedKey (token :: rest) with
      | some (path, rest) =>
        match value size rest with
        | some (item, rest) =>
          match insert item path done with
          | some done => moreEntries done size rest
          | none => none
        | none => none
      | none => none
  | _, _ => none

def moreEntries (done : Table Toml) : Nat → List Token → Option (Toml × List Token)
  | size + 1, token :: rest =>
    match token with
    | .newline => moreEntries done size rest
    | .closeBrace => some (.table .braces done, rest)
    | .comma => entries done size rest
    | _ => none
  | _, _ => none

end

structure Header where
  double : Bool
  path : List String

/-- A section of a document; its entries stand in reverse while it is read. -/
structure Section where
  header : Option Header
  entries : List (List String × Toml)

def header (double : Bool) (text : List Token) : Option (Header × List Token) :=
  if double then
    match text with
    | .openBracket _ :: text => do
      match ← keyPath text with
      | (path, .closeBracket true :: .closeBracket _ :: rest) => some (⟨true, path⟩, rest)
      | _ => none
    | _ => none
  else do
    match ← keyPath text with
    | (path, .closeBracket _ :: rest) => some (⟨false, path⟩, rest)
    | _ => none

/-- The sections of a document, of which the last one read is `current` and those before it are
`done` in reverse. -/
def sections (done : List Section) (current : Section) : Nat → List Token → Option (List Section)
  | _, [] => some (current :: done).reverse
  | 0, _ => none
  | size + 1, .newline :: rest => sections done current size rest
  | size + 1, .openBracket double :: rest =>
    match header double rest with
    | some (header, []) => some (⟨header, []⟩ :: current :: done).reverse
    | some (header, .newline :: rest) => sections (current :: done) ⟨header, []⟩ size rest
    | _ => none
  | size + 1, text =>
    match keyPath text with
    | some (path, .equals :: rest) =>
      match value size rest with
      | some (item, rest) =>
        let current := { current with entries := (path, item) :: current.entries }
        match rest with
        | [] => some (current :: done).reverse
        | .newline :: rest => sections done current size rest
        | _ => none
      | none => none
    | _ => none

def Section.fill (part : Section) (table : Table Toml) : Option (Table Toml) :=
  part.entries.reverse.foldlM (fun table (path, item) => insert item path table) table

def Section.place (part : Section) (document : Table Toml) : Option (Table Toml) :=
  match part.header with
  | none => part.fill document
  | some header => openTable header.double part.fill header.path document

/-- How many brackets and braces may be open at once. -/
def maxNesting : Nat := 80

/-- Whether brackets and braces stay within that bound when `depth` of them are open. -/
def isShallow (depth : Nat) : List Token → Bool
  | [] => true
  | .openBracket _ :: rest | .openBrace :: rest => depth < maxNesting && isShallow (depth + 1) rest
  | .closeBracket _ :: rest | .closeBrace :: rest => isShallow (depth - 1) rest
  | _ :: rest => isShallow depth rest

def withoutMark : List Char → List Char
  | '\uFEFF' :: rest => rest
  | text => text

def parse? (text : String) : Option (Table Toml) := do
  let tokens ← tokens? (withoutMark text.toList)
  if !isShallow 0 tokens then none
  let parts ← sections [] ⟨none, []⟩ (tokens.length + 1) tokens
  parts.foldlM (fun document part => part.place document) []

end Callable.Toml
