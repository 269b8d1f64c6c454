import Callable.Reference.Lexeme
/-!
Why a type reference has no type, or a type no reference. An error names the piece that is to blame,
the scope in which it was looked for, and the cause; its message puts the three into one sentence.
-/
namespace Callable.Reference

/-- Bounds on references: their length in bytes and the nesting of their brackets. -/
structure Limits where
  maxBytes : Nat := 4096
  maxDepth : Nat := 32
  deriving DecidableEq, Repr

/-- What the grammar asks for at a place. -/
inductive Expected where
  | typeName
  | literalValue
  | commaOrBracket
  | closingParen
  | closingBracket
  | nothing
  deriving DecidableEq, Repr

def Expected.text : Expected → String
  | .typeName => "type name"
  | .literalValue => "literal value"
  | .commaOrBracket => "`,` or `]`"
  | .closingParen => "`)` closing empty tuple"
  | .closingBracket => "`]`"
  | .nothing => "end of reference"

def Token.text : Token → String
  | .name text => text
  | .number text => text
  | .quoted text => "'" ++ text ++ "'"
  | .openBracket => "["
  | .closeBracket => "]"
  | .openParen => "("
  | .closeParen => ")"
  | .comma => ","
  | .pipe => "|"

def Misspelling.text : Misspelling → String
  | .empty => "reference is empty"
  | .strayCharacter c => "unexpected character `" ++ c.toString ++ "`"
  | .openString => "unterminated string literal"
  | .loneMinus => "expected digits after '-'"
  | .badDots name => "invalid dotted name `" ++ name ++ "`"

/-- What is wrong with the text of a reference. -/
inductive Malformation where
  | misspelt (what : Misspelling)
  | unexpected (expected : Expected) (found : Option Token)
  | integerRange (text : String)
  deriving DecidableEq, Repr

def Malformation.text : Malformation → String
  | .misspelt what => what.text
  | .unexpected expected found =>
    "expected " ++ expected.text ++ ", found " ++ (found.map Token.text).getD "end of input"
  | .integerRange text => "integer literal `" ++ text ++ "` out of range"

/-- How many arguments a form takes. -/
inductive Arity where
  | one
  | two
  | atLeastOne
  deriving DecidableEq, Repr

def Arity.text : Arity → String
  | .one => "1"
  | .two => "2"
  | .atLeastOne => "at least 1"

inductive Cause where
  | unregistered
  | anonymous
  | unknownGeneric
  | arity (expected : Arity) (found : Nat)
  | malformed (position : Nat) (what : Malformation)
  | tooLarge (maxBytes : Nat)
  | tooDeep (maxDepth : Nat)
  deriving DecidableEq, Repr

def Cause.text : Cause → String
  | .unregistered => "not registered"
  | .anonymous => "type has no stable name"
  | .unknownGeneric => "unknown generic form"
  | .arity expected found =>
    "expected " ++ expected.text ++ " type arguments, found " ++ toString found
  | .malformed position what =>
    "malformed reference at " ++ toString position ++ ": " ++ what.text
  | .tooLarge maxBytes => "reference exceeds " ++ toString maxBytes ++ " bytes"
  | .tooDeep maxDepth => "reference nesting exceeds depth " ++ toString maxDepth

end Callable.Reference

namespace Callable

/-- A type that could not be found, with the piece of the reference or type that is to blame. -/
structure TypeError where
  reference : String
  scope : String
  cause : Reference.Cause
  deriving DecidableEq, Repr

def TypeError.message (e : TypeError) : String :=
  "type " ++ e.reference ++ " not found in context " ++ e.scope ++ ": " ++ e.cause.text

end Callable
