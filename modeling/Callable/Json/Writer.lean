import Callable.Json.Basic
/-!
Compact JSON text. Strings escape the quote, the backslash and the control characters below
U+0020, the short forms where JSON has one; all other characters are written as they are.
-/
namespace Callable.Json

def hexDigit (n : Nat) : Char := Nat.digitChar (n % 16)

/-- The written form of one character inside a string. -/
def escape (c : Char) : List Char :=
  match c with
  | '"' => ['\\', '"']
  | '\\' => ['\\', '\\']
  | '\n' => ['\\', 'n']
  | '\r' => ['\\', 'r']
  | '\t' => ['\\', 't']
  | c =>
    let n := c.toNat
    if n = 8 then ['\\', 'b']
    else if n = 12 then ['\\', 'f']
    else if n < 0x20 then ['\\', 'u', '0', '0', hexDigit (n / 16), hexDigit n]
    else [c]

def quoted (s : String) : String :=
  String.ofList ('"' :: s.toList.flatMap escape ++ ['"'])

mutual

def write : Json → String
  | .null => "null"
  | .bool true => "true"
  | .bool false => "false"
  | .int n => toString n
  | .float x => Decimal.Layout.json.write Decimal.Format.double x
  | .str s => quoted s
  | .arr items => "[" ++ writeItems items ++ "]"
  | .obj members => "\x7b" ++ writeMembers members ++ "\x7d"

def writeItems : List Json → String
  | [] => ""
  | [item] => write item
  | item :: rest => write item ++ "," ++ writeItems rest

def writeMembers : List (String × Json) → String
  | [] => ""
  | [(key, value)] => quoted key ++ ":" ++ write value
  | (key, value) :: rest => quoted key ++ ":" ++ write value ++ "," ++ writeMembers rest

end

end Callable.Json
