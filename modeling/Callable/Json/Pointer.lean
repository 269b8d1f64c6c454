import Callable.Json.Basic
import Callable.Text.Split
/-!
JSON pointers: paths to a part of a value, each step after a slash. In a step `~1` stands for a
slash and `~0` for a tilde; into arrays a step is an index without superfluous zeros.
-/
namespace Callable.Json

def unescapeStep : List Char → List Char
  | '~' :: '1' :: rest => '/' :: unescapeStep rest
  | '~' :: '0' :: rest => '~' :: unescapeStep rest
  | c :: rest => c :: unescapeStep rest
  | [] => []

def index? (step : List Char) : Option Nat :=
  if step.isEmpty || !step.all Char.isDigit then none
  else if step.head? = some '0' ∧ step.length ≠ 1 then none
  else some (Nat.ofDigitChars 10 step 0)

def follow? : List (List Char) → Json → Option Json
  | [], value => some value
  | step :: rest, value =>
    let step := unescapeStep step
    match value with
    | .obj members => (members.lookup (String.ofList step)).bind (follow? rest)
    | .arr items => (index? step).bind fun i => items[i]?.bind (follow? rest)
    | _ => none

/-- The part of a value that a pointer points at. -/
def pointed? (pointer : String) (value : Json) : Option Json :=
  match pointer.toList with
  | [] => some value
  | '/' :: path => follow? (Text.splitAt '/' path) value
  | _ => none

end Callable.Json
