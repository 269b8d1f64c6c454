import Callable.Text.Split
/-!
The lines of a docstring that hold text, trimmed, with their numbers and the width of the blank
space before them.
-/
namespace Callable.Docs

structure Line where
  /-- Counted from one, blank lines included. -/
  number : Nat
  /-- The bytes of blank space before the text. -/
  indent : Nat
  /-- The trimmed text, which is not empty. -/
  text : List Char
  deriving DecidableEq, Repr

def linesFrom (number : Nat) : List (List Char) → List Line
  | [] => []
  | raw :: rest =>
    let text := Text.trim raw
    if text = [] then linesFrom (number + 1) rest
    else
      ⟨number, Text.byteLength (raw.takeWhile Text.isBlank), text⟩ :: linesFrom (number + 1) rest

/-- The lines of a docstring that are not blank. -/
def textLines (docstring : String) : List Line := linesFrom 1 (Text.lines docstring.toList)

end Callable.Docs
