import Callable.Json.Basic
import Callable.Reference.Error
/-!
Documentation of a function: what its docstring says about its parameters, results and exceptions.
Nothing is promised about it: names may be missing, repeated or unknown to the function.
-/
namespace Callable

structure InputDoc where
  name : String
  description : Option String := none
  type : Option String := none
  default : Option Json := none
  optional : Option Bool := none
  positional : Option Bool := none
  deriving DecidableEq, Repr

structure OutputDoc where
  name : Option String := none
  type : Option String := none
  description : Option String := none
  deriving DecidableEq, Repr

structure Docs where
  /-- The docstring itself. -/
  text : Option String := none
  inputs : List InputDoc := []
  outputs : List OutputDoc := []
  summary : Option String := none
  exceptions : Table String := []
  deriving DecidableEq, Repr

namespace Docs

/-- The first entry for a parameter. -/
def input? (docs : Docs) (name : String) : Option InputDoc :=
  docs.inputs.find? fun doc => doc.name = name

/-- Whether nothing is said, the text itself apart. -/
def isEmpty (docs : Docs) : Bool :=
  docs.summary.isNone && docs.inputs.isEmpty && docs.outputs.isEmpty && docs.exceptions.isEmpty

end Docs

inductive DocsError where
  | unknownSection (header : String) (line : Nat)
  | entry (header : String) (line : Nat) (detail : String)
  | default (name reference detail : String)
  | type (error : TypeError)
  deriving DecidableEq, Repr

def DocsError.message : DocsError → String
  | unknownSection header line =>
    "unknown docstring section " ++ header ++ " at line " ++ toString line
  | entry header line detail =>
    "malformed entry in section " ++ header ++ " at line " ++ toString line ++ ": " ++ detail
  | default name reference detail =>
    "default for documented parameter " ++ name ++ " does not fit type " ++ reference ++ ": " ++ detail
  | type error => error.message

end Callable
