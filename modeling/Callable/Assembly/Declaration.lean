import Callable.Descriptor.Basic
import Callable.Docs.Normal
import Callable.HostValue
/-!
Declarations: what an inspection of a function reports, before its types are written as references
and its documentation is merged in.
-/
namespace Callable

/-- A type as it is declared: a reference in any spelling, or a type expression. -/
inductive DeclaredType where
  | reference (text : String)
  | type (type : TypeExpr)
  deriving DecidableEq, Repr

/-- A default as it is declared: a value, or the reason why it is not captured. -/
inductive DeclaredDefault where
  | value (value : Json)
  | uncaptured (detail : String)
  deriving DecidableEq, Repr

def DeclaredDefault.ofHost (value : HostValue) : DeclaredDefault :=
  match value.capture with
  | .ok json => .value json
  | .error e => .uncaptured e.message

structure DeclaredInput where
  name : String
  type : DeclaredType := .type .any
  positional : Bool := false
  default : Option DeclaredDefault := none
  optional : Option Bool := none
  description : Option String := none
  middleware : List String := []
  endpoints : Endpoints := []
  deriving DecidableEq, Repr

structure DeclaredOutput where
  name : Option String := none
  type : DeclaredType := .type .any
  description : Option String := none
  endpoints : Endpoints := []
  deriving DecidableEq, Repr

structure Declaration where
  name : String
  inputs : List DeclaredInput := []
  outputs : List DeclaredOutput := []
  docs : Option Docs := none
  endpoints : Endpoints := []
  deriving DecidableEq, Repr

def namedOutputs (index count : Nat) : List TypeExpr → List DeclaredOutput
  | [] => []
  | type :: rest =>
    { name := some (Docs.defaultOutputName index count), type := .type type } ::
      namedOutputs (index + 1) count rest

/-- The results that a return type declares: none for `None`, one for each item of a tuple that is
not empty, else one. -/
def outputsOfReturn (type : TypeExpr) : List DeclaredOutput :=
  match type.normalize with
  | .none => []
  | .tuple (item :: items) => namedOutputs 0 (items.length + 1) (item :: items)
  | other => namedOutputs 0 1 [other]

end Callable
