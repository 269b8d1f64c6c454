import Callable.Scope
import Callable.Table
import Callable.Text.Split
import Callable.Trace
import Callable.TypeExpr.Normal
/-!
The registry: a scope that grows. A name is registered once for a type in normal form and keeps it.
The first name of a type becomes the name under which it is written; later ones are read only. Types
that are always written by their own names need none. The two directions are two maps, and a
registration that fails may not leave a trace in either.
-/
namespace Callable

inductive NameFault where
  | empty
  | emptySegment
  | badStart
  | notIdentifier
  deriving DecidableEq, Repr

def NameFault.text : NameFault → String
  | empty => "name must be non-empty"
  | emptySegment => "path segments must be non-empty"
  | badStart => "path segments must start with a letter or underscore"
  | notIdentifier => "path segments must be ASCII identifiers"

inductive RegistryError where
  | invalidName (name : String) (fault : NameFault)
  | reserved (name : String)
  | conflict (name : String)
  | anonymous (name : String)
  deriving DecidableEq, Repr

def RegistryError.message : RegistryError → String
  | invalidName name fault => "invalid type name " ++ name ++ ": " ++ fault.text
  | reserved name => "type name " ++ name ++ " is reserved"
  | conflict name => "type name " ++ name ++ " is already registered for a different type"
  | anonymous name => "type registered as " ++ name ++ " contains an anonymous type"

/-- The words of the grammar of references. -/
def reservedWords : List String :=
  ["Any", "None", "List", "Set", "Dict", "Tuple", "Union", "Optional", "Type", "Literal", "True",
    "False"]

def isReserved (name : String) : Bool :=
  reservedWords.contains name || (Builtin.ofName? name).isSome

def segmentFault? : List Char → Option NameFault
  | [] => some .emptySegment
  | c :: rest =>
    if !(c.isAlpha || c == '_') then some .badStart
    else if !(rest.all fun c => c.isAlphanum || c == '_') then some .notIdentifier
    else none

/-- What keeps a name from being registered, whatever the type. -/
def checkName (name : String) : Except RegistryError Unit :=
  if name = "" then .error (.invalidName name .empty)
  else
    match (Text.splitAt '.' name.toList).findSome? segmentFault? with
    | some fault => .error (.invalidName name fault)
    | none => if isReserved name then .error (.reserved name) else .ok ()

/-- Types that are always written by their own names. -/
def TypeExpr.isSelfNamed : TypeExpr → Bool
  | .any => true
  | .none => true
  | .builtin _ => true
  | _ => false

structure Registry where
  id : String := "default"
  /-- The types of the names. -/
  entries : Table TypeExpr := []
  /-- The names under which types are written. -/
  spellings : List (TypeExpr × String) := []
  deriving DecidableEq, Repr

namespace Registry

def resolve (r : Registry) (name : String) : Option TypeExpr := r.entries.get? name

def nameOf (r : Registry) (type : TypeExpr) : Option String := r.spellings.lookup type

def scope (r : Registry) : Scope := ⟨r.id, r.resolve, r.nameOf⟩

def contains (r : Registry) (name : String) : Bool := (r.resolve name).isSome

def size (r : Registry) : Nat := r.entries.length

def names (r : Registry) : List String := r.entries.map Prod.fst

def new (id : String) : Registry := { id }

/-- The registry with a new name. The name is the written one of its type if that has none yet and
needs one. -/
def add (r : Registry) (name : String) (type : TypeExpr) : Registry :=
  { r with
    entries := r.entries.put name type
    spellings :=
      if type.isSelfNamed || (r.nameOf type).isSome then r.spellings
      else (type, name) :: r.spellings }

/-- Work on a registry; what it has changed when it fails stays changed. -/
abbrev Session (α : Type) := ExceptT RegistryError (StateM Registry) α

/-- Registers a name for a type; registering it again for the same type changes nothing. -/
def register (name : String) (type : TypeExpr) : Session Unit := do
  checkName name
  let type := type.normalize
  if type.hasAnonymous then throw (.anonymous name)
  match (← get).resolve name with
  | some existing => if existing = type then return else throw (.conflict name)
  | none => modify fun r => r.add name type

def registerNamed (path : String) : Session Unit := register path (.named path)

def registeredEvent (r : Registry) (name : String) : Event :=
  ⟨.trace, "registered type", [("context", .text r.id), ("name", .text name)]⟩

/-- The registry after `register`, with a note when a name is added. -/
def registerLogged (r : Registry) (name : String) (type : TypeExpr) :
    Logged RegistryError Registry := do
  let (outcome, r') := (register name type).run r
  .ofExcept outcome
  if !r.contains name then .note (r.registeredEvent name)
  return r'

end Registry
end Callable
