import Callable.Assembly.Declaration
/-!
Merging documentation into parameters. What the signature says stays: documentation fills in missing
descriptions, types that are `Any` and missing optional flags. A flag that leaves a required
positional parameter behind an optional one is taken back. What does not fit becomes a warning.
-/
namespace Callable.Assembly

inductive Warning where
  | unknownInput (name : String)
  | extraOutput (index : Nat)
  | unmatchedOutputName (index : Nat) (documented declared : String)
  | contradictoryOptional (name : String)
  | unresolvedType (name reference : String)
  deriving DecidableEq, Repr

def Warning.message : Warning → String
  | unknownInput name => "documented input " ++ name ++ " is not in the signature"
  | extraOutput index => "documented output " ++ toString index ++ " has no declared counterpart"
  | unmatchedOutputName index documented declared =>
    "documented output " ++ toString index ++ " is named " ++ documented ++ " but declared as " ++
      declared
  | contradictoryOptional name =>
    "documented optional flag on " ++ name ++ " precedes a required positional parameter"
  | unresolvedType name reference =>
    "documented type " ++ reference ++ " for " ++ name ++ " does not resolve"

/-- The type a parameter takes from its documentation: its own unless that is `Any` and the
documented one resolves. -/
def documentedType {ε : Type} (limits : Reference.Limits) (scope : Scope)
    (name type : String) (documented : Option String) : Logged ε (String × List Warning) := do
  match documented with
  | none => return (type, [])
  | some text =>
    if type = "Any" then
      match ← (Reference.canonicalLogged limits scope text).attempt with
      | .ok resolved => return (resolved, [])
      | .error _ => return (type, [.unresolvedType name text])
    else return (type, [])

/-- The optional flag a parameter takes from its documentation: its own if it has one; `false` is
not taken for a parameter with a default. -/
def documentedFlag (p : InputParam) (documented : Option Bool) : Option Bool :=
  match p.optional, documented with
  | none, some flag => if flag || p.default.isNone then some flag else none
  | own, _ => own

/-- Whether documentation alone makes a positional parameter optional. -/
def grantsOptional (p : InputParam) (documented : Option Bool) : Bool :=
  p.optional.isNone && documented == some true && p.positional && p.default.isNone

/-- Parameters with some documentation merged in: the places of those that documentation alone made
optional, and the warnings. -/
structure Merged where
  inputs : List InputParam
  granted : List Nat
  warnings : List Warning

def Merged.add {ε : Type} (limits : Reference.Limits) (scope : Scope) (m : Merged)
    (doc : InputDoc) : Logged ε Merged := do
  match m.inputs.findIdx? (·.name = doc.name) with
  | none => return { m with warnings := m.warnings ++ [.unknownInput doc.name] }
  | some i =>
    match m.inputs[i]? with
    | none => return m
    | some p =>
      let (type, warnings) ← documentedType limits scope p.name p.type doc.type
      let merged := { p with
        type
        description := p.description.or doc.description
        optional := documentedFlag p doc.optional }
      return {
        inputs := m.inputs.set i merged
        granted := if grantsOptional p doc.optional then m.granted ++ [i] else m.granted
        warnings := m.warnings ++ warnings }

def Merged.addAll {ε : Type} (limits : Reference.Limits) (scope : Scope) (m : Merged) :
    List InputDoc → Logged ε Merged
  | [] => .ok m
  | doc :: rest => do (← m.add limits scope doc).addAll limits scope rest

def lastRequired? (inputs : List InputParam) : Option Nat :=
  (inputs.reverse.findIdx? fun p => p.positional && p.isRequired).map
    fun i => inputs.length - 1 - i

def Merged.revoke (m : Merged) (i : Nat) : Merged :=
  match m.inputs[i]? with
  | none => m
  | some p => { m with
      inputs := m.inputs.set i { p with optional := none }
      warnings := m.warnings ++ [.contradictoryOptional p.name] }

/-- Takes back the granted flags before the last required positional parameter. -/
def Merged.settle (m : Merged) : Merged :=
  match lastRequired? m.inputs with
  | none => m
  | some last => (m.granted.filter (· < last)).foldl Merged.revoke m

def mergeInputs {ε : Type} (limits : Reference.Limits) (scope : Scope) (inputs : List InputParam)
    (docs : List InputDoc) : Logged ε (List InputParam × List Warning) := do
  let m := (← Merged.addAll limits scope ⟨inputs, [], []⟩ docs).settle
  return (m.inputs, m.warnings)

/-- A warning if the documentation names a result otherwise than the signature and not by its
place. -/
def nameWarning (index count : Nat) (declared : String) (documented : Option String) :
    List Warning :=
  match documented with
  | none => []
  | some name =>
    if name ≠ declared ∧ name ≠ Docs.defaultOutputName index count then
      [.unmatchedOutputName index name declared]
    else []

def mergeOutputs {ε : Type} (limits : Reference.Limits) (scope : Scope) (index count : Nat) :
    List OutputParam → List OutputDoc → Logged ε (List OutputParam × List Warning)
  | outputs, [] => return (outputs, [])
  | [], _ :: docs => do
    let (_, warnings) ← mergeOutputs limits scope (index + 1) count [] docs
    return ([], .extraOutput index :: warnings)
  | p :: outputs, doc :: docs => do
    let (type, unresolved) ← documentedType limits scope p.name p.type doc.type
    let merged := { p with type, description := p.description.or doc.description }
    let (outputs, warnings) ← mergeOutputs limits scope (index + 1) count outputs docs
    return (merged :: outputs, nameWarning index count p.name doc.name ++ unresolved ++ warnings)

end Callable.Assembly
