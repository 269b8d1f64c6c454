import Callable.Assembly.Merge
/-!
Assembling descriptors. Names are checked first, then each type is written as its canonical
reference, documentation is merged in, and the descriptor is made, which checks the rest.
-/
namespace Callable.Assembly

inductive AssemblyError where
  | param (error : ParamError)
  | type (error : TypeError)
  deriving DecidableEq, Repr

/-- A descriptor with the warnings about its documentation. -/
structure Assembled where
  descriptor : Descriptor
  warnings : List Warning
  deriving DecidableEq

/-- Checks that names are neither blank nor repeated, given those before them. -/
def checkNames (repeated : String → ParamError) (position : Nat) (seen : List String) :
    List String → Except ParamError Unit
  | [] => .ok ()
  | name :: rest =>
    if Text.isBlankString name then .error (.emptyParamName position)
    else if name ∈ seen then .error (repeated name)
    else checkNames repeated (position + 1) (name :: seen) rest

/-- The name of a result, by its place if it has none. -/
def outputName (index count : Nat) (output : DeclaredOutput) : String :=
  output.name.getD (Docs.defaultOutputName index count)

def outputNames (index count : Nat) : List DeclaredOutput → List String
  | [] => []
  | output :: rest => outputName index count output :: outputNames (index + 1) count rest

def checkAllNames (d : Declaration) : Except ParamError Unit :=
  if Text.isBlankString d.name then .error .emptyFunctionName
  else
    match checkNames .duplicateInput 0 [] (d.inputs.map DeclaredInput.name) with
    | .error e => .error e
    | .ok () =>
      checkNames .duplicateOutput 0 [] (outputNames 0 d.outputs.length d.outputs)

def reference (limits : Reference.Limits) (scope : Scope) :
    DeclaredType → Logged AssemblyError String
  | .reference text => (Reference.canonicalLogged limits scope text).mapError .type
  | .type type => (Reference.encodeLogged limits scope type).mapError .type

def capturedDefault (input : DeclaredInput) : Except ParamError (Option Json) :=
  match input.default with
  | none => .ok none
  | some (.value value) => .ok (some value)
  | some (.uncaptured detail) => .error (.unserializableDefault input.name detail)

def inputParam (limits : Reference.Limits) (scope : Scope) (position : Nat)
    (input : DeclaredInput) : Logged AssemblyError InputParam := do
  if Text.isBlankString input.name then throw (.param (.emptyParamName position))
  let default ← .mapError .param (.ofExcept (capturedDefault input))
  let type ← reference limits scope input.type
  let param : InputParam := {
    name := input.name, type, default
    positional := input.positional
    optional := input.optional
    description := input.description
    middleware := input.middleware
    endpoints := input.endpoints }
  .mapError .param (.ofExcept (param.check position))
  return param

def outputParam (limits : Reference.Limits) (scope : Scope) (index count : Nat)
    (output : DeclaredOutput) : Logged AssemblyError OutputParam := do
  let name := outputName index count output
  if Text.isBlankString name then throw (.param (.emptyParamName index))
  let type ← reference limits scope output.type
  return { name, type, description := output.description, endpoints := output.endpoints }

def inputParams (limits : Reference.Limits) (scope : Scope) (position : Nat) :
    List DeclaredInput → Logged AssemblyError (List InputParam)
  | [] => .ok []
  | input :: rest => do
    let param ← inputParam limits scope position input
    return param :: (← inputParams limits scope (position + 1) rest)

def outputParams (limits : Reference.Limits) (scope : Scope) (index count : Nat) :
    List DeclaredOutput → Logged AssemblyError (List OutputParam)
  | [] => .ok []
  | output :: rest => do
    let param ← outputParam limits scope index count output
    return param :: (← outputParams limits scope (index + 1) count rest)

/-- Parameters and results with the documentation merged in, if there is any. -/
def mergeDocs (limits : Reference.Limits) (scope : Scope) (inputs : List InputParam)
    (outputs : List OutputParam) (docs : Option Docs) :
    Logged AssemblyError (List InputParam × List OutputParam × List Warning) := do
  match docs with
  | none => return (inputs, outputs, [])
  | some docs =>
    let (inputs, ws) ← mergeInputs limits scope inputs docs.inputs
    let (outputs, ws') ← mergeOutputs limits scope 0 docs.outputs.length outputs docs.outputs
    return (inputs, outputs, ws ++ ws')

def driftEvent (name : String) (warning : Warning) : Event :=
  ⟨.debug, "documentation drift", [("function", .text name), ("warning", .text warning.message)]⟩

def assembledEvent (scope : Scope) (d : Descriptor) (warnings : List Warning) : Event :=
  ⟨.debug, "assembled function descriptor", [("function", .text d.name),
    ("context", .text scope.id), ("inputs", .count d.inputs.length),
    ("outputs", .count d.outputs.length), ("warnings", .count warnings.length)]⟩

def assemble (limits : Reference.Limits) (scope : Scope) (d : Declaration) :
    Logged AssemblyError Assembled := do
  .mapError .param (.ofExcept (checkAllNames d))
  let inputs ← inputParams limits scope 0 d.inputs
  let outputs ← outputParams limits scope 0 d.outputs.length d.outputs
  let (inputs, outputs, warnings) ← mergeDocs limits scope inputs outputs d.docs
  .noteAll (warnings.map (driftEvent d.name))
  let descriptor ←
    .mapError .param (.ofExcept (Descriptor.make d.name inputs outputs d.docs d.endpoints))
  .note (assembledEvent scope descriptor warnings)
  return ⟨descriptor, warnings⟩

end Callable.Assembly
