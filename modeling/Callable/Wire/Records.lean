import Callable.Docs.Section
import Callable.Docs.Style
import Callable.Json.Reader
import Callable.Wire.Reading
/-!
The wire forms of descriptors and documentation: how they are written as JSON and read back. Fields
stand in the order declared; absent values and empty collections are left out where the form allows.
-/
namespace Callable.Wire

/-- A member for a value that may be absent. -/
def member? {α : Type} (name : String) (write : α → Json) (value : Option α) :
    List (String × Json) :=
  match value with
  | none => []
  | some a => [(name, write a)]

/-- A member for a list that is left out when it is empty. -/
def memberUnlessEmpty {α : Type} (name : String) (write : List α → Json) (items : List α) :
    List (String × Json) :=
  if items.isEmpty then [] else [(name, write items)]

def strings (items : List String) : Json := .arr (items.map .str)

def ofTable {α : Type} (write : α → Json) (table : Table α) : Json :=
  .obj (table.map fun (name, value) => (name, write value))

def ofEndpoint (e : Endpoint) : Json := .obj (memberUnlessEmpty "middleware" strings e.middleware)

def ofInputParam (p : InputParam) : Json :=
  .obj ([("name", .str p.name), ("type", .str p.type), ("positional", .bool p.positional)] ++
    member? "default" id p.default ++ member? "optional" .bool p.optional ++
    member? "description" .str p.description ++
    memberUnlessEmpty "middleware" strings p.middleware ++
    memberUnlessEmpty "endpoints" (ofTable ofEndpoint) p.endpoints)

def ofOutputParam (p : OutputParam) : Json :=
  .obj ([("name", .str p.name), ("type", .str p.type)] ++
    member? "description" .str p.description ++
    memberUnlessEmpty "endpoints" (ofTable ofEndpoint) p.endpoints)

def ofInputDoc (doc : InputDoc) : Json :=
  .obj ([("name", .str doc.name)] ++ member? "description" .str doc.description ++
    member? "type" .str doc.type ++ member? "default" id doc.default ++
    member? "optional" .bool doc.optional ++ member? "positional" .bool doc.positional)

def ofOutputDoc (doc : OutputDoc) : Json :=
  .obj (member? "name" .str doc.name ++ member? "type" .str doc.type ++
    member? "description" .str doc.description)

def ofDocs (docs : Docs) : Json :=
  .obj (member? "original" .str docs.text ++
    [("input_params", .arr (docs.inputs.map ofInputDoc)),
      ("output_params", .arr (docs.outputs.map ofOutputDoc))] ++
    member? "summary" .str docs.summary ++ [("exceptions", ofTable .str docs.exceptions)])

def ofDescriptor (d : Descriptor) : Json :=
  .obj ([("name", .str d.name), ("input_params", .arr (d.inputs.map ofInputParam)),
      ("output_params", .arr (d.outputs.map ofOutputParam)),
      ("docstring", (d.docs.map ofDocs).getD .null)] ++
    memberUnlessEmpty "endpoints" (ofTable ofEndpoint) d.endpoints)

variable (origin : Origin)

def endpoint (draft : Json.Draft) : Result Endpoint := do
  let fields ← record origin [.of "middleware" (list string)] false draft
  return ⟨← fields.getD "middleware" (list string) []⟩

def endpoints : Json.Draft → Result Endpoints := table (endpoint origin)

def inputParam (draft : Json.Draft) : Result InputParam := do
  let fields ← record origin [.of "name" string, .of "type" string, .of "positional" boolean,
    .of "default" present, .of "optional" (nullable boolean), .of "description" (nullable string),
    .of "middleware" (list string), .of "endpoints" (endpoints origin)] false draft
  let name ← fields.need "name" string
  let type ← fields.need "type" string
  let positional ← fields.need "positional" boolean
  let default ← fields.getD "default" present none
  let optional ← fields.getD "optional" (nullable boolean) none
  let description ← fields.getD "description" (nullable string) none
  let middleware ← fields.getD "middleware" (list string) []
  let endpoints ← fields.getD "endpoints" (endpoints origin) []
  return { name, type, positional, default, optional, description, middleware, endpoints }

def outputParam (draft : Json.Draft) : Result OutputParam := do
  let fields ← record origin [.of "name" string, .of "type" string,
    .of "description" (nullable string), .of "endpoints" (endpoints origin)] false draft
  let name ← fields.need "name" string
  let type ← fields.need "type" string
  let description ← fields.getD "description" (nullable string) none
  let endpoints ← fields.getD "endpoints" (endpoints origin) []
  return { name, type, description, endpoints }

def inputDoc (draft : Json.Draft) : Result InputDoc := do
  let fields ← record origin [.of "name" string, .of "description" (nullable string),
    .of "type" (nullable string), .of "default" present, .of "optional" (nullable boolean),
    .of "positional" (nullable boolean)] false draft
  let name ← fields.need "name" string
  let description ← fields.getD "description" (nullable string) none
  let type ← fields.getD "type" (nullable string) none
  let default ← fields.getD "default" present none
  let optional ← fields.getD "optional" (nullable boolean) none
  let positional ← fields.getD "positional" (nullable boolean) none
  return { name, description, type, default, optional, positional }

def outputDoc (draft : Json.Draft) : Result OutputDoc := do
  let fields ← record origin [.of "name" (nullable string), .of "type" (nullable string),
    .of "description" (nullable string)] false draft
  let name ← fields.getD "name" (nullable string) none
  let type ← fields.getD "type" (nullable string) none
  let description ← fields.getD "description" (nullable string) none
  return { name, type, description }

def docs (draft : Json.Draft) : Result Docs := do
  let fields ← record origin [.of "original" (nullable string),
    .of "input_params" (list (inputDoc origin)), .of "output_params" (list (outputDoc origin)),
    .of "summary" (nullable string), .of "exceptions" (table string)] false draft
  let text ← fields.getD "original" (nullable string) none
  let inputs ← fields.getD "input_params" (list (inputDoc origin)) []
  let outputs ← fields.getD "output_params" (list (outputDoc origin)) []
  let summary ← fields.getD "summary" (nullable string) none
  let exceptions ← fields.getD "exceptions" (table string) []
  return { text, inputs, outputs, summary, exceptions }

/-- A descriptor; that it is sound is checked when all of it has been read. -/
def descriptor (draft : Json.Draft) : Result Descriptor := do
  let fields ← record origin [.of "name" string, .of "input_params" (list (inputParam origin)),
    .of "output_params" (list (outputParam origin)), .of "docstring" (nullable (docs origin)),
    .of "endpoints" (endpoints origin)] true draft
  let name ← fields.need "name" string
  let inputs ← fields.getD "input_params" (list (inputParam origin)) []
  let outputs ← fields.getD "output_params" (list (outputParam origin)) []
  let docs ← fields.getD "docstring" (nullable (docs origin)) none
  let endpoints ← fields.getD "endpoints" (endpoints origin) []
  (Descriptor.make name inputs outputs docs endpoints).mapError .invalid

def sectionKinds : List (String × SectionKind) :=
  [("summary", .summary), ("params", .params), ("returns", .returns), ("raises", .raises)]

def sectionKind : Json.Draft → Result SectionKind := choice origin sectionKinds

def ofSectionKind : SectionKind → Json
  | .summary => .str "summary"
  | .params => .str "params"
  | .returns => .str "returns"
  | .raises => .str "raises"

def styles : List (String × Docs.StyleChoice) :=
  [("auto", none), ("google", some .sectioned), ("restructured", some .fieldList)]

def styleChoice : Json.Draft → Result Docs.StyleChoice := choice origin styles

/-- Reads a whole text; what follows the value is a flaw noticed last. -/
def fromText {α : Type} (item : Json.Draft → Result α) (document : Json.Document) : Result α := do
  let a ← item document.value
  if document.trailing then .error (.flaw .malformed) else return a

end Callable.Wire
