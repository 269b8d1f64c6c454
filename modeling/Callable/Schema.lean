import Callable.Json.Basic
/-!
The JSON Schema of the wire form of descriptors. A schema is a value of its own type here; a
reference carries the schema it stands for, which the document lists once among its definitions.
-/
namespace Callable

inductive Schema where
  | anything (description : String)
  | null
  | boolean
  | string
  /-- A string that is not empty. -/
  | nonempty (description : String)
  | array (items : Schema)
  /-- An object with these properties and no others. -/
  | closed (properties : List (String × Schema)) (required : List String)
  /-- An object whose members all are of one form. -/
  | map (values : Schema)
  /-- Exactly one of two forms. -/
  | either (first second : Schema)
  | ref (name : String) (target : Schema)

namespace Schema

/-- The members of the schema of a closed object. -/
def closedMembers (properties : List (String × Json)) (required : List String) :
    List (String × Json) :=
  [("type", .str "object")] ++
    (if required.isEmpty then [] else [("required", .arr (required.map .str))]) ++
    [("additionalProperties", .bool false), ("properties", .obj properties)]

mutual

def toJson : Schema → Json
  | anything description => .obj [("description", .str description)]
  | null => .obj [("type", .str "null")]
  | boolean => .obj [("type", .str "boolean")]
  | string => .obj [("type", .str "string")]
  | nonempty description =>
    .obj [("type", .str "string"), ("minLength", .int 1), ("description", .str description)]
  | array items => .obj [("type", .str "array"), ("items", toJson items)]
  | closed properties required => .obj (closedMembers (membersToJson properties) required)
  | map values => .obj [("type", .str "object"), ("additionalProperties", toJson values)]
  | either first second => .obj [("oneOf", .arr [toJson first, toJson second])]
  | ref name _ => .obj [("$ref", .str ("#/$defs/" ++ name))]

def membersToJson : List (String × Schema) → List (String × Json)
  | [] => []
  | (name, schema) :: rest => (name, toJson schema) :: membersToJson rest

end

def typeRef : Schema := nonempty "Canonical type reference."

def endpoint : Schema :=
  closed [("middleware", array (nonempty "Opaque middleware handle."))] []

def endpoints : Schema := map (ref "endpoint" endpoint)

def inputParam : Schema :=
  closed [("name", nonempty "Parameter name."), ("type", ref "type_ref" typeRef),
    ("positional", boolean), ("default", anything "Any JSON value, including null."),
    ("optional", boolean), ("description", string),
    ("middleware", array (nonempty "Opaque middleware handle.")),
    ("endpoints", ref "endpoints" endpoints)] ["name", "type", "positional"]

def outputParam : Schema :=
  closed [("name", nonempty "Output name."), ("type", ref "type_ref" typeRef),
    ("description", string), ("endpoints", ref "endpoints" endpoints)] ["name", "type"]

def inputDoc : Schema :=
  closed [("name", nonempty "Documented parameter name."), ("description", string),
    ("type", ref "type_ref" typeRef), ("default", anything "Any JSON value, including null."),
    ("optional", boolean), ("positional", boolean)] ["name"]

def outputDoc : Schema :=
  closed [("name", string), ("type", ref "type_ref" typeRef), ("description", string)] []

def docs : Schema :=
  closed [("original", string), ("summary", string), ("input_params", array inputDoc),
    ("output_params", array outputDoc), ("exceptions", map string)]
    ["input_params", "output_params", "exceptions"]

/-- The wire form of descriptors. -/
def descriptor : Schema :=
  closed [("name", nonempty "Exposed function name."),
    ("input_params", array (ref "input_param" inputParam)),
    ("output_params", array (ref "output_param" outputParam)),
    ("docstring", either null (ref "docstring" docs)),
    ("endpoints", ref "endpoints" endpoints)]
    ["name", "input_params", "output_params", "docstring"]

def definitions : List (String × Schema) :=
  [("type_ref", typeRef), ("endpoint", endpoint), ("endpoints", endpoints),
    ("input_param", inputParam), ("output_param", outputParam), ("docstring", docs)]

/-- The published schema document. -/
def document : Json :=
  let head := [("$schema", Json.str "https://json-schema.org/draft/2020-12/schema"),
    ("$id", .str "exposed://schemas/serialized-function.json"),
    ("title", .str "SerializedFunction")]
  match descriptor.toJson with
  | .obj members => .obj (head ++ members ++ [("$defs", .obj (membersToJson definitions))])
  | other => other

end Schema
end Callable
