import Callable.Reference.Error
import Callable.Scope
import Callable.TypeExpr.Normal
/-!
The shape of a type: its structure spelled out for programs that do not read references. Leaves are
names; a union is any of its members, a tuple all of its items; a literal is an enumeration of its
values other than `None`, which it notes by being nullable.
-/
namespace Callable

inductive Shape where
  | leaf (name : String)
  | array (items : Shape) (unique : Bool)
  | object (keys values : Shape)
  | allOf (items : List Shape)
  | anyOf (members : List Shape)
  | classOf (value : Shape)
  | enumeration (values : List Literal) (nullable : Bool)

namespace Shape

/-- The enumeration of some values, `None` among them making it nullable. -/
def ofLiterals (values : List Literal) (nullable : Bool) : Shape :=
  .enumeration (values.filter (· ≠ .none)) (nullable || values.contains .none)

mutual

def toJson : Shape → Json
  | leaf name => .str name
  | array items unique =>
    .obj [("items", toJson items), ("type", .str "array"), ("uniqueItems", .bool unique)]
  | object keys values =>
    .obj [("keys", toJson keys), ("type", .str "object"), ("values", toJson values)]
  | allOf items => .obj [("allOf", .arr (toJsonAll items))]
  | anyOf members => .obj [("anyOf", .arr (toJsonAll members))]
  | classOf value => .obj [("type", .str "type"), ("value", toJson value)]
  | enumeration values nullable =>
    .obj [("keys", .arr (values.map fun v => .str v.key)), ("nullable", .bool nullable),
      ("type", .str "enum"), ("values", .arr (values.map Literal.toJson))]

def toJsonAll : List Shape → List Json
  | [] => []
  | shape :: rest => toJson shape :: toJsonAll rest

end

/-- Whether a type of several parts may stand inside `depth` others. -/
def checkDepth (limits : Reference.Limits) (scope : Scope) (depth : Nat) :
    Except TypeError Unit :=
  if limits.maxDepth < depth + 1 then .error ⟨"", scope.id, .tooDeep limits.maxDepth⟩ else .ok ()

mutual

def ofNormal (limits : Reference.Limits) (scope : Scope) (depth : Nat) :
    TypeExpr → Except TypeError Shape
  | .any => .ok (.leaf "Any")
  | .none => .ok (.leaf "None")
  | .builtin b => .ok (.leaf b.name)
  | .named path =>
    match scope.nameOf (.named path) with
    | some name => .ok (.leaf name)
    | none => .error ⟨path, scope.id, .unregistered⟩
  | .anonymous hint => .error ⟨hint, scope.id, .anonymous⟩
  | .list item => do
    checkDepth limits scope depth
    return .array (← ofNormal limits scope (depth + 1) item) false
  | .set item => do
    checkDepth limits scope depth
    return .array (← ofNormal limits scope (depth + 1) item) true
  | .dict key value => do
    checkDepth limits scope depth
    let keys ← ofNormal limits scope (depth + 1) key
    let values ← ofNormal limits scope (depth + 1) value
    return .object keys values
  | .tuple items => do
    checkDepth limits scope depth
    return .allOf (← ofItems limits scope (depth + 1) items)
  | .someClass => do
    checkDepth limits scope depth
    return .classOf (.leaf "Any")
  | .classOf type => do
    checkDepth limits scope depth
    return .classOf (← ofNormal limits scope (depth + 1) type)
  | .literal values => do
    checkDepth limits scope depth
    return ofLiterals values false
  | .union [.literal values, .none] => do
    checkDepth limits scope depth
    return ofLiterals values true
  | .union [.none, .literal values] => do
    checkDepth limits scope depth
    return ofLiterals values true
  | .union members => do
    checkDepth limits scope depth
    return .anyOf (← ofMembers limits scope (depth + 1) (members.contains .none) members)

def ofItems (limits : Reference.Limits) (scope : Scope) (depth : Nat) :
    List TypeExpr → Except TypeError (List Shape)
  | [] => .ok []
  | type :: rest => do
    let shape ← ofNormal limits scope depth type
    return shape :: (← ofItems limits scope depth rest)

/-- The shapes of the members of a union; its literals are nullable if it has a member `None`. -/
def ofMembers (limits : Reference.Limits) (scope : Scope) (depth : Nat) (nullable : Bool) :
    List TypeExpr → Except TypeError (List Shape)
  | [] => .ok []
  | .literal values :: rest => do
    return ofLiterals values nullable :: (← ofMembers limits scope depth nullable rest)
  | type :: rest => do
    let shape ← ofNormal limits scope depth type
    return shape :: (← ofMembers limits scope depth nullable rest)

end

def ofType (limits : Reference.Limits) (scope : Scope) (type : TypeExpr) :
    Except TypeError Shape :=
  ofNormal limits scope 0 type.normalize

end Shape
end Callable
