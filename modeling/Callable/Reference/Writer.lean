import Callable.Reference.Reader
import Callable.Trace
/-!
Writing type references. Built-in types have their own names, all other types the names that the
scope gives them; a type without a name is written as a form with its parts in brackets. Each form
has one spelling: capital heads, `Union` for unions, single quotes, a comma and a blank between parts.
-/
namespace Callable.Reference

def escapeQuoted : Char → List Char
  | '\\' => ['\\', '\\']
  | '\'' => ['\\', '\'']
  | '\n' => ['\\', 'n']
  | '\t' => ['\\', 't']
  | c => [c]

def spellLiteral : Literal → String
  | .int n => toString n.toInt
  | .bool true => "True"
  | .bool false => "False"
  | .none => "None"
  | .str s => String.ofList ('\'' :: s.toList.flatMap escapeQuoted ++ ['\''])

def spellMoreLiterals (out : String) : List Literal → String
  | [] => out ++ "]"
  | value :: rest => spellMoreLiterals (out ++ ", " ++ spellLiteral value) rest

/-- A type of several parts after `out`: by its name if it has one, else part by part as long as
another bracket may open. -/
def spellParts (limits : Limits) (scope : Scope) (depth : Nat) (out : String) (type : TypeExpr)
    (parts : Unit → Except TypeError String) : Except TypeError String :=
  match scope.nameOf type with
  | some name => .ok (out ++ name)
  | none =>
    if limits.maxDepth < depth + 1 then .error ⟨out, scope.id, .tooDeep limits.maxDepth⟩
    else parts ()

mutual

/-- The text `out` with the reference of a type after it, inside `depth` brackets. -/
def spell (limits : Limits) (scope : Scope) (depth : Nat) (out : String) :
    TypeExpr → Except TypeError String
  | .any => .ok (out ++ "Any")
  | .none => .ok (out ++ "None")
  | .builtin b => .ok (out ++ b.name)
  | .someClass => .ok (out ++ "Type")
  | .named path =>
    match scope.nameOf (.named path) with
    | some name => .ok (out ++ name)
    | none => .error ⟨path, scope.id, .unregistered⟩
  | .anonymous hint => .error ⟨hint, scope.id, .anonymous⟩
  | .list item =>
    spellParts limits scope depth out (.list item) fun _ => do
      let out ← spell limits scope (depth + 1) (out ++ "List[") item
      return out ++ "]"
  | .set item =>
    spellParts limits scope depth out (.set item) fun _ => do
      let out ← spell limits scope (depth + 1) (out ++ "Set[") item
      return out ++ "]"
  | .classOf type =>
    spellParts limits scope depth out (.classOf type) fun _ => do
      let out ← spell limits scope (depth + 1) (out ++ "Type[") type
      return out ++ "]"
  | .dict key value =>
    spellParts limits scope depth out (.dict key value) fun _ => do
      let out ← spell limits scope (depth + 1) (out ++ "Dict[") key
      let out ← spell limits scope (depth + 1) (out ++ ", ") value
      return out ++ "]"
  | .tuple [] => spellParts limits scope depth out (.tuple []) fun _ => .ok (out ++ "Tuple[()]")
  | .tuple (item :: items) =>
    spellParts limits scope depth out (.tuple (item :: items)) fun _ => do
      let out ← spell limits scope (depth + 1) (out ++ "Tuple[") item
      spellMore limits scope (depth + 1) out items
  | .union [] =>
    spellParts limits scope depth out (.union []) fun _ =>
      .error ⟨"Union", scope.id, .arity .atLeastOne 0⟩
  | .union (member :: members) =>
    spellParts limits scope depth out (.union (member :: members)) fun _ => do
      let out ← spell limits scope (depth + 1) (out ++ "Union[") member
      spellMore limits scope (depth + 1) out members
  | .literal [] =>
    spellParts limits scope depth out (.literal []) fun _ =>
      .error ⟨"Literal", scope.id, .arity .atLeastOne 0⟩
  | .literal (value :: values) =>
    spellParts limits scope depth out (.literal (value :: values)) fun _ =>
      .ok (spellMoreLiterals (out ++ "Literal[" ++ spellLiteral value) values)

/-- The parts after the first, and the closing bracket. -/
def spellMore (limits : Limits) (scope : Scope) (depth : Nat) (out : String) :
    List TypeExpr → Except TypeError String
  | [] => .ok (out ++ "]")
  | type :: rest => do
    let out ← spell limits scope depth (out ++ ", ") type
    spellMore limits scope depth out rest

end

def encode (limits : Limits) (scope : Scope) (type : TypeExpr) : Except TypeError String := do
  let text ← spell limits scope 0 "" type.normalize
  if limits.maxBytes < text.utf8ByteSize then
    .error ⟨text, scope.id, .tooLarge limits.maxBytes⟩
  else return text

/-- The spelling of a reference that `encode` gives its type. -/
def canonical (limits : Limits) (scope : Scope) (text : String) : Except TypeError String := do
  encode limits scope (← decode limits scope text)

def encodedEvent (scope : Scope) (text : String) : Event :=
  ⟨.trace, "encoded type", [("context", .text scope.id), ("reference", .text text)]⟩

def encodeLogged (limits : Limits) (scope : Scope) (type : TypeExpr) :
    Logged TypeError String := do
  let text ← .ofExcept (encode limits scope type)
  .note (encodedEvent scope text)
  return text

def canonicalLogged (limits : Limits) (scope : Scope) (text : String) :
    Logged TypeError String := do
  encodeLogged limits scope (← .ofExcept (decode limits scope text))

end Callable.Reference
