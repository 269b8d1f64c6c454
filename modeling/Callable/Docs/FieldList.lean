import Callable.Docs.Sectioned
/-!
Docstrings with field lists. A line `:tag arguments: body` begins a field, other lines continue the
field before them or, before the first field, belong to the summary. Fields are applied in order: a
field may add an entry, or a type to an entry that stands already.
-/
namespace Callable.Docs

structure Field where
  line : Nat
  tag : String
  arguments : List String
  body : String
  deriving DecidableEq, Repr

inductive FieldKind where
  | param
  | type
  | raises
  | returns
  | returnType
  deriving DecidableEq, Repr

def FieldKind.ofTag? : String → Option FieldKind
  | "param" | "parameter" | "arg" | "argument" | "key" | "keyword" => some .param
  | "type" => some .type
  | "raises" | "raise" | "except" | "exception" => some .raises
  | "return" | "returns" => some .returns
  | "rtype" => some .returnType
  | _ => none

def fieldLine? (line : Line) : Option Field :=
  match line.text with
  | ':' :: rest =>
    match Text.cut? [':'] rest with
    | none => none
    | some (head, body) =>
      match Text.words head with
      | [] => none
      | tag :: arguments =>
        if tag.all Char.isAlpha then
          some ⟨line.number, String.ofList tag, arguments.map String.ofList,
            String.ofList (Text.trim body)⟩
        else none
  | _ => none

/-- The lines before the first field, and the fields with the lines that continue them; of both the
last comes first. -/
def addFieldLine (done : List (List Char) × List Field) (line : Line) :
    List (List Char) × List Field :=
  match fieldLine? line, done with
  | some field, (summary, fields) => (summary, field :: fields)
  | none, (summary, last :: before) =>
    (summary, { last with body := extend last.body (String.ofList line.text) } :: before)
  | none, (summary, []) => (line.text :: summary, [])

def Field.fault (field : Field) (detail : String) : DocsError :=
  .entry field.tag field.line detail

def modifyFirst? {α : Type} (test : α → Bool) (change : α → α) : List α → Option (List α)
  | [] => none
  | a :: rest =>
    if test a then some (change a :: rest) else (modifyFirst? test change rest).map (a :: ·)

def modifyLast? {α : Type} (change : α → α) : List α → Option (List α)
  | [] => none
  | [a] => some [change a]
  | a :: rest => (modifyLast? change rest).map (a :: ·)

/-- Gives a type to the entry that a field on a type names, or to the last entry. -/
def applyType (field : Field) (inputs : List InputDoc) : Option (List InputDoc) :=
  let (type, optional) := splitOptional field.body.toList
  let change := fun (doc : InputDoc) => { doc with
    type := (type.filter (!·.isEmpty)).map String.ofList
    optional := some optional }
  match field.arguments with
  | [] => modifyLast? change inputs
  | [name] => modifyFirst? (·.name = name) change inputs
  | _ => none

/-- Gives a type to the first result without one, or adds a result. -/
def applyReturnType (type : String) (outputs : List OutputDoc) : List OutputDoc :=
  let change := fun (doc : OutputDoc) => { doc with type := some type }
  (modifyFirst? (·.type.isNone) change outputs).getD (outputs ++ [{ type := some type }])

def Field.apply (docs : Docs) (field : Field) : Except DocsError Docs :=
  match FieldKind.ofTag? field.tag with
  | none => .error (.unknownSection field.tag field.line)
  | some .param =>
    let add := fun (name : String) (type : Option String) =>
      { docs with inputs := docs.inputs ++ [{ name, type, description := some field.body }] }
    match field.arguments with
    | [name] => .ok (add name none)
    | [type, name] => .ok (add name (some type))
    | _ => .error (field.fault "expected `:param name:` or `:param type name:`")
  | some .type =>
    match applyType field docs.inputs with
    | some inputs => .ok { docs with inputs }
    | none => .error (field.fault "type field does not match a documented parameter")
  | some .raises =>
    match field.arguments with
    | [name] => .ok { docs with exceptions := docs.exceptions.put name field.body }
    | _ => .error (field.fault "expected `:raises ErrorName:`")
  | some .returns =>
    .ok { docs with outputs := docs.outputs ++ [{ description := some field.body }] }
  | some .returnType =>
    if field.body = "" then .error (field.fault "expected a return type")
    else .ok { docs with outputs := applyReturnType field.body docs.outputs }

def applyFields (docs : Docs) : List Field → Except DocsError Docs
  | [] => .ok docs
  | field :: rest => do applyFields (← field.apply docs) rest

def readFieldList (docstring : String) : Except DocsError Docs :=
  let (summary, fields) := (textLines docstring).foldl addFieldLine ([], [])
  let summary :=
    if summary.isEmpty then none else some (String.ofList (Text.joinLines summary.reverse))
  applyFields { text := some docstring, summary } fields.reverse

end Callable.Docs
