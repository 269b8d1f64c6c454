import Callable.Decimal.Numeral
import Callable.Docs.Style
import Callable.Reference.Writer
/-!
The normal form of documentation. Types are spelled as the scope spells them, a default told in the
description becomes a default, text defaults become values of the documented type, descriptions are
tidy sentences, results have names, and each entry on a parameter says whether it is positional and
whether it is optional.
-/
namespace Callable.Docs

def isQuote (c : Char) : Bool := c == '`' || c == '\'' || c == '"'

/-- A quoted token at the front of a text, quotes included, and the rest. -/
def quotedToken? : List Char → Option (List Char × List Char)
  | [] => none
  | q :: rest =>
    if isQuote q then
      match rest.takeWhile (· != q), rest.dropWhile (· != q) with
      | _, [] => none
      | [], _ => none
      | inside, _ :: after => some (q :: inside ++ [q], after)
    else none

def endsToken (c : Char) : Bool := Text.isBlank c || c == '.' || c == ','

/-- A token at the front of a text and the rest: quoted, or up to a blank, a point or a comma. -/
def token? (text : List Char) : Option (List Char × List Char) :=
  match quotedToken? text with
  | some found => some found
  | none =>
    match text.takeWhile (!endsToken ·) with
    | [] => none
    | token => some (token, text.dropWhile (!endsToken ·))

/-- A description without its phrase on the default, and the token of that phrase. -/
def extractDefault? (description : List Char) : Option (List Char × List Char) :=
  match Text.cut? "defaults to ".toList description with
  | none => none
  | some (before, tail) =>
    (token? tail).map fun (token, after) => (Text.trim (before ++ after), token)

def unquote (text : List Char) : List Char :=
  match text with
  | [] => []
  | q :: rest =>
    if isQuote q then (Text.dropSuffix? [q] rest).getD text else text

inductive Misfit where
  | notNone
  | notInteger
  | notFloat
  | notBoolean
  | noMember
  deriving DecidableEq, Repr

def Misfit.text (text : String) : Misfit → String
  | notNone => "`" ++ text ++ "` is not None"
  | notInteger => "`" ++ text ++ "` is not an integer"
  | notFloat => "`" ++ text ++ "` is not a finite float"
  | notBoolean => "`" ++ text ++ "` is not a boolean"
  | noMember => "`" ++ text ++ "` matches no member of the union"

mutual

/-- The value that a text stands for as a default of a type. A union takes the value of its first
member that has one; types without a rule of their own take the text. -/
def coerce (text : String) : TypeExpr → Except Misfit Json
  | .none => if text = "None" then .ok .null else .error .notNone
  | .builtin .int =>
    match Decimal.integer? text.toList with
    | some n => .ok (.int n)
    | none => .error .notInteger
  | .builtin .float =>
    match Decimal.Format.double.real? text.toList with
    | some x => .ok (.float x)
    | none => .error .notFloat
  | .builtin .bool =>
    if text = "True" ∨ text = "true" then .ok (.bool true)
    else if text = "False" ∨ text = "false" then .ok (.bool false)
    else .error .notBoolean
  | .union members =>
    if text = "None" ∧ members.contains .none then .ok .null else coerceMember text members
  | _ => .ok (.str text)

/-- The value of the first member that has one, `None` apart. -/
def coerceMember (text : String) : List TypeExpr → Except Misfit Json
  | [] => .error .noMember
  | .none :: rest => coerceMember text rest
  | type :: rest =>
    match coerce text type with
    | .ok value => .ok value
    | .error _ => coerceMember text rest

end

/-- Drops each character `first` that stands before `second`. -/
def dropBefore (first second : Char) (text : List Char) : List Char :=
  text.foldr (fun c rest => if c = first ∧ rest.head? = some second then rest else c :: rest) []

/-- Blanks collapsed, none before punctuation, no comma before a point. -/
def squeeze (text : List Char) : List Char :=
  [(' ', ' '), (' ', '.'), (' ', ','), (' ', ':'), (',', '.')].foldl
    (fun text (first, second) => dropBefore first second text) text

/-- A description as a tidy sentence: squeezed, without loose commas at the end, with a period. -/
def tidy (text : List Char) : List Char :=
  let text := Text.trim (squeeze text)
  let text := (text.reverse.dropWhile fun c => c == ',' || c == ';').reverse
  let text := Text.trimEnd text
  if text = [] ∨ text.getLast? = some '.' then text else text ++ ['.']

def nonEmpty (text : List Char) : Option String :=
  if text = [] then none else some (String.ofList text)

def defaultOutputName (index count : Nat) : String :=
  if 1 < count then "out" ++ toString index else "out"

/-- The documented default of an entry with the description that is left; a text default is
unquoted. -/
def documentedDefault (doc : InputDoc) : List Char × Option Json :=
  let description := Text.trim ((doc.description.getD "").toList)
  let (description, default) := match extractDefault? description with
    | none => (description, doc.default)
    | some (rest, token) => (rest, some (doc.default.getD (.str (String.ofList token))))
  match default with
  | some (.str text) => (description, some (.str (String.ofList (unquote text.toList))))
  | other => (description, other)

/-- A text default as a value of the type; other defaults stay as they are. -/
def fitDefault (name reference : String) (type : TypeExpr) :
    Option Json → Except DocsError (Option Json)
  | some (.str text) =>
    match coerce text type with
    | .ok value => .ok (some value)
    | .error misfit => .error (.default name reference (misfit.text text))
  | other => .ok other

def normalizeInput (limits : Reference.Limits) (scope : Scope) (doc : InputDoc) :
    Logged DocsError InputDoc := do
  let (description, default) := documentedDefault doc
  let (reference, default) ← match doc.type with
    | none => pure (none, default)
    | some text =>
      let type ← .mapError .type (.ofExcept (Reference.decode limits scope text))
      let reference ← (Reference.encodeLogged limits scope type).mapError .type
      let default ← .ofExcept (fitDefault doc.name reference type default)
      pure (some reference, default)
  let positional := doc.positional.getD !(default.isSome || doc.optional = some true)
  return {
    name := doc.name
    description := nonEmpty (tidy description)
    type := reference
    default
    optional := some (doc.optional.getD (default.isSome || !positional))
    positional := some positional }

def normalizeOutput (limits : Reference.Limits) (scope : Scope) (index count : Nat)
    (doc : OutputDoc) : Logged DocsError OutputDoc := do
  let type ← match doc.type with
    | none => pure none
    | some text => some <$> (Reference.canonicalLogged limits scope text).mapError .type
  return {
    name := some (doc.name.getD (defaultOutputName index count))
    type
    description := nonEmpty (Text.trim (doc.description.getD "").toList) }

def normalizeInputs (limits : Reference.Limits) (scope : Scope) :
    List InputDoc → Logged DocsError (List InputDoc)
  | [] => .ok []
  | doc :: rest => do
    let doc ← normalizeInput limits scope doc
    return doc :: (← normalizeInputs limits scope rest)

def normalizeOutputs (limits : Reference.Limits) (scope : Scope) (index count : Nat) :
    List OutputDoc → Logged DocsError (List OutputDoc)
  | [] => .ok []
  | doc :: rest => do
    let doc ← normalizeOutput limits scope index count doc
    return doc :: (← normalizeOutputs limits scope (index + 1) count rest)

def normalize (limits : Reference.Limits) (scope : Scope) (docstring : String) (docs : Docs) :
    Logged DocsError Docs := do
  let inputs ← normalizeInputs limits scope docs.inputs
  let outputs ← normalizeOutputs limits scope 0 docs.outputs.length docs.outputs
  return {
    text := some docstring
    inputs
    outputs
    summary := docs.summary.bind fun s => nonEmpty (Text.trim s.toList)
    exceptions := docs.exceptions.mapValues fun s => String.ofList (Text.trim s.toList) }

def ofDocstring (limits : Reference.Limits) (scope : Scope) (reader : Reader)
    (docstring : String) : Logged DocsError Docs := do
  normalize limits scope docstring (← reader.read docstring)

end Callable.Docs
