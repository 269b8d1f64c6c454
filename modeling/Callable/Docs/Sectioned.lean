import Callable.Docs.Scan
/-!
Docstrings in sections. A line under a header on parameters is an entry `name (type): text` or
`name: text`, where the type may end in `optional`; a line under a header on results is an entry
`type: text`. Other lines continue the entry before them.
-/
namespace Callable.Docs

/-- A type text and whether `optional` stands after it; nothing is left of a lone `optional`. -/
def splitOptional (text : List Char) : Option (List Char) × Bool :=
  match Text.dropSuffix? "optional".toList text with
  | none => (some text, false)
  | some head =>
    let commaless := ((Text.trimEnd head).reverse.dropWhile (· == ',')).reverse
    let type := Text.trim commaless
    (if type = [] then none else some type, true)

/-- The characters of type texts: letters, digits and some marks, and blanks after a comma and
around a pipe, so that prose is not taken for a type. -/
def isTypeTextAfter (previous : Option Char) : List Char → Bool
  | [] => true
  | c :: rest =>
    (if c = ' ' then
      previous == some ',' || previous == some '|' || rest.head? == some '|'
    else "[],.()_|".toList.contains c || Text.isLetterOrDigit c) && isTypeTextAfter (some c) rest

def isTypeText (text : List Char) : Bool := !text.isEmpty && isTypeTextAfter none text

structure ParamEntry where
  name : List Char
  type : Option (List Char)
  optional : Bool
  description : List Char

/-- The type in parentheses and the description of an entry, after `name (`. -/
def typedEntry? (text : List Char) : Option (List Char × List Char) :=
  match Text.cut? "):".toList text with
  | some (type, []) => some (type, [])
  | some (type, ' ' :: description) => some (type, description)
  | some _ => none
  | none => (Text.dropSuffix? [')'] text).map (·, [])

def paramEntry? (text : List Char) : Option ParamEntry :=
  let isNameChar := fun c => Text.isLetterOrDigit c || c == '_'
  let name := text.takeWhile isNameChar
  let rest := text.dropWhile isNameChar
  if name = [] then none
  else
    match rest with
    | ' ' :: '(' :: rest =>
      match typedEntry? rest with
      | none => none
      | some (inside, description) =>
        let (type, optional) := splitOptional (Text.trim inside)
        if type.all isTypeText then some ⟨name, type, optional, Text.trim description⟩ else none
    | ':' :: ' ' :: rest =>
      let description := Text.trim rest
      if description = [] then none else some ⟨name, none, false, description⟩
    | _ => none

def ParamEntry.doc (entry : ParamEntry) : InputDoc where
  name := String.ofList entry.name
  description := some (String.ofList entry.description)
  type := entry.type.map String.ofList
  optional := some entry.optional

def continued (description : Option String) (line : String) : String :=
  extend (description.getD "") line

/-- The entries of a section on parameters, of which `done` were read, the last first. -/
def paramDocs (header : String) (done : List InputDoc) :
    List (Nat × List Char) → Except DocsError (List InputDoc)
  | [] => .ok done.reverse
  | (number, text) :: rest =>
    match paramEntry? text, done with
    | some entry, done => paramDocs header (entry.doc :: done) rest
    | none, last :: before =>
      let description := continued last.description (String.ofList text)
      paramDocs header ({ last with description := some description } :: before) rest
    | none, [] =>
      .error (.entry header number
        ("expected `name (type): description`, found `" ++ String.ofList text ++ "`"))

def returnEntry? (text : List Char) : Option OutputDoc :=
  match Text.cut? ": ".toList text with
  | none => none
  | some (type, description) =>
    if isTypeText type then
      some { type := some (String.ofList type),
             description := some (String.ofList (Text.trim description)) }
    else none

/-- The entries on results after a line; of those `done` the last comes first and may be of an
earlier section. -/
def addReturnLine (done : List OutputDoc) (text : List Char) : List OutputDoc :=
  match returnEntry? text, done with
  | some doc, done => doc :: done
  | none, last :: before =>
    { last with description := some (continued last.description (String.ofList text)) } :: before
  | none, [] => [{ description := some (String.ofList text) }]

def allParamDocs : List Section → Except DocsError (List InputDoc)
  | [] => .ok []
  | s :: rest => do
    let here ← if s.kind = .params then paramDocs s.header [] s.lines else .ok []
    return here ++ (← allParamDocs rest)

def allReturnDocs (sections : List Section) : List OutputDoc :=
  let lines := (sections.filter (·.kind = .returns)).flatMap fun s => s.lines.map Prod.snd
  (lines.foldl addReturnLine []).reverse

def readSectioned (sections : SectionSet) (docstring : String) : Logged DocsError Docs := do
  let found ← scan sections docstring
  let inputs ← .ofExcept (allParamDocs found.sections)
  return {
    text := some docstring
    inputs
    outputs := allReturnDocs found.sections
    summary := found.summary
    exceptions := found.exceptions }

end Callable.Docs
