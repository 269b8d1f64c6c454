import Callable.Docs.Basic
import Callable.Docs.Line
import Callable.Docs.Section
import Callable.Text.Letters
import Callable.Trace
/-!
Scanning a docstring for sections. A line of capitalised words and a colon is a header unless it is
indented deeper than the section it stands in; an unknown header is an error. Lines before the first
header belong to the summary, the others to their section. The lines of a section on exceptions are
entries `Name: description`, a line of another form continuing the entry before it.
-/
namespace Callable.Docs

/-- A section on parameters or results, with the lines under its header. -/
structure Section where
  kind : SectionKind
  header : String
  line : Nat
  lines : List (Nat × List Char)
  deriving DecidableEq, Repr

structure Scan where
  summary : Option String
  sections : List Section
  exceptions : Table String
  deriving DecidableEq, Repr

/-- A word of letters that begins with a capital. -/
def isTitleWord (word : List Char) : Bool :=
  match word with
  | [] => false
  | c :: _ => Text.isCapital c && word.all Text.isLetter

/-- Title words with single spaces between them. -/
def isTitle (text : List Char) : Bool := (Text.splitAt ' ' text).all isTitleWord

/-- The words of a header, without the colon, before which there is neither a colon nor a blank. -/
def header? (text : List Char) : Option (List Char) :=
  match Text.dropSuffix? [':'] text with
  | none => none
  | some head =>
    if head.getLast? = some ':' ∨ head.getLast? = some ' ' then none
    else if isTitle head then some head
    else none

def isExceptionName (name : List Char) : Bool :=
  (Text.splitAt '.' name).all fun part =>
    match part with
    | [] => false
    | c :: _ =>
      (Text.isLetter c || c == '_') && part.all fun c => Text.isLetterOrDigit c || c == '_'

def exceptionEntry? (text : List Char) : Option (List Char × List Char) :=
  match Text.cut? [':'] text with
  | none => none
  | some (name, description) =>
    let name := Text.trim name
    if isExceptionName name then some (name, Text.trim description) else none

/-- What the lines that are not headers belong to, and how deep its header is indented. -/
inductive Zone where
  | preamble
  | summary (indent : Nat)
  /-- The section added last. -/
  | body (indent : Nat)
  /-- Exceptions, with the name of the entry that a line may continue. -/
  | raises (indent : Nat) (entry : Option String)
  deriving DecidableEq, Repr

def Zone.admits (zone : Zone) (indent : Nat) : Bool :=
  match zone with
  | preamble => true
  | summary header => indent ≤ header
  | body header => indent ≤ header
  | raises header _ => indent ≤ header

/-- What a scan has gathered; of the sections and the lines in them the last comes first. -/
structure Progress where
  zone : Zone := .preamble
  summary : List (List Char) := []
  sections : List Section := []
  exceptions : Table String := []

/-- Text with more text after a blank; nothing comes before the first text. -/
def extend (text more : String) : String := if text = "" then more else text ++ " " ++ more

def Progress.open (p : Progress) (line : Line) (header : String) (kind : SectionKind) : Progress :=
  match kind with
  | .summary => { p with zone := .summary line.indent }
  | .raises => { p with zone := .raises line.indent none }
  | kind => { p with
      zone := .body line.indent
      sections := ⟨kind, header, line.number, []⟩ :: p.sections }

def Progress.add (p : Progress) (line : Line) : Except DocsError Progress :=
  match p.zone with
  | .preamble => .ok { p with summary := line.text :: p.summary }
  | .summary _ => .ok { p with summary := line.text :: p.summary }
  | .body _ => .ok { p with
      sections := p.sections.modifyHead fun s =>
        { s with lines := (line.number, line.text) :: s.lines } }
  | .raises indent entry =>
    match exceptionEntry? line.text with
    | some (name, description) =>
      let name := String.ofList name
      .ok { p with
        zone := .raises indent (some name)
        exceptions := p.exceptions.put name (String.ofList description) }
    | none =>
      let text := String.ofList line.text
      match entry.bind fun name => (p.exceptions.get? name).map (name, ·) with
      | some (name, description) =>
        .ok { p with exceptions := p.exceptions.put name (extend description text) }
      | none =>
        .error (.entry "Raises" line.number ("expected `Name: description`, found `" ++ text ++ "`"))

def openedEvent (header : String) (line : Nat) : Event :=
  ⟨.trace, "docstring section opened", [("header", .text header), ("line", .count line)]⟩

def Progress.step (sections : SectionSet) (p : Progress) (line : Line) :
    Logged DocsError Progress :=
  match header? line.text with
  | none => .ofExcept (p.add line)
  | some header =>
    if p.zone.admits line.indent then
      let header := String.ofList header
      match sections.get? header with
      | none => .error (.unknownSection header line.number)
      | some kind => do
        .note (openedEvent header line.number)
        return p.open line header kind
    else .ofExcept (p.add line)

def Progress.run (sections : SectionSet) (p : Progress) : List Line → Logged DocsError Progress
  | [] => .ok p
  | line :: rest => do (← p.step sections line).run sections rest

def Progress.scan (p : Progress) : Scan where
  summary :=
    if p.summary.isEmpty then none else some (String.ofList (Text.joinLines p.summary.reverse))
  sections := (p.sections.map fun s => { s with lines := s.lines.reverse }).reverse
  exceptions := p.exceptions

def scan (sections : SectionSet) (docstring : String) : Logged DocsError Scan := do
  return (← Progress.run sections {} (textLines docstring)).scan

end Callable.Docs
