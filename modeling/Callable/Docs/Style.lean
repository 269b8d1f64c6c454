import Callable.Docs.FieldList
/-!
The two styles of docstrings. Unless it is told, a reader decides by the text: a line that begins
with a field on parameters, exceptions or results makes it a field list.
-/
namespace Callable.Docs

inductive Style where
  | sectioned
  | fieldList
  deriving DecidableEq, Repr

def Style.name : Style → String
  | sectioned => "google"
  | fieldList => "restructured"

/-- The style a reader is told to expect; `none` leaves it to the text. -/
abbrev StyleChoice := Option Style

def StyleChoice.name (choice : StyleChoice) : String := (choice.map Style.name).getD "auto"

/-- How a field begins that tells a field list. -/
def fieldMarkers : List (List Char) := [":param".toList, ":raises".toList, ":return".toList]

def detectStyle (docstring : String) : Style :=
  let marked := fun line => fieldMarkers.any (·.isPrefixOf (Text.trimStart line))
  if (Text.lines docstring.toList).any marked then .fieldList else .sectioned

def selectedEvent (style : Style) : Event :=
  ⟨.trace, "docstring style selected", [("style", .text style.name)]⟩

/-- How a docstring is to be read. -/
inductive Reader where
  | sectioned (sections : SectionSet)
  | fieldList
  /-- By a style that is given or found in the text, and noted. -/
  | styled (choice : StyleChoice) (sections : SectionSet)
  /-- The documentation is known beforehand. -/
  | given (docs : Docs)

def Reader.read (reader : Reader) (docstring : String) : Logged DocsError Docs :=
  match reader with
  | sectioned sections => readSectioned sections docstring
  | fieldList => .ofExcept (readFieldList docstring)
  | styled choice sections => do
    let style := choice.getD (detectStyle docstring)
    .note (selectedEvent style)
    match style with
    | .sectioned => readSectioned sections docstring
    | .fieldList => .ofExcept (readFieldList docstring)
  | given docs => .ok docs

end Callable.Docs
