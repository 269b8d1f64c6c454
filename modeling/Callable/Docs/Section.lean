import Callable.Table
/-!
The headers that open a section of a docstring, and what such a section holds.
-/
namespace Callable

inductive SectionKind where
  | summary
  | params
  | returns
  | raises
  deriving DecidableEq, Repr

/-- The known headers with their kinds. -/
abbrev SectionSet := Table SectionKind

def SectionSet.standard : SectionSet :=
  Table.ofList [("Summary", .summary), ("Args", .params), ("Arguments", .params),
    ("Params", .params), ("Parameters", .params), ("Returns", .returns), ("Return", .returns),
    ("Raises", .raises)]

end Callable
