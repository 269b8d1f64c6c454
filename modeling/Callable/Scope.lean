import Callable.TypeExpr.Basic
/-!
A scope gives names their meaning: which type a name denotes, and under which name a type is written.
-/
namespace Callable

structure Scope where
  /-- Names the scope in error messages. -/
  id : String
  resolve : String → Option TypeExpr
  nameOf : TypeExpr → Option String

/-- The scope that answers from two tables as they stand, the first matching row deciding. -/
def Scope.ofTables (id : String) (names : List (String × TypeExpr))
    (spellings : List (TypeExpr × String)) : Scope :=
  ⟨id, fun name => names.lookup name, fun type => spellings.lookup type⟩

end Callable
