import Callable.TypeExpr.Basic
/-!
The normal form of a type expression. Unions are flat, hold each member once and at least two of
them unless they are empty; a literal lists each value once. The first occurrence decides the order.
-/
namespace Callable

/-- The list with each value kept where it stands first, after the values of `seen`. -/
def addNew {α : Type} [DecidableEq α] (seen : List α) : List α → List α
  | [] => seen
  | a :: rest => if a ∈ seen then addNew seen rest else addNew (seen ++ [a]) rest

namespace TypeExpr

/-- The members a type contributes to a union: those of a union, else the type itself. -/
def members : TypeExpr → List TypeExpr
  | union ms => ms
  | other => [other]

/-- A union of normal types: the members flattened, each kept once, a single one standing alone. -/
def join (types : List TypeExpr) : TypeExpr :=
  match addNew [] (types.flatMap members) with
  | [single] => single
  | several => union several

mutual

def normalize : TypeExpr → TypeExpr
  | list item => list item.normalize
  | set item => set item.normalize
  | dict key value => dict key.normalize value.normalize
  | tuple items => tuple (normalizeAll items)
  | union types => join (normalizeAll types)
  | classOf type => classOf type.normalize
  | literal values => literal (addNew [] values)
  | leaf => leaf

def normalizeAll : List TypeExpr → List TypeExpr
  | [] => []
  | type :: rest => type.normalize :: normalizeAll rest

end

def unionOf (types : List TypeExpr) : TypeExpr := normalize (union types)

def optional (type : TypeExpr) : TypeExpr := unionOf [type, none]

mutual

def hasAnonymous : TypeExpr → Bool
  | anonymous _ => true
  | list item => item.hasAnonymous
  | set item => item.hasAnonymous
  | dict key value => key.hasAnonymous || value.hasAnonymous
  | tuple items => anyAnonymous items
  | union types => anyAnonymous types
  | classOf type => type.hasAnonymous
  | _ => false

def anyAnonymous : List TypeExpr → Bool
  | [] => false
  | type :: rest => type.hasAnonymous || anyAnonymous rest

end

end TypeExpr
end Callable
