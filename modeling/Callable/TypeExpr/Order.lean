import Callable.TypeExpr.Basic
/-!
A total order on type expressions: first by the form, in the order the forms are declared, then by
the parts from left to right; a shorter list comes before its extensions.
-/
namespace Callable

def Builtin.rank (b : Builtin) : Nat := Builtin.all.idxOf b

def compareLists {α : Type} (cmp : α → α → Ordering) : List α → List α → Ordering
  | [], [] => .eq
  | [], _ :: _ => .lt
  | _ :: _, [] => .gt
  | a :: as, b :: bs => (cmp a b).then (compareLists cmp as bs)

namespace Literal

def rank : Literal → Nat
  | int _ => 0
  | str _ => 1
  | bool _ => 2
  | none => 3

def compare : Literal → Literal → Ordering
  | int a, int b => Ord.compare a.toInt b.toInt
  | str a, str b => Ord.compare a b
  | bool a, bool b => Ord.compare a b
  | a, b => Ord.compare a.rank b.rank

end Literal

namespace TypeExpr

def rank : TypeExpr → Nat
  | any => 0
  | none => 1
  | builtin _ => 2
  | named _ => 3
  | list _ => 4
  | set _ => 5
  | dict _ _ => 6
  | tuple _ => 7
  | union _ => 8
  | someClass => 9
  | classOf _ => 10
  | literal _ => 11
  | anonymous _ => 12

mutual

def compare : TypeExpr → TypeExpr → Ordering
  | builtin a, builtin b => Ord.compare a.rank b.rank
  | named a, named b => Ord.compare a b
  | list a, list b => compare a b
  | set a, set b => compare a b
  | dict a c, dict b d => (compare a b).then (compare c d)
  | tuple as, tuple bs => compareAll as bs
  | union as, union bs => compareAll as bs
  | classOf a, classOf b => compare a b
  | literal as, literal bs => compareLists Literal.compare as bs
  | anonymous a, anonymous b => Ord.compare a b
  | a, b => Ord.compare a.rank b.rank

def compareAll : List TypeExpr → List TypeExpr → Ordering
  | [], [] => .eq
  | [], _ :: _ => .lt
  | _ :: _, [] => .gt
  | a :: as, b :: bs => (compare a b).then (compareAll as bs)

end

end TypeExpr
end Callable
