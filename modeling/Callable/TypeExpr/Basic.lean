import Callable.Json.Basic
/-!
Type expressions: what a parameter or result may be. Built-in types and registered names are the
leaves; lists, sets, dictionaries, tuples, unions and classes are built from other expressions; a
literal lists the values it admits. An anonymous type has no name by which it could be written.
-/
namespace Callable

inductive Builtin where
  | int | float | str | bool | bytes | bytearray | complex | frozenset | memoryview | range
  | slice | list | dict | tuple | set | type
  deriving DecidableEq, Repr, Inhabited

namespace Builtin

def all : List Builtin :=
  [int, float, str, bool, bytes, bytearray, complex, frozenset, memoryview, range, slice, list,
    dict, tuple, set, type]

def name : Builtin → String
  | int => "int"
  | float => "float"
  | str => "str"
  | bool => "bool"
  | bytes => "bytes"
  | bytearray => "bytearray"
  | complex => "complex"
  | frozenset => "frozenset"
  | memoryview => "memoryview"
  | range => "range"
  | slice => "slice"
  | list => "list"
  | dict => "dict"
  | tuple => "tuple"
  | set => "set"
  | type => "type"

def ofName? (name : String) : Option Builtin := all.find? (·.name == name)

end Builtin

/-- A value that a literal type lists. -/
inductive Literal where
  | int (n : Int64)
  | str (s : String)
  | bool (b : Bool)
  | none
  deriving DecidableEq, Repr, Inhabited

namespace Literal

def toJson : Literal → Json
  | int n => .int n.toInt
  | str s => .str s
  | bool b => .bool b
  | none => .null

/-- The name under which the value is shown. -/
def key : Literal → String
  | int n => toString n.toInt
  | str s => s
  | bool true => "True"
  | bool false => "False"
  | none => "None"

end Literal

inductive TypeExpr where
  | any
  | none
  | builtin (b : Builtin)
  | named (path : String)
  | list (item : TypeExpr)
  | set (item : TypeExpr)
  | dict (key value : TypeExpr)
  | tuple (items : List TypeExpr)
  | union (members : List TypeExpr)
  /-- Some class. -/
  | someClass
  /-- The class of a type, or a class below it. -/
  | classOf (type : TypeExpr)
  | literal (values : List Literal)
  | anonymous (hint : String)
  deriving Repr, Inhabited

namespace TypeExpr

/-- Induction that supposes the property of all parts of an expression at once. -/
@[induction_eliminator]
theorem induct {motive : TypeExpr → Prop} (any : motive .any) (none : motive .none)
    (builtin : ∀ b, motive (.builtin b)) (named : ∀ path, motive (.named path))
    (list : ∀ item, motive item → motive (.list item))
    (set : ∀ item, motive item → motive (.set item))
    (dict : ∀ key value, motive key → motive value → motive (.dict key value))
    (tuple : ∀ items, (∀ item ∈ items, motive item) → motive (.tuple items))
    (union : ∀ members, (∀ member ∈ members, motive member) → motive (.union members))
    (someClass : motive .someClass) (classOf : ∀ type, motive type → motive (.classOf type))
    (literal : ∀ values, motive (.literal values)) (anonymous : ∀ hint, motive (.anonymous hint))
    (type : TypeExpr) : motive type :=
  @TypeExpr.rec motive (fun types => ∀ t ∈ types, motive t) any none builtin named list set dict
    tuple union someClass classOf literal anonymous (fun _ h => nomatch h)
    (fun _ _ head tail => List.forall_mem_cons.mpr ⟨head, tail⟩) type

mutual

/-- Structural equality, decided. -/
def beq : TypeExpr → TypeExpr → Bool
  | any, any => true
  | none, none => true
  | builtin a, builtin b => a == b
  | named a, named b => a == b
  | list a, list b => beq a b
  | set a, set b => beq a b
  | dict a c, dict b d => beq a b && beq c d
  | tuple as, tuple bs => beqAll as bs
  | union as, union bs => beqAll as bs
  | someClass, someClass => true
  | classOf a, classOf b => beq a b
  | literal a, literal b => a == b
  | anonymous a, anonymous b => a == b
  | _, _ => false

def beqAll : List TypeExpr → List TypeExpr → Bool
  | [], [] => true
  | a :: as, b :: bs => beq a b && beqAll as bs
  | _, _ => false

end

mutual

theorem eq_of_beq {a b : TypeExpr} (h : beq a b = true) : a = b := by
  cases a <;> cases b <;> simp [beq] at h ⊢
  all_goals first
    | exact h
    | exact eq_of_beq h
    | exact ⟨eq_of_beq h.1, eq_of_beq h.2⟩
    | exact eq_of_beqAll h

theorem eq_of_beqAll {as bs : List TypeExpr} (h : beqAll as bs = true) : as = bs := by
  cases as <;> cases bs <;> simp [beqAll] at h ⊢
  exact ⟨eq_of_beq h.1, eq_of_beqAll h.2⟩

end

mutual

theorem beq_refl (a : TypeExpr) : beq a a = true := by
  cases a <;> simp [beq]
  all_goals first
    | exact beq_refl _
    | exact ⟨beq_refl _, beq_refl _⟩
    | exact beqAll_refl _

theorem beqAll_refl (as : List TypeExpr) : beqAll as as = true := by
  cases as <;> simp [beqAll]
  exact ⟨beq_refl _, beqAll_refl _⟩

end

instance : DecidableEq TypeExpr := fun a b =>
  decidable_of_iff (beq a b = true) ⟨eq_of_beq, fun h => h ▸ beq_refl a⟩

end TypeExpr
end Callable
