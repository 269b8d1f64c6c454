import Callable.Json.Pointer
import Callable.Schema
import Mathlib.Data.List.Basic

/-!
What a schema document says of a value, for the keywords of the published document: each keyword of a
schema is judged apart, and a value is valid if it passes all of them. References are followed into the
document, so judging goes to a depth that bounds the number of schemas inside each other; below it there
is no verdict, and there is none for a keyword that is not known here.
-/
namespace Callable.Validation

def annotations : List String := ["$schema", "$id", "$defs", "title", "description"]

/-- Whether a value is of the type of a name. Numbers without a fraction are integers. -/
def isOfType (name : String) : Json → Bool
  | .null => name = "null"
  | .bool _ => name = "boolean"
  | .int _ => name = "number" ∨ name = "integer"
  | .float x =>
    name = "number" ∨ name = "integer" ∧ x.mantissa % Decimal.pow2 (-x.exponent).toNat = 0
  | .str _ => name = "string"
  | .arr _ => name = "array"
  | .obj _ => name = "object"

/-- Whether all verdicts are favourable, if all are known. -/
def all : List (Option Bool) → Option Bool
  | [] => some true
  | verdict :: rest => do return (← verdict) && (← all rest)

def favourable : List (Option Bool) → Option Nat
  | [] => some 0
  | verdict :: rest => do return (if ← verdict then 1 else 0) + (← favourable rest)

def resolve? (document : Json) (reference : String) : Option Json :=
  match reference.toList with
  | '#' :: pointer => document.pointed? (String.ofList pointer)
  | _ => none

/-- The schemas of a schema for members by their names. -/
def propertiesOf (schema : List (String × Json)) : List (String × Json) :=
  match schema.lookup "properties" with
  | some (.obj properties) => properties
  | _ => []

theorem all_map {α : Type} {verdict : α → Option Bool} {holds : α → Bool} {items : List α}
    (h : ∀ item ∈ items, verdict item = some (holds item)) :
    all (items.map verdict) = some (items.all holds) := by
  induction items with
  | nil => rfl
  | cons item rest ih =>
    obtain ⟨hitem, hrest⟩ := List.forall_mem_cons.mp h
    rw [List.map_cons, all, hitem, ih hrest]
    rfl

theorem all_singleton (verdict : Option Bool) : all [verdict] = verdict := by
  cases verdict with
  | none => rfl
  | some b => exact congrArg some (Bool.and_true b)

theorem all_pair (first : Bool) (verdict : Option Bool) :
    all [some first, verdict] = verdict.map fun second => first && second := by
  cases verdict with
  | none => rfl
  | some second => exact congrArg (fun second => some (first && second)) (Bool.and_true second)

theorem all_append {left right : List (Option Bool)} {a b : Bool} (hleft : all left = some a)
    (hright : all right = some b) : all (left ++ right) = some (a && b) := by
  induction left generalizing a with
  | nil =>
    cases hleft
    exact hright
  | cons verdict rest ih =>
    obtain ⟨first, hfirst, hrest⟩ := Option.bind_eq_some_iff.mp hleft
    obtain ⟨others, hothers, heq⟩ := Option.bind_eq_some_iff.mp hrest
    cases heq
    rw [List.cons_append, all, hfirst, ih hothers, Bool.and_assoc]
    rfl

section Keywords

variable (judge : Json → Json → Option Bool)

/-- Members that have a schema of their own are judged by it. -/
def judgeProperties (properties : List (String × Json)) : Json → Option Bool
  | .obj members => all (members.map fun member =>
      match properties.lookup member.1 with
      | some schema => judge schema member.2
      | none => some true)
  | _ => some true

def judgeOthers (properties : List (String × Json)) (schema : Json) : Json → Option Bool
  | .obj members => all (members.map fun member =>
      match properties.lookup member.1 with
      | some _ => some true
      | none => judge schema member.2)
  | _ => some true

def judgeItems (schema : Json) : Json → Option Bool
  | .arr items => all (items.map (judge schema))
  | _ => some true

def judgeRequired (names : List Json) : Json → Option Bool
  | .obj members => all (names.map fun name =>
      match name with
      | .str name => some (members.lookup name).isSome
      | _ => none)
  | _ => some true

def hasLength (least : Int) : Json → Bool
  | .str s => least ≤ s.length
  | _ => true

/-- The verdict of one keyword of a schema, given how values are judged by other schemas. -/
def judgeKeyword (document : Json) (schema : List (String × Json)) (value : Json) :
    String → Json → Option Bool
  | "type", .str name => some (isOfType name value)
  | "minLength", .int least => some (hasLength least value)
  | "required", .arr names => judgeRequired names value
  | "properties", .obj properties => judgeProperties judge properties value
  | "additionalProperties", others => judgeOthers judge (propertiesOf schema) others value
  | "items", items => judgeItems judge items value
  | "oneOf", .arr schemas =>
    (favourable (schemas.map fun schema => judge schema value)).map fun n => n = 1
  | "$ref", .str reference => (resolve? document reference).bind fun schema => judge schema value
  | name, _ => if name ∈ annotations then some true else none

end Keywords

/-- The verdict of a schema within a document on a value, to a depth. -/
def judge (document : Json) : Nat → Json → Json → Option Bool
  | 0, _, _ => none
  | depth + 1, schema, value =>
    match schema with
    | .bool verdict => some verdict
    | .obj keywords => all (keywords.map fun keyword =>
        judgeKeyword (judge document depth) document keywords value keyword.1 keyword.2)
    | _ => none

/-- The schema has this verdict on every value, from some depth on. -/
def Judges (document schema : Json) (verdict : Json → Bool) : Prop :=
  ∃ least, ∀ depth, least ≤ depth → ∀ value, judge document depth schema value = some (verdict value)

def Accepts (document value : Json) : Prop :=
  ∃ least, ∀ depth, least ≤ depth → judge document depth document value = some true

theorem accepts_iff {document : Json} {verdict : Json → Bool} (h : Judges document document verdict)
    (value : Json) : Accepts document value ↔ verdict value = true := by
  obtain ⟨least, hjudge⟩ := h
  constructor
  · rintro ⟨other, haccepts⟩
    have htrue := haccepts (max least other) (Nat.le_max_right _ _)
    rw [hjudge _ (Nat.le_max_left _ _)] at htrue
    exact Option.some.inj htrue
  · intro htrue
    exact ⟨least, fun depth hdepth => by rw [hjudge depth hdepth, htrue]⟩

end Callable.Validation
