import Callable.Proofs.Reference.Shaping
import Callable.Proofs.Registry.Run
import Mathlib.Data.List.Forall2
import Mathlib.Data.List.Nodup

/-!
What shapes tell of `None`. A program that reads a shape finds out from it whether the type admits `None`,
although a union has no one place for it: beside literals `None` is a flag of theirs, and a literal can list
it as well. The flags of enumerations are right whatever the order of the members, and enumerations and
unions are never written in two ways.
-/
namespace Callable

/-- The type is `None`, lists it or has a member that admits it. -/
inductive TypeExpr.AdmitsNone : TypeExpr → Prop
  | none : AdmitsNone .none
  | literal {values : List Literal} : Literal.none ∈ values → AdmitsNone (.literal values)
  | union {types : List TypeExpr} {type : TypeExpr} : type ∈ types → AdmitsNone type →
      AdmitsNone (.union types)

namespace TypeExpr

theorem admitsNone_literal_iff (values : List Literal) :
    (literal values).AdmitsNone ↔ Literal.none ∈ values := by
  constructor
  · rintro ⟨⟩
    assumption
  · exact .literal

theorem admitsNone_union_iff (types : List TypeExpr) :
    (union types).AdmitsNone ↔ ∃ type ∈ types, type.AdmitsNone := by
  constructor
  · rintro (_ | _ | ⟨htype, hnone⟩)
    exact ⟨_, htype, hnone⟩
  · rintro ⟨type, htype, hnone⟩
    exact .union htype hnone

theorem admitsNone_iff_members (type : TypeExpr) :
    type.AdmitsNone ↔ ∃ member ∈ type.members, member.AdmitsNone := by
  by_cases hu : type.IsUnion
  · obtain ⟨types, rfl⟩ := hu
    exact admitsNone_union_iff types
  · rw [members_of_not_isUnion type hu]
    exact ⟨fun h => ⟨type, List.mem_singleton_self type, h⟩,
      fun ⟨member, hmember, h⟩ => List.mem_singleton.mp hmember ▸ h⟩

theorem admitsNone_join_iff (types : List TypeExpr) :
    (join types).AdmitsNone ↔ ∃ type ∈ types, type.AdmitsNone := by
  have hkept : (∃ member ∈ addNew [] (types.flatMap members), member.AdmitsNone) ↔
      ∃ type ∈ types, type.AdmitsNone := by
    simp only [mem_addNew, List.not_mem_nil, false_or, List.mem_flatMap]
    constructor
    · rintro ⟨member, ⟨type, htype, hmember⟩, hnone⟩
      exact ⟨type, htype, (admitsNone_iff_members type).mpr ⟨member, hmember, hnone⟩⟩
    · rintro ⟨type, htype, hnone⟩
      obtain ⟨member, hmember, hnone⟩ := (admitsNone_iff_members type).mp hnone
      exact ⟨member, ⟨type, htype, hmember⟩, hnone⟩
  rw [← hkept]
  unfold join
  split
  · rename_i single heq
    rw [heq]
    simp
  · exact admitsNone_union_iff _

theorem admitsNone_normalize_iff (type : TypeExpr) :
    type.normalize.AdmitsNone ↔ type.AdmitsNone := by
  induction type with
  | literal values =>
    rw [normalize, admitsNone_literal_iff, admitsNone_literal_iff, mem_addNew]
    simp
  | union types ih =>
    rw [normalize_union, admitsNone_join_iff, admitsNone_union_iff]
    simp only [List.mem_map, exists_exists_and_eq_and]
    exact exists_congr fun type => and_congr_right fun htype => ih type htype
  | list | set | dict | tuple | classOf => exact iff_of_false (by rintro ⟨⟩) (by rintro ⟨⟩)
  | _ => exact Iff.rfl

end TypeExpr

namespace Shape

/-- The second value is a shape in the first. -/
inductive Part : Json → Json → Prop
  | items {shape part : Json} : shape.member? "type" = some (.str "array") →
      shape.member? "items" = some part → Part shape part
  | keys {shape part : Json} : shape.member? "type" = some (.str "object") →
      shape.member? "keys" = some part → Part shape part
  | values {shape part : Json} : shape.member? "type" = some (.str "object") →
      shape.member? "values" = some part → Part shape part
  | value {shape part : Json} : shape.member? "type" = some (.str "type") →
      shape.member? "value" = some part → Part shape part
  | allOf {shape part : Json} {parts : List Json} : shape.member? "allOf" = some (.arr parts) →
      part ∈ parts → Part shape part
  | anyOf {shape part : Json} {parts : List Json} : shape.member? "anyOf" = some (.arr parts) →
      part ∈ parts → Part shape part

/-- The shapes in a shape at every depth, the shape itself among them. -/
inductive Node : Json → Json → Prop
  | self (shape : Json) : Node shape shape
  | inside {shape part node : Json} : Part shape part → Node part node → Node shape node

/-- The shape is that of `None`, is flagged as nullable or has an alternative that admits null. -/
inductive AdmitsNull : Json → Prop
  | none : AdmitsNull (.str "None")
  | nullable {shape : Json} : shape.member? "type" = some (.str "enum") →
      shape.member? "nullable" = some (.bool true) → AdmitsNull shape
  | anyOf {shape part : Json} {parts : List Json} : shape.member? "anyOf" = some (.arr parts) →
      part ∈ parts → AdmitsNull part → AdmitsNull shape

theorem admitsNull_iff (shape : Json) : AdmitsNull shape ↔ shape = .str "None" ∨
    (shape.member? "type" = some (.str "enum") ∧ shape.member? "nullable" = some (.bool true)) ∨
    ∃ parts, shape.member? "anyOf" = some (.arr parts) ∧ ∃ part ∈ parts, AdmitsNull part := by
  constructor
  · intro hnull
    cases hnull with
    | none => exact Or.inl rfl
    | nullable htype hflag => exact Or.inr (Or.inl ⟨htype, hflag⟩)
    | anyOf hparts hpart hnull => exact Or.inr (Or.inr ⟨_, hparts, _, hpart, hnull⟩)
  · rintro (rfl | ⟨htype, hflag⟩ | ⟨parts, hparts, part, hpart, hnull⟩)
    · exact .none
    · exact .nullable htype hflag
    · exact .anyOf hparts hpart hnull

/-- Enumerations list distinct values other than null with as many keys; alternatives are not one, and
have no alternatives themselves. -/
structure IsPlain (node : Json) : Prop where
  enumeration : node.member? "type" = some (.str "enum") → ∃ values keys,
    node.member? "values" = some (.arr values) ∧ node.member? "keys" = some (.arr keys) ∧
      .null ∉ values ∧ values.Nodup ∧ values.length = keys.length
  alternatives : ∀ parts, node.member? "anyOf" = some (.arr parts) →
    parts.length ≠ 1 ∧ ∀ part ∈ parts, part.member? "anyOf" = none

/-- The shapes that a shape is made of. -/
def parts : Shape → List Shape
  | leaf _ => []
  | array items _ => [items]
  | object keys values => [keys, values]
  | allOf items => items
  | anyOf members => members
  | classOf value => [value]
  | enumeration _ _ => []

/-- Shapes with parts that are no alternatives. -/
def IsStructure : Shape → Prop
  | array _ _ | object _ _ | allOf _ | classOf _ => True
  | _ => False

theorem toJsonAll_eq_map (shapes : List Shape) : toJsonAll shapes = shapes.map toJson := by
  induction shapes with
  | nil => rfl
  | cons shape rest ih => rw [toJsonAll, ih, List.map_cons]

theorem member?_cons (name key : String) (value : Json) (rest : List (String × Json)) :
    (Json.obj ((key, value) :: rest)).member? name =
      if name = key then some value else (Json.obj rest).member? name :=
  lookup_cons_eq_ite key name value rest

theorem member?_nil (name : String) : (Json.obj []).member? name = none := rfl

theorem member?_str (name text : String) : (Json.str text).member? name = none := rfl

/-- In the JSON of a shape, the shapes are the JSON of its parts. -/
theorem exists_part_of_part {shape : Shape} {json : Json} (h : Part shape.toJson json) :
    ∃ part ∈ shape.parts, part.toJson = json := by
  cases h with
  | items htype hpart | keys htype hpart | values htype hpart | value htype hpart =>
    cases shape <;> simp_all [toJson, member?_cons, member?_nil, member?_str, parts]
  | allOf hparts hpart | anyOf hparts hpart =>
    cases shape <;> simp only [toJson, member?_cons, member?_nil, member?_str, String.reduceEq,
      if_true, if_false, reduceCtorEq, toJsonAll_eq_map, Option.some.injEq, Json.arr.injEq] at hparts
    subst hparts
    exact List.mem_map.mp hpart

/-- What holds of a shape and of all nodes of its parts holds of all its nodes. -/
theorem forall_node {P : Json → Prop} {shape : Shape} (hself : P shape.toJson)
    (hparts : ∀ part ∈ shape.parts, ∀ node, Node part.toJson node → P node) :
    ∀ node, Node shape.toJson node → P node := by
  intro node hnode
  cases hnode with
  | self => exact hself
  | inside hpart hnode =>
    obtain ⟨part, hmem, rfl⟩ := exists_part_of_part hpart
    exact hparts part hmem node hnode

/-- The shape tells of its type what it has to tell, at every depth. -/
structure Tells (type : TypeExpr) (shape : Shape) : Prop where
  admitsNull_iff : AdmitsNull shape.toJson ↔ type.AdmitsNone
  isPlain : ∀ node, Node shape.toJson node → IsPlain node
  isUnion : shape.toJson.member? "anyOf" ≠ none → type.IsUnion

section OneNode

variable {type : TypeExpr}

theorem tells_leaf {name : String} (h : name = "None" ↔ type.AdmitsNone) : Tells type (leaf name) where
  admitsNull_iff := by
    rw [← h, admitsNull_iff]
    constructor
    · rintro (hname | ⟨htype, -⟩ | ⟨_, hparts, -⟩)
      · exact Json.str.inj hname
      · cases htype
      · cases hparts
    · rintro rfl
      exact Or.inl rfl
  isPlain := by
    refine forall_node ⟨?_, ?_⟩ fun _ hpart => by cases hpart
    · rintro ⟨⟩
    · rintro _ ⟨⟩
  isUnion h := absurd rfl h

/-- Nodes that are neither enumerations nor alternatives tell nothing of `None`. -/
theorem tells_structure {shape : Shape} (hshape : shape.IsStructure) (htype : ¬ type.AdmitsNone)
    (hparts : ∀ part ∈ shape.parts, ∃ type, Tells type part) : Tells type shape := by
  have hkind : shape.toJson ≠ .str "None" ∧ shape.toJson.member? "type" ≠ some (.str "enum") ∧
      shape.toJson.member? "anyOf" = none := by
    cases shape <;> first | exact hshape.elim | simp [toJson, member?_cons, member?_nil]
  obtain ⟨hname, hvalues, halternatives⟩ := hkind
  refine ⟨iff_of_false (fun hnull => ?_) htype, forall_node ⟨?_, ?_⟩ ?_, fun h => absurd halternatives h⟩
  · rcases (admitsNull_iff _).mp hnull with hnone | ⟨henum, -⟩ | ⟨_, hmembers, -⟩
    · exact hname hnone
    · exact hvalues henum
    · exact absurd (halternatives.symm.trans hmembers) (by rintro ⟨⟩)
  · exact fun henum => absurd henum hvalues
  · exact fun parts hmembers => absurd (halternatives.symm.trans hmembers) (by rintro ⟨⟩)
  · intro part hpart
    obtain ⟨_, htells⟩ := hparts part hpart
    exact htells.isPlain

theorem toJson_injective : Function.Injective Literal.toJson := by
  intro v w h
  cases v <;> cases w <;> simp_all [Literal.toJson, Int64.toInt_inj]

theorem admitsNull_ofLiterals_iff (values : List Literal) (nullable : Bool) :
    AdmitsNull (ofLiterals values nullable).toJson ↔ nullable = true ∨ Literal.none ∈ values := by
  have hflag : (ofLiterals values nullable).toJson.member? "nullable" =
      some (.bool (nullable || values.contains .none)) := rfl
  have hflagged : (nullable || values.contains .none) = true ↔ nullable = true ∨ Literal.none ∈ values := by
    rw [Bool.or_eq_true, List.contains_iff_mem]
  rw [← hflagged]
  constructor
  · intro hnull
    rcases (admitsNull_iff _).mp hnull with hname | ⟨-, hnullable⟩ | ⟨_, hmembers, -⟩
    · cases hname
    · exact Json.bool.inj (Option.some.inj (hflag.symm.trans hnullable))
    · cases hmembers
  · intro hnullable
    rw [hnullable] at hflag
    exact .nullable rfl hflag

theorem isPlain_ofLiterals {values : List Literal} (hvalues : values.Nodup) (nullable : Bool) :
    ∀ node, Node (ofLiterals values nullable).toJson node → IsPlain node := by
  refine forall_node ⟨fun _ => ⟨_, _, rfl, rfl, ?_, ?_, ?_⟩, ?_⟩ fun _ hpart => by cases hpart
  · intro hnull
    obtain ⟨value, hvalue, hjson⟩ := List.mem_map.mp hnull
    have hother : value ≠ .none := by simpa using (List.mem_filter.mp hvalue).2
    cases value with
    | none => exact hother rfl
    | _ => cases hjson
  · exact List.Nodup.map toJson_injective (hvalues.filter _)
  · rw [List.length_map, List.length_map]
  · rintro _ ⟨⟩

theorem tells_ofLiterals {values : List Literal} (hvalues : values.Nodup) {nullable : Bool}
    (htype : (nullable = true ∨ Literal.none ∈ values) ↔ type.AdmitsNone) :
    Tells type (ofLiterals values nullable) where
  admitsNull_iff := (admitsNull_ofLiterals_iff values nullable).trans htype
  isPlain := isPlain_ofLiterals hvalues nullable
  isUnion h := absurd rfl h

end OneNode

section OfType

variable {limits : Reference.Limits} {scope : Scope} {depth : Nat}

/-- What stands in the second of two lists that are related item by item has its counterpart in the first. -/
theorem exists_left {α β : Type} {R : α → β → Prop} {as : List α} {bs : List β}
    (h : List.Forall₂ R as bs) {b : β} (hb : b ∈ bs) : ∃ a ∈ as, R a b := by
  induction h with
  | nil => cases hb
  | @cons a b' as bs hab _ ih =>
    rcases List.mem_cons.mp hb with rfl | hrest
    · exact ⟨a, List.mem_cons_self, hab⟩
    · obtain ⟨a', ha', hab'⟩ := ih hrest
      exact ⟨a', List.mem_cons_of_mem a ha', hab'⟩

theorem ofItems_eq_ok {items : List TypeExpr} {shapes : List Shape}
    (h : ofItems limits scope depth items = .ok shapes) :
    List.Forall₂ (fun item shape => ofNormal limits scope depth item = .ok shape) items shapes := by
  induction items generalizing shapes with
  | nil =>
    cases h
    exact .nil
  | cons item rest ih =>
    obtain ⟨shape, hshape, h⟩ := Reference.exists_of_bind_eq_ok h
    obtain ⟨more, hmore, h⟩ := Reference.exists_of_bind_eq_ok h
    cases h
    exact .cons hshape (ih hmore)

/-- A literal among the members of a union gets the flag of the union. -/
theorem ofMembers_eq_ok {nullable : Bool} {members : List TypeExpr} {shapes : List Shape}
    (h : ofMembers limits scope depth nullable members = .ok shapes) :
    List.Forall₂ (fun member shape =>
      (∃ values, member = .literal values ∧ shape = ofLiterals values nullable) ∨
        ofNormal limits scope depth member = .ok shape ∧ ∀ values, member ≠ .literal values)
      members shapes := by
  induction members generalizing shapes with
  | nil =>
    cases h
    exact .nil
  | cons member rest ih =>
    unfold ofMembers at h
    split at h
    · cases ‹_ = []›
    · rename_i values _ heq
      obtain ⟨rfl, rfl⟩ := List.cons.inj heq
      obtain ⟨more, hmore, h⟩ := Reference.exists_of_bind_eq_ok h
      cases h
      exact .cons (Or.inl ⟨values, rfl, rfl⟩) (ih hmore)
    · rename_i hother heq
      obtain ⟨rfl, rfl⟩ := List.cons.inj heq
      obtain ⟨shape, hshape, h⟩ := Reference.exists_of_bind_eq_ok h
      obtain ⟨more, hmore, h⟩ := Reference.exists_of_bind_eq_ok h
      cases h
      exact .cons (Or.inr ⟨hshape, hother⟩) (ih hmore)

/-- A literal and `None` make one enumeration together; else the members are alternatives. -/
theorem ofNormal_union_eq_ok {members : List TypeExpr} {shape : Shape}
    (h : ofNormal limits scope depth (.union members) = .ok shape) :
    (∃ values, (members = [.literal values, .none] ∨ members = [.none, .literal values]) ∧
      shape = ofLiterals values true) ∨
    ∃ shapes, ofMembers limits scope (depth + 1) (members.contains .none) members = .ok shapes ∧
      shape = .anyOf shapes := by
  by_cases hoptional : IsOptionalLiteral members
  · obtain ⟨values, heq⟩ := hoptional
    refine Or.inl ⟨values, heq, ?_⟩
    rcases heq with rfl | rfl
    all_goals
      rw [ofNormal] at h
      obtain ⟨-, -, h⟩ := Reference.exists_of_bind_eq_ok h
      cases h
      rfl
  · right
    rw [ofNormal] at h
    · obtain ⟨-, -, h⟩ := Reference.exists_of_bind_eq_ok h
      obtain ⟨shapes, hshapes, h⟩ := Reference.exists_of_bind_eq_ok h
      cases h
      exact ⟨shapes, hshapes, rfl⟩
    · exact fun values heq => hoptional ⟨values, Or.inl heq⟩
    · exact fun values heq => hoptional ⟨values, Or.inr heq⟩

/-- What a shape among alternatives tells of a member of a union that has the flag. -/
structure TellsMember (nullable : Bool) (member : TypeExpr) (shape : Shape) : Prop where
  admitsNull : member.AdmitsNone → AdmitsNull shape.toJson
  of_admitsNull : AdmitsNull shape.toJson → nullable = true ∨ member.AdmitsNone
  isPlain : ∀ node, Node shape.toJson node → IsPlain node
  isUnion : shape.toJson.member? "anyOf" ≠ none → member.IsUnion

theorem Tells.member {type : TypeExpr} {shape : Shape} (h : Tells type shape) (nullable : Bool) :
    TellsMember nullable type shape :=
  ⟨h.admitsNull_iff.mpr, fun hnull => Or.inr (h.admitsNull_iff.mp hnull), h.isPlain, h.isUnion⟩

theorem tellsMember_ofLiterals {values : List Literal} (hvalues : values.Nodup) (nullable : Bool) :
    TellsMember nullable (.literal values) (ofLiterals values nullable) := by
  have hnull := admitsNull_ofLiterals_iff values nullable
  rw [← TypeExpr.admitsNone_literal_iff] at hnull
  exact ⟨fun h => hnull.mpr (Or.inr h), hnull.mp, isPlain_ofLiterals hvalues nullable,
    fun h => absurd rfl h⟩

/-- Alternatives tell of a union what they tell of its members, and the flag tells of the union itself. -/
theorem tells_anyOf {members : List TypeExpr} {shapes : List Shape} (hnormal : (TypeExpr.union members).IsNormal)
    (h : List.Forall₂ (TellsMember (members.contains .none)) members shapes) :
    Tells (.union members) (anyOf shapes) := by
  obtain ⟨-, hflat, -, hsingle⟩ := (TypeExpr.isNormal_union_iff members).mp hnormal
  have hjson : (anyOf shapes).toJson.member? "anyOf" = some (.arr (shapes.map toJson)) := by
    rw [← toJsonAll_eq_map]
    rfl
  refine ⟨⟨fun hnull => ?_, fun hadmits => ?_⟩, forall_node ⟨?_, fun parts hparts => ?_⟩ ?_,
    fun _ => ⟨members, rfl⟩⟩
  · rcases (admitsNull_iff _).mp hnull with hname | ⟨htype, -⟩ | ⟨parts, hparts, part, hpart, hnull⟩
    · cases hname
    · cases htype
    · cases hparts.symm.trans hjson
      obtain ⟨shape, hshape, rfl⟩ := List.mem_map.mp hpart
      obtain ⟨member, hmember, htells⟩ := exists_left h hshape
      rcases htells.of_admitsNull hnull with hflag | hadmits
      · exact .union (List.contains_iff_mem.mp hflag) .none
      · exact .union hmember hadmits
  · obtain ⟨member, hmember, hadmits⟩ := (TypeExpr.admitsNone_union_iff members).mp hadmits
    obtain ⟨shape, hshape, htells⟩ := exists_left (List.Forall₂.flip h) hmember
    exact .anyOf hjson (List.mem_map_of_mem hshape) (htells.admitsNull hadmits)
  · rintro ⟨⟩
  · cases hparts.symm.trans hjson
    refine ⟨by rw [List.length_map, ← h.length_eq]; exact hsingle, List.forall_mem_map.mpr ?_⟩
    intro shape hshape
    obtain ⟨member, hmember, htells⟩ := exists_left h hshape
    by_contra halternatives
    exact hflat member hmember (htells.isUnion halternatives)
  · intro shape hshape
    obtain ⟨member, -, htells⟩ := exists_left h hshape
    exact htells.isPlain

/-- What the shape of a normal type tells, where no type is written as `None`. -/
theorem tells_ofNormal (hnames : ∀ path name, scope.nameOf (.named path) = some name → name ≠ "None")
    {type : TypeExpr} (hnormal : type.IsNormal) {shape : Shape}
    (h : ofNormal limits scope depth type = .ok shape) : Tells type shape := by
  induction type generalizing depth shape with
  | any =>
    cases h
    exact tells_leaf (iff_of_false (by decide) (by rintro ⟨⟩))
  | none =>
    cases h
    exact tells_leaf (iff_of_true rfl .none)
  | builtin b =>
    cases h
    exact tells_leaf (iff_of_false (by cases b <;> decide) (by rintro ⟨⟩))
  | named path =>
    rw [ofNormal] at h
    split at h
    · rename_i name hname
      cases h
      exact tells_leaf (iff_of_false (hnames path name hname) (by rintro ⟨⟩))
    · cases h
  | anonymous hint => cases h
  | list item ih | set item ih | classOf item ih =>
    rw [ofNormal] at h
    obtain ⟨-, -, h⟩ := Reference.exists_of_bind_eq_ok h
    obtain ⟨inner, hinner, h⟩ := Reference.exists_of_bind_eq_ok h
    cases h
    refine tells_structure trivial (by rintro ⟨⟩) ?_
    exact List.forall_mem_singleton.mpr ⟨item, ih hnormal hinner⟩
  | dict key value hkey hvalue =>
    rw [ofNormal] at h
    obtain ⟨-, -, h⟩ := Reference.exists_of_bind_eq_ok h
    obtain ⟨keys, hkeys, h⟩ := Reference.exists_of_bind_eq_ok h
    obtain ⟨values, hvalues, h⟩ := Reference.exists_of_bind_eq_ok h
    cases h
    refine tells_structure trivial (by rintro ⟨⟩) ?_
    exact List.forall_mem_cons.mpr ⟨⟨key, hkey hnormal.1 hkeys⟩,
      List.forall_mem_singleton.mpr ⟨value, hvalue hnormal.2 hvalues⟩⟩
  | tuple items ih =>
    rw [ofNormal] at h
    obtain ⟨-, -, h⟩ := Reference.exists_of_bind_eq_ok h
    obtain ⟨shapes, hshapes, h⟩ := Reference.exists_of_bind_eq_ok h
    cases h
    refine tells_structure trivial (by rintro ⟨⟩) fun part hpart => ?_
    obtain ⟨item, hitem, hshape⟩ := exists_left (ofItems_eq_ok hshapes) hpart
    exact ⟨item, ih item hitem ((TypeExpr.isNormal_tuple_iff items).mp hnormal item hitem) hshape⟩
  | someClass =>
    rw [ofNormal] at h
    obtain ⟨-, -, h⟩ := Reference.exists_of_bind_eq_ok h
    cases h
    refine tells_structure trivial (by rintro ⟨⟩) ?_
    exact List.forall_mem_singleton.mpr ⟨.any, tells_leaf (iff_of_false (by decide) (by rintro ⟨⟩))⟩
  | literal values =>
    rw [ofNormal] at h
    obtain ⟨-, -, h⟩ := Reference.exists_of_bind_eq_ok h
    cases h
    refine tells_ofLiterals hnormal ?_
    rw [TypeExpr.admitsNone_literal_iff, or_iff_right Bool.false_ne_true]
  | union members ih =>
    rcases ofNormal_union_eq_ok h with ⟨values, heq, rfl⟩ | ⟨shapes, hshapes, rfl⟩
    · have hnone : (TypeExpr.union members).AdmitsNone := by
        refine .union ?_ .none
        rcases heq with rfl | rfl <;> simp
      refine tells_ofLiterals ?_ (iff_of_true (Or.inl rfl) hnone)
      have hvalues : (TypeExpr.literal values).IsNormal := by
        refine ((TypeExpr.isNormal_union_iff members).mp hnormal).1 _ ?_
        rcases heq with rfl | rfl <;> simp
      exact hvalues
    · have hmembers := ((TypeExpr.isNormal_union_iff members).mp hnormal).1
      have hall := (List.forall₂_and_left _ _).mpr ⟨fun member hmember => hmember, ofMembers_eq_ok hshapes⟩
      refine tells_anyOf hnormal (hall.imp fun member shape hboth => ?_)
      obtain ⟨hmember, ⟨values, rfl, rfl⟩ | ⟨hshape, -⟩⟩ := hboth
      · exact tellsMember_ofLiterals (hmembers _ hmember) _
      · exact (ih member hmember (hmembers member hmember) hshape).member _

end OfType

/-- The shape of a type admits null exactly if the type admits `None`; and at every depth enumerations list
distinct values other than null, and alternatives are not one and are flat. -/
theorem admitsNull_iff_admitsNone (r : Registry) (hr : r.Reached) (limits : Reference.Limits)
    (type : TypeExpr) {shape : Shape} (h : ofType limits r.scope type = .ok shape) :
    (AdmitsNull shape.toJson ↔ type.AdmitsNone) ∧ ∀ node, Node shape.toJson node → IsPlain node := by
  have hnames (path name : String) (hname : r.scope.nameOf (.named path) = some name) : name ≠ "None" := by
    rintro rfl
    exact (hr.resolve_of_nameOf _ "None" hname).1.not_word (by decide)
  have htells := tells_ofNormal hnames (TypeExpr.isNormal_normalize type) h
  exact ⟨htells.admitsNull_iff.trans (TypeExpr.admitsNone_normalize_iff type), htells.isPlain⟩

/-- Cells by number or keys, and of the cells some may be missing. -/
def pickType : TypeExpr :=
  .union [.list (.union [.none, .literal [.int 1, .int 1]]), .union [.literal [.str "all", .none], .named "db.Cell"]]

def pickShape : Shape :=
  .anyOf [.array (.enumeration [.int 1] true) false, .enumeration [.str "all"] true, .leaf "db.Cell"]

theorem admitsNull_iff_admitsNone_pick :
    Reference.rows.Reached ∧ ofType ⟨100, 3⟩ Reference.rows.scope pickType = .ok pickShape ∧
      pickType.AdmitsNone ∧ AdmitsNull pickShape.toJson ∧
      ∀ node, Node pickShape.toJson node → IsPlain node := by
  have hr : Reference.rows.Reached := ⟨_, _, rfl⟩
  have hshape : ofType ⟨100, 3⟩ Reference.rows.scope pickType = .ok pickShape := by rfl
  have hadmits : pickType.AdmitsNone :=
    .union (List.mem_cons_of_mem _ (List.mem_singleton_self _)) (.union List.mem_cons_self
      (.literal (List.mem_cons_of_mem _ (List.mem_singleton_self _))))
  obtain ⟨hnull, hplain⟩ := admitsNull_iff_admitsNone Reference.rows hr ⟨100, 3⟩ pickType hshape
  exact ⟨hr, hshape, hadmits, hnull.mpr hadmits, hplain⟩

end Shape
end Callable
