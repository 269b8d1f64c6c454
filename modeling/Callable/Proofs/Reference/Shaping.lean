import Callable.Proofs.Reference.Writability
import Callable.Proofs.TypeExpr.Nesting
import Callable.Shape

/-!
Which types have shapes. The shape of a type is made of the shapes of its parts, one node further in, but
a literal among the members of a union makes no node. So making it can fail for two reasons only: too many
nodes are open, or there is a leaf that nothing stands for.
-/
namespace Callable

open TypeExpr (induct_parts)
open Reference (HasSpelling exists_bind_eq_ok_iff exists_closed_iff not_exists_error_eq_ok)

namespace Shape

def HasNode (scope : Scope) (leaf : TypeExpr) : Prop := HasSpelling scope leaf ∨ leaf.IsVoid

/-- All leaves of the type stand for something, and there is room for its nodes inside `depth` others. -/
abbrev Fits (limits : Reference.Limits) (scope : Scope) (depth : Nat) (type : TypeExpr) : Prop :=
  TypeExpr.Fits .nodes (HasNode scope) limits.maxDepth depth type

/-- A literal or nothing, the two in either order. -/
def IsOptionalLiteral (members : List TypeExpr) : Prop :=
  ∃ values, members = [.literal values, .none] ∨ members = [.none, .literal values]

/-- A literal among the members of a union, which makes no node of its own. -/
def IsMerged (type part : TypeExpr) : Prop := ∃ types values, type = .union types ∧ part = .literal values

variable {limits : Reference.Limits} {scope : Scope} {depth : Nat}

theorem hasNode_literal (values : List Literal) : HasNode scope (.literal values) := by
  by_cases hnone : values = []
  · exact Or.inr (Or.inr (congrArg _ hnone))
  · exact Or.inl (Or.inl (.literal hnone))

theorem not_hasNode_anonymous (hint : String) : ¬ HasNode scope (.anonymous hint) :=
  not_or.mpr ⟨Reference.not_hasSpelling_anonymous hint, TypeExpr.not_isVoid_anonymous hint⟩

theorem not_hasNode_named {path : String} (h : scope.nameOf (.named path) = none) :
    ¬ HasNode scope (.named path) :=
  not_or.mpr ⟨Reference.not_hasSpelling_named h, TypeExpr.not_isVoid_named path⟩

theorem exists_checkDepth_iff :
    (∃ done, checkDepth limits scope depth = .ok done) ↔ depth < limits.maxDepth := by
  unfold checkDepth
  by_cases hdeep : limits.maxDepth < depth + 1
  · rw [if_pos hdeep]
    exact iff_of_false (not_exists_error_eq_ok _ _) (by omega)
  · rw [if_neg hdeep]
    exact iff_of_true ⟨(), rfl⟩ (by omega)

/-- What stands in a node is made exactly if the node may open and the rest of it is made. -/
theorem exists_node_iff {α : Type} {inside : Except TypeError α} :
    (∃ shape, (do checkDepth limits scope depth; inside) = .ok shape) ↔
      depth < limits.maxDepth ∧ ∃ shape, inside = .ok shape := by
  rw [exists_bind_eq_ok_iff fun _ => Iff.rfl, exists_checkDepth_iff]

section Parts

variable {p : TypeExpr → Prop}

theorem exists_ofItems_iff {items : List TypeExpr}
    (h : ∀ item ∈ items, (∃ shape, ofNormal limits scope depth item = .ok shape) ↔ p item) :
    (∃ shapes, ofItems limits scope depth items = .ok shapes) ↔ ∀ item ∈ items, p item := by
  induction items with
  | nil => exact iff_of_true ⟨[], rfl⟩ (List.forall_mem_nil _)
  | cons item rest ih =>
    obtain ⟨hitem, hrest⟩ := List.forall_mem_cons.mp h
    have hmore (shape : Shape) :
        (∃ shapes, (do return shape :: (← ofItems limits scope depth rest)) = .ok shapes) ↔
          ∀ item ∈ rest, p item := by
      rw [exists_closed_iff, ih hrest]
    rw [ofItems, List.forall_mem_cons, exists_bind_eq_ok_iff hmore, hitem]

theorem exists_ofMembers_iff {members : List TypeExpr} {nullable : Bool}
    (hliteral : ∀ values, .literal values ∈ members → p (.literal values))
    (h : ∀ member ∈ members, (∀ values, member ≠ .literal values) →
      ((∃ shape, ofNormal limits scope depth member = .ok shape) ↔ p member)) :
    (∃ shapes, ofMembers limits scope depth nullable members = .ok shapes) ↔
      ∀ member ∈ members, p member := by
  induction members with
  | nil => exact iff_of_true ⟨[], rfl⟩ (List.forall_mem_nil _)
  | cons member rest ih =>
    obtain ⟨hmember, hrest⟩ := List.forall_mem_cons.mp h
    have hmore := ih (fun values hin => hliteral values (List.mem_cons_of_mem _ hin)) hrest
    rw [List.forall_mem_cons, ← hmore]
    by_cases hvalues : ∃ values, member = .literal values
    · obtain ⟨values, rfl⟩ := hvalues
      rw [ofMembers, exists_closed_iff]
      exact (and_iff_right (hliteral values List.mem_cons_self)).symm
    · have hother : ∀ values, member ≠ .literal values := not_exists.mp hvalues
      rw [ofMembers, exists_bind_eq_ok_iff fun _ => exists_closed_iff, hmember hother]
      exact hother

/-- A type with parts has a shape exactly if another node may open and the parts that make nodes of
their own have shapes in it. -/
theorem exists_ofNormal_iff_parts {type : TypeExpr} (hparts : type.parts ≠ [])
    (hmerged : depth < limits.maxDepth → ∀ part ∈ type.parts, IsMerged type part → p part)
    (h : depth < limits.maxDepth → ∀ part ∈ type.parts, ¬ IsMerged type part →
      ((∃ shape, ofNormal limits scope (depth + 1) part = .ok shape) ↔ p part)) :
    (∃ shape, ofNormal limits scope depth type = .ok shape) ↔
      depth < limits.maxDepth ∧ ∀ part ∈ type.parts, p part := by
  cases type with
  | list item | set item | classOf item =>
    rw [ofNormal, exists_node_iff]
    refine and_congr_right fun hdepth => ?_
    have hitem := h hdepth item List.mem_cons_self (by rintro ⟨_, _, ⟨⟩, _⟩)
    rw [exists_closed_iff, hitem]
    exact List.forall_mem_singleton.symm
  | dict key value =>
    rw [ofNormal, exists_node_iff]
    refine and_congr_right fun hdepth => ?_
    have hall := fun part hpart => h hdepth part hpart (by rintro ⟨_, _, ⟨⟩, _⟩)
    obtain ⟨hkey, hvalue⟩ := List.forall_mem_cons.mp hall
    have hvalue := List.forall_mem_singleton.mp hvalue
    rw [exists_bind_eq_ok_iff fun _ => exists_closed_iff, hkey, hvalue]
    exact (List.forall_mem_cons.trans (and_congr_right' List.forall_mem_singleton)).symm
  | tuple items =>
    rw [ofNormal, exists_node_iff]
    refine and_congr_right fun hdepth => ?_
    rw [exists_closed_iff]
    exact exists_ofItems_iff fun item hitem => h hdepth item hitem (by rintro ⟨_, _, ⟨⟩, _⟩)
  | union members =>
    by_cases hoptional : IsOptionalLiteral members
    -- An enumeration stands for both members here, so only the node of the union can fail.
    · obtain ⟨values, rfl | rfl⟩ := hoptional
      all_goals
        rw [ofNormal, exists_node_iff]
        refine and_congr_right fun hdepth => iff_of_true ⟨_, rfl⟩ ?_
        have hliteral := hmerged hdepth (.literal values) (by simp [TypeExpr.parts]) ⟨_, _, rfl, rfl⟩
        have hnone := (h hdepth .none (by simp [TypeExpr.parts]) (by rintro ⟨_, _, _, ⟨⟩⟩)).mp ⟨_, rfl⟩
        simp [TypeExpr.parts, hliteral, hnone]
    · rw [ofNormal, exists_node_iff]
      · refine and_congr_right fun hdepth => ?_
        rw [exists_closed_iff]
        refine exists_ofMembers_iff (fun values hin => hmerged hdepth _ hin ⟨_, _, rfl, rfl⟩) ?_
        intro member hmember hother
        refine h hdepth member hmember fun hmerged => ?_
        obtain ⟨-, values, -, heq⟩ := hmerged
        exact hother values heq
      · exact fun values heq => hoptional ⟨values, Or.inl heq⟩
      · exact fun values heq => hoptional ⟨values, Or.inr heq⟩
  | _ => exact absurd rfl hparts

end Parts

/-- A part that makes a node of its own fits in the type as it does on its own. -/
theorem fitsIn_iff_fits {type part : TypeExpr} (h : ¬ IsMerged type part) :
    TypeExpr.FitsIn .nodes (HasNode scope) limits.maxDepth depth type part ↔
      Fits limits scope depth part :=
  TypeExpr.fitsIn_iff_fits <|
    TypeExpr.nestingIn_of_ne fun types values htype hpart => h ⟨types, values, htype, hpart⟩

theorem fitsIn_of_isMerged {type part : TypeExpr} (h : IsMerged type part)
    (hdepth : depth ≤ limits.maxDepth) :
    TypeExpr.FitsIn .nodes (HasNode scope) limits.maxDepth depth type part := by
  obtain ⟨types, values, rfl, rfl⟩ := h
  refine ⟨fun leaf hleaf => ?_, hdepth⟩
  obtain rfl := hleaf.eq_of_parts rfl
  exact hasNode_literal values

/-- A type without parts has a shape exactly if it is a leaf for which something stands, and if that is
a node, where one may open. -/
theorem exists_ofNormal_iff_of_bare {type : TypeExpr} (hbare : type.parts = [])
    (hdepth : depth ≤ limits.maxDepth) :
    (∃ shape, ofNormal limits scope depth type = .ok shape) ↔ Fits limits scope depth type := by
  refine Iff.trans ?_ (TypeExpr.fits_iff_of_bare hbare).symm
  have hnode (hleaf : HasNode scope type) (hone : type.nesting .nodes = 1) {shape : Shape} :
      (∃ made, (do checkDepth limits scope depth; return shape) = .ok made) ↔
        HasNode scope type ∧ depth + type.nesting .nodes ≤ limits.maxDepth := by
    rw [exists_node_iff, hone]
    exact ⟨fun h => ⟨hleaf, h.1⟩, fun h => ⟨h.2, shape, rfl⟩⟩
  cases type with
  | list | set | classOf | dict => cases hbare
  | any => exact iff_of_true ⟨_, rfl⟩ ⟨Or.inl (Or.inl .any), hdepth⟩
  | none => exact iff_of_true ⟨_, rfl⟩ ⟨Or.inl (Or.inl .none), hdepth⟩
  | builtin b => exact iff_of_true ⟨_, rfl⟩ ⟨Or.inl (Or.inl (.builtin b)), hdepth⟩
  | anonymous hint =>
    exact iff_of_false (not_exists_error_eq_ok _ _) fun h => not_hasNode_anonymous hint h.1
  | named path =>
    rw [ofNormal]
    cases hname : scope.nameOf (.named path) with
    | some name => exact iff_of_true ⟨_, rfl⟩ ⟨Or.inl (Or.inr ⟨path, name, rfl, hname⟩), hdepth⟩
    | none => exact iff_of_false (not_exists_error_eq_ok _ _) fun h => not_hasNode_named hname h.1
  | someClass => rw [ofNormal]; exact hnode (Or.inl (Or.inl .someClass)) rfl
  | tuple items =>
    obtain rfl : items = [] := hbare
    rw [ofNormal]
    exact hnode (Or.inl (Or.inl .emptyTuple)) rfl
  | union members =>
    obtain rfl : members = [] := hbare
    rw [ofNormal]
    · exact hnode (Or.inr (Or.inl rfl)) rfl
    · nofun
    · nofun
  | literal values => rw [ofNormal]; exact hnode (hasNode_literal values) rfl

theorem exists_ofNormal_iff {type : TypeExpr} (hdepth : depth ≤ limits.maxDepth) :
    (∃ shape, ofNormal limits scope depth type = .ok shape) ↔ Fits limits scope depth type := by
  induction type using induct_parts generalizing depth with
  | h type ih =>
    by_cases hparts : type.parts = []
    · exact exists_ofNormal_iff_of_bare hparts hdepth
    · refine Iff.trans ?_ (TypeExpr.fits_iff_parts hparts).symm
      refine exists_ofNormal_iff_parts hparts (fun hmore _ _ h => fitsIn_of_isMerged h hmore) ?_
      intro hmore part hpart hother
      rw [ih part hpart hmore, fitsIn_iff_fits hother]

end Shape

end Callable
