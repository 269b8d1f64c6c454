import Callable.Proofs.TypeExpr.NormalForm
import Callable.Proofs.TypeExpr.Part

/-!
The leaves of a type expression: the parts that have no parts themselves. Flattening a union and
dropping repeated members makes no leaf and loses none, except for empty unions. So the leaves of a
normal form are the normal forms of leaves, and a type without a name is not lost by normalizing.
-/
namespace Callable.TypeExpr

structure IsLeaf (leaf type : TypeExpr) : Prop where
  part : IsPart leaf type
  bare : leaf.parts = []

/-- A union of nothing or a literal without values. -/
def IsVoid (type : TypeExpr) : Prop := type = union [] ∨ type = literal []

theorem not_isVoid_anonymous (hint : String) : ¬ (anonymous hint).IsVoid := by
  rintro (heq | heq) <;> cases heq

theorem not_isVoid_named (path : String) : ¬ (named path).IsVoid := by
  rintro (heq | heq) <;> cases heq

theorem isLeaf_iff (leaf type : TypeExpr) :
    IsLeaf leaf type ↔
      leaf = type ∧ type.parts = [] ∨ ∃ inner ∈ type.parts, IsLeaf leaf inner := by
  constructor
  · intro h
    rcases (isPart_iff leaf type).mp h.part with heq | ⟨inner, hinner, hpart⟩
    · exact Or.inl ⟨heq, heq ▸ h.bare⟩
    · exact Or.inr ⟨inner, hinner, hpart, h.bare⟩
  · intro h
    rcases h with ⟨heq, hbare⟩ | ⟨inner, hinner, h⟩
    · exact ⟨heq ▸ IsPart.refl, heq ▸ hbare⟩
    · exact ⟨IsPart.inside hinner h.part, h.bare⟩

theorem isLeaf_self {type : TypeExpr} (h : type.parts = []) : IsLeaf type type := ⟨IsPart.refl, h⟩

theorem IsLeaf.inside {leaf inner type : TypeExpr} (h : IsLeaf leaf inner)
    (hinner : inner ∈ type.parts) : IsLeaf leaf type := ⟨IsPart.inside hinner h.part, h.bare⟩

/-- A type without parts is its only leaf. -/
theorem IsLeaf.eq_of_parts {leaf type : TypeExpr} (h : IsLeaf leaf type) (hbare : type.parts = []) :
    leaf = type := by
  rcases (isLeaf_iff leaf type).mp h with ⟨heq, -⟩ | ⟨inner, hinner, -⟩
  · exact heq
  · rw [hbare] at hinner
    cases hinner

theorem IsLeaf.exists_part {leaf type : TypeExpr} (h : IsLeaf leaf type) (hparts : type.parts ≠ []) :
    ∃ inner ∈ type.parts, IsLeaf leaf inner := by
  rcases (isLeaf_iff leaf type).mp h with ⟨-, hbare⟩ | hinner
  · exact absurd hbare hparts
  · exact hinner

theorem IsLeaf.of_mem_members {leaf m type : TypeExpr} (h : IsLeaf leaf m) (hm : m ∈ type.members) :
    IsLeaf leaf type := by
  by_cases hu : type.IsUnion
  · obtain ⟨types, rfl⟩ := hu
    exact h.inside hm
  · rw [members_of_not_isUnion type hu, List.mem_singleton] at hm
    exact hm ▸ h

theorem IsLeaf.exists_member {leaf type : TypeExpr} (h : IsLeaf leaf type)
    (hne : leaf ≠ union []) : ∃ m ∈ type.members, IsLeaf leaf m := by
  by_cases hu : type.IsUnion
  · obtain ⟨types, rfl⟩ := hu
    rcases (isLeaf_iff leaf (union types)).mp h with ⟨heq, hbare⟩ | hinner
    · change types = [] at hbare
      subst hbare
      exact absurd heq hne
    · exact hinner
  · rw [members_of_not_isUnion type hu]
    exact ⟨type, List.mem_singleton_self type, h⟩

theorem eq_union_nil_of_members {type : TypeExpr} (h : type.members = []) : type = union [] := by
  by_cases hu : type.IsUnion
  · obtain ⟨types, rfl⟩ := hu
    exact congrArg union h
  · rw [members_of_not_isUnion type hu] at h
    cases h

/-- A leaf of a joined union is one of the joined types, unless nothing is joined. -/
theorem isLeaf_of_join {leaf : TypeExpr} {types : List TypeExpr} (h : IsLeaf leaf (join types)) :
    leaf = union [] ∧ types = [] ∨ ∃ type ∈ types, IsLeaf leaf type := by
  have hkept (m : TypeExpr) (hm : m ∈ addNew [] (types.flatMap members)) :
      ∃ type ∈ types, m ∈ type.members := by
    rw [mem_addNew] at hm
    exact List.mem_flatMap.mp (hm.resolve_left (List.not_mem_nil))
  unfold join at h
  split at h
  · rename_i single heq
    obtain ⟨type, htype, hm⟩ := hkept single (heq ▸ List.mem_singleton_self single)
    exact Or.inr ⟨type, htype, h.of_mem_members hm⟩
  · rcases (isLeaf_iff _ _).mp h with ⟨rfl, hbare⟩ | ⟨m, hm, hleaf⟩
    · -- nothing is kept, so each type that is joined is an empty union itself
      change addNew [] (types.flatMap members) = [] at hbare
      rw [hbare]
      cases types with
      | nil => exact Or.inl ⟨rfl, rfl⟩
      | cons type rest =>
        have hmembers : type.members = [] := by
          rw [List.eq_nil_iff_forall_not_mem]
          intro m hm
          have hadded : m ∈ addNew [] ((type :: rest).flatMap members) :=
            (mem_addNew _ _ _).mpr (Or.inr (List.mem_flatMap.mpr ⟨type, List.mem_cons_self, hm⟩))
          rw [hbare] at hadded
          cases hadded
        obtain rfl := eq_union_nil_of_members hmembers
        exact Or.inr ⟨_, List.mem_cons_self, isLeaf_self rfl⟩
    · obtain ⟨type, htype, hm⟩ := hkept m hm
      exact Or.inr ⟨type, htype, hleaf.of_mem_members hm⟩

theorem IsLeaf.join {leaf type : TypeExpr} {types : List TypeExpr} (h : IsLeaf leaf type)
    (htype : type ∈ types) (hne : leaf ≠ union []) : IsLeaf leaf (join types) := by
  obtain ⟨m, hm, hleaf⟩ := h.exists_member hne
  have hkept : m ∈ addNew [] (types.flatMap members) :=
    (mem_addNew _ _ _).mpr (Or.inr (List.mem_flatMap.mpr ⟨type, htype, hm⟩))
  unfold TypeExpr.join
  split
  · rename_i single heq
    rw [heq] at hkept
    exact List.mem_singleton.mp hkept ▸ hleaf
  · exact hleaf.inside hkept

theorem normalize_union (types : List TypeExpr) :
    (union types).normalize = join (types.map normalize) := by
  rw [normalize, normalizeAll_eq_map]

/-- Except for unions, a normal form is built from the normal forms of the parts. -/
theorem parts_normalize {type : TypeExpr} (h : ¬ type.IsUnion) :
    type.normalize.parts = type.parts.map normalize := by
  cases type with
  | union types => exact absurd ⟨types, rfl⟩ h
  | tuple items => exact normalizeAll_eq_map items
  | _ => rfl

/-- The leaves of a normal form are normal forms of leaves. -/
theorem IsLeaf.of_normalize {leaf type : TypeExpr} (h : IsLeaf leaf type.normalize) :
    ∃ original, IsLeaf original type ∧ original.normalize = leaf := by
  induction type using induct_parts with
  | h type ih =>
    have hinside (hinner : ∃ t ∈ type.parts.map TypeExpr.normalize, IsLeaf leaf t) :
        ∃ original, IsLeaf original type ∧ original.normalize = leaf := by
      obtain ⟨_, ht, hleaf⟩ := hinner
      obtain ⟨part, hpart, rfl⟩ := List.mem_map.mp ht
      obtain ⟨original, horiginal, heq⟩ := ih part hpart hleaf
      exact ⟨original, horiginal.inside hpart, heq⟩
    by_cases hu : type.IsUnion
    · obtain ⟨types, rfl⟩ := hu
      rw [normalize_union] at h
      rcases isLeaf_of_join h with ⟨rfl, hnone⟩ | hinner
      · obtain rfl := List.map_eq_nil_iff.mp hnone
        exact ⟨union [], isLeaf_self rfl, rfl⟩
      · exact hinside hinner
    · rcases (isLeaf_iff _ _).mp h with ⟨heq, hbare⟩ | hinner
      · rw [parts_normalize hu, List.map_eq_nil_iff] at hbare
        exact ⟨type, isLeaf_self hbare, heq.symm⟩
      · rw [parts_normalize hu] at hinner
        exact hinside hinner

/-- The normal forms of leaves are leaves of the normal form. -/
theorem IsLeaf.normalize {leaf type : TypeExpr} (h : IsLeaf leaf type)
    (hne : leaf.normalize ≠ union []) : IsLeaf leaf.normalize type.normalize := by
  induction type using induct_parts with
  | h type ih =>
    by_cases hu : type.IsUnion
    · obtain ⟨types, rfl⟩ := hu
      rcases (isLeaf_iff _ _).mp h with ⟨rfl, hbare⟩ | ⟨inner, hinner, hleaf⟩
      · obtain rfl : types = [] := hbare
        exact absurd rfl hne
      · rw [normalize_union]
        exact (ih inner hinner hleaf).join (List.mem_map_of_mem hinner) hne
    · rcases (isLeaf_iff _ _).mp h with ⟨rfl, hbare⟩ | ⟨inner, hinner, hleaf⟩
      · exact isLeaf_self (by rw [parts_normalize hu, hbare, List.map_nil])
      · refine (ih inner hinner hleaf).inside ?_
        rw [parts_normalize hu]
        exact List.mem_map_of_mem hinner

/-- A leaf that is no literal is in normal form. -/
theorem eq_of_normalize_leaf {leaf normal : TypeExpr} (hbare : leaf.parts = [])
    (h : leaf.normalize = normal) (hliteral : ∀ values, normal ≠ literal values) :
    leaf = normal := by
  cases leaf with
  | list | set | dict | classOf => cases hbare
  | tuple items =>
    obtain rfl : items = [] := hbare
    exact h
  | union types =>
    obtain rfl : types = [] := hbare
    exact h
  | literal values => exact absurd h.symm (hliteral _)
  | _ => exact h

/-- A type without a name stands in a type exactly if it stands in the normal form. -/
theorem hasAnonymous_normalize (type : TypeExpr) :
    type.normalize.hasAnonymous = type.hasAnonymous := by
  rw [Bool.eq_iff_iff, hasAnonymous_iff, hasAnonymous_iff]
  refine exists_congr fun hint => ?_
  constructor
  · intro h
    obtain ⟨original, horiginal, heq⟩ := IsLeaf.of_normalize ⟨h, rfl⟩
    obtain rfl := eq_of_normalize_leaf horiginal.bare heq (by simp)
    exact horiginal.part
  · intro h
    have hleaf : IsLeaf (anonymous hint) type := ⟨h, rfl⟩
    exact (hleaf.normalize (by simp [TypeExpr.normalize])).part

end Callable.TypeExpr
