import Callable.Proofs.TypeExpr.Expansion

/-!
The laws of unions. How members are grouped in unions does not matter, a member may be put in normal form
beforehand, and a member is lost on a union that lists its normal form already. So a union, and with it an
optional type, is determined by what its members expand to.
-/
namespace Callable.TypeExpr

theorem expanded_optional (type : TypeExpr) :
    (union [type, none]).expanded = type.expanded ++ [none] := by
  have hnone : none.expanded = [none] := by
    refine expanded_of_not_isUnion ?_
    rintro ⟨types, heq⟩
    cases heq
  rw [expanded_union, List.flatMap_cons, List.flatMap_singleton, hnone]

/-- A union among the members may be replaced by its own members. -/
theorem normalize_union_splice (xs ys zs : List TypeExpr) :
    (union (xs ++ [union ys] ++ zs)).normalize = (union (xs ++ ys ++ zs)).normalize := by
  apply normalize_eq_of_expanded
  simp only [expanded_union, List.flatMap_append, List.flatMap_singleton]

theorem normalize_union_replace (xs : List TypeExpr) (type : TypeExpr) (zs : List TypeExpr) :
    (union (xs ++ [type.normalize] ++ zs)).normalize = (union (xs ++ [type] ++ zs)).normalize := by
  apply normalize_union_congr
  simp only [List.map_append, List.map_cons, List.map_nil, normalize_normalize]

/-- Types of one normal form expand to types of the same normal forms. -/
theorem mem_expanded_of_normalize {type other : TypeExpr} (h : type.normalize = other.normalize)
    {m : TypeExpr} (hm : m ∈ type.expanded.map normalize) : m ∈ other.expanded.map normalize := by
  have hkept : m ∈ addNew [] (type.expanded.map normalize) := (mem_addNew _ _ m).mpr (Or.inr hm)
  rw [← members_normalize, h, members_normalize] at hkept
  exact ((mem_addNew _ _ m).mp hkept).resolve_left List.not_mem_nil

/-- A member that expands to nothing new is lost. -/
theorem normalize_union_absorb {front : List TypeExpr} {later : TypeExpr}
    (h : ∀ m ∈ later.expanded.map normalize, m ∈ (union front).expanded.map normalize)
    (zs : List TypeExpr) :
    (union (front ++ [later] ++ zs)).normalize = (union (front ++ zs)).normalize := by
  have hlong : (union (front ++ [later] ++ zs)).expanded =
      (union front).expanded ++ later.expanded ++ (union zs).expanded := by
    simp only [expanded_union, List.flatMap_append, List.flatMap_singleton]
  have hshort : (union (front ++ zs)).expanded =
      (union front).expanded ++ (union zs).expanded := by
    simp only [expanded_union, List.flatMap_append]
  have hold : ∀ m ∈ later.expanded.map normalize,
      m ∈ addNew [] ((union front).expanded.map normalize) :=
    fun m hm => (mem_addNew _ _ m).mpr (Or.inr (h m hm))
  apply eq_of_members (isNormal_normalize _) (isNormal_normalize _)
  rw [members_normalize, members_normalize, hlong, hshort]
  simp only [List.map_append, addNew_append]
  rw [addNew_eq_self _ _ hold]

theorem normalize_union_delete {first later : TypeExpr} (h : first.normalize = later.normalize)
    (xs ys zs : List TypeExpr) :
    (union (xs ++ [first] ++ ys ++ [later] ++ zs)).normalize =
      (union (xs ++ [first] ++ ys ++ zs)).normalize := by
  refine normalize_union_absorb (fun m hm => ?_) zs
  have hfirst := mem_expanded_of_normalize h.symm hm
  simp only [expanded_union, List.flatMap_append, List.flatMap_singleton, List.map_append,
    List.mem_append]
  exact Or.inl (Or.inr hfirst)

/-- The members of a union may be grouped in unions of any nesting, be in normal form already, and be left
out where an earlier one has their normal form. -/
theorem union_grouping :
    (∀ xs ys zs, (union (xs ++ [union ys] ++ zs)).normalize = (union (xs ++ ys ++ zs)).normalize) ∧
    (∀ (xs : List TypeExpr) (type : TypeExpr) (zs : List TypeExpr),
      (union (xs ++ [type.normalize] ++ zs)).normalize = (union (xs ++ [type] ++ zs)).normalize) ∧
    (∀ first later : TypeExpr, first.normalize = later.normalize → ∀ xs ys zs,
      (union (xs ++ [first] ++ ys ++ [later] ++ zs)).normalize =
        (union (xs ++ [first] ++ ys ++ zs)).normalize) ∧
    (∀ types others, (union types).expanded = (union others).expanded →
      unionOf types = unionOf others) ∧
    (∀ type other : TypeExpr, type.expanded = other.expanded → type.optional = other.optional) ∧
    ∀ type : TypeExpr, type.optional.optional = type.optional := by
  refine ⟨normalize_union_splice, normalize_union_replace, fun first later h => normalize_union_delete h,
    fun types others h => normalize_eq_of_expanded h, fun type other h => ?_, fun type => ?_⟩
  · apply normalize_eq_of_expanded
    rw [expanded_optional, expanded_optional, h]
  · calc
      type.optional.optional = (union [union [type, none], none]).normalize :=
        normalize_union_replace [] (union [type, none]) [none]
      _ = (union [type, none, none]).normalize := normalize_union_splice [] [type, none] [none]
      _ = (union [type, none]).normalize := normalize_union_delete rfl [type] [] []

def samples : TypeExpr := .union [.builtin .int, .literal [.str "a"]]

/-- Numbers or labels in unions of their own, with the label listed twice. -/
def nestedSamples : TypeExpr :=
  .union [.union [.builtin .int], .union [.union [.literal [.str "a", .str "a"]], .union []]]

theorem union_grouping_samples :
    samples.normalize = nestedSamples.normalize ∧
      (union [.none, samples, .builtin .str, nestedSamples, .any]).normalize =
        (union [.none, samples, .builtin .str, .any]).normalize ∧
      (union [union [.builtin .int, union [.builtin .str]], .any]).expanded =
        (union [.builtin .int, .builtin .str, .any]).expanded ∧
      unionOf [union [.builtin .int, union [.builtin .str]], .any] =
        unionOf [.builtin .int, .builtin .str, .any] ∧
      (union [.builtin .int, union [.builtin .str]]).expanded =
        (union [.builtin .int, .builtin .str]).expanded ∧
      (union [.builtin .int, union [.builtin .str]]).optional =
        (union [.builtin .int, .builtin .str]).optional := by
  have hsame : samples.normalize = nestedSamples.normalize := by decide +kernel
  have hlist : (union [union [.builtin .int, union [.builtin .str]], .any]).expanded =
      (union [.builtin .int, .builtin .str, .any]).expanded := by
    simp [expanded, expandedAll]
  have hpair : (union [.builtin .int, union [.builtin .str]]).expanded =
      (union [.builtin .int, .builtin .str]).expanded := by
    simp [expanded, expandedAll]
  obtain ⟨-, -, hdelete, hunion, hoptional, -⟩ := union_grouping
  exact ⟨hsame, hdelete _ _ hsame [.none] [.builtin .str] [.any], hlist, hunion _ _ hlist, hpair,
    hoptional _ _ hpair⟩

end Callable.TypeExpr
