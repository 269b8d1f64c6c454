import Callable.Proofs.TypeExpr.Leaf
import Mathlib.Data.List.Nodup

/-!
What a union lists. Expanding the unions inside a union leaves types that are no unions, and the normal
form of the union holds the normal forms of these: each once, in the order in which they occur first. How
the unions were nested is lost, so a normal form depends on what a type expands to and on nothing else.
-/
namespace Callable

/-- The distinct values of a list, in the order in which they occur first. -/
structure FirstOccurrences {α : Type} [DecidableEq α] (values kept : List α) : Prop where
  nodup : kept.Nodup
  mem_iff : ∀ a, a ∈ kept ↔ a ∈ values
  ordered : kept.Pairwise fun a b => values.idxOf a < values.idxOf b

section AddNew

variable {α : Type} [DecidableEq α] {values kept : List α} {a : α}

/-- What comes later does not change where a value occurs first. -/
theorem FirstOccurrences.ordered_append (h : FirstOccurrences values kept) (more : List α) :
    kept.Pairwise fun a b => (values ++ more).idxOf a < (values ++ more).idxOf b := by
  refine h.ordered.imp_of_mem fun hb hc hlt => ?_
  rwa [List.idxOf_append_of_mem ((h.mem_iff _).mp hb),
    List.idxOf_append_of_mem ((h.mem_iff _).mp hc)]

theorem FirstOccurrences.repeated (h : FirstOccurrences values kept) (ha : a ∈ kept) :
    FirstOccurrences (values ++ [a]) kept where
  nodup := h.nodup
  mem_iff b := by
    rw [List.mem_append, List.mem_singleton, ← h.mem_iff]
    exact (or_iff_left_of_imp fun heq => heq ▸ ha).symm
  ordered := h.ordered_append [a]

theorem FirstOccurrences.new (h : FirstOccurrences values kept) (ha : a ∉ kept) :
    FirstOccurrences (values ++ [a]) (kept ++ [a]) where
  nodup := by
    refine List.nodup_append.mpr ⟨h.nodup, List.nodup_singleton a, fun b hb c hc heq => ?_⟩
    exact ha (List.mem_singleton.mp hc ▸ heq ▸ hb)
  mem_iff b := by rw [List.mem_append, List.mem_append, h.mem_iff]
  ordered := by
    refine List.pairwise_append.mpr
      ⟨h.ordered_append [a], List.pairwise_singleton _ _, fun b hb c hc => ?_⟩
    obtain rfl := List.mem_singleton.mp hc
    have hbefore : b ∈ values := (h.mem_iff b).mp hb
    have hnew : c ∉ values := fun hmem => ha ((h.mem_iff c).mpr hmem)
    rw [List.idxOf_append_of_mem hbefore, List.idxOf_append_of_notMem hnew]
    exact Nat.lt_add_right _ (List.idxOf_lt_length_of_mem hbefore)

theorem FirstOccurrences.addNew (h : FirstOccurrences values kept) (more : List α) :
    FirstOccurrences (values ++ more) (addNew kept more) := by
  induction more generalizing values kept with
  | nil =>
    rw [List.append_nil]
    exact h
  | cons a rest ih =>
    rw [List.append_cons]
    unfold Callable.addNew
    split
    · rename_i ha
      exact ih (h.repeated ha)
    · rename_i ha
      exact ih (h.new ha)

theorem firstOccurrences_addNew (values : List α) : FirstOccurrences values (addNew [] values) :=
  FirstOccurrences.addNew ⟨List.nodup_nil, fun _ => Iff.rfl, List.Pairwise.nil⟩ values

theorem addNew_append (seen values more : List α) :
    addNew seen (values ++ more) = addNew (addNew seen values) more := by
  induction values generalizing seen with
  | nil => rfl
  | cons a rest ih =>
    rw [List.cons_append, addNew, addNew]
    split
    · exact ih seen
    · exact ih (seen ++ [a])

theorem addNew_eq_self (seen values : List α) (h : ∀ a ∈ values, a ∈ seen) :
    addNew seen values = seen := by
  induction values with
  | nil => rfl
  | cons a rest ih =>
    obtain ⟨ha, hrest⟩ := List.forall_mem_cons.mp h
    rw [addNew, if_pos ha, ih hrest]

/-- Values that have been thinned out already are added as they were before. -/
theorem addNew_addNew (seen kept values : List α) :
    addNew seen (addNew kept values) = addNew (addNew seen kept) values := by
  induction values generalizing kept with
  | nil => rfl
  | cons a rest ih =>
    rw [addNew.eq_2 kept]
    split
    · rename_i ha
      have hseen : a ∈ addNew seen kept := (mem_addNew seen kept a).mpr (Or.inr ha)
      rw [ih, addNew.eq_2 (addNew seen kept), if_pos hseen]
    · rw [ih, addNew_append, ← addNew_append _ [a] rest, List.singleton_append]

theorem addNew_flatMap_addNew {β : Type} (f : β → List α) (seen : List α) (items : List β) :
    addNew seen (items.flatMap fun item => addNew [] (f item)) = addNew seen (items.flatMap f) := by
  induction items generalizing seen with
  | nil => rfl
  | cons item rest ih =>
    rw [List.flatMap_cons, List.flatMap_cons, addNew_append, addNew_append, addNew_addNew]
    exact ih _

end AddNew

namespace TypeExpr

mutual

/-- The types that are left when the unions in a union are expanded, in order. A type that is no union is
left as it is. -/
def expanded : TypeExpr → List TypeExpr
  | union types => expandedAll types
  | other => [other]

def expandedAll : List TypeExpr → List TypeExpr
  | [] => []
  | type :: rest => type.expanded ++ expandedAll rest

end

theorem expanded_union (types : List TypeExpr) :
    (union types).expanded = types.flatMap expanded := by
  rw [expanded]
  induction types with
  | nil => rfl
  | cons type rest ih => rw [expandedAll, ih, List.flatMap_cons]

theorem expanded_of_not_isUnion {type : TypeExpr} (h : ¬ type.IsUnion) :
    type.expanded = [type] := by
  cases type with
  | union types => exact absurd ⟨types, rfl⟩ h
  | _ => rw [expanded]; simp

/-- A normal type is told by its members. -/
theorem eq_of_members {type other : TypeExpr} (h : type.IsNormal) (hother : other.IsNormal)
    (hmembers : type.members = other.members) : type = other := by
  have hsingle {types : List TypeExpr} {single : TypeExpr} (hunion : (union types).IsNormal)
      (heq : types = [single]) : False :=
    ((isNormal_union_iff types).mp hunion).2.2.2 (heq ▸ rfl)
  by_cases hu : type.IsUnion <;> by_cases hu' : other.IsUnion
  · obtain ⟨types, rfl⟩ := hu
    obtain ⟨others, rfl⟩ := hu'
    exact congrArg union hmembers
  · obtain ⟨types, rfl⟩ := hu
    rw [members_of_not_isUnion other hu'] at hmembers
    exact (hsingle h hmembers).elim
  · obtain ⟨others, rfl⟩ := hu'
    rw [members_of_not_isUnion type hu] at hmembers
    exact (hsingle hother hmembers.symm).elim
  · rw [members_of_not_isUnion type hu, members_of_not_isUnion other hu'] at hmembers
    exact List.singleton_inj.mp hmembers

theorem not_isUnion_normalize {type : TypeExpr} (h : ¬ type.IsUnion) :
    ¬ type.normalize.IsUnion := by
  cases type with
  | union types => exact absurd ⟨types, rfl⟩ h
  | _ => rintro ⟨types, heq⟩; cases heq

theorem members_join {types : List TypeExpr} (h : ∀ t ∈ types, t.IsNormal) :
    (join types).members = addNew [] (types.flatMap members) := by
  have hkept : ∀ m ∈ addNew [] (types.flatMap members), ¬ m.IsUnion := by
    intro m hm
    rw [mem_addNew] at hm
    obtain ⟨t, ht, hmt⟩ := List.mem_flatMap.mp (hm.resolve_left List.not_mem_nil)
    exact ((h t ht).members hmt).2
  unfold join
  split
  · rename_i single heq
    rw [heq] at hkept ⊢
    exact members_of_not_isUnion single (hkept single (List.mem_singleton_self single))
  · rfl

/-- The members of a normal form are the normal forms of what the type expands to, each kept where it
stands first. -/
theorem members_normalize (type : TypeExpr) :
    type.normalize.members = addNew [] (type.expanded.map normalize) := by
  induction type using induct_parts with
  | h type ih =>
    by_cases hu : type.IsUnion
    · obtain ⟨types, rfl⟩ := hu
      have hnormal : ∀ t ∈ types.map normalize, t.IsNormal :=
        List.forall_mem_map.mpr fun t _ => isNormal_normalize t
      have hparts : (types.map normalize).flatMap members =
          types.flatMap fun t => addNew [] (t.expanded.map normalize) := by
        rw [List.flatMap_map]
        exact List.flatMap_congr ih
      rw [normalize_union, members_join hnormal, hparts, addNew_flatMap_addNew, expanded_union,
        List.map_flatMap]
    · rw [members_of_not_isUnion _ (not_isUnion_normalize hu), expanded_of_not_isUnion hu]
      rfl

/-- Of a type, what it expands to is all that its normal form depends on. -/
theorem normalize_eq_of_expanded {type other : TypeExpr} (h : type.expanded = other.expanded) :
    type.normalize = other.normalize := by
  apply eq_of_members (isNormal_normalize type) (isNormal_normalize other)
  rw [members_normalize, members_normalize, h]

theorem IsPart.of_mem_members {part m type : TypeExpr} (h : IsPart part m) (hm : m ∈ type.members) :
    IsPart part type := by
  by_cases hu : type.IsUnion
  · obtain ⟨types, rfl⟩ := hu
    exact h.inside hm
  · rw [members_of_not_isUnion type hu, List.mem_singleton] at hm
    exact hm ▸ h

theorem isPart_of_join {part : TypeExpr} {types : List TypeExpr} (h : IsPart part (join types)) :
    part = join types ∨ ∃ type ∈ types, IsPart part type := by
  have hkept (m : TypeExpr) (hm : m ∈ addNew [] (types.flatMap members)) (hpart : IsPart part m) :
      ∃ type ∈ types, IsPart part type := by
    rw [mem_addNew] at hm
    obtain ⟨type, htype, hmembers⟩ := List.mem_flatMap.mp (hm.resolve_left List.not_mem_nil)
    exact ⟨type, htype, hpart.of_mem_members hmembers⟩
  unfold join at h ⊢
  split at h
  · rename_i single heq
    exact Or.inr (hkept single (heq ▸ List.mem_singleton_self single) h)
  · rcases (isPart_iff _ _).mp h with heq | ⟨m, hm, hpart⟩
    · exact Or.inl heq
    · exact Or.inr (hkept m hm hpart)

/-- A union that stands in a normal form is the normal form of a union of the type. -/
theorem exists_union_of_isPart_normalize {kept : List TypeExpr} {type : TypeExpr}
    (h : IsPart (union kept) type.normalize) :
    ∃ types, IsPart (union types) type ∧ (union types).normalize = union kept := by
  induction type using induct_parts with
  | h type ih =>
    have hinside (hinner : ∃ t ∈ type.parts.map normalize, IsPart (union kept) t) :
        ∃ types, IsPart (union types) type ∧ (union types).normalize = union kept := by
      obtain ⟨_, ht, hpart⟩ := hinner
      obtain ⟨inner, hinner, rfl⟩ := List.mem_map.mp ht
      obtain ⟨types, htypes, heq⟩ := ih inner hinner hpart
      exact ⟨types, htypes.inside hinner, heq⟩
    by_cases hu : type.IsUnion
    · obtain ⟨types, rfl⟩ := hu
      rw [normalize_union] at h
      rcases isPart_of_join h with heq | hinner
      · exact ⟨types, IsPart.refl, by rw [normalize_union, heq]⟩
      · exact hinside hinner
    · rcases (isPart_iff _ _).mp h with heq | hinner
      · exact absurd ⟨kept, heq.symm⟩ (not_isUnion_normalize hu)
      · rw [parts_normalize hu] at hinner
        exact hinside hinner

/-- A normal form is normal at every level, and the normal types are those that are their own normal form.
It lists the distinct normal forms of what the type expands to, in the order in which they occur first, and
so does each union in it for some union of the type. -/
theorem normalize_lists_expansion (type : TypeExpr) :
    type.normalize.IsNormal ∧ (type.normalize = type ↔ type.IsNormal) ∧
    type.normalize.normalize = type.normalize ∧
    FirstOccurrences (type.expanded.map normalize) type.normalize.members ∧
    ∀ kept, IsPart (union kept) type.normalize → ∃ types, IsPart (union types) type ∧
      (union types).normalize = union kept ∧
      FirstOccurrences ((union types).expanded.map normalize) kept := by
  have hlists (t : TypeExpr) : FirstOccurrences (t.expanded.map normalize) t.normalize.members := by
    rw [members_normalize]
    exact firstOccurrences_addNew _
  refine ⟨isNormal_normalize type, ⟨fun heq => ?_, normalize_eq_self type⟩,
    normalize_normalize type, hlists type, fun kept hkept => ?_⟩
  · exact heq ▸ isNormal_normalize type
  · obtain ⟨types, hpart, heq⟩ := exists_union_of_isPart_normalize hkept
    have hfirst := hlists (union types)
    rw [heq] at hfirst
    exact ⟨types, hpart, heq, hfirst⟩

/-- Labels or numbers: nested unions, one of a single member, with a literal that repeats its value and is
repeated itself. -/
def readings : TypeExpr :=
  .list (.union [.union [.builtin .int, .literal [.str "a", .str "a"]], .union [.union [.builtin .str]],
    .literal [.str "a"], .builtin .int])

theorem normalize_lists_expansion_readings :
    IsPart (union [.builtin .int, .literal [.str "a"], .builtin .str]) readings.normalize ∧
      readings.normalize.IsNormal ∧ ¬ readings.IsNormal ∧
      ∃ types, IsPart (union types) readings ∧
        (union types).normalize = union [.builtin .int, .literal [.str "a"], .builtin .str] ∧
        FirstOccurrences ((union types).expanded.map normalize)
          [.builtin .int, .literal [.str "a"], .builtin .str] := by
  have hnormal : readings.normalize =
      .list (.union [.builtin .int, .literal [.str "a"], .builtin .str]) := by
    decide +kernel
  have hpart : IsPart (union [.builtin .int, .literal [.str "a"], .builtin .str])
      readings.normalize := by
    rw [hnormal]
    exact IsPart.inside (List.mem_singleton_self _) IsPart.refl
  obtain ⟨hform, hself, -, -, hunions⟩ := normalize_lists_expansion readings
  refine ⟨hpart, hform, fun h => ?_, hunions _ hpart⟩
  exact absurd (hself.mpr h) (by decide +kernel)

end TypeExpr
end Callable
