import Callable.TypeExpr.Normal

/-!
The normal form, said without the normalizer. At no level does a union hold a union, a repeated
member or exactly one member, and no literal lists a value twice. Normalizing gives a normal type
and leaves normal types as they are, so the normal form of a composite type depends on its parts
only through their normal forms.
-/
namespace Callable

section AddNew

variable {α : Type} [DecidableEq α]

theorem mem_addNew (seen values : List α) (a : α) :
    a ∈ addNew seen values ↔ a ∈ seen ∨ a ∈ values := by
  induction values generalizing seen with
  | nil => simp [addNew]
  | cons b rest ih =>
    unfold addNew
    split
    · rename_i hb
      rw [ih, List.mem_cons]
      constructor
      · intro hmem
        rcases hmem with h | h
        · exact Or.inl h
        · exact Or.inr (Or.inr h)
      · intro hmem
        rcases hmem with h | rfl | h
        · exact Or.inl h
        · exact Or.inl hb
        · exact Or.inr h
    · rw [ih, List.mem_append, List.mem_singleton, List.mem_cons, or_assoc]

theorem nodup_addNew (seen values : List α) (hseen : seen.Nodup) :
    (addNew seen values).Nodup := by
  induction values generalizing seen with
  | nil => exact hseen
  | cons b rest ih =>
    unfold addNew
    split
    · exact ih seen hseen
    · rename_i hb
      apply ih
      rw [List.nodup_append]
      refine ⟨hseen, by simp, ?_⟩
      intro a ha c hc hac
      rw [List.mem_singleton] at hc
      exact hb (hc ▸ hac ▸ ha)

/-- Values that are all new are kept as they stand. -/
theorem addNew_eq_append (seen values : List α) (hvalues : values.Nodup)
    (hnew : ∀ a ∈ values, a ∉ seen) : addNew seen values = seen ++ values := by
  induction values generalizing seen with
  | nil => simp [addNew]
  | cons b rest ih =>
    obtain ⟨hb, hrest⟩ := List.nodup_cons.mp hvalues
    unfold addNew
    rw [if_neg (hnew b List.mem_cons_self), ih (seen ++ [b]) hrest]
    · simp only [List.append_assoc, List.singleton_append]
    · intro a ha hmem
      rcases List.mem_append.mp hmem with h | h
      · exact hnew a (List.mem_cons_of_mem b ha) h
      · exact hb (List.mem_singleton.mp h ▸ ha)

theorem addNew_nil_eq_self (values : List α) (h : values.Nodup) : addNew [] values = values := by
  simpa only [List.nil_append] using addNew_eq_append [] values h (by simp)

end AddNew

namespace TypeExpr

def IsUnion (type : TypeExpr) : Prop := ∃ types, type = union types

mutual

/-- At every level unions are flat, hold each member once and do not hold just one, and literals
list each value once. -/
def IsNormal : TypeExpr → Prop
  | list item => item.IsNormal
  | set item => item.IsNormal
  | dict key value => key.IsNormal ∧ value.IsNormal
  | tuple items => AllNormal items
  | union types => AllNormal types ∧ (∀ t ∈ types, ¬ t.IsUnion) ∧ types.Nodup ∧ types.length ≠ 1
  | classOf type => type.IsNormal
  | literal values => values.Nodup
  | _ => True

def AllNormal : List TypeExpr → Prop
  | [] => True
  | type :: rest => type.IsNormal ∧ AllNormal rest

end

theorem allNormal_iff (types : List TypeExpr) : AllNormal types ↔ ∀ t ∈ types, t.IsNormal := by
  induction types with
  | nil => simp [AllNormal]
  | cons type rest ih => simp [AllNormal, ih]

theorem isNormal_tuple_iff (items : List TypeExpr) :
    (tuple items).IsNormal ↔ ∀ t ∈ items, t.IsNormal := by
  rw [IsNormal, allNormal_iff]

theorem isNormal_union_iff (types : List TypeExpr) :
    (union types).IsNormal ↔ (∀ t ∈ types, t.IsNormal) ∧ (∀ t ∈ types, ¬ t.IsUnion) ∧
      types.Nodup ∧ types.length ≠ 1 := by
  rw [IsNormal, allNormal_iff]

theorem normalizeAll_eq_map (types : List TypeExpr) :
    normalizeAll types = types.map normalize := by
  induction types with
  | nil => rfl
  | cons type rest ih => rw [normalizeAll, ih, List.map_cons]

theorem members_of_not_isUnion (type : TypeExpr) (h : ¬ type.IsUnion) : type.members = [type] := by
  cases type with
  | union types => exact absurd ⟨types, rfl⟩ h
  | _ => rfl

/-- A normal type contributes normal types that are no unions. -/
theorem IsNormal.members {type m : TypeExpr} (h : type.IsNormal) (hm : m ∈ type.members) :
    m.IsNormal ∧ ¬ m.IsUnion := by
  by_cases hu : type.IsUnion
  · obtain ⟨types, rfl⟩ := hu
    obtain ⟨hnormal, hflat, -, -⟩ := (isNormal_union_iff types).mp h
    exact ⟨hnormal m hm, hflat m hm⟩
  · rw [members_of_not_isUnion type hu, List.mem_singleton] at hm
    exact hm ▸ ⟨h, hu⟩

theorem isNormal_join (types : List TypeExpr) (h : ∀ t ∈ types, t.IsNormal) :
    (join types).IsNormal := by
  have hkept : ∀ m ∈ addNew [] (types.flatMap members), m.IsNormal ∧ ¬ m.IsUnion := by
    intro m hm
    rw [mem_addNew] at hm
    rcases hm with hm | hm
    · simp at hm
    · obtain ⟨t, ht, hmt⟩ := List.mem_flatMap.mp hm
      exact (h t ht).members hmt
  have hnodup := nodup_addNew [] (types.flatMap members) List.nodup_nil
  unfold join
  generalize addNew [] (types.flatMap members) = kept at hkept hnodup
  split
  · rename_i single
    exact (hkept single List.mem_cons_self).1
  · rename_i hne
    refine (isNormal_union_iff kept).mpr
      ⟨fun t ht => (hkept t ht).1, fun t ht => (hkept t ht).2, hnodup, ?_⟩
    intro hone
    obtain ⟨single, hs⟩ := List.length_eq_one_iff.mp hone
    exact hne single hs

/-- The members of a normal union are joined to that union. -/
theorem join_eq_union (types : List TypeExpr) (h : (union types).IsNormal) :
    join types = union types := by
  obtain ⟨-, hflat, hnodup, hone⟩ := (isNormal_union_iff types).mp h
  have hmembers : types.flatMap members = types := by
    clear h hnodup hone
    induction types with
    | nil => rfl
    | cons t rest ih =>
      rw [List.flatMap_cons, members_of_not_isUnion t (hflat t List.mem_cons_self),
        ih fun t ht => hflat t (List.mem_cons_of_mem _ ht), List.singleton_append]
  unfold join
  rw [hmembers, addNew_nil_eq_self types hnodup]
  split
  · exact absurd rfl hone
  · rfl

theorem isNormal_normalize (type : TypeExpr) : type.normalize.IsNormal := by
  induction type with
  | list item ih => exact ih
  | set item ih => exact ih
  | classOf type ih => exact ih
  | dict key value hkey hvalue => exact ⟨hkey, hvalue⟩
  | tuple items ih =>
    rw [normalize, isNormal_tuple_iff, normalizeAll_eq_map]
    exact List.forall_mem_map.mpr ih
  | union types ih =>
    rw [normalize, normalizeAll_eq_map]
    exact isNormal_join _ (List.forall_mem_map.mpr ih)
  | literal values => exact nodup_addNew [] values List.nodup_nil
  | _ => trivial

theorem normalize_eq_self (type : TypeExpr) (h : type.IsNormal) : type.normalize = type := by
  induction type with
  | list item ih => exact congrArg list (ih h)
  | set item ih => exact congrArg set (ih h)
  | classOf type ih => exact congrArg classOf (ih h)
  | dict key value hkey hvalue => rw [normalize, hkey h.1, hvalue h.2]
  | tuple items ih =>
    have hitems := (isNormal_tuple_iff items).mp h
    rw [normalize, normalizeAll_eq_map, List.map_congr_left fun t ht => ih t ht (hitems t ht),
      List.map_id']
  | union types ih =>
    obtain ⟨htypes, -⟩ := (isNormal_union_iff types).mp h
    rw [normalize, normalizeAll_eq_map, List.map_congr_left fun t ht => ih t ht (htypes t ht),
      List.map_id', join_eq_union types h]
  | literal values => exact congrArg literal (addNew_nil_eq_self values h)
  | _ => rfl

theorem normalize_normalize (type : TypeExpr) : type.normalize.normalize = type.normalize :=
  normalize_eq_self type.normalize (isNormal_normalize type)

/-- The normal form of a union depends on the normal forms of its members only. -/
theorem normalize_union_congr {types others : List TypeExpr}
    (h : types.map normalize = others.map normalize) :
    (union types).normalize = (union others).normalize := by
  rw [normalize, normalize, normalizeAll_eq_map, normalizeAll_eq_map, h]

/-- A union that is normalized at once has the normal form it would have later. -/
theorem normalize_unionOf_congr {types others : List TypeExpr}
    (h : types.map normalize = others.map normalize) :
    (unionOf types).normalize = (union others).normalize := by
  rw [unionOf, normalize_normalize]
  exact normalize_union_congr h

theorem normalize_tuple_congr {items others : List TypeExpr}
    (h : items.map normalize = others.map normalize) :
    (tuple items).normalize = (tuple others).normalize := by
  rw [normalize, normalize, normalizeAll_eq_map, normalizeAll_eq_map, h]

end TypeExpr
end Callable
