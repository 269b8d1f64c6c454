import Callable.Proofs.TypeExpr.Leaf

/-!
How deep the forms of a type stand inside one another. References and shapes count alike but for two
kinds of parts: a bare class, which a reference writes without brackets, and a literal among the members
of a union, which a shape takes into the node of the union. The count is told how many levels these two
make. The normal form of a type never nests deeper than the type, since members of unions only move up.
-/
namespace Callable.TypeExpr

/-- How many levels a bare class makes, and how many a literal that is a member of a union. -/
structure Levels where
  someClass : Nat
  member : Nat
  deriving DecidableEq, Repr

/-- The brackets of a reference. -/
def Levels.brackets : Levels := ⟨0, 1⟩

/-- The nodes of a shape. -/
def Levels.nodes : Levels := ⟨1, 0⟩

section Count

variable (levels : Levels)

mutual

/-- The number of levels that stand inside one another in a type. -/
def nesting : TypeExpr → Nat
  | list item => item.nesting + 1
  | set item => item.nesting + 1
  | dict key value => max key.nesting value.nesting + 1
  | tuple items => nestingOfItems items + 1
  | union types => nestingOfMembers types + 1
  | classOf type => type.nesting + 1
  | someClass => levels.someClass
  | literal _ => 1
  | _ => 0

def nestingOfItems : List TypeExpr → Nat
  | [] => 0
  | type :: rest => max type.nesting (nestingOfItems rest)

def nestingOfMembers : List TypeExpr → Nat
  | [] => 0
  | literal _ :: rest => max levels.member (nestingOfMembers rest)
  | type :: rest => max type.nesting (nestingOfMembers rest)

end

/-- The levels that a part of a type makes inside it. -/
def nestingIn (type part : TypeExpr) : Nat :=
  match type, part with
  | union _, literal _ => levels.member
  | _, part => part.nesting levels

end Count

variable {levels : Levels}

theorem nestingOfItems_le_iff (items : List TypeExpr) (n : Nat) :
    nestingOfItems levels items ≤ n ↔ ∀ item ∈ items, item.nesting levels ≤ n := by
  induction items with
  | nil => simp [nestingOfItems]
  | cons item rest ih => rw [nestingOfItems, Nat.max_le, ih, List.forall_mem_cons]

theorem nestingIn_of_ne {type part : TypeExpr}
    (h : ∀ types values, type = union types → part ≠ literal values) :
    nestingIn levels type part = part.nesting levels := by
  unfold nestingIn
  split
  · exact absurd rfl (h _ _ rfl)
  · rfl

theorem nestingOfMembers_le_iff (types members : List TypeExpr) (n : Nat) :
    nestingOfMembers levels members ≤ n ↔
      ∀ member ∈ members, nestingIn levels (union types) member ≤ n := by
  induction members with
  | nil => simp [nestingOfMembers]
  | cons member rest ih =>
    rw [List.forall_mem_cons, ← ih]
    by_cases hliteral : ∃ values, member = literal values
    · obtain ⟨values, rfl⟩ := hliteral
      rw [nestingOfMembers, Nat.max_le]
      rfl
    · have hother : ∀ values, member ≠ literal values := not_exists.mp hliteral
      rw [nestingOfMembers, Nat.max_le, nestingIn_of_ne fun _ values _ => hother values]
      exact hother

/-- A type with parts makes one level more than its parts do inside it. -/
theorem nesting_le_succ_iff {type : TypeExpr} (hparts : type.parts ≠ []) (n : Nat) :
    type.nesting levels ≤ n + 1 ↔ ∀ part ∈ type.parts, nestingIn levels type part ≤ n := by
  cases type with
  | list item | set item | classOf item =>
    rw [nesting, Nat.succ_le_succ_iff, parts, List.forall_mem_singleton]
    rfl
  | dict key value =>
    rw [nesting, Nat.succ_le_succ_iff, parts, List.forall_mem_cons, List.forall_mem_singleton,
      Nat.max_le]
    rfl
  | tuple items => rw [nesting, Nat.succ_le_succ_iff, nestingOfItems_le_iff]; rfl
  | union types => rw [nesting, Nat.succ_le_succ_iff, nestingOfMembers_le_iff types]; rfl
  | _ => exact absurd rfl hparts

theorem nesting_pos {type : TypeExpr} (hparts : type.parts ≠ []) : 0 < type.nesting levels := by
  cases type with
  | list | set | classOf | dict | tuple | union => exact Nat.succ_pos _
  | _ => exact absurd rfl hparts

/-- If what counts differently counts at most some levels more, so does the whole. -/
theorem nesting_le_add {others : Levels} {type : TypeExpr} {n : Nat}
    (hclass : IsPart someClass type → levels.someClass ≤ others.someClass + n)
    (hmember : ∀ types values, IsPart (union types) type → literal values ∈ types →
      levels.member ≤ others.member + n) :
    type.nesting levels ≤ type.nesting others + n := by
  induction type using induct_parts with
  | h type ih =>
    by_cases hparts : type.parts = []
    · cases type with
      | list | set | classOf | dict => cases hparts
      | tuple items | union items =>
        obtain rfl : items = [] := hparts
        exact Nat.le_add_right 1 n
      | someClass => exact hclass IsPart.refl
      | literal => exact Nat.le_add_right 1 n
      | _ => exact Nat.zero_le _
    · have hpos : 0 < type.nesting others := nesting_pos hparts
      obtain ⟨m, hm⟩ : ∃ m, type.nesting others = m + 1 := Nat.exists_eq_add_one.mpr hpos
      have hall := (nesting_le_succ_iff hparts m).mp (Nat.le_of_eq hm)
      rw [hm, Nat.add_right_comm, nesting_le_succ_iff hparts]
      intro part hpart
      have hinner : part.nesting levels ≤ part.nesting others + n := by
        refine ih part hpart (fun h => hclass (h.inside hpart)) fun types values h => ?_
        exact hmember types values (h.inside hpart)
      have hroom := hall part hpart
      by_cases hliteral : ∃ types values, type = union types ∧ part = literal values
      · obtain ⟨types, values, rfl, rfl⟩ := hliteral
        have hmore := hmember types values IsPart.refl hpart
        change others.member ≤ m at hroom
        change levels.member ≤ m + n
        omega
      · have hother (levels : Levels) : nestingIn levels type part = part.nesting levels :=
          nestingIn_of_ne fun types values htype hpart => hliteral ⟨types, values, htype, hpart⟩
        rw [hother] at hroom ⊢
        omega

/-- All leaves are good, and there is room for the levels of the type inside `depth` others. -/
structure Fits (levels : Levels) (Good : TypeExpr → Prop) (bound depth : Nat) (type : TypeExpr) :
    Prop where
  leaves : ∀ leaf, IsLeaf leaf type → Good leaf
  nesting : depth + type.nesting levels ≤ bound

/-- All leaves of the part are good, and there is room for the levels that it makes in the type. -/
structure FitsIn (levels : Levels) (Good : TypeExpr → Prop) (bound depth : Nat)
    (type part : TypeExpr) : Prop where
  leaves : ∀ leaf, IsLeaf leaf part → Good leaf
  nesting : depth + nestingIn levels type part ≤ bound

section Fits

variable {Good : TypeExpr → Prop} {bound depth : Nat} {type : TypeExpr}

theorem fitsIn_iff_fits {part : TypeExpr} (h : nestingIn levels type part = part.nesting levels) :
    FitsIn levels Good bound depth type part ↔ Fits levels Good bound depth part := by
  constructor
  · exact fun hin => ⟨hin.leaves, h ▸ hin.nesting⟩
  · exact fun hfits => ⟨hfits.leaves, h.symm ▸ hfits.nesting⟩

theorem fits_iff_of_bare (hbare : type.parts = []) :
    Fits levels Good bound depth type ↔ Good type ∧ depth + type.nesting levels ≤ bound := by
  constructor
  · exact fun h => ⟨h.leaves type (isLeaf_self hbare), h.nesting⟩
  · intro h
    refine ⟨fun leaf hleaf => ?_, h.2⟩
    obtain rfl := hleaf.eq_of_parts hbare
    exact h.1

/-- A type with parts fits exactly if another level does and its parts fit in that. -/
theorem fits_iff_parts (hparts : type.parts ≠ []) :
    Fits levels Good bound depth type ↔
      depth < bound ∧ ∀ part ∈ type.parts, FitsIn levels Good bound (depth + 1) type part := by
  have hpos : 0 < type.nesting levels := nesting_pos hparts
  constructor
  · intro h
    have hroom := h.nesting
    have hall : ∀ part ∈ type.parts, nestingIn levels type part ≤ type.nesting levels - 1 :=
      (nesting_le_succ_iff hparts _).mp (by omega)
    refine ⟨by omega, fun part hpart => ⟨fun leaf hleaf => h.leaves leaf (hleaf.inside hpart), ?_⟩⟩
    have hinner := hall part hpart
    omega
  · intro h
    obtain ⟨hdepth, hall⟩ := h
    refine ⟨fun leaf hleaf => ?_, ?_⟩
    · obtain ⟨part, hpart, hinner⟩ := hleaf.exists_part hparts
      exact (hall part hpart).leaves leaf hinner
    · have hinner : type.nesting levels ≤ bound - (depth + 1) + 1 := by
        rw [nesting_le_succ_iff hparts]
        intro part hpart
        have hroom := (hall part hpart).nesting
        omega
      omega

theorem not_fits_iff : ¬ Fits levels Good bound depth type ↔
    (∃ leaf, IsLeaf leaf type ∧ ¬ Good leaf) ∨ bound < depth + type.nesting levels := by
  constructor
  · intro hnot
    by_cases hleaves : ∃ leaf, IsLeaf leaf type ∧ ¬ Good leaf
    · exact Or.inl hleaves
    · have hall : ∀ leaf, IsLeaf leaf type → Good leaf := fun leaf hleaf =>
        Classical.byContradiction fun hbad => hleaves ⟨leaf, hleaf, hbad⟩
      exact Or.inr (Nat.lt_of_not_le fun hroom => hnot ⟨hall, hroom⟩)
  · intro h hfits
    rcases h with ⟨leaf, hleaf, hbad⟩ | hdeep
    · exact hbad (hfits.leaves leaf hleaf)
    · have hroom := hfits.nesting
      omega

end Fits

theorem nestingIn_brackets (type part : TypeExpr) :
    nestingIn .brackets type part = part.nesting .brackets := by
  unfold nestingIn
  split <;> rfl

theorem nesting_brackets_le_succ_iff {type : TypeExpr} (hparts : type.parts ≠ []) (n : Nat) :
    type.nesting .brackets ≤ n + 1 ↔ ∀ part ∈ type.parts, part.nesting .brackets ≤ n := by
  simp only [nesting_le_succ_iff hparts, nestingIn_brackets]

/-- A type without parts makes one level at most. -/
theorem nesting_brackets_le_one {type : TypeExpr} (hparts : type.parts = []) :
    type.nesting .brackets ≤ 1 := by
  cases type with
  | list | set | classOf | dict => cases hparts
  | tuple items =>
    obtain rfl : items = [] := hparts
    exact Nat.le_refl 1
  | union types =>
    obtain rfl : types = [] := hparts
    exact Nat.le_refl 1
  | _ => simp [nesting, Levels.brackets]

/-- What a type contributes to a union nests no deeper than the type. -/
theorem nesting_le_of_mem_members {type member : TypeExpr} (h : member ∈ type.members) :
    member.nesting .brackets ≤ type.nesting .brackets := by
  by_cases hunion : type.IsUnion
  · obtain ⟨types, rfl⟩ := hunion
    have hparts : (union types).parts ≠ [] := List.ne_nil_of_mem h
    have hpos : 0 < (union types).nesting .brackets := nesting_pos hparts
    have hall := (nesting_brackets_le_succ_iff hparts ((union types).nesting .brackets - 1)).mp
      (by omega)
    have hmember := hall member h
    omega
  · rw [members_of_not_isUnion type hunion, List.mem_singleton] at h
    exact Nat.le_of_eq (congrArg _ h)

theorem nesting_join_le {types : List TypeExpr} {n : Nat}
    (h : ∀ type ∈ types, type.nesting .brackets ≤ n) : (join types).nesting .brackets ≤ n + 1 := by
  have hkept : ∀ member ∈ addNew [] (types.flatMap members), member.nesting .brackets ≤ n := by
    intro member hmember
    rcases (mem_addNew _ _ _).mp hmember with hnone | hmember
    · cases hnone
    · obtain ⟨type, htype, hmember⟩ := List.mem_flatMap.mp hmember
      exact Nat.le_trans (nesting_le_of_mem_members hmember) (h type htype)
  unfold join
  split
  · rename_i single heq
    have hsingle := hkept single (heq ▸ List.mem_singleton_self single)
    omega
  · by_cases hnone : (union (addNew [] (types.flatMap members))).parts = []
    · have hone := nesting_brackets_le_one hnone
      omega
    · exact (nesting_brackets_le_succ_iff hnone n).mpr hkept

/-- Normalizing opens no brackets. -/
theorem nesting_normalize_le (type : TypeExpr) :
    type.normalize.nesting .brackets ≤ type.nesting .brackets := by
  induction type using induct_parts with
  | h type ih =>
    by_cases hparts : type.parts = []
    · cases type with
      | list | set | classOf | dict => cases hparts
      | tuple items | union items =>
        obtain rfl : items = [] := hparts
        exact Nat.le_refl _
      | _ => exact Nat.le_refl _
    · have hpos : 0 < type.nesting .brackets := nesting_pos hparts
      obtain ⟨n, hn⟩ : ∃ n, type.nesting .brackets = n + 1 := Nat.exists_eq_add_one.mpr hpos
      have hall := (nesting_brackets_le_succ_iff hparts n).mp (Nat.le_of_eq hn)
      have hnormal : ∀ part ∈ type.parts.map normalize, part.nesting .brackets ≤ n := by
        refine List.forall_mem_map.mpr fun part hpart => ?_
        exact Nat.le_trans (ih part hpart) (hall part hpart)
      rw [hn]
      by_cases hunion : type.IsUnion
      · obtain ⟨types, rfl⟩ := hunion
        rw [normalize_union]
        exact nesting_join_le hnormal
      · rw [nesting_brackets_le_succ_iff, parts_normalize hunion]
        · exact hnormal
        · rw [parts_normalize hunion]
          exact fun h => hparts (List.map_eq_nil_iff.mp h)

end Callable.TypeExpr
