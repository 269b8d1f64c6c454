import Callable.Proofs.Reference.Nameless
import Callable.Proofs.Reference.Nesting

/-!
What has a shape and what has a reference. Both writers go through a type in the same way and stop at the
same leaves without a name, but three kinds of parts set them apart. A union without members and a literal
without values have shapes. A literal among the members of a union makes no node, and a bare class opens
no bracket. So the depths differ by one level at most, and where no such part is, the two refuse the same
types.
-/
namespace Callable

open TypeExpr (IsPart IsLeaf isLeaf_self)
open Reference (HasSpelling IsCommon not_exists_error_eq_ok)

namespace TypeExpr

/-- References and shapes take the part alike: it is not a bare class, not void and not a union with a
literal among its members. -/
structure IsUniform (part : TypeExpr) : Prop where
  notClass : part ≠ someClass
  notVoid : ¬ part.IsVoid
  notMerging : ∀ types, part = union types → ∀ values, literal values ∉ types

theorem cases_of_bare {leaf : TypeExpr} (hbare : leaf.parts = []) :
    IsCommon leaf ∨ leaf.IsVoid ∨ (∃ hint, leaf = anonymous hint) ∨ ∃ path, leaf = named path := by
  cases leaf with
  | list | set | classOf | dict => cases hbare
  | any => exact Or.inl .any
  | none => exact Or.inl .none
  | builtin b => exact Or.inl (.builtin b)
  | someClass => exact Or.inl .someClass
  | tuple items =>
    obtain rfl : items = [] := hbare
    exact Or.inl .emptyTuple
  | union members =>
    obtain rfl : members = [] := hbare
    exact Or.inr (Or.inl (Or.inl rfl))
  | literal values =>
    by_cases hnone : values = []
    · exact Or.inr (Or.inl (Or.inr (congrArg _ hnone)))
    · exact Or.inl (.literal hnone)
  | anonymous hint => exact Or.inr (Or.inr (Or.inl ⟨hint, rfl⟩))
  | named path => exact Or.inr (Or.inr (Or.inr ⟨path, rfl⟩))

/-- Where all parts are uniform, all levels count alike. -/
theorem nesting_eq_of_isUniform {levels others : Levels} {type : TypeExpr}
    (h : ∀ part, IsPart part type → part.IsUniform) : type.nesting levels = type.nesting others := by
  have hle (levels others : Levels) : type.nesting levels ≤ type.nesting others + 0 := by
    refine nesting_le_add (fun hclass => ?_) fun types values hunion hliteral => ?_
    · exact absurd rfl (h _ hclass).notClass
    · exact absurd hliteral ((h _ hunion).notMerging types rfl values)
  exact Nat.le_antisymm (hle levels others) (hle others levels)

end TypeExpr

theorem exists_error_iff {ε α : Type} {outcome : Except ε α} :
    (∃ e, outcome = .error e) ↔ ¬ ∃ a, outcome = .ok a := by
  cases outcome with
  | error e => exact iff_of_true ⟨e, rfl⟩ (not_exists_error_eq_ok e α)
  | ok a => exact iff_of_false (by rintro ⟨_, ⟨⟩⟩) fun h => h ⟨a, rfl⟩

namespace Registry

open Reference (encode Limits cells reachedByPaths_cells cause_of_fits fits_of_encode
  not_hasSpelling_anonymous not_hasSpelling_named not_hasSpelling_of_isVoid)

/-- A type without a name, or a path that nobody registered. -/
def LacksName (r : Registry) (leaf : TypeExpr) : Prop :=
  (∃ hint, leaf = .anonymous hint) ∨ ∃ path, leaf = .named path ∧ r.resolve path = none

section Leaves

variable {r : Registry} {leaf : TypeExpr}

theorem LacksName.not_isVoid (h : r.LacksName leaf) : ¬ leaf.IsVoid := by
  rcases h with ⟨hint, rfl⟩ | ⟨path, rfl, -⟩
  · exact TypeExpr.not_isVoid_anonymous hint
  · exact TypeExpr.not_isVoid_named path

theorem ReachedByPaths.not_hasSpelling_iff (hr : r.ReachedByPaths) (hbare : leaf.parts = []) :
    ¬ HasSpelling r.scope leaf ↔ r.LacksName leaf ∨ leaf.IsVoid := by
  constructor
  · intro hnot
    rcases leaf.cases_of_bare hbare with hcommon | hvoid | hanonymous | ⟨path, rfl⟩
    · exact absurd (Or.inl hcommon) hnot
    · exact Or.inr hvoid
    · exact Or.inl (Or.inl hanonymous)
    · refine Or.inl (Or.inr ⟨path, rfl, (hr.nameOf_eq_none_iff path).mp ?_⟩)
      by_contra hnamed
      obtain ⟨name, hname⟩ := Option.ne_none_iff_exists'.mp hnamed
      exact hnot (Or.inr ⟨path, name, rfl, hname⟩)
  · intro h
    rcases h with (⟨hint, rfl⟩ | ⟨path, rfl, hpath⟩) | hvoid
    · exact not_hasSpelling_anonymous hint
    · exact not_hasSpelling_named ((hr.nameOf_eq_none_iff path).mpr hpath)
    · exact not_hasSpelling_of_isVoid hvoid

theorem ReachedByPaths.not_hasNode_iff (hr : r.ReachedByPaths) (hbare : leaf.parts = []) :
    ¬ Shape.HasNode r.scope leaf ↔ r.LacksName leaf := by
  unfold Shape.HasNode
  rw [not_or, hr.not_hasSpelling_iff hbare]
  constructor
  · exact fun h => h.1.resolve_right h.2
  · exact fun h => ⟨Or.inl h, h.not_isVoid⟩

end Leaves

section Refused

variable {r : Registry} (hr : r.ReachedByPaths)

include hr

theorem ReachedByPaths.ofType_error_iff (limits : Limits) (type : TypeExpr) :
    (∃ e, Shape.ofType limits r.scope type = .error e) ↔
      (∃ leaf, IsLeaf leaf type.normalize ∧ r.LacksName leaf) ∨
        limits.maxDepth < type.normalize.nesting .nodes := by
  rw [exists_error_iff]
  unfold Shape.ofType
  rw [Shape.exists_ofNormal_iff (Nat.zero_le _), TypeExpr.not_fits_iff, Nat.zero_add]
  refine or_congr_left (exists_congr fun leaf => and_congr_right fun hleaf => ?_)
  exact hr.not_hasNode_iff hleaf.bare

theorem ReachedByPaths.encode_error_iff {limits : Limits} {type : TypeExpr}
    (hsize : ∀ e, encode limits r.scope type = .error e → ∀ bound, e.cause ≠ .tooLarge bound) :
    (∃ e, encode limits r.scope type = .error e) ↔
      (∃ leaf, IsLeaf leaf type.normalize ∧ (r.LacksName leaf ∨ leaf.IsVoid)) ∨
        limits.maxDepth < type.normalize.nesting .brackets := by
  have hfits : (∃ text, encode limits r.scope type = .ok text) ↔
      Reference.Fits limits r.scope 0 type.normalize := by
    constructor
    · exact fun ⟨text, hencode⟩ => fits_of_encode hr.ofPaths hencode
    · intro hfits
      cases hencode : encode limits r.scope type with
      | ok text => exact ⟨text, rfl⟩
      | error e => exact absurd (cause_of_fits hr.ofPaths hfits hencode) (hsize e hencode _)
  rw [exists_error_iff, hfits, TypeExpr.not_fits_iff, Nat.zero_add]
  refine or_congr_left (exists_congr fun leaf => and_congr_right fun hleaf => ?_)
  exact hr.not_hasSpelling_iff hleaf.bare

end Refused

/-- In a registry of paths, a type has no shape exactly if a leaf of its normal form lacks a name or the
nodes are too deep, and has no reference of any length exactly if a leaf lacks a name or is void or the
brackets are too deep. The depths are one level apart at most, and the two refuse the same types where all
parts are uniform. -/
theorem refused_iff (r : Registry) (hr : r.ReachedByPaths) (limits : Limits) (type : TypeExpr)
    (hsize : ∀ e, encode limits r.scope type = .error e → ∀ bound, e.cause ≠ .tooLarge bound) :
    ((∃ e, Shape.ofType limits r.scope type = .error e) ↔
      (∃ leaf, IsLeaf leaf type.normalize ∧ r.LacksName leaf) ∨
        limits.maxDepth < type.normalize.nesting .nodes) ∧
    ((∃ e, encode limits r.scope type = .error e) ↔
      (∃ leaf, IsLeaf leaf type.normalize ∧ (r.LacksName leaf ∨ leaf.IsVoid)) ∨
        limits.maxDepth < type.normalize.nesting .brackets) ∧
    (type.normalize.nesting .nodes ≤ type.normalize.nesting .brackets + 1 ∧
      type.normalize.nesting .brackets ≤ type.normalize.nesting .nodes + 1) ∧
    ((∀ part, IsPart part type.normalize → part.IsUniform) →
      ((∃ e, Shape.ofType limits r.scope type = .error e) ↔
        ∃ e, encode limits r.scope type = .error e)) := by
  have hshape := hr.ofType_error_iff limits type
  have hencode := hr.encode_error_iff hsize
  refine ⟨hshape, hencode, ⟨?_, ?_⟩, fun huniform => ?_⟩
  · exact TypeExpr.nesting_le_add (fun _ => by decide) fun _ _ _ _ => by decide
  · exact TypeExpr.nesting_le_add (fun _ => by decide) fun _ _ _ _ => by decide
  · rw [hshape, hencode, TypeExpr.nesting_eq_of_isUniform huniform]
    refine or_congr_left (exists_congr fun leaf => and_congr_right fun hleaf => ?_)
    exact (or_iff_left (huniform leaf hleaf.part).notVoid).symm

/-- Lists of rows are written and shaped where rows are known only. -/
theorem refused_iff_cells :
    cells.ReachedByPaths ∧
      (∀ e, encode ⟨100, 1⟩ cells.scope (.list (.named "db.Row")) = .error e →
        ∀ bound, e.cause ≠ .tooLarge bound) ∧
      (∃ e, Shape.ofType ⟨100, 1⟩ cells.scope (.list (.named "db.Row")) = .error e) ∧
      ∃ e, encode ⟨100, 1⟩ cells.scope (.list (.named "db.Row")) = .error e := by
  have hwritten : encode ⟨100, 1⟩ cells.scope (.list (.named "db.Row")) =
      .error ⟨"db.Row", "tables", .unregistered⟩ := by
    decide +kernel
  have hsize : ∀ e, encode ⟨100, 1⟩ cells.scope (.list (.named "db.Row")) = .error e →
      ∀ bound, e.cause ≠ .tooLarge bound := by
    intro e herror bound
    cases hwritten.symm.trans herror
    nofun
  have hrow : IsLeaf (.named "db.Row") (.list (.named "db.Row")) :=
    IsLeaf.inside (isLeaf_self rfl) List.mem_cons_self
  have hlacks : cells.LacksName (.named "db.Row") := Or.inr ⟨"db.Row", rfl, by decide +kernel⟩
  obtain ⟨hshape, hencode, -⟩ :=
    refused_iff cells reachedByPaths_cells ⟨100, 1⟩ (.list (.named "db.Row")) hsize
  exact ⟨reachedByPaths_cells, hsize, hshape.mpr (Or.inl ⟨_, hrow, hlacks⟩),
    hencode.mpr (Or.inl ⟨_, hrow, Or.inl hlacks⟩)⟩

/-- A literal among the members of a union costs a bracket in its reference, but no node in its shape. -/
theorem not_refused_alike :
    ¬ ∀ (r : Registry), r.ReachedByPaths → ∀ (limits : Limits) (type : TypeExpr),
      (∀ e, encode limits r.scope type = .error e → ∀ bound, e.cause ≠ .tooLarge bound) →
        ((∃ e, Shape.ofType limits r.scope type = .error e) ↔
          ∃ e, encode limits r.scope type = .error e) := by
  intro hall
  have hr : (Registry.new "default").ReachedByPaths := ⟨"default", [], rfl⟩
  have hwritten : encode ⟨4096, 1⟩ (Registry.new "default").scope
      (.union [.literal [.str "a"], .builtin .int]) = .error ⟨"Union[", "default", .tooDeep 1⟩ := by
    decide +kernel
  have hiff := hall _ hr ⟨4096, 1⟩ (.union [.literal [.str "a"], .builtin .int])
    fun e herror bound => by
      cases hwritten.symm.trans herror
      nofun
  obtain ⟨e, herror⟩ := hiff.mpr ⟨_, hwritten⟩
  have hshaped : Shape.ofType ⟨4096, 1⟩ (Registry.new "default").scope
      (.union [.literal [.str "a"], .builtin .int]) =
        .ok (.anyOf [.enumeration [.str "a"] false, .leaf "int"]) := by
    rfl
  cases hshaped.symm.trans herror

end Registry
end Callable
