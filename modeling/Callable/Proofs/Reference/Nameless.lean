import Callable.Proofs.Reference.Shaping

/-!
Types without a name stay where they are. What holds one at any depth has no reference, no shape and no
place in a registry, and nothing that is read holds one. Neither an alias nor the removal of repeated
members hides it: names are given to types in which all is named, and the leaves of a type are those of
its normal form.
-/
namespace Callable

open TypeExpr (IsPart induct_parts hasAnonymous_iff hasAnonymous_iff_parts hasAnonymous_normalize)

namespace Shape

variable {limits : Reference.Limits} {scope : Scope}

/-- In a type with a shape all is named. -/
theorem hasAnonymous_of_ofNormal {type : TypeExpr} {shape : Shape}
    (h : ofNormal limits scope 0 type = .ok shape) : type.hasAnonymous = false := by
  have hfits : Fits limits scope 0 type := (exists_ofNormal_iff (Nat.zero_le _)).mp ⟨shape, h⟩
  rw [← Bool.not_eq_true, hasAnonymous_iff]
  rintro ⟨hint, hpart⟩
  exact not_hasNode_anonymous hint (hfits.leaves _ ⟨hpart, rfl⟩)

end Shape

namespace Reference

variable {limits : Limits} {scope : Scope}

/-- In a type with a reference all is named, if names are given to such types only. -/
theorem hasAnonymous_of_spell
    (hscope : ∀ type name, scope.nameOf type = some name → type.hasAnonymous = false)
    {type : TypeExpr} {depth : Nat} {out out' : String}
    (h : spell limits scope depth out type = .ok out') : type.hasAnonymous = false := by
  induction type using induct_parts generalizing depth out out' with
  | h type ih =>
    rw [← Bool.not_eq_true, hasAnonymous_iff_parts]
    rintro (⟨hint, rfl⟩ | ⟨part, hpart, hanon⟩)
    · cases h
    · rcases exists_spell_of_part h hpart with ⟨name, hname⟩ | ⟨_, _, hinner⟩
      · have hwhole : type.hasAnonymous = true :=
          (hasAnonymous_iff_parts type).mpr (Or.inr ⟨part, hpart, hanon⟩)
        exact Bool.false_ne_true ((hscope type name hname).symm.trans hwhole)
      · exact Bool.false_ne_true ((ih part hpart hinner).symm.trans hanon)

/-- In a type that is read all is named, if names stand for such types only. -/
theorem hasAnonymous_of_decode
    (hnames : ∀ name type, scope.resolve name = some type →
      IsName name ∧ type.hasAnonymous = false) {text : String} {value : TypeExpr}
    (h : decode limits scope text = .ok value) : value.hasAnonymous = false := by
  rw [← Bool.not_eq_true, hasAnonymous_iff]
  rintro ⟨hint, hpart⟩
  rcases isLeaf_of_decode (fun name type hresolve => (hnames name type hresolve).1) h
    ⟨hpart, rfl⟩ with hcommon | ⟨name, source, original, hresolve, horiginal, heq⟩
  · cases hcommon
  · obtain rfl := TypeExpr.eq_of_normalize_leaf horiginal.bare heq (by simp)
    have hsource : source.hasAnonymous = true :=
      (hasAnonymous_iff source).mpr ⟨hint, horiginal.part⟩
    exact Bool.false_ne_true ((hnames name source hresolve).2.symm.trans hsource)

end Reference

namespace Registry

open Reference

theorem Reached.hasAnonymous_of_resolve {r : Registry} (hr : r.Reached) {name : String}
    {type : TypeExpr} (h : r.resolve name = some type) : type.hasAnonymous = false := by
  obtain ⟨history, ht⟩ := hr.tracks
  exact (ht.valid name type h).2.2

theorem exists_error_of_hasAnonymous (r : Registry) (call : Call)
    (h : call.type.hasAnonymous = true) : ∃ e, r.answer call = .error e := by
  have hrefused : ¬ r.Admits call := fun hadmits =>
    Bool.false_ne_true (hadmits.named.symm.trans h)
  cases outcome r call with
  | failed e _ hanswer _ => exact ⟨e, hanswer⟩
  | repeated hadmits => exact absurd hadmits hrefused
  | added hadmits => exact absurd hadmits hrefused

/-- In a registry that some run leads to, a type that holds a type without a name, at any depth, has no
reference, no shape and no place under any name, and no reference denotes it. -/
theorem nameless_refused (r : Registry) (hr : r.Reached) (limits : Limits) (type : TypeExpr)
    (hint : String) (h : IsPart (.anonymous hint) type) :
    (∃ e, encode limits r.scope type = .error e) ∧
      (∃ e, Shape.ofType limits r.scope type = .error e) ∧
      (∀ name, (∃ e, r.answer (.register name type) = .error e) ∧
        r.after (.register name type) = r) ∧
      ∀ text, decode limits r.scope text ≠ .ok type := by
  have hanon : type.hasAnonymous = true := (hasAnonymous_iff type).mpr ⟨hint, h⟩
  have hnormal : type.normalize.hasAnonymous = true := (hasAnonymous_normalize type).trans hanon
  have hscope : ∀ t name, r.scope.nameOf t = some name → t.hasAnonymous = false :=
    fun t name hname => hr.hasAnonymous_of_resolve (hr.resolve_of_nameOf t name hname).2
  have hnames : ∀ name t, r.scope.resolve name = some t → IsName name ∧ t.hasAnonymous = false :=
    fun name t hresolve => ⟨hr.isName name t hresolve, hr.hasAnonymous_of_resolve hresolve⟩
  refine ⟨?_, ?_, fun name => ?_, fun text hdecode => ?_⟩
  · cases hencode : encode limits r.scope type with
    | error e => exact ⟨e, rfl⟩
    | ok text =>
      obtain ⟨out, hspell, -⟩ := exists_of_bind_eq_ok hencode
      cases (hasAnonymous_of_spell hscope hspell).symm.trans hnormal
  · cases hshape : Shape.ofType limits r.scope type with
    | error e => exact ⟨e, rfl⟩
    | ok shape => cases (Shape.hasAnonymous_of_ofNormal hshape).symm.trans hnormal
  · obtain ⟨e, he⟩ := r.exists_error_of_hasAnonymous (.register name type) hnormal
    exact ⟨⟨e, he⟩, r.after_of_error _ he⟩
  · cases (hasAnonymous_of_decode hnames hdecode).symm.trans hanon

/-- Cells beside a list of something without a name, twice. -/
def oddCells : TypeExpr :=
  .union [.named "db.Cell", .list (.anonymous "lambda"), .list (.anonymous "lambda")]

theorem nameless_refused_rows :
    rows.Reached ∧ IsPart (.anonymous "lambda") oddCells ∧
      (∃ e, encode ⟨100, 3⟩ rows.scope oddCells = .error e) ∧
      (∃ e, Shape.ofType ⟨100, 3⟩ rows.scope oddCells = .error e) ∧
      (∃ e, rows.answer (.register "db.Rows" oddCells) = .error e) ∧
      decode ⟨100, 3⟩ rows.scope "db.Cell | List[lambda]" ≠ .ok oddCells := by
  have hr : rows.Reached := ⟨_, _, rfl⟩
  have hlambda : IsPart (.anonymous "lambda") (.list (.anonymous "lambda")) :=
    IsPart.inside List.mem_cons_self IsPart.refl
  have hpart : IsPart (.anonymous "lambda") oddCells :=
    IsPart.inside (List.mem_cons_of_mem _ List.mem_cons_self) hlambda
  obtain ⟨hencode, hshape, hregister, hdecode⟩ :=
    nameless_refused rows hr ⟨100, 3⟩ oddCells "lambda" hpart
  exact ⟨hr, hpart, hencode, hshape, (hregister "db.Rows").1, hdecode _⟩

end Registry
end Callable
