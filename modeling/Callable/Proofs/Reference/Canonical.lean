import Callable.Proofs.Reference.RoundTrip

/-!
The canonical spelling. What is decoded is in normal form, and a type is written as its normal form
is; so the canonical spelling of a reference denotes what the reference denotes, and is its own
canonical spelling.
-/
namespace Callable.Reference

theorem outcome_encodeLogged (limits : Limits) (scope : Scope) (type : TypeExpr) :
    (encodeLogged limits scope type).outcome = encode limits scope type := by
  unfold encodeLogged
  simp only [Logged.outcome_bind, Logged.outcome_ofExcept, Logged.outcome_note, Logged.outcome_pure]
  cases encode limits scope type with
  | error e => rfl
  | ok text => rfl

theorem outcome_canonicalLogged (limits : Limits) (scope : Scope) (text : String) :
    (canonicalLogged limits scope text).outcome = canonical limits scope text := by
  unfold canonicalLogged canonical
  simp only [Logged.outcome_bind, Logged.outcome_ofExcept, outcome_encodeLogged]

theorem canonical_eq_ok_iff (limits : Limits) (scope : Scope) (text spelling : String) :
    canonical limits scope text = .ok spelling ↔
      ∃ type, decode limits scope text = .ok type ∧ encode limits scope type = .ok spelling := by
  unfold canonical
  constructor
  · intro h
    exact exists_of_bind_eq_ok h
  · intro h
    obtain ⟨type, hdecode, hencode⟩ := h
    rw [hdecode]
    exact hencode

/-- What is decoded is in normal form, in whatever form the scope has its types. -/
theorem normalize_of_decode {limits : Limits} {scope : Scope} {text : String} {type : TypeExpr}
    (h : decode limits scope text = .ok type) : type.normalize = type := by
  unfold decode at h
  split at h
  · cases h
  · split at h
    · cases h
    · split at h
      · cases h
      · cases h
        exact TypeExpr.normalize_normalize _

theorem encode_normalize (limits : Limits) (scope : Scope) (type : TypeExpr) :
    encode limits scope type.normalize = encode limits scope type := by
  unfold encode
  rw [TypeExpr.normalize_normalize]

/-- The reference of a type is its own canonical spelling. -/
theorem canonical_of_encode {limits : Limits} {scope : Scope}
    (hscope : ∀ type name, scope.nameOf type = some name →
      IsName name ∧ scope.resolve name = some type)
    (hnames : ∀ name type, scope.resolve name = some type → IsName name) {type : TypeExpr}
    {text : String} (h : encode limits scope type = .ok text) :
    canonical limits scope text = .ok text := by
  rw [canonical_eq_ok_iff]
  refine ⟨type.normalize, decode_of_encode hscope hnames h, ?_⟩
  rw [encode_normalize, h]

/-- In a registry that some run leads to, the canonical spelling of a reference denotes what the
reference denotes, and spelling it once more changes nothing. -/
theorem canonical_fixpoint (r : Registry) (hr : r.Reached) (limits : Limits)
    (text spelling : String) (h : (canonicalLogged limits r.scope text).outcome = .ok spelling) :
    (∃ type, decode limits r.scope text = .ok type ∧ decode limits r.scope spelling = .ok type) ∧
      (canonicalLogged limits r.scope spelling).outcome = .ok spelling := by
  rw [outcome_canonicalLogged] at h ⊢
  obtain ⟨type, hdecode, hencode⟩ := (canonical_eq_ok_iff limits r.scope text spelling).mp h
  have hback : decode limits r.scope spelling = .ok type.normalize :=
    decode_of_encode hr.resolve_of_nameOf hr.isName hencode
  rw [normalize_of_decode hdecode] at hback
  exact ⟨⟨type, hdecode, hback⟩, canonical_of_encode hr.resolve_of_nameOf hr.isName hencode⟩

/-- Lowercase heads, an alias, `Optional`, a pipe, a repeated member and double quotes at once. -/
theorem canonical_fixpoint_rows :
    rows.Reached ∧
      (canonicalLogged ⟨100, 3⟩ rows.scope
          "dict[list[db.Cell], Optional[Literal[\"it's\",]] | None]").outcome =
        .ok "Dict[db.Row, Union[Literal['it\\'s'], None]]" ∧
      (∃ type,
        decode ⟨100, 3⟩ rows.scope
            "dict[list[db.Cell], Optional[Literal[\"it's\",]] | None]" = .ok type ∧
          decode ⟨100, 3⟩ rows.scope "Dict[db.Row, Union[Literal['it\\'s'], None]]" = .ok type) ∧
      (canonicalLogged ⟨100, 3⟩ rows.scope
          "Dict[db.Row, Union[Literal['it\\'s'], None]]").outcome =
        .ok "Dict[db.Row, Union[Literal['it\\'s'], None]]" := by
  have hr : rows.Reached := ⟨_, _, rfl⟩
  have h : (canonicalLogged ⟨100, 3⟩ rows.scope
      "dict[list[db.Cell], Optional[Literal[\"it's\",]] | None]").outcome =
      .ok "Dict[db.Row, Union[Literal['it\\'s'], None]]" := by
    decide +kernel
  exact ⟨hr, h, canonical_fixpoint rows hr ⟨100, 3⟩ _ _ h⟩

end Callable.Reference
