import Callable.Proofs.Docs.Default
import Callable.Proofs.TypeExpr.Expansion

/-!
Text defaults as values of types. A text is taken for the value of the first type that it fits, so what
comes of it fits the documented type. Literals are the exception: they take any text as it stands and do
not look whether they list it, so a text that a literal does not list may come through unchanged.
-/
namespace Callable

namespace TypeExpr

def IsJudged : TypeExpr → Prop
  | none => True
  | builtin b => b = .int ∨ b = .float ∨ b = .bool ∨ b = .str
  | union _ => True
  | literal _ => True
  | _ => False

/-- The value is one of the type. -/
inductive Admits : TypeExpr → Json → Prop
  | null : Admits none .null
  | int (n : Int) : Admits (builtin .int) (.int n)
  | float (x : Decimal.Binary) : Admits (builtin .float) (.float x)
  | whole (n : Int) : Admits (builtin .float) (.int n)
  | bool (b : Bool) : Admits (builtin .bool) (.bool b)
  | str (s : String) : Admits (builtin .str) (.str s)
  | listed {values : List Literal} {value : Literal} :
      value ∈ values → Admits (literal values) value.toJson
  | member {types : List TypeExpr} {type : TypeExpr} {value : Json} :
      type ∈ types → Admits type value → Admits (union types) value
  | any {type : TypeExpr} (value : Json) : ¬ type.IsJudged → Admits type value

theorem admits_literal_iff {values : List Literal} {value : Json} :
    (literal values).Admits value ↔ ∃ v ∈ values, v.toJson = value := by
  constructor
  · intro h
    cases h with
    | listed hmem => exact ⟨_, hmem, rfl⟩
    | any _ hopen => exact absurd trivial hopen
  · rintro ⟨v, hv, rfl⟩
    exact .listed hv

/-- A type admits what its parts admit, with unions taken apart. -/
theorem admits_iff_expanded (type : TypeExpr) (value : Json) :
    type.Admits value ↔ ∃ part ∈ type.expanded, part.Admits value := by
  induction type with
  | union types ih =>
    simp only [expanded_union, List.mem_flatMap]
    constructor
    · intro h
      cases h with
      | member htype h =>
        obtain ⟨part, hpart, hadmits⟩ := (ih _ htype).mp h
        exact ⟨part, ⟨_, htype, hpart⟩, hadmits⟩
      | any _ hopen => exact absurd trivial hopen
    · rintro ⟨part, ⟨type, htype, hpart⟩, hadmits⟩
      exact .member htype ((ih type htype).mpr ⟨part, hpart, hadmits⟩)
  | _ => simp [expanded]

end TypeExpr

namespace Docs

/-- The value is what the text says, read in one of the ways that a type may ask for. -/
inductive StandsFor (text : String) : Json → Prop
  | null : text = "None" → StandsFor text .null
  | int {n : Int} : Decimal.integer? text.toList = some n → StandsFor text (.int n)
  | float {x : Decimal.Binary} :
      Decimal.Format.double.real? text.toList = some x → StandsFor text (.float x)
  | true : text = "True" ∨ text = "true" → StandsFor text (.bool true)
  | false : text = "False" ∨ text = "false" → StandsFor text (.bool false)
  | str : StandsFor text (.str text)

section Coerce

variable {text : String} {value : Json}

/-- The text stays as it is, and the type has a literal that may have taken it. -/
def Slips (text : String) (type : TypeExpr) (value : Json) : Prop :=
  value = .str text ∧ ∃ values, .literal values ∈ type.expanded

/-- What comes of a text fits the type, unless it is the text itself, taken by a literal. -/
structure Coerced (text : String) (type : TypeExpr) (value : Json) : Prop where
  stands : StandsFor text value
  admits : type.Admits value ∨ Slips text type value

theorem coerced_literal (text : String) (values : List Literal) :
    Coerced text (.literal values) (.str text) where
  stands := .str
  admits := by
    refine Or.inr ⟨rfl, values, ?_⟩
    rw [TypeExpr.expanded_of_not_isUnion (by rintro ⟨types, heq⟩; cases heq)]
    exact List.mem_singleton_self _

theorem coerced_any {type : TypeExpr} (h : ¬ type.IsJudged) : Coerced text type (.str text) :=
  ⟨.str, Or.inl (.any _ h)⟩

theorem coerced_builtin {b : Builtin} (h : coerce text (.builtin b) = .ok value) :
    Coerced text (.builtin b) value := by
  cases b with
  | int =>
    unfold coerce at h
    split at h <;> cases h
    rename_i n hn
    exact ⟨.int hn, Or.inl (.int n)⟩
  | float =>
    unfold coerce at h
    split at h <;> cases h
    rename_i x hx
    exact ⟨.float hx, Or.inl (.float x)⟩
  | bool =>
    unfold coerce at h
    split at h
    · rename_i hyes
      cases h
      exact ⟨.true hyes, Or.inl (.bool _)⟩
    · split at h <;> cases h
      rename_i hno
      exact ⟨.false hno, Or.inl (.bool _)⟩
  | str =>
    cases h
    exact ⟨.str, Or.inl (.str text)⟩
  | _ =>
    cases h
    exact coerced_any (by simp [TypeExpr.IsJudged])

theorem exists_coerce_of_coerceMember {types : List TypeExpr}
    (h : coerceMember text types = .ok value) :
    ∃ type ∈ types, coerce text type = .ok value := by
  induction types with
  | nil => cases h
  | cons type rest ih =>
    unfold coerceMember at h
    split at h
    · rename_i hnil
      cases hnil
    · rename_i heq
      cases heq
      obtain ⟨other, hother, hvalue⟩ := ih h
      exact ⟨other, List.mem_cons_of_mem _ hother, hvalue⟩
    · rename_i heq
      cases heq
      split at h
      · rename_i hfound
        cases h
        exact ⟨type, List.mem_cons_self, hfound⟩
      · obtain ⟨other, hother, hvalue⟩ := ih h
        exact ⟨other, List.mem_cons_of_mem _ hother, hvalue⟩

theorem Coerced.member {types : List TypeExpr} {type : TypeExpr} (htype : type ∈ types)
    (h : Coerced text type value) : Coerced text (.union types) value where
  stands := h.stands
  admits := by
    refine h.admits.imp (TypeExpr.Admits.member htype) ?_
    rintro ⟨hvalue, values, hvalues⟩
    refine ⟨hvalue, values, ?_⟩
    rw [TypeExpr.expanded_union]
    exact List.mem_flatMap.mpr ⟨type, htype, hvalues⟩

theorem Coerced.not_admits_iff {type : TypeExpr} (h : Coerced text type value) :
    ¬ type.Admits value ↔ value = .str text ∧ (∃ values, .literal values ∈ type.expanded) ∧
      ∀ part ∈ type.expanded, ¬ part.Admits (.str text) := by
  constructor
  · intro hnot
    obtain ⟨rfl, hliteral⟩ := h.admits.resolve_left hnot
    refine ⟨rfl, hliteral, fun part hpart hadmits => hnot ?_⟩
    exact (type.admits_iff_expanded _).mpr ⟨part, hpart, hadmits⟩
  · rintro ⟨rfl, -, hparts⟩ hadmits
    obtain ⟨part, hpart, hadmits⟩ := (type.admits_iff_expanded _).mp hadmits
    exact hparts part hpart hadmits

theorem coerced_of_coerce {type : TypeExpr} (h : coerce text type = .ok value) :
    Coerced text type value := by
  induction type with
  | none =>
    unfold coerce at h
    split at h <;> cases h
    rename_i hnone
    exact ⟨.null hnone, Or.inl .null⟩
  | builtin b => exact coerced_builtin h
  | literal values =>
    cases h
    exact coerced_literal text values
  | union types ih =>
    unfold coerce at h
    split at h
    · rename_i hnone
      cases h
      have hmem : TypeExpr.none ∈ types := by simpa using hnone.2
      exact Coerced.member hmem ⟨.null hnone.1, Or.inl .null⟩
    · obtain ⟨type, htype, hvalue⟩ := exists_coerce_of_coerceMember h
      exact Coerced.member htype (ih type htype hvalue)
  | _ =>
    cases h
    exact coerced_any id

end Coerce

/-- The text that an entry gives as its default: its own, or else the one its description tells. -/
def defaultText? (doc : InputDoc) : Option (List Char) :=
  match doc.default with
  | none => toldDefault? doc
  | some (.str text) => some text.toList
  | some _ => none

theorem documentedDefault_of_defaultText? {doc : InputDoc} {text : List Char}
    (h : defaultText? doc = some text) :
    (documentedDefault doc).2 = some (.str (String.ofList (unquote text))) := by
  unfold defaultText? toldDefault? at h
  unfold documentedDefault
  dsimp only
  cases hfound : extractDefault? (Text.trim (doc.description.getD "").toList) with
  | none =>
    rw [hfound] at h
    cases hdefault : doc.default with
    | none =>
      rw [hdefault] at h
      cases h
    | some own =>
      cases own <;> rw [hdefault] at h <;> cases h
      rfl
  | some found =>
    rw [hfound] at h
    cases hdefault : doc.default with
    | none =>
      rw [hdefault] at h
      cases h
      simp
    | some own =>
      cases own <;> rw [hdefault] at h <;> cases h
      rfl

/-- A text default of a parameter with a type becomes a value that the text stands for. The value is one of
the type, unless it is the text itself without its quotes, the type has a literal to take the text, and no
part of the type admits it. -/
theorem default_admitted {limits : Reference.Limits} {scope : Scope} {doc q : InputDoc}
    {reference : String} {type : TypeExpr} {text : List Char}
    (h : (normalizeInput limits scope doc).outcome = .ok q) (htype : doc.type = some reference)
    (hdecode : Reference.decode limits scope reference = .ok type)
    (htext : defaultText? doc = some text) :
    ∃ value, q.default = some value ∧ StandsFor (String.ofList (unquote text)) value ∧
      (¬ type.Admits value ↔ value = .str (String.ofList (unquote text)) ∧
        (∃ values, .literal values ∈ type.expanded) ∧
        ∀ part ∈ type.expanded, ¬ part.Admits (.str (String.ofList (unquote text)))) := by
  obtain ⟨_, default, ⟨hnone, -, -⟩ | ⟨reference', type', spelling, htype', hdecode', -, -, hfits⟩,
    rfl⟩ := normalizeInput_eq_ok h
  · cases htype.symm.trans hnone
  · cases htype.symm.trans htype'
    cases hdecode.symm.trans hdecode'
    rw [documentedDefault_of_defaultText? htext] at hfits
    unfold fitDefault at hfits
    dsimp only at hfits
    split at hfits <;> cases hfits
    rename_i value hvalue
    have hcoerced := coerced_of_coerce hvalue
    exact ⟨value, rfl, hcoerced.stands, hcoerced.not_admits_iff⟩

/-- Rows by number or all of them, all of them being told in quotes. -/
def rowsDoc : InputDoc where
  name := "rows"
  description := some "The rows, defaults to 'all'."
  type := some "int | Literal['all', 'none'] | None"

def rowsType : TypeExpr := .union [.builtin .int, .literal [.str "all", .str "none"], .none]

theorem default_admitted_rows :
    ∃ q, (normalizeInput ⟨100, 3⟩ (Registry.new "tables").scope rowsDoc).outcome = .ok q ∧
      rowsDoc.type = some "int | Literal['all', 'none'] | None" ∧
      Reference.decode ⟨100, 3⟩ (Registry.new "tables").scope
        "int | Literal['all', 'none'] | None" = .ok rowsType ∧
      defaultText? rowsDoc = some "'all'".toList ∧
      q.default = some (.str "all") ∧ rowsType.Admits (.str "all") := by
  have hdecode : Reference.decode ⟨100, 3⟩ (Registry.new "tables").scope
      "int | Literal['all', 'none'] | None" = .ok rowsType := by
    decide +kernel
  have htext : defaultText? rowsDoc = some "'all'".toList := by decide +kernel
  have hnormal : (normalizeInput ⟨100, 3⟩ (Registry.new "tables").scope rowsDoc).outcome = .ok {
      name := "rows", description := some "The rows."
      type := some "Union[int, Literal['all', 'none'], None]", default := some (.str "all")
      optional := some true, positional := some false } := by
    decide +kernel
  obtain ⟨value, hvalue, -, hadmits⟩ := default_admitted hnormal rfl hdecode htext
  cases hvalue
  refine ⟨_, hnormal, rfl, hdecode, htext, rfl, ?_⟩
  by_contra hnot
  obtain ⟨-, -, hparts⟩ := hadmits.mp hnot
  have hpart : TypeExpr.literal [.str "all", .str "none"] ∈ rowsType.expanded :=
    List.mem_cons_of_mem _ List.mem_cons_self
  exact hparts _ hpart (TypeExpr.admits_literal_iff.mpr ⟨_, List.mem_cons_self, by decide +kernel⟩)

def modeDoc : InputDoc where
  name := "mode"
  type := some "Literal['slow']"
  default := some (.str "fast")

/-- A text default need not be a value of its type. -/
theorem not_default_admitted :
    ¬ ∀ (r : Registry), r.Reached → ∀ (limits : Reference.Limits) (doc q : InputDoc)
      (reference : String) (type : TypeExpr) (text : List Char),
      (normalizeInput limits r.scope doc).outcome = .ok q → doc.type = some reference →
      Reference.decode limits r.scope reference = .ok type → defaultText? doc = some text →
      ∃ value, q.default = some value ∧ type.Admits value := by
  intro hall
  have hr : (Registry.new "tables").Reached := ⟨"tables", [], rfl⟩
  have hnormal : (normalizeInput ⟨100, 3⟩ (Registry.new "tables").scope modeDoc).outcome = .ok {
      name := "mode", type := some "Literal['slow']", default := some (.str "fast")
      optional := some true, positional := some false } := by
    decide +kernel
  obtain ⟨value, hvalue, hadmits⟩ := hall (Registry.new "tables") hr ⟨100, 3⟩ modeDoc _
    "Literal['slow']" (.literal [.str "slow"]) "fast".toList hnormal rfl (by decide +kernel)
    (by decide +kernel)
  cases hvalue
  obtain ⟨v, hv, heq⟩ := TypeExpr.admits_literal_iff.mp hadmits
  cases List.mem_singleton.mp hv
  exact absurd heq (by decide)

end Docs
end Callable
