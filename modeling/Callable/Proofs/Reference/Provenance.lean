import Callable.Proofs.Reference.Acceptance
import Callable.Proofs.TypeExpr.Leaf

/-!
What a reference takes from its scope. The names in a reference that has a type are reserved words or
names that the scope resolves. The leaves of that type are of the few kinds that references denote in
every scope, or they stand in types that the scope gives to names. Both are read off the derivation of
the reference.
-/
namespace Callable.Reference

open TypeExpr (IsLeaf isLeaf_self)

/-- The leaves that references denote whatever the scope. -/
inductive IsCommon : TypeExpr → Prop
  | any : IsCommon .any
  | none : IsCommon .none
  | builtin (b : Builtin) : IsCommon (.builtin b)
  | someClass : IsCommon .someClass
  | emptyTuple : IsCommon (.tuple [])
  | literal {values : List Literal} : values ≠ [] → IsCommon (.literal values)

/-- A name is reserved or resolved by the scope. -/
def Token.IsKnown (scope : Scope) : Token → Prop
  | .name text => isReserved text = true ∨ ∃ type, scope.resolve text = some type
  | _ => True

/-- Every leaf is common or stands in a type that the scope gives to a name. -/
def Draws (scope : Scope) (type : TypeExpr) : Prop :=
  ∀ leaf, IsLeaf leaf type →
    IsCommon leaf ∨ ∃ name source, scope.resolve name = some source ∧ IsLeaf leaf source

section Scoped

variable {scope : Scope}

theorem IsCommon.parts {leaf : TypeExpr} (h : IsCommon leaf) : leaf.parts = [] := by
  cases h <;> rfl

theorem IsCommon.normalize {leaf : TypeExpr} (h : IsCommon leaf) : IsCommon leaf.normalize := by
  cases h with
  | @literal values hne =>
    obtain ⟨value, rest, rfl⟩ := List.exists_cons_of_ne_nil hne
    have hkept : value ∈ addNew [] (value :: rest) :=
      (mem_addNew _ _ _).mpr (Or.inr List.mem_cons_self)
    exact IsCommon.literal (List.ne_nil_of_mem hkept)
  | any => exact IsCommon.any
  | none => exact IsCommon.none
  | builtin b => exact IsCommon.builtin b
  | someClass => exact IsCommon.someClass
  | emptyTuple => exact IsCommon.emptyTuple

theorem IsCommon.draws {type : TypeExpr} (h : IsCommon type) : Draws scope type := by
  intro leaf hleaf
  obtain rfl := hleaf.eq_of_parts h.parts
  exact Or.inl h

theorem draws_of_parts {type : TypeExpr} (hparts : type.parts ≠ [])
    (h : ∀ part ∈ type.parts, Draws scope part) : Draws scope type := by
  intro leaf hleaf
  obtain ⟨part, hpart, hinner⟩ := hleaf.exists_part hparts
  exact h part hpart leaf hinner

theorem NameDenotes.draws {name : String} {type : TypeExpr} (h : NameDenotes scope name type) :
    Token.IsKnown scope (.name name) ∧ Draws scope type := by
  cases h with
  | any => exact ⟨Or.inl (by decide), IsCommon.any.draws⟩
  | none => exact ⟨Or.inl (by decide), IsCommon.none.draws⟩
  | someClass => exact ⟨Or.inl (by decide), IsCommon.someClass.draws⟩
  | list => exact ⟨Or.inl (by decide), (IsCommon.builtin _).draws⟩
  | dict => exact ⟨Or.inl (by decide), (IsCommon.builtin _).draws⟩
  | set => exact ⟨Or.inl (by decide), (IsCommon.builtin _).draws⟩
  | tuple => exact ⟨Or.inl (by decide), (IsCommon.builtin _).draws⟩
  | builtin b => exact ⟨Or.inl (by cases b <;> decide), (IsCommon.builtin b).draws⟩
  | registered hresolve =>
    exact ⟨Or.inr ⟨type, hresolve⟩, fun leaf hleaf => Or.inr ⟨name, type, hresolve, hleaf⟩⟩

theorem HeadDenotes.isReserved {head : String} {types : List TypeExpr} {type : TypeExpr}
    (h : HeadDenotes head types type) : isReserved head = true := by
  cases h with
  | optional | union => decide
  | list hhead | set hhead | classOf hhead | dict hhead | tuple hhead =>
    simp only [List.mem_cons, List.not_mem_nil, or_false] at hhead
    rcases hhead with rfl | rfl <;> decide

theorem HeadDenotes.draws {head : String} {types : List TypeExpr} {type : TypeExpr}
    (h : HeadDenotes head types type) (hne : types ≠ [])
    (htypes : ∀ t ∈ types, Draws scope t) : Draws scope type := by
  cases h with
  | list | set | classOf | dict | tuple | union => exact draws_of_parts hne htypes
  | optional =>
    refine draws_of_parts (List.cons_ne_nil _ _) (List.forall_mem_cons.mpr ⟨?_, ?_⟩)
    · exact htypes _ List.mem_cons_self
    · exact List.forall_mem_singleton.mpr IsCommon.none.draws

theorem ValueDenotes.isKnown {tokens : List Token} {value : Literal}
    (h : ValueDenotes tokens value) : ∀ token ∈ tokens, token.IsKnown scope := by
  cases h with
  | int | str => exact List.forall_mem_singleton.mpr trivial
  | yes | no | none => exact List.forall_mem_singleton.mpr (Or.inl (by decide))

theorem CommaList.isKnown {tokens : List Token} {values : List Literal}
    (h : CommaList ValueDenotes tokens values) : ∀ token ∈ tokens, token.IsKnown scope := by
  induction h with
  | last hvalue => exact hvalue.isKnown
  | comma hvalue =>
    exact List.forall_mem_append.mpr ⟨hvalue.isKnown, List.forall_mem_singleton.mpr trivial⟩
  | more hvalue _ ih =>
    exact List.forall_mem_append.mpr ⟨hvalue.isKnown, List.forall_mem_cons.mpr ⟨trivial, ih⟩⟩

theorem CommaList.ne_nil {α : Type} {Item : List Token → α → Prop} {tokens : List Token}
    {as : List α} (h : CommaList Item tokens as) : as ≠ [] := by
  cases h <;> exact List.cons_ne_nil _ _

/-- A head, its opening bracket and what stands inside. -/
theorem isKnown_form {head : String} {tokens : List Token} (hhead : isReserved head = true)
    (h : ∀ token ∈ tokens, token.IsKnown scope) :
    ∀ token ∈ .name head :: .openBracket :: (tokens ++ [.closeBracket]),
      Token.IsKnown scope token := by
  refine List.forall_mem_cons.mpr ⟨Or.inl hhead, List.forall_mem_cons.mpr ⟨trivial, ?_⟩⟩
  exact List.forall_mem_append.mpr ⟨h, List.forall_mem_singleton.mpr trivial⟩

mutual

theorem DerivesType.draws {depth : Nat} {tokens : List Token} {type : TypeExpr}
    (h : DerivesType scope depth tokens type) :
    (∀ token ∈ tokens, token.IsKnown scope) ∧ Draws scope type := by
  match h with
  | .term hterm => exact hterm.draws
  | .union hterm hmore =>
    obtain ⟨hknown, hdraws⟩ := hterm.draws
    obtain ⟨hothers, hall⟩ := hmore.draws
    exact ⟨List.forall_mem_append.mpr ⟨hknown, hothers⟩,
      draws_of_parts (List.cons_ne_nil _ _) (List.forall_mem_cons.mpr ⟨hdraws, hall⟩)⟩

theorem DerivesAlternatives.draws {depth : Nat} {tokens : List Token} {types : List TypeExpr}
    (h : DerivesAlternatives scope depth tokens types) :
    (∀ token ∈ tokens, token.IsKnown scope) ∧ ∀ t ∈ types, Draws scope t := by
  match h with
  | .last hterm =>
    obtain ⟨hknown, hdraws⟩ := hterm.draws
    exact ⟨List.forall_mem_cons.mpr ⟨trivial, hknown⟩, List.forall_mem_singleton.mpr hdraws⟩
  | .more hterm hmore =>
    obtain ⟨hknown, hdraws⟩ := hterm.draws
    obtain ⟨hothers, hall⟩ := hmore.draws
    exact ⟨List.forall_mem_cons.mpr ⟨trivial, List.forall_mem_append.mpr ⟨hknown, hothers⟩⟩,
      List.forall_mem_cons.mpr ⟨hdraws, hall⟩⟩

theorem DerivesTerm.draws {depth : Nat} {tokens : List Token} {type : TypeExpr}
    (h : DerivesTerm scope depth tokens type) :
    (∀ token ∈ tokens, token.IsKnown scope) ∧ Draws scope type := by
  match h with
  | .name hname =>
    obtain ⟨hknown, hdraws⟩ := hname.draws
    exact ⟨List.forall_mem_singleton.mpr hknown, hdraws⟩
  | .form hargs hdenotes =>
    obtain ⟨hknown, hall⟩ := hargs.draws
    have hne := (commaList_of_derivesArguments hargs).ne_nil
    exact ⟨isKnown_form hdenotes.isReserved hknown, hdenotes.draws hne hall⟩
  | .literal hvalues =>
    exact ⟨isKnown_form (by decide) hvalues.isKnown, (IsCommon.literal hvalues.ne_nil).draws⟩
  | @DerivesTerm.emptyTuple _ _ head hhead =>
    have hdenotes : HeadDenotes head [] (.tuple []) := HeadDenotes.tuple hhead
    have hreserved : isReserved head = true := hdenotes.isReserved
    refine ⟨?_, IsCommon.emptyTuple.draws⟩
    have hparens : ∀ token ∈ [Token.openParen, .closeParen], token.IsKnown scope := by
      intro token htoken
      simp only [List.mem_cons, List.not_mem_nil, or_false] at htoken
      rcases htoken with rfl | rfl <;> trivial
    exact isKnown_form hreserved hparens

theorem DerivesArguments.draws {depth : Nat} {tokens : List Token} {types : List TypeExpr}
    (h : DerivesArguments scope depth tokens types) :
    (∀ token ∈ tokens, token.IsKnown scope) ∧ ∀ t ∈ types, Draws scope t := by
  match h with
  | .last htype =>
    obtain ⟨hknown, hdraws⟩ := htype.draws
    exact ⟨hknown, List.forall_mem_singleton.mpr hdraws⟩
  | .comma htype =>
    obtain ⟨hknown, hdraws⟩ := htype.draws
    exact ⟨List.forall_mem_append.mpr ⟨hknown, List.forall_mem_singleton.mpr trivial⟩,
      List.forall_mem_singleton.mpr hdraws⟩
  | .more htype hmore =>
    obtain ⟨hknown, hdraws⟩ := htype.draws
    obtain ⟨hothers, hall⟩ := hmore.draws
    exact ⟨List.forall_mem_append.mpr ⟨hknown, List.forall_mem_cons.mpr ⟨trivial, hothers⟩⟩,
      List.forall_mem_cons.mpr ⟨hdraws, hall⟩⟩

end

variable (hnames : ∀ name type, scope.resolve name = some type → IsName name)

include hnames

/-- The names in a reference that has a type are reserved or resolved. -/
theorem isKnown_of_decode {limits : Limits} {text : String} {value : TypeExpr}
    (h : decode limits scope text = .ok value) :
    ∃ found, lexemes text = .ok found ∧ ∀ lexeme ∈ found, lexeme.token.IsKnown scope := by
  obtain ⟨-, tokens, type, hspells, hderives, -⟩ := (decode_eq_ok_iff hnames limits text value).mp h
  obtain ⟨first, rest, heq, -⟩ := opens_derivesType _ _ hderives
  have hne : tokens ≠ [] := heq ▸ List.cons_ne_nil first rest
  obtain ⟨found, hfound, rfl⟩ := (lexemes_iff text tokens).mpr ⟨hne, hspells⟩
  exact ⟨found, hfound, List.forall_mem_map.mp hderives.draws.1⟩

/-- The leaves of a type that a reference denotes are common, or normal forms of leaves that stand in
types of names. -/
theorem isLeaf_of_decode {limits : Limits} {text : String} {value leaf : TypeExpr}
    (h : decode limits scope text = .ok value) (hleaf : IsLeaf leaf value) :
    IsCommon leaf ∨ ∃ name source original, scope.resolve name = some source ∧
      IsLeaf original source ∧ original.normalize = leaf := by
  obtain ⟨-, tokens, type, -, hderives, rfl⟩ := (decode_eq_ok_iff hnames limits text value).mp h
  obtain ⟨original, horiginal, rfl⟩ := hleaf.of_normalize
  rcases hderives.draws.2 original horiginal with hcommon | ⟨name, source, hresolve, hsource⟩
  · exact Or.inl hcommon.normalize
  · exact Or.inr ⟨name, source, original, hresolve, hsource, rfl⟩

end Scoped
end Callable.Reference
