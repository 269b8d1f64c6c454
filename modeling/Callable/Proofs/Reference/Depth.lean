import Callable.Proofs.Reference.Acceptance

/-!
The depth of a reference. How many brackets are open at once can be counted on the tokens, before they
are read. A derivation needs as much depth as its tokens have, and any more will do. So the two limits are
conditions on the text alone: a reference has a type exactly if it is within them and has one at all.
-/
namespace Callable.Reference

/-- The greatest number of brackets open at once in some tokens, with `opened` open before them. -/
def deepest (opened : Nat) : List Token → Nat
  | [] => opened
  | token :: rest =>
    if token = .openBracket then deepest (opened + 1) rest
    else if token = .closeBracket then max opened (deepest (opened - 1) rest)
    else deepest opened rest

theorem le_deepest (opened : Nat) (tokens : List Token) : opened ≤ deepest opened tokens := by
  induction tokens generalizing opened with
  | nil => exact Nat.le_refl opened
  | cons token rest ih =>
    rw [deepest]
    split
    · exact Nat.le_of_succ_le (ih (opened + 1))
    · split
      · exact Nat.le_max_left _ _
      · exact ih opened

/-- The tokens close the brackets they open, of which `depth` are open at once. -/
def HasDepth (tokens : List Token) (depth : Nat) : Prop :=
  ∀ opened after, deepest opened (tokens ++ after) = max (opened + depth) (deepest opened after)

namespace HasDepth

variable {tokens more : List Token} {depth depth' : Nat}

theorem deepest_eq (h : HasDepth tokens depth) : deepest 0 tokens = depth := by
  have hall := h 0 []
  rw [List.append_nil, deepest] at hall
  omega

theorem nil : HasDepth [] 0 := by
  intro opened after
  exact (Nat.max_eq_right (le_deepest opened after)).symm

theorem append (h : HasDepth tokens depth) (hmore : HasDepth more depth') :
    HasDepth (tokens ++ more) (max depth depth') := by
  intro opened after
  rw [List.append_assoc, h, hmore]
  omega

/-- A token that is no bracket. -/
theorem cons (h : HasDepth tokens depth) {token : Token} (hopen : token ≠ .openBracket)
    (hclose : token ≠ .closeBracket) : HasDepth (token :: tokens) depth := by
  intro opened after
  rw [List.cons_append, deepest, if_neg hopen, if_neg hclose, h]

theorem form (h : HasDepth tokens depth) (head : String) :
    HasDepth (.name head :: .openBracket :: (tokens ++ [.closeBracket])) (depth + 1) := by
  refine HasDepth.cons ?_ (by simp) (by simp)
  intro opened after
  rw [List.cons_append, List.append_assoc, deepest, if_pos rfl, h, List.singleton_append, deepest,
    if_neg (by simp), if_pos rfl, Nat.add_sub_cancel]
  omega

end HasDepth

/-- Tokens derive within a depth if they do so within the depth they have. -/
def DerivesAtNeed (derives : Nat → Prop) (tokens : List Token) (depth : Nat) : Prop :=
  ∃ needed ≤ depth, HasDepth tokens needed ∧ ∀ room, needed ≤ room → derives room

theorem ValueDenotes.hasDepth {tokens : List Token} {value : Literal}
    (h : ValueDenotes tokens value) : HasDepth tokens 0 := by
  cases h <;> exact HasDepth.nil.cons (by simp) (by simp)

theorem CommaList.hasDepth {tokens : List Token} {values : List Literal}
    (h : CommaList ValueDenotes tokens values) : HasDepth tokens 0 := by
  have hcomma : HasDepth [.comma] 0 := HasDepth.nil.cons (by simp) (by simp)
  induction h with
  | last hvalue => exact hvalue.hasDepth
  | comma hvalue => exact hvalue.hasDepth.append hcomma
  | more hvalue _ ih => exact hvalue.hasDepth.append (ih.cons (by simp) (by simp))

mutual

theorem DerivesType.atNeed {scope : Scope} {depth : Nat} {tokens : List Token} {type : TypeExpr}
    (h : DerivesType scope depth tokens type) :
    DerivesAtNeed (DerivesType scope · tokens type) tokens depth := by
  match h with
  | .term hterm =>
    obtain ⟨needed, hle, hdepth, hroom⟩ := hterm.atNeed
    exact ⟨needed, hle, hdepth, fun room hneed => DerivesType.term (hroom room hneed)⟩
  | .union hterm hmore =>
    obtain ⟨needed, hle, hdepth, hroom⟩ := hterm.atNeed
    obtain ⟨others, hle', hdepth', hroom'⟩ := hmore.atNeed
    refine ⟨max needed others, by omega, hdepth.append hdepth', fun room hneed => ?_⟩
    exact DerivesType.union (hroom room (by omega)) (hroom' room (by omega))

theorem DerivesAlternatives.atNeed {scope : Scope} {depth : Nat} {tokens : List Token}
    {types : List TypeExpr} (h : DerivesAlternatives scope depth tokens types) :
    DerivesAtNeed (DerivesAlternatives scope · tokens types) tokens depth := by
  match h with
  | .last hterm =>
    obtain ⟨needed, hle, hdepth, hroom⟩ := hterm.atNeed
    exact ⟨needed, hle, hdepth.cons (by simp) (by simp),
      fun room hneed => DerivesAlternatives.last (hroom room hneed)⟩
  | .more hterm hmore =>
    obtain ⟨needed, hle, hdepth, hroom⟩ := hterm.atNeed
    obtain ⟨others, hle', hdepth', hroom'⟩ := hmore.atNeed
    refine ⟨max needed others, by omega, (hdepth.append hdepth').cons (by simp) (by simp),
      fun room hneed => ?_⟩
    exact DerivesAlternatives.more (hroom room (by omega)) (hroom' room (by omega))

theorem DerivesTerm.atNeed {scope : Scope} {depth : Nat} {tokens : List Token} {type : TypeExpr}
    (h : DerivesTerm scope depth tokens type) :
    DerivesAtNeed (DerivesTerm scope · tokens type) tokens depth := by
  match h with
  | .name hname =>
    exact ⟨0, Nat.zero_le _, HasDepth.nil.cons (by simp) (by simp),
      fun room _ => DerivesTerm.name hname⟩
  | .form hargs hdenotes =>
    obtain ⟨needed, hle, hdepth, hroom⟩ := hargs.atNeed
    refine ⟨needed + 1, by omega, hdepth.form _, fun room hneed => ?_⟩
    obtain ⟨inside, rfl⟩ := Nat.exists_eq_add_of_le' hneed
    exact DerivesTerm.form (hroom (inside + needed) (by omega)) hdenotes
  | .literal hvalues =>
    refine ⟨1, by omega, hvalues.hasDepth.form _, fun room hneed => ?_⟩
    obtain ⟨inside, rfl⟩ := Nat.exists_eq_add_of_le' hneed
    exact DerivesTerm.literal hvalues
  | .emptyTuple hhead =>
    have hparens : HasDepth [.openParen, .closeParen] 0 :=
      (HasDepth.nil.cons (by simp) (by simp)).cons (by simp) (by simp)
    refine ⟨1, by omega, hparens.form _, fun room hneed => ?_⟩
    obtain ⟨inside, rfl⟩ := Nat.exists_eq_add_of_le' hneed
    exact DerivesTerm.emptyTuple hhead

theorem DerivesArguments.atNeed {scope : Scope} {depth : Nat} {tokens : List Token}
    {types : List TypeExpr} (h : DerivesArguments scope depth tokens types) :
    DerivesAtNeed (DerivesArguments scope · tokens types) tokens depth := by
  match h with
  | .last htype =>
    obtain ⟨needed, hle, hdepth, hroom⟩ := htype.atNeed
    exact ⟨needed, hle, hdepth, fun room hneed => DerivesArguments.last (hroom room hneed)⟩
  | .comma htype =>
    obtain ⟨needed, hle, hdepth, hroom⟩ := htype.atNeed
    have hcomma : HasDepth [.comma] 0 := HasDepth.nil.cons (by simp) (by simp)
    refine ⟨needed, hle, ?_, fun room hneed => DerivesArguments.comma (hroom room hneed)⟩
    have hall := hdepth.append hcomma
    rwa [Nat.max_eq_left (Nat.zero_le needed)] at hall
  | .more htype hmore =>
    obtain ⟨needed, hle, hdepth, hroom⟩ := htype.atNeed
    obtain ⟨others, hle', hdepth', hroom'⟩ := hmore.atNeed
    refine ⟨max needed others, by omega, hdepth.append (hdepth'.cons (by simp) (by simp)),
      fun room hneed => ?_⟩
    exact DerivesArguments.more (hroom room (by omega)) (hroom' room (by omega))

end

/-- Tokens that derive a type within some depth do so within exactly the depths that they do not
exceed. -/
theorem derivesType_iff {scope : Scope} {wide depth : Nat} {tokens : List Token} {type : TypeExpr}
    (h : DerivesType scope wide tokens type) :
    DerivesType scope depth tokens type ↔ deepest 0 tokens ≤ depth := by
  constructor
  · intro hderives
    obtain ⟨needed, hle, hdepth, -⟩ := hderives.atNeed
    rwa [hdepth.deepest_eq]
  · intro hle
    obtain ⟨needed, -, hdepth, hroom⟩ := h.atNeed
    rw [hdepth.deepest_eq] at hle
    exact hroom depth hle

/-- The greatest number of brackets open at once in a text; a text without lexemes has none. -/
def bracketDepth (text : String) : Nat :=
  match lexemes text with
  | .ok found => deepest 0 (found.map Lexeme.token)
  | .error _ => 0

/-- The text is no longer and no deeper than allowed. -/
structure Limits.Admits (limits : Limits) (text : String) : Prop where
  bytes : text.utf8ByteSize ≤ limits.maxBytes
  depth : bracketDepth text ≤ limits.maxDepth

/-- The text spells a type with at most `depth` brackets open at once. -/
def Denotes (scope : Scope) (depth : Nat) (text : String) (type : TypeExpr) : Prop :=
  ∃ tokens, Spells text.toList tokens ∧ DerivesType scope depth tokens type

theorem bracketDepth_eq {text : String} {tokens : List Token} (hne : tokens ≠ [])
    (h : Spells text.toList tokens) : bracketDepth text = deepest 0 tokens := by
  obtain ⟨found, hfound, rfl⟩ := (lexemes_iff text tokens).mpr ⟨hne, h⟩
  rw [bracketDepth, hfound]

theorem DerivesType.ne_nil {scope : Scope} {depth : Nat} {tokens : List Token} {type : TypeExpr}
    (h : DerivesType scope depth tokens type) : tokens ≠ [] := by
  obtain ⟨first, rest, rfl, -⟩ := opens_derivesType tokens type h
  exact List.cons_ne_nil first rest

/-- What a text denotes is what it is decoded to under all limits that admit the text, and under no
others. -/
theorem decode_eq_ok_iff_admits {scope : Scope}
    (hnames : ∀ name type, scope.resolve name = some type → IsName name) {depth : Nat}
    {text : String} {type : TypeExpr} (h : Denotes scope depth text type) (limits : Limits) :
    decode limits scope text = .ok type.normalize ↔ limits.Admits text := by
  obtain ⟨tokens, hspells, hderives⟩ := h
  have hdepth := bracketDepth_eq hderives.ne_nil hspells
  rw [decode_eq_ok_iff hnames]
  constructor
  · intro hdecode
    obtain ⟨hbytes, others, other, hspells', hderives', -⟩ := hdecode
    refine ⟨hbytes, ?_⟩
    rw [bracketDepth_eq hderives'.ne_nil hspells']
    exact (derivesType_iff hderives').mp hderives'
  · intro hadmits
    have hfits := hadmits.depth
    rw [hdepth] at hfits
    exact ⟨hadmits.bytes, tokens, type, hspells, (derivesType_iff hderives).mpr hfits, rfl⟩

theorem exists_denotes_of_decode {scope : Scope}
    (hnames : ∀ name type, scope.resolve name = some type → IsName name) {limits : Limits}
    {text : String} {value : TypeExpr} (h : decode limits scope text = .ok value) :
    ∃ type, Denotes scope limits.maxDepth text type ∧ type.normalize = value := by
  obtain ⟨-, tokens, type, hspells, hderives, rfl⟩ := (decode_eq_ok_iff hnames _ _ _).mp h
  exact ⟨type, ⟨tokens, hspells, hderives⟩, rfl⟩

end Callable.Reference
