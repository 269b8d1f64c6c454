import Callable.Proofs.Reference.Agreement
import Callable.Proofs.Registry.Run
import Mathlib.Control.Monad.Basic

/-!
What references are accepted. Each reader is shown to agree with its part of the grammar, from the
values of a literal up to whole types; the depth a reader may still open is the bound of the
derivations. A reference has a type exactly if it is short enough and its tokens derive, and then
the type is the normal form of what the derivation denotes.
-/
namespace Callable.Reference

theorem agrees_literalReader : Agrees id [] literalReader.run ValueDenotes where
  sound := by
    intro input value rest h
    change readLiteral input = _ at h
    unfold readLiteral at h
    split at h
    · simp only at h
      split at h
      · rename_i hfits
        cases h
        exact ⟨_, _, rfl, ValueDenotes.int (Word.toInt_ofInt_of_fitsSigned hfits).symm, rfl⟩
      · cases h
    · cases h
      exact ⟨_, _, rfl, ValueDenotes.str _, rfl⟩
    · cases h
      exact ⟨_, _, rfl, ValueDenotes.yes, rfl⟩
    · cases h
      exact ⟨_, _, rfl, ValueDenotes.no, rfl⟩
    · cases h
      exact ⟨_, _, rfl, ValueDenotes.none, rfl⟩
    · cases h
  complete := by
    intro input tokens value after h hinput _
    cases h with
    | int hn =>
      obtain ⟨_, rest, rfl, hrest⟩ := exists_cons_of_map_token hinput
      refine ⟨_, rest, ?_, hrest, rfl⟩
      simp only [literalReader, readLiteral, hn, Word.fitsSigned_toInt, if_true, Int64.ofInt_toInt]
    | _ =>
      obtain ⟨_, rest, rfl, hrest⟩ := exists_cons_of_map_token hinput
      exact ⟨_, rest, rfl, hrest, rfl⟩

theorem opens_valueDenotes : Opens ValueDenotes := by
  intro tokens value h
  cases h <;> exact ⟨_, _, rfl, by simp⟩

/-- In a scope that knows proper names only, a name alone is read as what it denotes. -/
theorem bareType_eq_ok_iff {scope : Scope}
    (hnames : ∀ name type, scope.resolve name = some type → IsName name) (name : String)
    (type : TypeExpr) : bareType scope name = .ok type ↔ NameDenotes scope name type := by
  constructor
  · intro h
    unfold bareType at h
    split at h
    case h_11 =>
      split at h
      · rename_i b hb
        cases h
        rw [← Builtin.name_of_ofName? hb]
        exact NameDenotes.builtin b
      · split at h
        · rename_i type hresolve
          cases h
          exact NameDenotes.registered hresolve
        · cases h
    all_goals cases h
    · exact NameDenotes.any
    · exact NameDenotes.none
    · exact NameDenotes.someClass
    · exact NameDenotes.list
    · exact NameDenotes.dict
    · exact NameDenotes.set
    · exact NameDenotes.tuple
  · intro h
    cases h with
    | builtin b => cases b <;> rfl
    | registered hresolve =>
      have hname := hnames name type hresolve
      have hwords := hname.not_word
      unfold bareType
      split
      case h_11 =>
        rw [(Builtin.ofName?_eq_none_iff _).mpr hname.not_builtin, hresolve]
      all_goals exact absurd (by decide) hwords
    | _ => rfl

/-- The heads of a form. -/
def Form.heads : Form → List String
  | .list => ["List", "list"]
  | .set => ["Set", "set"]
  | .optional => ["Optional"]
  | .classOf => ["Type", "type"]
  | .dict => ["Dict", "dict"]
  | .tuple => ["Tuple", "tuple"]
  | .union => ["Union"]

theorem Form.ofHead?_eq_some_iff (head : String) (form : Form) :
    Form.ofHead? head = some form ↔ head ∈ form.heads := by
  constructor
  · intro h
    unfold Form.ofHead? at h
    split at h <;> cases h <;> simp [Form.heads]
  · intro h
    cases form <;> simp only [Form.heads, List.mem_cons, List.not_mem_nil, or_false] at h
    case optional => rw [h, Form.ofHead?]
    case union => rw [h, Form.ofHead?]
    all_goals rcases h with rfl | rfl <;> rw [Form.ofHead?]

theorem genericType_eq_ok_iff (head : String) (arguments : List TypeExpr) (type : TypeExpr) :
    genericType head arguments = .ok type ↔
      ∃ form : Form, head ∈ form.heads ∧ form.apply arguments = .ok type := by
  unfold genericType
  cases hform : Form.ofHead? head with
  | none =>
    refine iff_of_false (fun h => by cases h) ?_
    intro happlied
    obtain ⟨form, hhead, -⟩ := happlied
    cases hform.symm.trans ((Form.ofHead?_eq_some_iff head form).mpr hhead)
  | some form =>
    constructor
    · intro h
      refine ⟨form, (Form.ofHead?_eq_some_iff head form).mp hform, ?_⟩
      cases happly : form.apply arguments with
      | error e => simp [happly, Except.mapError] at h
      | ok type' => simpa [happly, Except.mapError] using h
    · intro happlied
      obtain ⟨other, hhead, happly⟩ := happlied
      cases hform.symm.trans ((Form.ofHead?_eq_some_iff head other).mpr hhead)
      simp only [happly, Except.mapError]

open TypeExpr in
/-- A head makes of its arguments what it denotes, up to normal forms. -/
theorem genericType_sound {head : String} {arguments types : List TypeExpr} {type : TypeExpr}
    (hkeys : arguments.map normalize = types.map normalize)
    (h : genericType head arguments = .ok type) :
    ∃ denoted, HeadDenotes head types denoted ∧ type.normalize = denoted.normalize := by
  obtain ⟨form, hhead, happly⟩ := (genericType_eq_ok_iff head arguments type).mp h
  unfold Form.apply at happly
  split at happly <;> cases happly
  · obtain ⟨item, rfl, hitem⟩ := List.map_eq_singleton_iff.mp hkeys.symm
    exact ⟨_, HeadDenotes.list hhead, congrArg list hitem.symm⟩
  · obtain ⟨item, rfl, hitem⟩ := List.map_eq_singleton_iff.mp hkeys.symm
    exact ⟨_, HeadDenotes.set hhead, congrArg set hitem.symm⟩
  · obtain ⟨type, rfl, htype⟩ := List.map_eq_singleton_iff.mp hkeys.symm
    obtain rfl := List.mem_singleton.mp hhead
    exact ⟨_, HeadDenotes.optional, normalize_unionOf_congr (by simp [htype])⟩
  · obtain ⟨type, rfl, htype⟩ := List.map_eq_singleton_iff.mp hkeys.symm
    exact ⟨_, HeadDenotes.classOf hhead, congrArg classOf htype.symm⟩
  · obtain ⟨key, rest, rfl, hkey, hrest⟩ := List.map_eq_cons_iff.mp hkeys.symm
    obtain ⟨value, rfl, hvalue⟩ := List.map_eq_singleton_iff.mp hrest
    exact ⟨_, HeadDenotes.dict hhead, by
      rw [TypeExpr.normalize, TypeExpr.normalize, hkey, hvalue]⟩
  · exact ⟨_, HeadDenotes.tuple hhead, normalize_tuple_congr hkeys⟩
  · obtain rfl := List.mem_singleton.mp hhead
    exact ⟨_, HeadDenotes.union, normalize_unionOf_congr hkeys⟩

open TypeExpr in
theorem genericType_complete {head : String} {arguments types : List TypeExpr} {type : TypeExpr}
    (hkeys : arguments.map normalize = types.map normalize) (h : HeadDenotes head types type) :
    ∃ made, genericType head arguments = .ok made ∧ made.normalize = type.normalize := by
  simp only [genericType_eq_ok_iff]
  cases h with
  | list hhead =>
    obtain ⟨item, rfl, hitem⟩ := List.map_eq_singleton_iff.mp hkeys
    exact ⟨_, ⟨.list, hhead, rfl⟩, congrArg list hitem⟩
  | set hhead =>
    obtain ⟨item, rfl, hitem⟩ := List.map_eq_singleton_iff.mp hkeys
    exact ⟨_, ⟨.set, hhead, rfl⟩, congrArg set hitem⟩
  | optional =>
    obtain ⟨type, rfl, htype⟩ := List.map_eq_singleton_iff.mp hkeys
    exact ⟨_, ⟨.optional, List.mem_singleton_self _, rfl⟩,
      normalize_unionOf_congr (by simp [htype])⟩
  | classOf hhead =>
    obtain ⟨type, rfl, htype⟩ := List.map_eq_singleton_iff.mp hkeys
    exact ⟨_, ⟨.classOf, hhead, rfl⟩, congrArg classOf htype⟩
  | dict hhead =>
    obtain ⟨key, rest, rfl, hkey, hrest⟩ := List.map_eq_cons_iff.mp hkeys
    obtain ⟨value, rfl, hvalue⟩ := List.map_eq_singleton_iff.mp hrest
    exact ⟨_, ⟨.dict, hhead, rfl⟩, by
      rw [TypeExpr.normalize, TypeExpr.normalize, hkey, hvalue]⟩
  | tuple hhead => exact ⟨_, ⟨.tuple, hhead, rfl⟩, normalize_tuple_congr hkeys⟩
  | union =>
    exact ⟨_, ⟨.union, List.mem_singleton_self _, rfl⟩, normalize_unionOf_congr hkeys⟩

theorem head_ne_literal {head : String} {types : List TypeExpr} {type : TypeExpr}
    (h : HeadDenotes head types type) : head ≠ "Literal" := by
  intro hliteral
  cases h with
  | optional => exact absurd hliteral (by decide)
  | union => exact absurd hliteral (by decide)
  | list hhead | set hhead | classOf hhead | dict hhead | tuple hhead =>
    subst hliteral
    simp at hhead

theorem commaList_of_derivesArguments {scope : Scope} {depth : Nat} {tokens : List Token}
    {types : List TypeExpr} (h : DerivesArguments scope depth tokens types) :
    CommaList (DerivesType scope depth) tokens types := by
  match h with
  | .last htype => exact CommaList.last htype
  | .comma htype => exact CommaList.comma htype
  | .more htype htypes => exact CommaList.more htype (commaList_of_derivesArguments htypes)

theorem derivesArguments_of_commaList {scope : Scope} {depth : Nat} {tokens : List Token}
    {types : List TypeExpr} (h : CommaList (DerivesType scope depth) tokens types) :
    DerivesArguments scope depth tokens types := by
  induction h with
  | last htype => exact DerivesArguments.last htype
  | comma htype => exact DerivesArguments.comma htype
  | more htype _ ih => exact DerivesArguments.more htype ih

theorem opens_derivesTerm {scope : Scope} {depth : Nat} : Opens (DerivesTerm scope depth) := by
  intro tokens type h
  cases h <;> exact ⟨_, _, rfl, by simp⟩

theorem opens_derivesType {scope : Scope} {depth : Nat} : Opens (DerivesType scope depth) := by
  intro tokens type h
  cases h with
  | term h => exact opens_derivesTerm tokens type h
  | union h _ =>
    obtain ⟨first, rest, rfl, hfirst⟩ := opens_derivesTerm _ _ h
    exact ⟨first, _, List.cons_append, hfirst⟩

/-- The tokens after the opening bracket of a form. -/
theorem readForm_sound {scope : Scope} {depth : Nat} {inner : Reader TypeExpr}
    (hinner : Agrees TypeExpr.normalize [.openBracket, .pipe] inner.run (DerivesType scope depth))
    {head : String} {input rest : List Lexeme} {type : TypeExpr}
    (h : readForm inner head input = .ok (type, rest)) :
    ∃ tokens denoted, input.map Lexeme.token = tokens ++ rest.map Lexeme.token ∧
      DerivesTerm scope (depth + 1) (.name head :: .openBracket :: tokens) denoted ∧
      type.normalize = denoted.normalize := by
  rcases readForm_eq_ok h with
    ⟨rfl, values, hvalues, rfl⟩ | ⟨hhead, rfl, _, _, _, rfl⟩ | ⟨arguments, hargs, hmade⟩
  · obtain ⟨tokens, literals, htokens, hlist, hkeys⟩ :=
      Reader.arguments_sound agrees_literalReader hvalues
    rw [List.map_id, List.map_id] at hkeys
    subst hkeys
    exact ⟨tokens ++ [.closeBracket], _, by rw [htokens, List.append_assoc]; rfl,
      DerivesTerm.literal hlist, rfl⟩
  · have htuple := (Form.ofHead?_eq_some_iff head .tuple).mp hhead
    exact ⟨[.openParen, .closeParen, .closeBracket], _, rfl, DerivesTerm.emptyTuple htuple, rfl⟩
  · obtain ⟨tokens, types, htokens, hlist, hkeys⟩ := Reader.arguments_sound hinner hargs
    obtain ⟨denoted, hdenotes, hnormal⟩ := genericType_sound hkeys hmade
    exact ⟨tokens ++ [.closeBracket], denoted, by rw [htokens, List.append_assoc]; rfl,
      DerivesTerm.form (derivesArguments_of_commaList hlist) hdenotes, hnormal⟩

theorem readForm_complete {scope : Scope} {depth : Nat} {inner : Reader TypeExpr}
    (hinner : Agrees TypeExpr.normalize [.openBracket, .pipe] inner.run (DerivesType scope depth))
    {head : String} {input : List Lexeme} {tokens after : List Token} {type : TypeExpr}
    (h : DerivesTerm scope (depth + 1) (.name head :: .openBracket :: tokens) type)
    (hinput : input.map Lexeme.token = tokens ++ after) :
    ∃ made rest, readForm inner head input = .ok (made, rest) ∧
      rest.map Lexeme.token = after ∧ made.normalize = type.normalize := by
  cases h with
  | form hargs hdenotes =>
    have hlist := commaList_of_derivesArguments hargs
    rw [List.append_assoc] at hinput
    obtain ⟨found, rest, hfound, hrest, hkeys⟩ :=
      Reader.arguments_complete hinner opens_derivesType (by simp) (by simp) hlist hinput
    obtain ⟨made, hmade, hnormal⟩ := genericType_complete hkeys hdenotes
    refine ⟨made, rest, ?_, hrest, hnormal⟩
    unfold readForm
    rw [if_neg (head_ne_literal hdenotes)]
    split
    · obtain ⟨first, tail, rfl, hfirst⟩ := hlist.opens opens_derivesType
      rw [List.map_cons, List.cons_append] at hinput
      obtain rfl := (List.cons.inj hinput).1
      simp at hfirst
    · simp only [hfound, hmade, Except.map]
  | literal hlist =>
    rw [List.append_assoc] at hinput
    obtain ⟨found, rest, hfound, hrest, hkeys⟩ := Reader.arguments_complete agrees_literalReader
      opens_valueDenotes (by simp) (by simp) hlist hinput
    rw [List.map_id, List.map_id] at hkeys
    subst hkeys
    refine ⟨_, rest, ?_, hrest, rfl⟩
    unfold readForm
    rw [if_pos rfl, hfound]
    rfl
  | emptyTuple hhead =>
    obtain ⟨_, closing, rfl, hclosing⟩ := exists_cons_of_map_token hinput
    obtain ⟨_, ending, rfl, hending⟩ := exists_cons_of_map_token hclosing
    obtain ⟨_, rest, rfl, hrest⟩ := exists_cons_of_map_token hending
    refine ⟨.tuple [], rest, ?_, hrest, rfl⟩
    have hliteral : head ≠ "Literal" := by
      rintro rfl
      simp at hhead
    unfold readForm
    rw [if_neg hliteral, (Form.ofHead?_eq_some_iff head .tuple).mpr hhead]
    rfl

/-- The reader for what stands inside the brackets of a term. -/
def innerReader (scope : Scope) : (depth : Nat) → Option (Reader TypeExpr)
  | 0 => none
  | depth + 1 => some (typeReader scope depth)

theorem typeReader_run (scope : Scope) (depth : Nat) :
    (typeReader scope depth).run =
      readAlternatives (termReader scope (innerReader scope depth)) := by
  cases depth <;> rfl

/-- A term is a name or has its brackets, which count as one level of the depth. -/
theorem derivesTerm_cases {scope : Scope} {depth : Nat} {tokens : List Token} {type : TypeExpr}
    (h : DerivesTerm scope depth tokens type) :
    (∃ name, tokens = [.name name] ∧ NameDenotes scope name type) ∨
      ∃ fewer head inside, depth = fewer + 1 ∧ tokens = .name head :: .openBracket :: inside := by
  cases h with
  | name hname => exact Or.inl ⟨_, rfl, hname⟩
  | form | literal | emptyTuple => exact Or.inr ⟨_, _, _, rfl, rfl⟩

section Scoped

variable {scope : Scope} (hnames : ∀ name type, scope.resolve name = some type → IsName name)

include hnames

theorem agrees_termReader {depth : Nat}
    (hinner : ∀ fewer, depth = fewer + 1 → Agrees TypeExpr.normalize [.openBracket, .pipe]
      (typeReader scope fewer).run (DerivesType scope fewer)) :
    Agrees TypeExpr.normalize [.openBracket] (termReader scope (innerReader scope depth)).run
      (DerivesTerm scope depth) where
  sound := by
    intro input type rest h
    rcases readTerm_eq_ok h with
      ⟨reader, head, _, _, after, hreader, rfl, hform⟩ | ⟨name, _, rfl, hbare⟩
    · cases depth with
      | zero => cases hreader
      | succ fewer =>
        cases hreader
        obtain ⟨tokens, denoted, htokens, hderives, hkey⟩ :=
          readForm_sound (hinner fewer rfl) hform
        exact ⟨_, denoted, by rw [List.map_cons, List.map_cons, htokens]; rfl, hderives, hkey⟩
    · exact ⟨[.name name], type, rfl,
        DerivesTerm.name ((bareType_eq_ok_iff hnames name type).mp hbare), rfl⟩
  complete := by
    intro input tokens type after h hinput hafter
    rcases derivesTerm_cases h with ⟨name, rfl, hname⟩ | ⟨fewer, head, inside, rfl, rfl⟩
    · rw [List.singleton_append] at hinput
      obtain ⟨start, rest, rfl, hrest⟩ := exists_cons_of_map_token hinput
      refine ⟨type, rest, ?_, hrest, rfl⟩
      change readTerm scope (innerReader scope depth) (⟨.name name, start⟩ :: rest) = _
      rw [readTerm, (bareType_eq_ok_iff hnames name type).mpr hname]
      · rfl
      · rintro _ others rfl
        exact hafter _ (hrest ▸ rfl) List.mem_cons_self
    · obtain ⟨start, bracketed, rfl, hbracketed⟩ := exists_cons_of_map_token hinput
      obtain ⟨_, others, rfl, hothers⟩ := exists_cons_of_map_token hbracketed
      exact readForm_complete (hinner fewer rfl) h hothers

/-- Types are read as they derive, at every depth: brackets hold types of one level less. -/
theorem agrees_typeReader (depth : Nat) :
    Agrees TypeExpr.normalize [.openBracket, .pipe] (typeReader scope depth).run
      (DerivesType scope depth) := by
  induction depth using Nat.strongRecOn with
  | ind depth ih =>
    rw [typeReader_run]
    refine agrees_readAlternatives (agrees_termReader hnames ?_)
    intro fewer hdepth
    have hfewer : fewer < depth := by omega
    exact ih fewer hfewer

theorem readWhole_sound {depth : Nat} {input : List Lexeme} {type : TypeExpr}
    (h : readWhole scope depth input = .ok type) :
    ∃ denoted, DerivesType scope depth (input.map Lexeme.token) denoted ∧
      type.normalize = denoted.normalize := by
  unfold readWhole at h
  split at h
  · cases h
  · rename_i hrun
    cases h
    obtain ⟨tokens, denoted, htokens, hderives, hkey⟩ :=
      (agrees_typeReader hnames depth).sound hrun
    rw [List.map_nil, List.append_nil] at htokens
    exact ⟨denoted, htokens ▸ hderives, hkey⟩
  · cases h

theorem readWhole_complete {depth : Nat} {input : List Lexeme} {type : TypeExpr}
    (h : DerivesType scope depth (input.map Lexeme.token) type) :
    ∃ made, readWhole scope depth input = .ok made ∧ made.normalize = type.normalize := by
  obtain ⟨made, rest, hrun, hrest, hkey⟩ := (agrees_typeReader hnames depth).complete h
    (List.append_nil _).symm (avoids_nil _)
  obtain rfl := List.map_eq_nil_iff.mp hrest
  refine ⟨made, ?_, hkey⟩
  rw [readWhole, hrun]

/-- A text is decoded to the normal form of the type that its tokens denote, if they denote one. -/
theorem decode_eq_ok_iff (limits : Limits) (text : String) (value : TypeExpr) :
    decode limits scope text = .ok value ↔ text.utf8ByteSize ≤ limits.maxBytes ∧
      ∃ tokens type, Spells text.toList tokens ∧
        DerivesType scope limits.maxDepth tokens type ∧ value = type.normalize := by
  unfold decode
  constructor
  · intro h
    split at h
    · cases h
    · rename_i hsize
      split at h
      · cases h
      · rename_i input hinput
        split at h
        · cases h
        · rename_i made hmade
          cases h
          obtain ⟨denoted, hderives, hkey⟩ := readWhole_sound hnames hmade
          obtain ⟨-, hspells⟩ := (lexemes_iff text _).mp ⟨input, hinput, rfl⟩
          exact ⟨by omega, _, denoted, hspells, hderives, hkey⟩
  · intro h
    obtain ⟨hsize, tokens, type, hspells, hderives, rfl⟩ := h
    have hne : tokens ≠ [] := by
      obtain ⟨first, rest, rfl, -⟩ := opens_derivesType _ _ hderives
      exact List.cons_ne_nil first rest
    obtain ⟨input, hinput, rfl⟩ := (lexemes_iff text tokens).mpr ⟨hne, hspells⟩
    obtain ⟨made, hmade, hkey⟩ := readWhole_complete hnames hderives
    rw [if_neg (by omega), hinput]
    simp only [hmade, hkey]

/-- All derivations of a text denote types of one normal form. -/
theorem normalize_eq_of_derivesType {depth : Nat} {text : String} {tokens others : List Token}
    {type other : TypeExpr} (hspells : Spells text.toList tokens)
    (hderives : DerivesType scope depth tokens type) (hspells' : Spells text.toList others)
    (hderives' : DerivesType scope depth others other) : type.normalize = other.normalize := by
  have hdecode (value : TypeExpr) :=
    decode_eq_ok_iff hnames ⟨text.utf8ByteSize, depth⟩ text value
  have hfirst := (hdecode _).mpr ⟨Nat.le_refl _, tokens, type, hspells, hderives, rfl⟩
  have hsecond := (hdecode _).mpr ⟨Nat.le_refl _, others, other, hspells', hderives', rfl⟩
  exact Except.ok.inj (hfirst.symm.trans hsecond)

/-- Heads that need brackets denote nothing on their own. -/
theorem not_nameDenotes_head {head : String} (h : head ∈ ["Union", "Optional", "Literal"])
    (type : TypeExpr) : ¬ NameDenotes scope head type := by
  rw [← bareType_eq_ok_iff hnames]
  simp only [List.mem_cons, List.not_mem_nil, or_false] at h
  rcases h with rfl | rfl | rfl <;> rintro ⟨⟩

end Scoped

/-- In a registry that some run leads to, a reference has a type exactly if it is short enough, has
lexemes, and these derive from the grammar with no more brackets open than allowed; the type is the
normal form of what they denote, whatever the derivation. -/
theorem decode_iff_derives (r : Registry) (hr : r.Reached) (limits : Limits) (text : String) :
    (∀ value, decode limits r.scope text = .ok value ↔ text.utf8ByteSize ≤ limits.maxBytes ∧
      ∃ tokens type, Spells text.toList tokens ∧
        DerivesType r.scope limits.maxDepth tokens type ∧ value = type.normalize) ∧
    (∀ tokens type tokens' type',
      Spells text.toList tokens → DerivesType r.scope limits.maxDepth tokens type →
      Spells text.toList tokens' → DerivesType r.scope limits.maxDepth tokens' type' →
      type.normalize = type'.normalize) ∧
    ∀ head ∈ ["Union", "Optional", "Literal"], ∀ type, ¬ NameDenotes r.scope head type := by
  have hnames : ∀ name type, r.scope.resolve name = some type → IsName name := hr.isName
  refine ⟨decode_eq_ok_iff hnames limits text, ?_, fun head hhead => ?_⟩
  · intro tokens type tokens' type' hspells hderives hspells' hderives'
    exact normalize_eq_of_derivesType hnames hspells hderives hspells' hderives'
  · exact not_nameDenotes_head hnames hhead

/-- A registry with an alias of a composite type. -/
def rows : Registry :=
  (Registry.new "tables").afterAll
    [.registerNamed "db.Cell", .register "db.Row" (.list (.named "db.Cell"))]

theorem decode_rows_derives :
    rows.Reached ∧ ∃ tokens type,
      Spells "Tuple[db.Row | None | db.Row, Literal['a'],]".toList tokens ∧
        DerivesType rows.scope 2 tokens type ∧
        type.normalize = .tuple [.union [.list (.named "db.Cell"), .none], .literal [.str "a"]] := by
  have hr : rows.Reached := ⟨_, _, rfl⟩
  have h : decode ⟨100, 2⟩ rows.scope "Tuple[db.Row | None | db.Row, Literal['a'],]" =
      .ok (.tuple [.union [.list (.named "db.Cell"), .none], .literal [.str "a"]]) := by
    decide +kernel
  obtain ⟨-, tokens, type, hspells, hderives, htype⟩ :=
    ((decode_iff_derives rows hr ⟨100, 2⟩ _).1 _).mp h
  exact ⟨hr, tokens, type, hspells, hderives, htype.symm⟩

end Callable.Reference
