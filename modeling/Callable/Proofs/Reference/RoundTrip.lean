import Callable.Proofs.Reference.Acceptance
import Callable.Proofs.Reference.Heredity

/-!
References read back. What is written for a type spells tokens that derive exactly that type, and
opens no more brackets than the writer has counted. The writer adds to a text piece by piece, so a
piece is tied to its tokens whatever follows it, as long as no name or integer goes on.
-/
namespace Callable.Reference

/-- The text spells the tokens before all that does not continue a name. -/
def Writes (text : List Char) (tokens : List Token) : Prop :=
  ∀ rest more, Stops continuesName rest → Spells rest more →
    Spells (text ++ rest) (tokens ++ more)

/-- The text spells the tokens before all that follows. -/
def WritesClosed (text : List Char) (tokens : List Token) : Prop :=
  ∀ rest more, Spells rest more → Spells (text ++ rest) (tokens ++ more)

theorem WritesClosed.writes {text : List Char} {tokens : List Token}
    (h : WritesClosed text tokens) : Writes text tokens := fun rest more _ => h rest more

theorem WritesClosed.append {text more : List Char} {tokens others : List Token}
    (h : WritesClosed text tokens) (h' : WritesClosed more others) :
    WritesClosed (text ++ more) (tokens ++ others) := by
  intro rest after hrest
  rw [List.append_assoc, List.append_assoc]
  exact h _ _ (h' rest after hrest)

theorem Writes.spells {text : List Char} {tokens : List Token} (h : Writes text tokens) :
    Spells text tokens := by
  have hall := h [] [] (by rintro _ ⟨⟩) Spells.nil
  rwa [List.append_nil, List.append_nil] at hall

/-- A mark closes what stands before it. -/
theorem Writes.mark {text : List Char} {tokens : List Token} (h : Writes text tokens) {c : Char}
    {token : Token} (hmark : punctuation? c = some token) (hc : continuesName c = false) :
    WritesClosed (text ++ [c]) (tokens ++ [token]) := by
  intro rest more hrest
  rw [List.append_assoc, List.append_assoc]
  refine h _ _ ?_ (Spells.mark hmark hrest)
  rintro _ ⟨⟩
  exact hc

theorem WritesClosed.space {text : List Char} {tokens : List Token}
    (h : WritesClosed text tokens) : WritesClosed (text ++ [' ']) tokens := by
  intro rest more hrest
  rw [List.append_assoc]
  exact h _ _ (Spells.space rfl hrest)

theorem isDigit_stops {rest : List Char} (h : Stops continuesName rest) :
    Stops Char.isDigit rest := by
  intro c hc
  have hname := h c hc
  unfold continuesName Char.isAlphanum at hname
  simp only [Bool.or_eq_false_iff] at hname
  exact hname.1.1.2

theorem writes_name {name : String} (h : IsDotted name.toList) :
    Writes name.toList [.name name] := by
  intro rest more hstops hrest
  have hspells := Spells.name h hstops hrest
  rwa [String.ofList_toList] at hspells

theorem writes_number {text : String} (h : IsNumeral text.toList) :
    Writes text.toList [.number text] := by
  intro rest more hstops hrest
  have hspells := Spells.number h (isDigit_stops hstops) hrest
  rwa [String.ofList_toList] at hspells

theorem quotes_escapeQuoted (text : List Char) :
    Quotes '\'' (text.flatMap escapeQuoted) text := by
  induction text with
  | nil => exact Quotes.nil
  | cons c rest ih =>
    rw [List.flatMap_cons]
    unfold escapeQuoted
    split
    · exact Quotes.escaped '\\' ih
    · exact Quotes.escaped '\'' ih
    · exact Quotes.escaped 'n' ih
    · exact Quotes.escaped 't' ih
    · rename_i hbackslash hquote _ _
      exact Quotes.plain hbackslash hquote ih

theorem integerOf_digits {digits : List Char} (h : ∀ d ∈ digits, d.isDigit = true) :
    integerOf digits = Nat.ofDigitChars 10 digits 0 := by
  unfold integerOf
  split
  · have := h '-' List.mem_cons_self
    cases this
  · rfl

/-- An integer is written as a numeral that stands for it. -/
theorem toString_int (n : Int) :
    IsNumeral (toString n).toList ∧ integerOf (toString n).toList = n := by
  have hdigits (m : Nat) : ∀ d ∈ Nat.toDigits 10 m, d.isDigit = true :=
    fun d hd => Nat.isDigit_of_mem_toDigits (by omega) (by omega) hd
  cases n with
  | ofNat m =>
    have htext : (toString (Int.ofNat m)).toList = Nat.toDigits 10 m := Nat.toList_repr
    rw [htext, integerOf_digits (hdigits m), Nat.ofDigitChars_ten_toDigits]
    exact ⟨IsNumeral.positive Nat.toDigits_ne_nil (hdigits m), rfl⟩
  | negSucc m =>
    have htext : (toString (Int.negSucc m)).toList = '-' :: Nat.toDigits 10 (m + 1) := by
      change ("-" ++ (m + 1).repr).toList = _
      rw [String.toList_append, Nat.toList_repr]
      rfl
    rw [htext, integerOf, Nat.ofDigitChars_ten_toDigits]
    exact ⟨IsNumeral.negative Nat.toDigits_ne_nil (hdigits (m + 1)), rfl⟩

theorem spellLiteral_spec (value : Literal) :
    ∃ tokens, Writes (spellLiteral value).toList tokens ∧ ValueDenotes tokens value := by
  cases value with
  | int n =>
    obtain ⟨hnumeral, hvalue⟩ := toString_int n.toInt
    exact ⟨_, writes_number hnumeral, ValueDenotes.int hvalue⟩
  | str s =>
    refine ⟨[.quoted s], ?_, ValueDenotes.str s⟩
    intro rest more _ hrest
    have hspells := Spells.quoted (Or.inl rfl) (quotes_escapeQuoted s.toList) hrest
    rw [String.ofList_toList] at hspells
    simpa [spellLiteral] using hspells
  | bool b =>
    cases b with
    | true => exact ⟨_, writes_name (isDotted_reserved (by decide)), ValueDenotes.yes⟩
    | false => exact ⟨_, writes_name (isDotted_reserved (by decide)), ValueDenotes.no⟩
  | none => exact ⟨_, writes_name (isDotted_reserved (by decide)), ValueDenotes.none⟩

/-- A text that carries a comma list on after its first item, up to the closing bracket. -/
structure Completes {α : Type} (Item : List Token → α → Prop) (text : List Char)
    (tokens : List Token) (as : List α) : Prop where
  writes : ∀ {front : List Char} {first : List Token}, Writes front first →
    WritesClosed (front ++ text) (first ++ tokens ++ [.closeBracket])
  list : ∀ {first : List Token} {a : α}, Item first a → CommaList Item (first ++ tokens) (a :: as)

section Completes

variable {α : Type} {Item : List Token → α → Prop}

theorem completes_nil : Completes Item [']'] [] [] where
  writes h := by
    rw [List.append_nil]
    exact h.mark rfl rfl
  list h := by
    rw [List.append_nil]
    exact CommaList.last h

theorem completes_cons {text more : List Char} {tokens others : List Token} {a : α}
    {as : List α} (hwrites : Writes text tokens) (hitem : Item tokens a)
    (h : Completes Item more others as) :
    Completes Item (',' :: ' ' :: (text ++ more)) (.comma :: (tokens ++ others)) (a :: as) where
  writes {front first} hfront := by
    have hcomma := (hfront.mark (c := ',') rfl rfl).space.append (h.writes hwrites)
    simpa only [List.append_assoc, List.cons_append, List.nil_append] using hcomma
  list hfirst := CommaList.more hfirst (h.list hitem)

/-- A head, its opening bracket, a first item and what completes it. -/
theorem writes_form {head : String} (hhead : IsDotted head.toList) {text more : List Char}
    {tokens others : List Token} {as : List α} (hwrites : Writes text tokens)
    (h : Completes Item more others as) :
    Writes (head.toList ++ '[' :: (text ++ more))
      (.name head :: .openBracket :: (tokens ++ others ++ [.closeBracket])) := by
  have hopen := ((writes_name hhead).mark (c := '[') rfl rfl).append (h.writes hwrites)
  simpa only [List.append_assoc, List.cons_append, List.nil_append] using hopen.writes

theorem exists_completes {as : List α} {texts : List (List Char)}
    (h : List.Forall₂ (fun a text => ∃ tokens, Writes text tokens ∧ Item tokens a) as texts) :
    ∃ tokens, Completes Item (closed texts) tokens as := by
  induction h with
  | nil => exact ⟨_, completes_nil⟩
  | cons hfirst _ ih =>
    obtain ⟨tokens, hwrites, hitem⟩ := hfirst
    obtain ⟨others, hcompletes⟩ := ih
    exact ⟨_, completes_cons hwrites hitem hcompletes⟩

end Completes

theorem writes_emptyTuple :
    Writes "Tuple[()]".toList
      [.name "Tuple", .openBracket, .openParen, .closeParen, .closeBracket] := by
  have hword : IsDotted "Tuple".toList := isDotted_reserved (by decide)
  have hopen := ((writes_name hword).mark (c := '[') rfl rfl).writes.mark (c := '(') rfl rfl
  exact ((hopen.writes.mark (c := ')') rfl rfl).writes.mark (c := ']') rfl rfl).writes

/-- The text spells tokens that derive the type. -/
def Spelled (scope : Scope) (depth : Nat) (type : TypeExpr) (text : List Char) : Prop :=
  ∃ tokens, Writes text tokens ∧ DerivesTerm scope depth tokens type

theorem Spelled.derivesType {scope : Scope} {depth : Nat} {type : TypeExpr} {text : List Char}
    (h : Spelled scope depth type text) :
    ∃ tokens, Writes text tokens ∧ DerivesType scope depth tokens type := by
  obtain ⟨tokens, hwrites, hderives⟩ := h
  exact ⟨tokens, hwrites, DerivesType.term hderives⟩

theorem room_eq {limits : Limits} {depth : Nat} (h : depth < limits.maxDepth) :
    limits.maxDepth - depth = limits.maxDepth - (depth + 1) + 1 := by omega

/-- What is written for a type spells tokens that derive it. The writer counts the open brackets, a
derivation those that may still be opened. -/
theorem hereditary_spelled (limits : Limits) (scope : Scope) :
    Hereditary limits scope fun depth => Spelled scope (limits.maxDepth - depth) where
  name hdotted hdenotes := ⟨_, writes_name hdotted, DerivesTerm.name hdenotes⟩
  form hdepth hhead hdenotes hfirst hrest := by
    obtain ⟨tokens, hwrites, hderives⟩ := hfirst
    obtain ⟨others, hcompletes⟩ := exists_completes (hrest.imp fun _ _ => Spelled.derivesType)
    have hlist := derivesArguments_of_commaList (hcompletes.list (DerivesType.term hderives))
    rw [room_eq hdepth]
    exact ⟨_, writes_form hhead hwrites hcompletes, DerivesTerm.form hlist hdenotes⟩
  literal {_ value values} hdepth := by
    obtain ⟨tokens, hwrites, hvalue⟩ := spellLiteral_spec value
    obtain ⟨others, hcompletes⟩ := exists_completes (List.forall₂_map_right_iff.mpr
      (List.forall₂_same.mpr fun v (_ : v ∈ values) => spellLiteral_spec v))
    have hword : IsDotted "Literal".toList := isDotted_reserved (by decide)
    rw [room_eq hdepth]
    exact ⟨_, writes_form hword hwrites hcompletes, DerivesTerm.literal (hcompletes.list hvalue)⟩
  emptyTuple hdepth := by
    rw [room_eq hdepth]
    exact ⟨_, writes_emptyTuple, DerivesTerm.emptyTuple (by decide)⟩

theorem decode_of_encode {limits : Limits} {scope : Scope}
    (hscope : ∀ type name, scope.nameOf type = some name →
      IsName name ∧ scope.resolve name = some type)
    (hnames : ∀ name type, scope.resolve name = some type → IsName name) {type : TypeExpr}
    {text : String} (h : encode limits scope type = .ok text) :
    decode limits scope text = .ok type.normalize := by
  obtain ⟨tokens, hwrites, hderives⟩ := (hereditary_spelled limits scope).of_encode hscope h
  exact (decode_eq_ok_iff hnames limits text _).mpr ⟨(encode_eq_ok h).2, tokens, _, hwrites.spells,
    DerivesType.term hderives, (TypeExpr.normalize_normalize type).symm⟩

/-- In a registry that some run leads to, the reference of a type is decoded to the normal form of
that type; types with one reference have one normal form. -/
theorem decode_encode (r : Registry) (hr : r.Reached) (limits : Limits) (type : TypeExpr)
    (text : String) (h : encode limits r.scope type = .ok text) :
    decode limits r.scope text = .ok type.normalize ∧
      ∀ other, encode limits r.scope other = .ok text → other.normalize = type.normalize := by
  have hdecode := decode_of_encode hr.resolve_of_nameOf hr.isName h
  refine ⟨hdecode, fun other hother => ?_⟩
  have hother' := decode_of_encode hr.resolve_of_nameOf hr.isName hother
  exact Except.ok.inj (hother'.symm.trans hdecode)

/-- The alias of a composite type stands for it at any level, and quotes are escaped. -/
theorem decode_encode_rows :
    rows.Reached ∧
      encode ⟨100, 2⟩ rows.scope
          (.dict (.union [.list (.named "db.Cell")]) (.literal [.str "it's", .int (-7)])) =
        .ok "Dict[db.Row, Literal['it\\'s', -7]]" ∧
      decode ⟨100, 2⟩ rows.scope "Dict[db.Row, Literal['it\\'s', -7]]" =
        .ok (.dict (.list (.named "db.Cell")) (.literal [.str "it's", .int (-7)])) := by
  have hr : rows.Reached := ⟨_, _, rfl⟩
  have h : encode ⟨100, 2⟩ rows.scope
      (.dict (.union [.list (.named "db.Cell")]) (.literal [.str "it's", .int (-7)])) =
      .ok "Dict[db.Row, Literal['it\\'s', -7]]" := by
    decide +kernel
  exact ⟨hr, h, (decode_encode rows hr ⟨100, 2⟩ _ _ h).1⟩

end Callable.Reference
