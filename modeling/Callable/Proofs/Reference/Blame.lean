import Callable.Proofs.Reference.UnionSpelling
import Mathlib.Data.List.Basic

/-!
What refusals blame. A reader that stops names a lexeme of its input: a name that means nothing in the
scope, a head that nobody knows or that has the wrong number of arguments, or the place at which something
else is due. Readers leave the end of their input to the ones after them, so whatever stops a run, however
deep in brackets, stands in the reference itself.
-/
namespace Callable.Reference

/-- The words that mean something in every scope when they stand for types or for forms. -/
def typeWords : List String :=
  ["Any", "None", "Type", "List", "Dict", "Set", "Tuple", "Union", "Optional", "Literal"]

/-- Nothing tells what type the name denotes. -/
structure IsUnknown (scope : Scope) (name : String) : Prop where
  unresolved : scope.resolve name = none
  not_builtin : ∀ b : Builtin, b.name ≠ name
  not_word : name ∉ typeWords

/-- The head of a form, that of literals included. -/
def IsHead (name : String) : Prop := name = "Literal" ∨ ∃ form : Form, name ∈ form.heads

/-- The number of arguments is one that is asked for. -/
def Arity.Suits : Arity → Nat → Prop
  | .one, found => found = 1
  | .two, found => found = 2
  | .atLeastOne, found => 1 ≤ found

/-- What a refusal names stands in the input, and is at fault as it says. -/
inductive Refusal.Blames (scope : Scope) (input : List Lexeme) : Refusal → Prop
  | lexeme {lexeme : Lexeme} (expected : Expected) : lexeme ∈ input →
      Blames scope input (.misplaced expected (some lexeme))
  | ending (expected : Expected) : Blames scope input (.misplaced expected none)
  | integerRange {text : String} {start : Nat} : ⟨.number text, start⟩ ∈ input →
      Word.fitsSigned (integerOf text.toList) = false → Blames scope input (.integerRange text start)
  | tooDeep : Blames scope input .tooDeep
  | unregistered {name : String} {start : Nat} : ⟨.name name, start⟩ ∈ input → IsUnknown scope name →
      Blames scope input (.unregistered name)
  | unknownGeneric {head : String} {start stop : Nat} :
      [⟨.name head, start⟩, ⟨.openBracket, stop⟩] <:+: input → ¬ IsHead head →
      Blames scope input (.unknownGeneric head)
  | arity {head : String} {start found : Nat} {expected : Arity} : ⟨.name head, start⟩ ∈ input →
      IsHead head → ¬ expected.Suits found → Blames scope input (.arity head expected found)

/-- A reader leaves the end of its input, or blames a part of it. -/
def Accounted {α : Type} (scope : Scope) (input : List Lexeme) : Outcome α → Prop
  | .ok (_, rest) => rest <:+ input
  | .error refusal => refusal.Blames scope input

section Accounts

variable {α β : Type} {scope : Scope} {input rest : List Lexeme} {outcome : Outcome α}

theorem Refusal.Blames.of_suffix {refusal : Refusal} (h : refusal.Blames scope rest)
    (hrest : rest <:+ input) : refusal.Blames scope input := by
  cases h with
  | lexeme expected hmem => exact .lexeme expected (hrest.subset hmem)
  | ending expected => exact .ending expected
  | integerRange hmem hrange => exact .integerRange (hrest.subset hmem) hrange
  | tooDeep => exact .tooDeep
  | unregistered hmem hunknown => exact .unregistered (hrest.subset hmem) hunknown
  | unknownGeneric hopened hhead => exact .unknownGeneric (hopened.trans hrest.isInfix) hhead
  | arity hmem hhead hfound => exact .arity (hrest.subset hmem) hhead hfound

theorem Accounted.of_suffix (h : Accounted scope rest outcome) (hrest : rest <:+ input) :
    Accounted scope input outcome := by
  cases outcome with
  | error refusal => exact Refusal.Blames.of_suffix h hrest
  | ok found => exact List.IsSuffix.trans h hrest

theorem Accounted.map (h : Accounted scope input outcome) (f : α → β) :
    Accounted scope input (outcome.map fun (a, rest) => (f a, rest)) := by
  cases outcome with
  | error refusal => exact h
  | ok found => exact h

/-- Where something else is due, the next lexeme is to blame, if there is one. -/
theorem blames_misplaced (expected : Expected) (hrest : rest <:+ input) :
    (Refusal.misplaced expected rest.head?).Blames scope input := by
  cases rest with
  | nil => exact .ending expected
  | cons lexeme rest => exact .lexeme expected (hrest.subset List.mem_cons_self)

section Lists

variable {item : Reader α} (hitem : ∀ input, Accounted scope input (item.run input))

include hitem

theorem suffix_of_run {a : α} (h : item.run input = .ok (a, rest)) : rest <:+ input := by
  have haccount := hitem input
  rwa [h] at haccount

theorem blames_of_run {refusal : Refusal} (h : item.run input = .error refusal) :
    refusal.Blames scope input := by
  have haccount := hitem input
  rwa [h] at haccount

theorem accounted_moreArguments (input : List Lexeme) :
    Accounted scope input (item.moreArguments input) := by
  fun_induction Reader.moreArguments item input with
  | case1 start rest => exact List.suffix_cons _ rest
  | case2 start stop rest => exact (List.suffix_cons _ rest).trans (List.suffix_cons _ _)
  | case3 start rest _ e hrun => exact (blames_of_run hitem hrun).of_suffix (List.suffix_cons _ rest)
  | case4 start rest _ a rest' hrun _ e hmore ih =>
    rw [hmore] at ih
    exact ih.of_suffix ((suffix_of_run hitem hrun).trans (List.suffix_cons _ rest))
  | case5 start rest _ a rest' hrun _ more rest'' hmore ih =>
    rw [hmore] at ih
    exact (ih.trans (suffix_of_run hitem hrun)).trans (List.suffix_cons _ rest)
  | case6 other => exact blames_misplaced .commaOrBracket List.suffix_rfl

theorem accounted_arguments (input : List Lexeme) : Accounted scope input (item.arguments input) := by
  unfold Reader.arguments
  split
  · rename_i hrun
    exact blames_of_run hitem hrun
  · rename_i a rest hrun
    have hmore := accounted_moreArguments hitem rest
    split
    all_goals
      rename_i heq
      rw [heq] at hmore
      exact hmore.of_suffix (suffix_of_run hitem hrun)

theorem accounted_moreAlternatives (input : List Lexeme) :
    Accounted scope input (item.moreAlternatives input) := by
  fun_induction Reader.moreAlternatives item input with
  | case1 start rest e hrun => exact (blames_of_run hitem hrun).of_suffix (List.suffix_cons _ rest)
  | case2 start rest a rest' hrun _ e hmore ih =>
    rw [hmore] at ih
    exact ih.of_suffix ((suffix_of_run hitem hrun).trans (List.suffix_cons _ rest))
  | case3 start rest a rest' hrun _ more rest'' hmore ih =>
    rw [hmore] at ih
    exact (ih.trans (suffix_of_run hitem hrun)).trans (List.suffix_cons _ rest)
  | case4 other => exact List.suffix_rfl

end Lists

theorem accounted_readAlternatives {term : Reader TypeExpr}
    (hterm : ∀ input, Accounted scope input (term.run input)) (input : List Lexeme) :
    Accounted scope input (readAlternatives term input) := by
  unfold readAlternatives
  split
  · rename_i hrun
    exact blames_of_run hterm hrun
  · rename_i first rest hrun
    have hmore := accounted_moreAlternatives hterm rest
    split
    all_goals
      rename_i heq
      rw [heq] at hmore
      exact hmore.of_suffix (suffix_of_run hterm hrun)

theorem accounted_literalReader (input : List Lexeme) :
    Accounted scope input (literalReader.run input) := by
  change Accounted scope input (readLiteral input)
  unfold readLiteral
  split
  · rename_i text start rest
    dsimp only
    split
    · exact List.suffix_cons _ rest
    · rename_i hrange
      exact .integerRange List.mem_cons_self (Bool.eq_false_iff.mpr hrange)
  · exact List.suffix_cons _ _
  · exact List.suffix_cons _ _
  · exact List.suffix_cons _ _
  · exact List.suffix_cons _ _
  · exact blames_misplaced .literalValue List.suffix_rfl

theorem accounted_readEmptyTuple (input : List Lexeme) :
    Accounted scope input (readEmptyTuple input) := by
  unfold readEmptyTuple
  split
  · exact (List.suffix_cons _ _).trans (List.suffix_cons _ _)
  · exact blames_misplaced .closingBracket (List.suffix_cons _ _)
  · exact blames_misplaced .closingParen List.suffix_rfl

theorem blames_of_bareType {name : String} {start : Nat} {refusal : Refusal}
    (hname : ⟨.name name, start⟩ ∈ input) (h : bareType scope name = .error refusal) :
    refusal.Blames scope input := by
  unfold bareType at h
  split at h
  case h_8 => cases h; exact .arity hname (Or.inr ⟨.union, by decide⟩) (Nat.not_succ_le_zero 0)
  case h_9 => cases h; exact .arity hname (Or.inr ⟨.optional, by decide⟩) (Nat.not_succ_le_zero 0)
  case h_10 => cases h; exact .arity hname (Or.inl rfl) (Nat.not_succ_le_zero 0)
  case h_11 =>
    split at h
    · cases h
    · rename_i hbuiltin
      split at h
      · cases h
      · rename_i hresolve
        cases h
        refine .unregistered hname ⟨hresolve, (Builtin.ofName?_eq_none_iff _).mp hbuiltin, ?_⟩
        simp_all [typeWords]
  all_goals cases h

theorem not_suits_of_apply {form : Form} {arguments : List TypeExpr} {expected : Arity}
    (h : form.apply arguments = .error expected) : ¬ expected.Suits arguments.length := by
  intro hsuits
  unfold Form.apply at h
  split at h <;> cases h
  case h_10 hother =>
    obtain ⟨key, value, rfl⟩ := List.length_eq_two.mp hsuits
    exact hother key value rfl
  all_goals
    rename_i hother
    obtain ⟨item, rfl⟩ := List.length_eq_one_iff.mp hsuits
    exact hother item rfl

theorem blames_of_genericType {head : String} {start stop : Nat} {arguments : List TypeExpr}
    {refusal : Refusal} (hopened : [⟨.name head, start⟩, ⟨.openBracket, stop⟩] <:+: input)
    (hliteral : head ≠ "Literal") (h : genericType head arguments = .error refusal) :
    refusal.Blames scope input := by
  unfold genericType at h
  split at h
  · rename_i hform
    cases h
    refine .unknownGeneric hopened ?_
    rintro (heq | ⟨form, hhead⟩)
    · exact hliteral heq
    · cases hform.symm.trans ((Form.ofHead?_eq_some_iff head form).mpr hhead)
  · rename_i form hform
    cases happly : form.apply arguments with
    | ok made =>
      rw [happly] at h
      cases h
    | error expected =>
      rw [happly] at h
      cases h
      exact .arity (hopened.subset List.mem_cons_self)
        (Or.inr ⟨form, (Form.ofHead?_eq_some_iff head form).mp hform⟩) (not_suits_of_apply happly)

theorem accounted_readForm {inner : Reader TypeExpr}
    (hinner : ∀ input, Accounted scope input (inner.run input)) (head : String) (start stop : Nat)
    (inside : List Lexeme) :
    Accounted scope (⟨.name head, start⟩ :: ⟨.openBracket, stop⟩ :: inside)
      (readForm inner head inside) := by
  have hafter {rest : List Lexeme} (hrest : rest <:+ inside) :
      rest <:+ ⟨.name head, start⟩ :: ⟨.openBracket, stop⟩ :: inside :=
    hrest.trans ((List.suffix_cons _ inside).trans (List.suffix_cons _ _))
  have hopened : [⟨.name head, start⟩, ⟨.openBracket, stop⟩] <:+:
      (⟨.name head, start⟩ :: ⟨.openBracket, stop⟩ :: inside : List Lexeme) :=
    ⟨[], inside, rfl⟩
  unfold readForm
  split
  · have hvalues : Accounted scope inside (literalReader.arguments inside) :=
      accounted_arguments accounted_literalReader inside
    exact (hvalues.of_suffix (hafter List.suffix_rfl)).map _
  · rename_i hliteral
    have hargs := accounted_arguments hinner inside
    split
    · exact (accounted_readEmptyTuple _).of_suffix (hafter (List.suffix_cons _ _))
    · split
      · rename_i heq
        rw [heq] at hargs
        exact hargs.of_suffix (hafter List.suffix_rfl)
      · rename_i arguments rest heq
        rw [heq] at hargs
        cases hmade : genericType head arguments with
        | ok made => exact hafter hargs
        | error refusal => exact blames_of_genericType hopened hliteral hmade

theorem accounted_readTerm {inner : Option (Reader TypeExpr)}
    (hinner : ∀ reader ∈ inner, ∀ input, Accounted scope input (reader.run input))
    (input : List Lexeme) : Accounted scope input ((termReader scope inner).run input) := by
  change Accounted scope input (readTerm scope inner input)
  unfold readTerm
  split
  · split
    · exact .tooDeep
    · rename_i reader
      exact accounted_readForm (hinner reader rfl) _ _ _ _
  · rename_i name start rest _
    cases hbare : bareType scope name with
    | ok type => exact List.suffix_cons _ rest
    | error refusal => exact blames_of_bareType List.mem_cons_self hbare
  · exact blames_misplaced .typeName List.suffix_rfl

/-- Whatever brackets are open, a reader of terms accounts for its input. -/
theorem accounted_termReader (depth : Nat) (input : List Lexeme) :
    Accounted scope input ((termReader scope (innerReader scope depth)).run input) := by
  induction depth generalizing input with
  | zero =>
    refine accounted_readTerm ?_ input
    rintro _ ⟨⟩
  | succ depth ih =>
    refine accounted_readTerm ?_ input
    rintro _ ⟨⟩ input
    rw [typeReader_run]
    exact accounted_readAlternatives ih input

theorem accounted_typeReader (depth : Nat) (input : List Lexeme) :
    Accounted scope input ((typeReader scope depth).run input) := by
  rw [typeReader_run]
  exact accounted_readAlternatives (accounted_termReader depth) input

theorem blames_of_readWhole {depth : Nat} {refusal : Refusal}
    (h : readWhole scope depth input = .error refusal) : refusal.Blames scope input := by
  have haccount : Accounted scope input ((typeReader scope depth).run input) :=
    accounted_typeReader depth input
  unfold readWhole at h
  split at h
  · rename_i heq
    cases h
    rwa [heq] at haccount
  · cases h
  · rename_i type extra more heq
    cases h
    rw [heq] at haccount
    exact .lexeme .nothing (List.IsSuffix.subset haccount List.mem_cons_self)

end Accounts

section Errors

variable {scope : Scope} {limits : Limits} {text : String}

/-- What can keep a text from being decoded: its length, its lexemes, or a refusal of the reader. -/
theorem decode_eq_error {e : TypeError} (h : decode limits scope text = .error e) :
    limits.maxBytes < text.utf8ByteSize ∧ e = ⟨text, scope.id, .tooLarge limits.maxBytes⟩ ∨
    (∃ position what, lexemes text = .error (position, what) ∧
      e = ⟨text, scope.id, .malformed position (.misspelt what)⟩) ∨
    ∃ (input : List Lexeme) (refusal : Refusal), lexemes text = .ok input ∧
      refusal.Blames scope input ∧ e = refusal.toError limits scope text := by
  unfold decode at h
  split at h
  · rename_i hsize
    cases h
    exact Or.inl ⟨hsize, rfl⟩
  · split at h
    · rename_i position what hlex
      cases h
      exact Or.inr (Or.inl ⟨position, what, hlex, rfl⟩)
    · rename_i input hlex
      split at h
      · rename_i refusal hread
        cases h
        exact Or.inr (Or.inr ⟨input, refusal, hlex, blames_of_readWhole hread, rfl⟩)
      · cases h

/-- What an error of a cause says of the text that is read and of the piece it names. -/
def Cause.Blames (scope : Scope) (text reference : String) : Cause → Prop
  | .unregistered => ∃ tokens, Spells text.toList tokens ∧ .name reference ∈ tokens ∧
      IsUnknown scope reference
  | .unknownGeneric => ∃ tokens, Spells text.toList tokens ∧
      [.name reference, .openBracket] <:+: tokens ∧ ¬ IsHead reference
  | .arity expected found => ∃ tokens, Spells text.toList tokens ∧ .name reference ∈ tokens ∧
      IsHead reference ∧ ¬ expected.Suits found
  | .malformed _ _ => reference = text
  | .tooLarge _ => reference = text
  | .tooDeep _ => reference = text
  | .anonymous => False

theorem Refusal.Blames.toError {input : List Lexeme} {refusal : Refusal}
    (h : refusal.Blames scope input) (hinput : lexemes text = .ok input) :
    (refusal.toError limits scope text).cause.Blames scope text
      (refusal.toError limits scope text).reference := by
  obtain ⟨-, hspells⟩ := (lexemes_iff text _).mp ⟨input, hinput, rfl⟩
  have htoken {token : Token} {start : Nat} (hmem : ⟨token, start⟩ ∈ input) :
      token ∈ input.map Lexeme.token := List.mem_map_of_mem hmem
  cases h with
  | lexeme expected hmem => exact rfl
  | ending expected => exact rfl
  | integerRange hmem hrange => exact rfl
  | tooDeep => exact rfl
  | unregistered hmem hunknown => exact ⟨_, hspells, htoken hmem, hunknown⟩
  | unknownGeneric hopened hhead => exact ⟨_, hspells, hopened.map Lexeme.token, hhead⟩
  | arity hmem hhead hfound => exact ⟨_, hspells, htoken hmem, hhead, hfound⟩

theorem bareType_of_isUnknown {name : String} (h : IsUnknown scope name) :
    bareType scope name = .error (.unregistered name) := by
  have hwords := h.not_word
  unfold bareType
  split
  case h_11 => rw [(Builtin.ofName?_eq_none_iff _).mpr h.not_builtin, h.unresolved]
  all_goals exact absurd (by decide) hwords

/-- A text that is one name has one lexeme. -/
theorem lexemes_name (h : IsDotted text.toList) : ∃ start, lexemes text = .ok [⟨.name text, start⟩] := by
  obtain ⟨found, hfound, htokens⟩ :=
    (lexemes_iff text [.name text]).mpr ⟨List.cons_ne_nil _ _, (writes_name h).spells⟩
  obtain ⟨start, rest, rfl, hrest⟩ := exists_cons_of_map_token htokens
  rw [List.map_eq_nil_iff.mp hrest] at hfound
  exact ⟨start, hfound⟩

theorem decode_of_isUnknown (hdotted : IsDotted text.toList) (hunknown : IsUnknown scope text)
    (hsize : text.utf8ByteSize ≤ limits.maxBytes) :
    decode limits scope text = .error ⟨text, scope.id, .unregistered⟩ := by
  obtain ⟨start, hlex⟩ := lexemes_name hdotted
  have hterm (inner : Option (Reader TypeExpr)) :
      readTerm scope inner [⟨.name text, start⟩] = .error (.unregistered text) := by
    rw [readTerm, bareType_of_isUnknown hunknown]
    · rfl
    · rintro _ _ ⟨⟩
  have hread : readWhole scope limits.maxDepth [⟨.name text, start⟩] = .error (.unregistered text) := by
    unfold readWhole
    rw [typeReader_run, readAlternatives, termReader]
    simp only [hterm]
  rw [decode, if_neg (Nat.not_lt.mpr hsize), hlex]
  simp only [hread]
  rfl

end Errors

/-- An error names the scope and the piece that is to blame: a name of the text that means nothing
there, a head that nobody knows, a head with the wrong number of arguments, or the text as a whole. A
text that is one unknown name is itself to blame. -/
theorem decode_blames (r : Registry) (limits : Limits) (text : String) :
    (∀ e, decode limits r.scope text = .error e →
      e.scope = r.id ∧ e.cause.Blames r.scope text e.reference) ∧
    (IsDotted text.toList → isReserved text = false → r.resolve text = none →
      text.utf8ByteSize ≤ limits.maxBytes →
      decode limits r.scope text = .error ⟨text, r.id, .unregistered⟩) := by
  constructor
  · intro e h
    rcases decode_eq_error h with ⟨-, rfl⟩ | ⟨_, _, -, rfl⟩ | ⟨input, refusal, hlex, hblames, rfl⟩
    · exact ⟨rfl, rfl⟩
    · exact ⟨rfl, rfl⟩
    · refine ⟨?_, hblames.toError hlex⟩
      cases refusal <;> rfl
  · intro hdotted hreserved hresolve hsize
    obtain ⟨hword, hbuiltin⟩ := (isReserved_eq_false_iff text).mp hreserved
    have htypeWords : typeWords ⊆ reservedWords := by decide
    have hunknown : IsUnknown r.scope text :=
      ⟨hresolve, hbuiltin, fun hmem => hword (htypeWords hmem)⟩
    exact decode_of_isUnknown hdotted hunknown hsize

/-- Of two faults, that of an argument is to blame and not that of the form around it. -/
theorem decode_blames_rows :
    decode ⟨100, 2⟩ rows.scope "Dict[db.Row, List[db.Column], str]" =
      .error ⟨"db.Column", "tables", .unregistered⟩ ∧
    (∃ tokens, Spells "Dict[db.Row, List[db.Column], str]".toList tokens ∧
      .name "db.Column" ∈ tokens ∧ IsUnknown rows.scope "db.Column") ∧
    decode ⟨100, 2⟩ rows.scope "db.Column" = .error ⟨"db.Column", "tables", .unregistered⟩ := by
  have h : decode ⟨100, 2⟩ rows.scope "Dict[db.Row, List[db.Column], str]" =
      .error ⟨"db.Column", "tables", .unregistered⟩ := by
    decide +kernel
  have hdotted : IsDotted "db.Column".toList := isDotted_of_all (by decide)
  have hreserved : isReserved "db.Column" = false := by decide +kernel
  have hresolve : rows.resolve "db.Column" = none := by decide +kernel
  have hsize : "db.Column".utf8ByteSize ≤ 100 := by decide
  exact ⟨h, ((decode_blames rows ⟨100, 2⟩ _).1 _ h).2,
    (decode_blames rows ⟨100, 2⟩ "db.Column").2 hdotted hreserved hresolve hsize⟩

end Callable.Reference
