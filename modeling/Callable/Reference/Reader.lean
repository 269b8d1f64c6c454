import Callable.Reference.Error
import Callable.Scope
import Callable.TypeExpr.Normal
import Callable.Word
/-!
Reading type references. A type is a term or several terms with pipes between them; a term is a name
that the scope knows, or a form with arguments in brackets: types, the values of a literal, or the
empty pair of parentheses for the empty tuple. A comma may stand before a closing bracket. The depth
still allowed goes down with each bracket, so the nesting of the reader is bounded by it.
-/
namespace Callable.Reference

inductive Refusal where
  | misplaced (expected : Expected) (found : Option Lexeme)
  | integerRange (text : String) (start : Nat)
  | tooDeep
  | unregistered (name : String)
  | unknownGeneric (name : String)
  | arity (name : String) (expected : Arity) (found : Nat)
  deriving DecidableEq, Repr

/-- What a reader makes of the lexemes before it: a value and the lexemes that are left. -/
abbrev Outcome (α : Type) := Except Refusal (α × List Lexeme)

/-- A step of reading; it takes at least one lexeme. -/
structure Reader (α : Type) where
  run : List Lexeme → Outcome α
  shrinks : ∀ {input : List Lexeme} {a : α} {rest : List Lexeme},
    run input = .ok (a, rest) → rest.length < input.length

namespace Reader

variable {α : Type}

/-- What follows the first of several arguments, up to the closing bracket. -/
def moreArguments (item : Reader α) : List Lexeme → Outcome (List α)
  | ⟨.closeBracket, _⟩ :: rest => .ok ([], rest)
  | ⟨.comma, _⟩ :: ⟨.closeBracket, _⟩ :: rest => .ok ([], rest)
  | ⟨.comma, _⟩ :: rest =>
    match h : item.run rest with
    | .error e => .error e
    | .ok (a, rest') =>
      have := item.shrinks h
      match item.moreArguments rest' with
      | .error e => .error e
      | .ok (more, rest'') => .ok (a :: more, rest'')
  | other => .error (.misplaced .commaOrBracket other.head?)
termination_by input => input.length
decreasing_by simp only [List.length_cons]; omega

def arguments (item : Reader α) (input : List Lexeme) : Outcome (List α) :=
  match item.run input with
  | .error e => .error e
  | .ok (a, rest) =>
    match item.moreArguments rest with
    | .error e => .error e
    | .ok (more, rest) => .ok (a :: more, rest)

/-- The items that follow a first one, each after a pipe. -/
def moreAlternatives (item : Reader α) : List Lexeme → Outcome (List α)
  | ⟨.pipe, _⟩ :: rest =>
    match h : item.run rest with
    | .error e => .error e
    | .ok (a, rest') =>
      have := item.shrinks h
      match item.moreAlternatives rest' with
      | .error e => .error e
      | .ok (more, rest'') => .ok (a :: more, rest'')
  | other => .ok ([], other)
termination_by input => input.length
decreasing_by simp only [List.length_cons]; omega

theorem length_lt_of_moreArguments (item : Reader α) {input rest : List Lexeme} {more : List α}
    (h : item.moreArguments input = .ok (more, rest)) : rest.length < input.length := by
  fun_induction moreArguments item input generalizing more rest with
  | case1 => simp only [Except.ok.injEq, Prod.mk.injEq] at h; simp [h.2]
  | case2 =>
    simp only [Except.ok.injEq, Prod.mk.injEq] at h
    simp only [← h.2, List.length_cons]
    omega
  | case3 => simp at h
  | case4 => simp at h
  | case5 _ _ _ _ _ hrun _ more' rest'' hmore ih =>
    simp only [Except.ok.injEq, Prod.mk.injEq] at h
    have hitem := item.shrinks hrun
    have htail := ih hmore
    rw [← h.2, List.length_cons]
    omega
  | case6 => simp at h

theorem length_le_of_moreAlternatives (item : Reader α) {input rest : List Lexeme} {more : List α}
    (h : item.moreAlternatives input = .ok (more, rest)) : rest.length ≤ input.length := by
  fun_induction moreAlternatives item input generalizing more rest with
  | case1 => simp at h
  | case2 => simp at h
  | case3 _ _ _ _ hrun _ more' rest'' hmore ih =>
    simp only [Except.ok.injEq, Prod.mk.injEq] at h
    have hitem := item.shrinks hrun
    have htail := ih hmore
    rw [← h.2, List.length_cons]
    omega
  | case4 => simp only [Except.ok.injEq, Prod.mk.injEq] at h; simp [h.2]

end Reader

def integerOf (numeral : List Char) : Int :=
  match numeral with
  | '-' :: digits => -(Nat.ofDigitChars 10 digits 0 : Int)
  | digits => Nat.ofDigitChars 10 digits 0

def readLiteral : List Lexeme → Outcome Literal
  | ⟨.number text, start⟩ :: rest =>
    let n := integerOf text.toList
    if Word.fitsSigned n then .ok (.int n, rest) else .error (.integerRange text start)
  | ⟨.quoted text, _⟩ :: rest => .ok (.str text, rest)
  | ⟨.name "True", _⟩ :: rest => .ok (.bool true, rest)
  | ⟨.name "False", _⟩ :: rest => .ok (.bool false, rest)
  | ⟨.name "None", _⟩ :: rest => .ok (.none, rest)
  | other => .error (.misplaced .literalValue other.head?)

def literalReader : Reader Literal where
  run := readLiteral
  shrinks := by
    intro input a rest h
    unfold readLiteral at h
    split at h
    · simp only at h
      split at h
      · simp only [Except.ok.injEq, Prod.mk.injEq] at h
        simp [h.2]
      · simp at h
    all_goals simp at h
    all_goals simp [h.2]

def bareType (scope : Scope) (name : String) : Except Refusal TypeExpr :=
  match name with
  | "Any" => .ok .any
  | "None" => .ok .none
  | "Type" => .ok .someClass
  | "List" => .ok (.builtin .list)
  | "Dict" => .ok (.builtin .dict)
  | "Set" => .ok (.builtin .set)
  | "Tuple" => .ok (.builtin .tuple)
  | "Union" => .error (.arity name .atLeastOne 0)
  | "Optional" => .error (.arity name .atLeastOne 0)
  | "Literal" => .error (.arity name .atLeastOne 0)
  | name =>
    match Builtin.ofName? name with
    | some b => .ok (.builtin b)
    | none =>
      match scope.resolve name with
      | some type => .ok type
      | none => .error (.unregistered name)

inductive Form where
  | list
  | set
  | optional
  | classOf
  | dict
  | tuple
  | union
  deriving DecidableEq, Repr

def Form.ofHead? : String → Option Form
  | "List" | "list" => some .list
  | "Set" | "set" => some .set
  | "Optional" => some .optional
  | "Type" | "type" => some .classOf
  | "Dict" | "dict" => some .dict
  | "Tuple" | "tuple" => some .tuple
  | "Union" => some .union
  | _ => none

/-- The type a form makes of its arguments, or the number of arguments it wants. -/
def Form.apply : Form → List TypeExpr → Except Arity TypeExpr
  | .list, [item] => .ok (.list item)
  | .list, _ => .error .one
  | .set, [item] => .ok (.set item)
  | .set, _ => .error .one
  | .optional, [type] => .ok type.optional
  | .optional, _ => .error .one
  | .classOf, [type] => .ok (.classOf type)
  | .classOf, _ => .error .one
  | .dict, [key, value] => .ok (.dict key value)
  | .dict, _ => .error .two
  | .tuple, items => .ok (.tuple items)
  | .union, members => .ok (.unionOf members)

def genericType (head : String) (arguments : List TypeExpr) : Except Refusal TypeExpr :=
  match Form.ofHead? head with
  | none => .error (.unknownGeneric head)
  | some form => (form.apply arguments).mapError (.arity head · arguments.length)

def readEmptyTuple : List Lexeme → Outcome TypeExpr
  | ⟨.closeParen, _⟩ :: ⟨.closeBracket, _⟩ :: rest => .ok (.tuple [], rest)
  | ⟨.closeParen, _⟩ :: other => .error (.misplaced .closingBracket other.head?)
  | other => .error (.misplaced .closingParen other.head?)

/-- The lexemes after a head and its opening bracket, with the types inside read by `inner`. -/
def readForm (inner : Reader TypeExpr) (head : String) (input : List Lexeme) : Outcome TypeExpr :=
  if head = "Literal" then (literalReader.arguments input).map fun (values, rest) =>
    (.literal values, rest)
  else
    match Form.ofHead? head, input with
    | some .tuple, ⟨.openParen, _⟩ :: rest => readEmptyTuple rest
    | _, input =>
      match inner.arguments input with
      | .error e => .error e
      | .ok (arguments, rest) => (genericType head arguments).map (·, rest)

/-- A name or a form; without an inner reader no bracket may open. -/
def readTerm (scope : Scope) (inner : Option (Reader TypeExpr)) : List Lexeme → Outcome TypeExpr
  | ⟨.name head, _⟩ :: ⟨.openBracket, _⟩ :: rest =>
    match inner with
    | none => .error .tooDeep
    | some inner => readForm inner head rest
  | ⟨.name name, _⟩ :: rest => (bareType scope name).map (·, rest)
  | other => .error (.misplaced .typeName other.head?)

theorem arguments_eq_ok {α : Type} {item : Reader α} {input rest : List Lexeme} {found : List α}
    (h : item.arguments input = .ok (found, rest)) :
    ∃ a after more, item.run input = .ok (a, after) ∧
      item.moreArguments after = .ok (more, rest) ∧ found = a :: more := by
  unfold Reader.arguments at h
  split at h
  · cases h
  · rename_i hrun
    split at h
    · cases h
    · rename_i hmore
      cases h
      exact ⟨_, _, _, hrun, hmore, rfl⟩

theorem length_lt_of_arguments {α : Type} (item : Reader α) {input rest : List Lexeme}
    {found : List α} (h : item.arguments input = .ok (found, rest)) :
    rest.length < input.length := by
  obtain ⟨a, after, more, hrun, hmore, -⟩ := arguments_eq_ok h
  have hitem := item.shrinks hrun
  have htail := item.length_lt_of_moreArguments hmore
  omega

/-- What is read after a head and its bracket: the values of a literal, an empty tuple, or arguments
that suit the head. -/
theorem readForm_eq_ok {inner : Reader TypeExpr} {head : String} {input rest : List Lexeme}
    {type : TypeExpr} (h : readForm inner head input = .ok (type, rest)) :
    (head = "Literal" ∧ ∃ values, literalReader.arguments input = .ok (values, rest) ∧
      type = .literal values) ∨
    (Form.ofHead? head = some .tuple ∧ type = .tuple [] ∧ ∃ a b c,
      input = ⟨.openParen, a⟩ :: ⟨.closeParen, b⟩ :: ⟨.closeBracket, c⟩ :: rest) ∨
    ∃ arguments, inner.arguments input = .ok (arguments, rest) ∧
      genericType head arguments = .ok type := by
  unfold readForm at h
  split at h
  · rename_i hliteral
    obtain ⟨⟨values, after⟩, hvalues, heq⟩ := exists_of_map_eq_ok h
    cases heq
    exact Or.inl ⟨hliteral, values, hvalues, rfl⟩
  · split at h
    · rename_i hhead
      unfold readEmptyTuple at h
      split at h <;> cases h
      exact Or.inr (Or.inl ⟨hhead, rfl, _, _, _, rfl⟩)
    · split at h
      · cases h
      · rename_i arguments after hargs
        obtain ⟨made, hmade, heq⟩ := exists_of_map_eq_ok h
        cases heq
        exact Or.inr (Or.inr ⟨arguments, hargs, hmade⟩)

theorem length_lt_of_readForm {inner : Reader TypeExpr} {head : String} {input rest : List Lexeme}
    {type : TypeExpr} (h : readForm inner head input = .ok (type, rest)) :
    rest.length < input.length := by
  rcases readForm_eq_ok h with ⟨-, values, hvalues, -⟩ | ⟨-, -, a, b, c, rfl⟩ | ⟨_, hargs, -⟩
  · exact length_lt_of_arguments literalReader hvalues
  · simp only [List.length_cons]
    omega
  · exact length_lt_of_arguments inner hargs

/-- What is read as a term: a head with brackets after it, or a name. -/
theorem readTerm_eq_ok {scope : Scope} {inner : Option (Reader TypeExpr)}
    {input rest : List Lexeme} {type : TypeExpr}
    (h : readTerm scope inner input = .ok (type, rest)) :
    (∃ reader head a b after, inner = some reader ∧
      input = ⟨.name head, a⟩ :: ⟨.openBracket, b⟩ :: after ∧
      readForm reader head after = .ok (type, rest)) ∨
    ∃ name a, input = ⟨.name name, a⟩ :: rest ∧ bareType scope name = .ok type := by
  unfold readTerm at h
  split at h
  · split at h
    · cases h
    · exact Or.inl ⟨_, _, _, _, _, rfl, rfl, h⟩
  · obtain ⟨found, hbare, heq⟩ := exists_of_map_eq_ok h
    cases heq
    exact Or.inr ⟨_, _, rfl, hbare⟩
  · cases h

def termReader (scope : Scope) (inner : Option (Reader TypeExpr)) : Reader TypeExpr where
  run := readTerm scope inner
  shrinks := by
    intro input type rest h
    rcases readTerm_eq_ok h with ⟨_, _, _, _, _, _, rfl, hform⟩ | ⟨_, _, rfl, _⟩
    · have hshorter := length_lt_of_readForm hform
      simp only [List.length_cons]
      omega
    · simp only [List.length_cons]
      omega

def readAlternatives (term : Reader TypeExpr) (input : List Lexeme) : Outcome TypeExpr :=
  match term.run input with
  | .error e => .error e
  | .ok (first, rest) =>
    match term.moreAlternatives rest with
    | .error e => .error e
    | .ok ([], rest) => .ok (first, rest)
    | .ok (more, rest) => .ok (.union (first :: more), rest)

theorem readAlternatives_eq_ok {term : Reader TypeExpr} {input rest : List Lexeme}
    {type : TypeExpr} (h : readAlternatives term input = .ok (type, rest)) :
    ∃ first after more, term.run input = .ok (first, after) ∧
      term.moreAlternatives after = .ok (more, rest) ∧
      type = if more = [] then first else .union (first :: more) := by
  unfold readAlternatives at h
  split at h
  · cases h
  · rename_i hrun
    split at h
    · cases h
    · rename_i hmore
      cases h
      exact ⟨_, _, _, hrun, hmore, rfl⟩
    · rename_i hne hmore
      cases h
      exact ⟨_, _, _, hrun, hmore, by rw [if_neg hne]⟩

def alternativesReader (term : Reader TypeExpr) : Reader TypeExpr where
  run := readAlternatives term
  shrinks := by
    intro input type rest h
    obtain ⟨first, after, more, hrun, hmore, -⟩ := readAlternatives_eq_ok h
    have hterm := term.shrinks hrun
    have htail := term.length_le_of_moreAlternatives hmore
    omega

/-- Reads a type in which at most `depth` brackets are open at once. -/
def typeReader (scope : Scope) : (depth : Nat) → Reader TypeExpr
  | 0 => alternativesReader (termReader scope none)
  | depth + 1 => {
      run := fun input =>
        (alternativesReader (termReader scope (some (typeReader scope depth)))).run input
      shrinks := (alternativesReader (termReader scope (some (typeReader scope depth)))).shrinks }

/-- The type that all of the lexemes denote together, as it is written. -/
def readWhole (scope : Scope) (depth : Nat) (input : List Lexeme) : Except Refusal TypeExpr :=
  match (typeReader scope depth).run input with
  | .error e => .error e
  | .ok (type, []) => .ok type
  | .ok (_, extra :: _) => .error (.misplaced .nothing (some extra))

def Refusal.toError (limits : Limits) (scope : Scope) (text : String) : Refusal → TypeError
  | .misplaced expected found =>
    ⟨text, scope.id, .malformed ((found.map Lexeme.start).getD text.utf8ByteSize)
      (.unexpected expected (found.map Lexeme.token))⟩
  | .integerRange numeral start => ⟨text, scope.id, .malformed start (.integerRange numeral)⟩
  | .tooDeep => ⟨text, scope.id, .tooDeep limits.maxDepth⟩
  | .unregistered name => ⟨name, scope.id, .unregistered⟩
  | .unknownGeneric name => ⟨name, scope.id, .unknownGeneric⟩
  | .arity name expected found => ⟨name, scope.id, .arity expected found⟩

/-- The normal form of the type that a reference denotes. -/
def decode (limits : Limits) (scope : Scope) (text : String) : Except TypeError TypeExpr :=
  if limits.maxBytes < text.utf8ByteSize then
    .error ⟨text, scope.id, .tooLarge limits.maxBytes⟩
  else
    match lexemes text with
    | .error (position, what) => .error ⟨text, scope.id, .malformed position (.misspelt what)⟩
    | .ok input =>
      match readWhole scope limits.maxDepth input with
      | .error refusal => .error (refusal.toError limits scope text)
      | .ok type => .ok type.normalize

end Callable.Reference
