/-!
The lexemes of a type reference: names with dots, integers, quoted strings and six punctuation
marks, each with the byte at which it starts. Blanks between them mean nothing. A name, like an
integer, takes as many characters as it can.
-/
namespace Callable.Reference

inductive Token where
  | name (text : String)
  | number (text : String)
  | quoted (text : String)
  | openBracket
  | closeBracket
  | openParen
  | closeParen
  | comma
  | pipe
  deriving DecidableEq, Repr

structure Lexeme where
  token : Token
  start : Nat
  deriving DecidableEq, Repr

/-- Why a text has no lexemes. -/
inductive Misspelling where
  | empty
  | strayCharacter (c : Char)
  | openString
  | loneMinus
  | badDots (name : String)
  deriving DecidableEq, Repr

def isSpace (c : Char) : Bool := c == ' ' || c == '\t' || c == '\n' || c == '\r'

def startsName (c : Char) : Bool := c.isAlpha || c == '_'

def continuesName (c : Char) : Bool := c.isAlphanum || c == '_' || c == '.'

def punctuation? : Char → Option Token
  | '[' => some .openBracket
  | ']' => some .closeBracket
  | '(' => some .openParen
  | ')' => some .closeParen
  | ',' => some .comma
  | '|' => some .pipe
  | _ => none

/-- Whether a name ends in a dot or holds two dots in a row. -/
def hasBadDots : List Char → Bool
  | [] => false
  | ['.'] => true
  | '.' :: '.' :: _ => true
  | _ :: rest => hasBadDots rest

/-- What a backslash and the character after it stand for. -/
def unescape : Char → Char
  | 'n' => '\n'
  | 't' => '\t'
  | c => c

/-- The text up to the closing quote, the byte after that quote, and what follows. -/
def quotedText? (quote : Char) (pos : Nat) : List Char → Option (List Char × Nat × List Char)
  | [] => none
  | ['\\'] => none
  | '\\' :: c :: rest =>
    (quotedText? quote (pos + 1 + c.utf8Size) rest).map fun (text, found) =>
      (unescape c :: text, found)
  | c :: rest =>
    if c = quote then some ([], pos + c.utf8Size, rest)
    else
      (quotedText? quote (pos + c.utf8Size) rest).map fun (text, found) => (c :: text, found)

theorem length_lt_of_quotedText? {quote : Char} {pos stop : Nat} {text chars rest : List Char}
    (h : quotedText? quote pos text = some (chars, stop, rest)) : rest.length < text.length := by
  fun_induction quotedText? quote pos text generalizing chars stop rest with
  | case1 => simp at h
  | case2 => simp at h
  | case3 pos c tail ih =>
    obtain ⟨⟨inner, _, after⟩, hi, he⟩ := Option.map_eq_some_iff.mp h
    simp only [Prod.mk.injEq] at he
    obtain ⟨-, -, rfl⟩ := he
    have := ih hi
    simp only [List.length_cons]
    omega
  | case4 pos tail _ _ =>
    simp only [Option.some.injEq, Prod.mk.injEq] at h
    simp [h.2.2]
  | case5 pos c tail _ _ _ ih =>
    obtain ⟨⟨inner, _, after⟩, hi, he⟩ := Option.map_eq_some_iff.mp h
    simp only [Prod.mk.injEq] at he
    obtain ⟨-, -, rfl⟩ := he
    have := ih hi
    simp only [List.length_cons]
    omega

/-- A failure to split a text, with the byte where it was noticed. -/
abbrev Misspelt := Nat × Misspelling

theorem exists_of_map_eq_ok {ε α β : Type} {f : α → β} {outcome : Except ε α} {b : β}
    (h : f <$> outcome = .ok b) : ∃ a, outcome = .ok a ∧ f a = b := by
  cases outcome with
  | error e => cases h
  | ok a => exact ⟨a, rfl, Except.ok.inj h⟩

theorem exists_of_bind_eq_ok {ε α β : Type} {outcome : Except ε α} {next : α → Except ε β} {b : β}
    (h : outcome >>= next = .ok b) : ∃ a, outcome = .ok a ∧ next a = .ok b := by
  cases outcome with
  | error e => cases h
  | ok a => exact ⟨a, rfl, h⟩

/-- The lexemes of a text whose first byte has the position `pos`. -/
def lexemesFrom (pos : Nat) : List Char → Except Misspelt (List Lexeme)
  | [] => .ok []
  | c :: rest =>
    if isSpace c then lexemesFrom (pos + 1) rest
    else
      match punctuation? c with
      | some mark => (⟨mark, pos⟩ :: ·) <$> lexemesFrom (pos + 1) rest
      | none =>
        if c = '\'' ∨ c = '"' then
          match h : quotedText? c (pos + 1) rest with
          | none => .error (pos, .openString)
          | some (text, stop, after) =>
            have := length_lt_of_quotedText? h
            (⟨.quoted (String.ofList text), pos⟩ :: ·) <$> lexemesFrom stop after
        else if c = '-' ∨ c.isDigit then
          let digits := rest.takeWhile Char.isDigit
          if c = '-' ∧ digits = [] then .error (pos, .loneMinus)
          else
            (⟨.number (String.ofList (c :: digits)), pos⟩ :: ·) <$>
              lexemesFrom (pos + 1 + digits.length) (rest.dropWhile Char.isDigit)
        else if startsName c then
          let name := c :: rest.takeWhile continuesName
          if hasBadDots name then .error (pos, .badDots (String.ofList name))
          else
            (⟨.name (String.ofList name), pos⟩ :: ·) <$>
              lexemesFrom (pos + name.length) (rest.dropWhile continuesName)
        else .error (pos, .strayCharacter c)
termination_by text => text.length
decreasing_by
  all_goals simp only [List.length_cons]
  all_goals
    first
      | omega
      | have := (List.dropWhile_sublist (l := rest) Char.isDigit).length_le; omega
      | have := (List.dropWhile_sublist (l := rest) continuesName).length_le; omega

/-- The lexemes of a text, which has at least one. -/
def lexemes (text : String) : Except Misspelt (List Lexeme) := do
  match ← lexemesFrom 0 text.toList with
  | [] => .error (0, .empty)
  | found => .ok found

end Callable.Reference
