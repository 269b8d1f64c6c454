import Callable.Proofs.Reference.Scanner

/-!
A parser that goes through the places of a text. It keeps an index and the number of open brackets, looks
places up by the index, and counts how many of its calls are open; a place that is missing, a turn of a
loop that takes nothing or a call too many halts it. On the places of a text it does what the readers of
lexemes do, so none of these halts occurs.
-/
namespace Callable.Reference

/-- What a parser reads and reports about. -/
structure Parser where
  text : String
  slots : List Slot
  scope : Scope
  limits : Limits

/-- The index of the place to look at next, and the number of brackets that are open. -/
structure Cursor where
  index : Nat
  depth : Nat
  deriving DecidableEq, Repr

abbrev Walk := Except (Halt TypeError)

namespace Parser

variable {α : Type} (p : Parser)

/-- The place at a cursor; the last one stays when the cursor is past it. -/
def current (c : Cursor) : Walk Slot :=
  match p.slots[min c.index (p.slots.length - 1)]? with
  | some slot => .ok slot
  | none => .error (.noToken c.index)

def advance (c : Cursor) : Cursor :=
  if c.index + 1 < p.slots.length then { c with index := c.index + 1 } else c

/-- The number of places from a cursor on. -/
def left (c : Cursor) : Nat := p.slots.length - c.index

def lift (outcome : Except Refusal α) : Walk α :=
  checked (outcome.mapError (Refusal.toError p.limits p.scope p.text))

def unexpected (expected : Expected) (c : Cursor) : Walk α := do
  let slot ← p.current c
  .error (.failed ⟨p.text, p.scope.id, .malformed slot.position (.unexpected expected slot.token)⟩)

def expect (token : Option Token) (expected : Expected) (c : Cursor) :
    Walk Cursor := do
  let slot ← p.current c
  if slot.token = token then .ok (p.advance c) else p.unexpected expected c

def expectName (c : Cursor) : Walk (String × Cursor) := do
  let slot ← p.current c
  match slot.token with
  | some (.name name) => .ok (name, p.advance c)
  | _ => p.unexpected .typeName c

/-- What follows the first of several arguments, up to the closing bracket. -/
def moreArguments (item : Cursor → Walk (α × Cursor)) (c : Cursor) : Walk (List α × Cursor) := do
  let slot ← p.current c
  match slot.token with
  | some .comma =>
    let c₁ := p.advance c
    let next ← p.current c₁
    if next.token = some .closeBracket then .ok ([], p.advance c₁)
    else
      let (a, c₂) ← item c₁
      if p.left c₂ < p.left c then
        let (more, c₃) ← moreArguments item c₂
        .ok (a :: more, c₃)
      else .error .noProgress
  | some .closeBracket => .ok ([], p.advance c)
  | _ => p.unexpected .commaOrBracket c
termination_by p.left c

def arguments (item : Cursor → Walk (α × Cursor)) (c : Cursor) : Walk (List α × Cursor) := do
  let (a, c) ← item c
  let (more, c) ← p.moreArguments item c
  .ok (a :: more, c)

def literal (c : Cursor) : Walk (Literal × Cursor) := do
  let slot ← p.current c
  match slot.token with
  | some (.number text) =>
    let n := integerOf text.toList
    if Word.fitsSigned n then .ok (.int n, p.advance c)
    else .error (.failed ⟨p.text, p.scope.id, .malformed slot.position (.integerRange text)⟩)
  | some (.quoted text) => .ok (.str text, p.advance c)
  | some (.name "True") => .ok (.bool true, p.advance c)
  | some (.name "False") => .ok (.bool false, p.advance c)
  | some (.name "None") => .ok (.none, p.advance c)
  | _ => p.unexpected .literalValue c

/-- What stands in the brackets after a head, up to the closing one. -/
def form (type : Cursor → Walk (TypeExpr × Cursor)) (head : String) (c : Cursor) : Walk (TypeExpr × Cursor) := do
  if head = "Literal" then
    let (values, c) ← p.arguments p.literal c
    .ok (.literal values, c)
  else
    let slot ← p.current c
    if head ∈ Form.tuple.heads ∧ slot.token = some .openParen then
      let c ← p.expect (some .closeParen) .closingParen (p.advance c)
      let c ← p.expect (some .closeBracket) .closingBracket c
      .ok (.tuple [], c)
    else
      let (arguments, c) ← p.arguments type c
      let made ← p.lift (genericType head arguments)
      .ok (made, c)

/-- The terms that follow a first one, each after a pipe. -/
def moreTerms (term : Cursor → Walk (TypeExpr × Cursor)) (c : Cursor) : Walk (List TypeExpr × Cursor) := do
  let slot ← p.current c
  if slot.token = some .pipe then
    let (type, c₁) ← term (p.advance c)
    if p.left c₁ < p.left c then
      let (more, c₂) ← moreTerms term c₁
      .ok (type :: more, c₂)
    else .error .noProgress
  else .ok ([], c)
termination_by p.left c

def alternatives (term : Cursor → Walk (TypeExpr × Cursor)) (c : Cursor) : Walk (TypeExpr × Cursor) := do
  let (first, c) ← term c
  let (more, c) ← p.moreTerms term c
  .ok (if more = [] then first else .union (first :: more), c)

/-- A form whose bracket has just been passed. The depth is raised before it is checked, and lowered again
where the form ends well. -/
def brackets (type : Cursor → Walk (TypeExpr × Cursor)) (head : String) (c : Cursor) :
    Walk (TypeExpr × Cursor) := do
  let inside : Cursor := { c with depth := c.depth + 1 }
  if p.limits.maxDepth < inside.depth then
    .error (.failed ⟨p.text, p.scope.id, .tooDeep p.limits.maxDepth⟩)
  else
    let (made, c) ← p.form type head inside
    .ok (made, { c with depth := c.depth - 1 })

/-- A name or a form, in at most so many calls that are open at once. -/
def term : (calls : Nat) → Cursor → Walk (TypeExpr × Cursor)
  | 0, _ => .error .overOpen
  | calls + 1, c => do
    let (name, c) ← p.expectName c
    let slot ← p.current c
    if slot.token = some .openBracket then
      p.brackets (p.alternatives (term calls)) name (p.advance c)
    else
      let type ← p.lift (bareType p.scope name)
      .ok (type, c)

/-- The type that all of the places denote together. -/
def whole : Walk TypeExpr := do
  let (type, c) ← p.alternatives (p.term (p.limits.maxDepth + 1)) ⟨0, 0⟩
  let _ ← p.expect none .nothing c
  .ok type

/-- The cursor in front of the last lexemes of a text. -/
def place (rest : List Lexeme) (depth : Nat) : Cursor := ⟨p.slots.length - (rest.length + 1), depth⟩

theorem place_index (rest : List Lexeme) (depth : Nat) :
    (p.place rest depth).index = p.slots.length - (rest.length + 1) := rfl

section Places

variable {p} {all rest : List Lexeme} {depth : Nat}
  (hslots : p.slots = slotsOf p.text.utf8ByteSize all)

include hslots

theorem length_slots : p.slots.length = all.length + 1 := by
  rw [hslots, slotsOf, List.length_append, List.length_map, List.length_singleton]

theorem current_place (hrest : rest <:+ all) : p.current (p.place rest depth) =
    .ok ⟨rest.head?.map Lexeme.token, (rest.head?.map Lexeme.start).getD p.text.utf8ByteSize⟩ := by
  have hlength := length_slots hslots
  obtain ⟨before, rfl⟩ := hrest
  have hindex : min (p.place rest depth).index (p.slots.length - 1) = before.length := by
    rw [place_index, hlength, List.length_append]
    omega
  have hlookup : p.slots[before.length]? = (slotsOf p.text.utf8ByteSize rest)[0]? := by
    rw [hslots, slotsOf, slotsOf, List.map_append, List.append_assoc,
      List.getElem?_append_right (by rw [List.length_map]), List.length_map, Nat.sub_self]
  rw [current, hindex, hlookup]
  cases rest <;> rfl

theorem advance_place {lexeme : Lexeme} (hrest : lexeme :: rest <:+ all) :
    p.advance (p.place (lexeme :: rest) depth) = p.place rest depth := by
  have hlength := length_slots hslots
  have hle := hrest.length_le
  rw [List.length_cons] at hle
  have hnext : (p.place (lexeme :: rest) depth).index + 1 = (p.place rest depth).index := by
    rw [place_index, place_index, List.length_cons]
    omega
  rw [advance, hnext, if_pos (by rw [place_index]; omega)]
  rfl

theorem left_place (hrest : rest <:+ all) : p.left (p.place rest depth) = rest.length + 1 := by
  have hlength := length_slots hslots
  have hle := hrest.length_le
  rw [left, place_index]
  omega

/-- Fewer places are left once a turn has read an item. -/
theorem left_lt {lexeme : Lexeme} {rest' : List Lexeme} (hrest : lexeme :: rest <:+ all)
    (hrest' : rest' <:+ all) (hlt : rest'.length < rest.length) :
    p.left (p.place rest' depth) < p.left (p.place (lexeme :: rest) depth) := by
  rw [left_place hslots hrest', left_place hslots hrest, List.length_cons]
  omega

theorem unexpected_place (hrest : rest <:+ all) (expected : Expected) :
    (p.unexpected expected (p.place rest depth) : Walk α) =
      p.lift (.error (.misplaced expected rest.head?)) := by
  rw [unexpected, current_place hslots hrest]
  rfl

theorem expect_place {token : Token} {start : Nat} (hrest : ⟨token, start⟩ :: rest <:+ all)
    (expected : Expected) :
    p.expect (some token) expected (p.place (⟨token, start⟩ :: rest) depth) = .ok (p.place rest depth) := by
  rw [expect, current_place hslots hrest, ← advance_place hslots hrest]
  exact if_pos rfl

theorem expect_end (expected : Expected) :
    p.expect none expected (p.place [] depth) = .ok (p.advance (p.place [] depth)) := by
  rw [expect, current_place hslots List.nil_suffix]
  rfl

theorem expect_unexpected {token : Option Token} (hrest : rest <:+ all)
    (htoken : rest.head?.map Lexeme.token ≠ token) (expected : Expected) :
    p.expect token expected (p.place rest depth) = p.lift (.error (.misplaced expected rest.head?)) := by
  rw [expect, current_place hslots hrest, ← unexpected_place hslots hrest]
  exact if_neg htoken

end Places

/-- What a reader's outcome is for a parser. -/
def follow (depth : Nat) (outcome : Outcome α) : Walk (α × Cursor) :=
  p.lift (outcome.map fun (a, rest) => (a, p.place rest depth))

theorem brackets_tooDeep {depth : Nat} (hdepth : p.limits.maxDepth ≤ depth)
    (type : Cursor → Walk (TypeExpr × Cursor)) (head : String) (rest : List Lexeme) :
    p.brackets type head (p.place rest depth) = p.follow depth (.error .tooDeep) :=
  if_pos (Nat.lt_succ_of_le hdepth)

/-- The parser does at each place what the reader does with the lexemes from there. -/
def Follows (all : List Lexeme) (depth : Nat) (parse : Cursor → Walk (α × Cursor))
    (read : List Lexeme → Outcome α) : Prop :=
  ∀ input, input <:+ all → parse (p.place input depth) = p.follow depth (read input)

theorem suffix_of_cons {lexeme : Lexeme} {rest input : List Lexeme} (h : lexeme :: rest <:+ input) :
    rest <:+ input := (List.suffix_cons lexeme rest).trans h

theorem head_ne_of_not_cons {token : Token} {rest : List Lexeme}
    (h : ∀ start more, rest = ⟨token, start⟩ :: more → False) :
    rest.head?.map Lexeme.token ≠ some token := by
  intro hhead
  obtain ⟨⟨found, start⟩, hfirst, rfl⟩ := Option.map_eq_some_iff.mp hhead
  obtain ⟨more, rfl⟩ := List.head?_eq_some_iff.mp hfirst
  exact h start more rfl

section Loops

variable {p} {all : List Lexeme} {depth : Nat} (hslots : p.slots = slotsOf p.text.utf8ByteSize all)

include hslots

variable {item : Cursor → Walk (α × Cursor)} {reader : Reader α}
  (hitem : p.Follows all depth item reader.run)
  (haccount : ∀ input, Accounted p.scope input (reader.run input))

theorem moreArguments_comma {start : Nat} {rest : List Lexeme} (hinput : ⟨.comma, start⟩ :: rest <:+ all)
    (hclose : ∀ start more, rest = ⟨.closeBracket, start⟩ :: more → False) :
    p.moreArguments item (p.place (⟨.comma, start⟩ :: rest) depth) = (do
      let (a, c) ← item (p.place rest depth)
      if p.left c < p.left (p.place (⟨.comma, start⟩ :: rest) depth) then
        let (more, c) ← p.moreArguments item c
        .ok (a :: more, c)
      else .error .noProgress) := by
  rw [moreArguments, current_place hslots hinput]
  simp only [bind, Except.bind, List.head?_cons, Option.map_some, advance_place hslots hinput,
    current_place hslots (suffix_of_cons hinput), if_neg (head_ne_of_not_cons hclose)]

include hitem haccount

/-- A turn of a loop that reads an item goes on from where the item ends. -/
theorem turn_place {lexeme : Lexeme} {a : α} {rest rest' : List Lexeme} (hinput : lexeme :: rest <:+ all)
    (hrun : reader.run rest = .ok (a, rest')) (loop : Cursor → Walk (List α × Cursor)) :
    (do let (a, c) ← item (p.place rest depth)
        if p.left c < p.left (p.place (lexeme :: rest) depth) then
          let (more, c) ← loop c
          .ok (a :: more, c)
        else .error .noProgress) =
      (do let (more, c) ← loop (p.place rest' depth)
          .ok (a :: more, c)) := by
  have hrest := suffix_of_cons hinput
  have hrest' := (suffix_of_run haccount hrun).trans hrest
  rw [hitem rest hrest, hrun]
  exact if_pos (left_lt hslots hinput hrest' (reader.shrinks hrun))

theorem follows_moreArguments :
    p.Follows all depth (p.moreArguments item) reader.moreArguments := by
  intro input hinput
  fun_induction Reader.moreArguments reader input with
  | case1 start rest =>
    rw [moreArguments, current_place hslots hinput]
    exact congrArg (fun c => Except.ok ([], c)) (advance_place hslots hinput)
  | case2 start stop rest =>
    have hrest := suffix_of_cons hinput
    rw [moreArguments, current_place hslots hinput]
    simp only [bind, Except.bind, List.head?_cons, Option.map_some, advance_place hslots hinput,
      current_place hslots hrest, advance_place hslots hrest, if_true]
    rfl
  | case3 start rest hclose e hrun =>
    rw [moreArguments_comma hslots hinput hclose, hitem rest (suffix_of_cons hinput), hrun]
    rfl
  | case4 start rest hclose a rest' hrun _ e hmore ih =>
    have hrest' := (suffix_of_run haccount hrun).trans (suffix_of_cons hinput)
    rw [moreArguments_comma hslots hinput hclose, turn_place hslots hitem haccount hinput hrun,
      ih hrest', hmore]
    rfl
  | case5 start rest hclose a rest' hrun _ more rest'' hmore ih =>
    have hrest' := (suffix_of_run haccount hrun).trans (suffix_of_cons hinput)
    rw [moreArguments_comma hslots hinput hclose, turn_place hslots hitem haccount hinput hrun,
      ih hrest', hmore]
    rfl
  | case6 other hclose hcomma hother =>
    rw [moreArguments, current_place hslots hinput]
    simp only [bind, Except.bind]
    split
    · rename_i hhead
      exact absurd hhead (head_ne_of_not_cons hother)
    · rename_i hhead
      exact absurd hhead (head_ne_of_not_cons hclose)
    · exact unexpected_place hslots hinput .commaOrBracket

theorem follows_arguments : p.Follows all depth (p.arguments item) reader.arguments := by
  intro input hinput
  unfold arguments Reader.arguments
  rw [hitem input hinput]
  split
  · rename_i heq
    rw [heq]
    rfl
  · rename_i a rest hrun
    have hloop := follows_moreArguments hslots hitem haccount rest
      ((suffix_of_run haccount hrun).trans hinput)
    rw [hrun]
    change (p.moreArguments item (p.place rest depth) >>= _) = _
    rw [hloop]
    split
    all_goals
      rename_i heq
      rw [heq]
      rfl

end Loops

section Types

variable {p} {all : List Lexeme} {depth : Nat} (hslots : p.slots = slotsOf p.text.utf8ByteSize all)

include hslots

theorem follows_literal : p.Follows all depth p.literal literalReader.run := by
  intro input hinput
  change p.literal (p.place input depth) = p.follow depth (readLiteral input)
  rw [literal, current_place hslots hinput]
  unfold readLiteral
  split
  · rename_i text start rest
    simp only [bind, Except.bind, List.head?_cons, Option.map_some, advance_place hslots hinput]
    split <;> rfl
  case h_6 hnumber hquoted hyes hno hnone =>
    simp only [bind, Except.bind]
    split
    · rename_i hhead
      exact absurd hhead (head_ne_of_not_cons (hnumber _))
    · rename_i hhead
      exact absurd hhead (head_ne_of_not_cons (hquoted _))
    · rename_i hhead
      exact absurd hhead (head_ne_of_not_cons hyes)
    · rename_i hhead
      exact absurd hhead (head_ne_of_not_cons hno)
    · rename_i hhead
      exact absurd hhead (head_ne_of_not_cons hnone)
    · exact unexpected_place hslots hinput .literalValue
  all_goals
    simp only [bind, Except.bind, List.head?_cons, Option.map_some, advance_place hslots hinput]
    rfl

variable {term : Cursor → Walk (TypeExpr × Cursor)} {reader : Reader TypeExpr}
  (hterm : p.Follows all depth term reader.run)
  (haccount : ∀ input, Accounted p.scope input (reader.run input))

theorem moreTerms_pipe {start : Nat} {rest : List Lexeme} (hinput : ⟨.pipe, start⟩ :: rest <:+ all) :
    p.moreTerms term (p.place (⟨.pipe, start⟩ :: rest) depth) = (do
      let (type, c) ← term (p.place rest depth)
      if p.left c < p.left (p.place (⟨.pipe, start⟩ :: rest) depth) then
        let (more, c) ← p.moreTerms term c
        .ok (type :: more, c)
      else .error .noProgress) := by
  rw [moreTerms, current_place hslots hinput]
  simp only [bind, Except.bind, List.head?_cons, Option.map_some, advance_place hslots hinput, if_true]

include hterm haccount

theorem follows_moreTerms : p.Follows all depth (p.moreTerms term) reader.moreAlternatives := by
  intro input hinput
  fun_induction Reader.moreAlternatives reader input with
  | case1 start rest e hrun =>
    rw [moreTerms_pipe hslots hinput, hterm rest (suffix_of_cons hinput), hrun]
    rfl
  | case2 start rest a rest' hrun _ e hmore ih =>
    have hrest' := (suffix_of_run haccount hrun).trans (suffix_of_cons hinput)
    rw [moreTerms_pipe hslots hinput, turn_place hslots hterm haccount hinput hrun, ih hrest', hmore]
    rfl
  | case3 start rest a rest' hrun _ more rest'' hmore ih =>
    have hrest' := (suffix_of_run haccount hrun).trans (suffix_of_cons hinput)
    rw [moreTerms_pipe hslots hinput, turn_place hslots hterm haccount hinput hrun, ih hrest', hmore]
    rfl
  | case4 other hother =>
    rw [moreTerms, current_place hslots hinput]
    exact if_neg (head_ne_of_not_cons hother)

theorem follows_alternatives : p.Follows all depth (p.alternatives term) (readAlternatives reader) := by
  intro input hinput
  unfold alternatives readAlternatives
  rw [hterm input hinput]
  split
  · rename_i heq
    rw [heq]
    rfl
  · rename_i first rest hrun
    have hloop := follows_moreTerms hslots hterm haccount rest
      ((suffix_of_run haccount hrun).trans hinput)
    rw [hrun]
    change (p.moreTerms term (p.place rest depth) >>= _) = _
    rw [hloop]
    split
    · rename_i heq
      rw [heq]
      rfl
    · rename_i heq
      rw [heq]
      rfl
    · rename_i more rest hne heq
      rw [heq]
      exact congrArg (fun type => Except.ok (type, p.place rest depth)) (if_neg hne)

omit hterm haccount

theorem follows_emptyTuple {rest : List Lexeme} (hrest : rest <:+ all) :
    (do let c ← p.expect (some .closeParen) .closingParen (p.place rest depth)
        let c ← p.expect (some .closeBracket) .closingBracket c
        .ok (.tuple [], c)) = p.follow depth (readEmptyTuple rest) := by
  unfold readEmptyTuple
  split
  · have hbracket := suffix_of_cons hrest
    rw [expect_place hslots hrest]
    change (p.expect _ _ (p.place _ depth) >>= _) = _
    rw [expect_place hslots hbracket]
    rfl
  · rename_i start other hother
    have hbracket := suffix_of_cons hrest
    rw [expect_place hslots hrest]
    change (p.expect _ _ (p.place _ depth) >>= _) = _
    rw [expect_unexpected hslots hbracket (head_ne_of_not_cons hother)]
    rfl
  · rename_i hone hother
    rw [expect_unexpected hslots hrest (head_ne_of_not_cons hother)]
    rfl

theorem follows_form {type : Cursor → Walk (TypeExpr × Cursor)} {inner : Reader TypeExpr}
    (htype : p.Follows all depth type inner.run)
    (haccount : ∀ input, Accounted p.scope input (inner.run input)) (head : String) :
    p.Follows all depth (p.form type head) (readForm inner head) := by
  intro input hinput
  unfold form readForm
  split
  · rw [follows_arguments hslots (follows_literal hslots) accounted_literalReader input hinput]
    cases literalReader.arguments input <;> rfl
  · rw [current_place hslots hinput]
    have hgeneric := follows_arguments hslots htype haccount input hinput
    have hparen (hother : ∀ start rest, Form.ofHead? head = some .tuple →
        input = ⟨.openParen, start⟩ :: rest → False) :
        ¬ (head ∈ Form.tuple.heads ∧ input.head?.map Lexeme.token = some .openParen) := by
      rintro ⟨hhead, hfirst⟩
      refine head_ne_of_not_cons (fun start more heq => ?_) hfirst
      exact hother start more ((Form.ofHead?_eq_some_iff head .tuple).mpr hhead) heq
    split
    · rename_i start rest hhead
      have htuple := (Form.ofHead?_eq_some_iff head .tuple).mp hhead
      rw [← follows_emptyTuple hslots (suffix_of_cons hinput), ← advance_place hslots hinput]
      exact if_pos ⟨htuple, rfl⟩
    · rename_i hother
      refine (if_neg (hparen hother)).trans ?_
      rw [hgeneric]
      cases inner.arguments _ with
      | error e => rfl
      | ok found =>
        obtain ⟨arguments, rest⟩ := found
        change (p.lift (genericType head arguments) >>= _) =
          p.follow depth ((genericType head arguments).map (·, rest))
        cases genericType head arguments <;> rfl

theorem follows_brackets {type : Cursor → Walk (TypeExpr × Cursor)} {inner : Reader TypeExpr}
    (hdepth : depth < p.limits.maxDepth) (htype : p.Follows all (depth + 1) type inner.run)
    (haccount : ∀ input, Accounted p.scope input (inner.run input)) (head : String) :
    p.Follows all depth (p.brackets type head) (readForm inner head) := by
  intro input hinput
  refine (if_neg (Nat.not_lt.mpr hdepth)).trans ?_
  change (p.form type head (p.place input (depth + 1)) >>= _) = _
  rw [follows_form hslots htype haccount head input hinput]
  cases readForm inner head input <;> rfl

theorem expectName_place {name : String} {start : Nat} {rest : List Lexeme}
    (hinput : ⟨.name name, start⟩ :: rest <:+ all) :
    p.expectName (p.place (⟨.name name, start⟩ :: rest) depth) = .ok (name, p.place rest depth) := by
  rw [expectName, current_place hslots hinput, ← advance_place hslots hinput]
  rfl

theorem expectName_unexpected {input : List Lexeme} (hinput : input <:+ all)
    (hname : ∀ name start rest, input = ⟨.name name, start⟩ :: rest → False) :
    p.expectName (p.place input depth) = p.lift (.error (.misplaced .typeName input.head?)) := by
  rw [expectName, current_place hslots hinput, ← unexpected_place hslots hinput]
  simp only [bind, Except.bind]
  split
  · rename_i name hhead
    exact absurd hhead (head_ne_of_not_cons (hname name))
  · rfl

/-- A term is followed if what its brackets hold is. -/
theorem follows_term_of_brackets {calls : Nat} {inner : Option (Reader TypeExpr)}
    (hbrackets : ∀ head, p.Follows all depth (p.brackets (p.alternatives (p.term calls)) head)
      fun rest => match inner with
        | none => .error .tooDeep
        | some inner => readForm inner head rest) :
    p.Follows all depth (p.term (calls + 1)) (termReader p.scope inner).run := by
  intro input hinput
  change p.term (calls + 1) (p.place input depth) = p.follow depth (readTerm p.scope inner input)
  unfold readTerm
  split
  · rename_i head start stop rest
    have hbracket := suffix_of_cons hinput
    rw [term, expectName_place hslots hinput]
    change (p.current (p.place _ depth) >>= _) = _
    refine Eq.trans ?_ (hbrackets head rest (suffix_of_cons hbracket))
    rw [current_place hslots hbracket]
    simp only [bind, Except.bind, List.head?_cons, Option.map_some, if_true,
      advance_place hslots hbracket]
  · rename_i name start rest hbracket
    rw [term, expectName_place hslots hinput]
    change (p.current (p.place rest depth) >>= _) = _
    rw [current_place hslots (suffix_of_cons hinput)]
    refine (if_neg (head_ne_of_not_cons fun stop more heq => ?_)).trans ?_
    · exact hbracket stop more heq
    · cases bareType p.scope name <;> rfl
  · rename_i hform hname
    rw [term, expectName_unexpected hslots hinput hname]
    rfl

/-- With enough calls for the brackets that are still allowed, terms are followed. -/
theorem follows_term (n : Nat) (hn : n ≤ p.limits.maxDepth) :
    p.Follows all (p.limits.maxDepth - n) (p.term (n + 1))
      (termReader p.scope (innerReader p.scope n)).run := by
  induction n with
  | zero =>
    refine follows_term_of_brackets hslots fun head rest _ => ?_
    exact p.brackets_tooDeep (Nat.le_refl _) _ head rest
  | succ n ih =>
    have hdepth : p.limits.maxDepth - (n + 1) + 1 = p.limits.maxDepth - n := by omega
    have hterm := ih (Nat.le_of_succ_le hn)
    have hinner := follows_alternatives hslots hterm (accounted_termReader n)
    rw [← typeReader_run, ← hdepth] at hinner
    refine follows_term_of_brackets hslots fun head => ?_
    exact follows_brackets hslots (by omega) hinner (accounted_typeReader n) head

/-- From the first place on, the parser reads a type as the reader does. -/
theorem alternatives_eq : p.alternatives (p.term (p.limits.maxDepth + 1)) ⟨0, 0⟩ =
    p.follow 0 ((typeReader p.scope p.limits.maxDepth).run all) := by
  have hstart : p.place all 0 = ⟨0, 0⟩ := by
    rw [place, length_slots hslots, Nat.sub_self]
  have hterm := follows_term hslots p.limits.maxDepth (Nat.le_refl _)
  rw [Nat.sub_self] at hterm
  have htype := follows_alternatives hslots hterm (accounted_termReader p.limits.maxDepth) all
    List.suffix_rfl
  rwa [← typeReader_run, hstart] at htype

theorem whole_eq : p.whole = p.lift (readWhole p.scope p.limits.maxDepth all) := by
  have haccount : Accounted p.scope all ((typeReader p.scope p.limits.maxDepth).run all) :=
    accounted_typeReader p.limits.maxDepth all
  unfold whole readWhole
  rw [alternatives_eq hslots]
  split
  · rename_i heq
    rw [heq]
    rfl
  · rename_i type heq
    rw [heq]
    change (p.expect _ _ (p.place [] 0) >>= _) = _
    rw [expect_end hslots]
    rfl
  · rename_i type extra more heq
    rw [heq] at haccount ⊢
    change (p.expect _ _ (p.place (extra :: more) 0) >>= _) = _
    rw [expect_unexpected hslots haccount (by simp)]
    rfl

end Types

end Parser

/-- Decoding with every step checked. -/
def decodeStepwise (limits : Limits) (scope : Scope) (text : String) :
    Walk TypeExpr := do
  if limits.maxBytes < text.utf8ByteSize then
    .error (.failed ⟨text, scope.id, .tooLarge limits.maxBytes⟩)
  else
    let slots ← (scan text).mapError <| Halt.map fun (position, what) =>
      ⟨text, scope.id, .malformed position (.misspelt what)⟩
    let type ← ({ text, slots, scope, limits } : Parser).whole
    .ok type.normalize

/-- Decoding never halts at a step that cannot be made. -/
theorem decodeStepwise_eq (limits : Limits) (scope : Scope) (text : String) :
    decodeStepwise limits scope text = checked (decode limits scope text) := by
  unfold decodeStepwise decode
  split
  · rfl
  · rw [scan_eq, mapError_checked]
    cases lexemes text with
    | error e => rfl
    | ok input =>
      let p : Parser := ⟨text, slotsOf text.utf8ByteSize input, scope, limits⟩
      have hwhole : p.whole = p.lift (readWhole scope limits.maxDepth input) := Parser.whole_eq rfl
      change (p.whole >>= _) = _
      rw [hwhole]
      cases hread : readWhole scope limits.maxDepth input <;> simp only [hread] <;> rfl

/-- Scanning and parsing are safe on every text: they cut it only at boundaries of characters, look up
only places that there are, and find what the lexemes and readers of the reference give. Where a text is
malformed, the byte that is named is a boundary, the text up to it spells tokens, and what is wrong
begins there. -/
theorem decode_safe (limits : Limits) (scope : Scope) (text : String) :
    scan text = checked ((lexemes text).map (slotsOf text.utf8ByteSize)) ∧
    decodeStepwise limits scope text = checked (decode limits scope text) ∧
    ∀ e position what, decode limits scope text = .error e → e.cause = .malformed position what →
      position ≤ text.utf8ByteSize ∧ (⟨position⟩ : String.Pos.Raw).IsValid text ∧
      ∃ front rest before, text.toList = front ++ rest ∧ Text.byteLength front = position ∧
        Spells front before ∧ what.Stands front rest := by
  refine ⟨scan_eq text, decodeStepwise_eq limits scope text, ?_⟩
  intro e position what h hcause
  obtain ⟨front, rest, before, htext, hposition, hstands⟩ := stands_of_decode h hcause
  have hvalid := (Text.isValid_iff text position).mpr ⟨front, rest, htext, hposition⟩
  exact ⟨hvalid.le_rawEndPos, hvalid, front, rest, before, htext, hposition, hstands⟩

/-- A string that ends in a backslash, behind characters of two bytes. -/
theorem decode_safe_open :
    decode ⟨100, 2⟩ rows.scope "Literal['é', 'ü\\" =
      .error ⟨"Literal['é', 'ü\\", "tables", .malformed 14 (.misspelt .openString)⟩ ∧
    (⟨14⟩ : String.Pos.Raw).IsValid "Literal['é', 'ü\\" ∧
    ∃ front rest before, "Literal['é', 'ü\\".toList = front ++ rest ∧ Text.byteLength front = 14 ∧
      Spells front before ∧ Misspells .openString rest := by
  have h : decode ⟨100, 2⟩ rows.scope "Literal['é', 'ü\\" =
      .error ⟨"Literal['é', 'ü\\", "tables", .malformed 14 (.misspelt .openString)⟩ := by
    decide +kernel
  exact ⟨h, ((decode_safe ⟨100, 2⟩ rows.scope _).2.2 _ _ _ h rfl).2⟩

end Callable.Reference
