import Callable.Proofs.Reference.Nameless

/-!
Limits only reject. The reader, the writer and the shapes look at a bound in one way: they compare, and
stop if too many brackets are open or the text is too long. So a run under wider limits goes step by step
with the run under the narrow ones, up to the comparison that stops the latter; if nothing stops it, both
come to the same value or the same error.
-/
namespace Callable

open TypeExpr (induct_parts)

/-- The outcome stands in the other run as well, unless this one was stopped. -/
def StandsUnless {ε α : Type} (stopped : ε → Prop) (outcome other : Except ε α) : Prop :=
  (∃ e, outcome = .error e ∧ stopped e) ∨ other = outcome

namespace StandsUnless

variable {ε α β : Type} {stopped : ε → Prop} {outcome other : Except ε α}

theorem refl (outcome : Except ε α) : StandsUnless stopped outcome outcome := Or.inr rfl

theorem of_stopped {e : ε} (h : stopped e) (other : Except ε α) :
    StandsUnless stopped (.error e) other := Or.inl ⟨e, rfl, h⟩

theorem bind (h : StandsUnless stopped outcome other) {next next' : α → Except ε β}
    (hnext : ∀ a, outcome = .ok a → StandsUnless stopped (next a) (next' a)) :
    StandsUnless stopped (outcome >>= next) (other >>= next') := by
  rcases h with ⟨e, heq, he⟩ | hsame
  · subst heq
    exact of_stopped he _
  · subst hsame
    cases houtcome : other with
    | error e => exact refl _
    | ok a => exact hnext a houtcome

theorem map (h : StandsUnless stopped outcome other) (f : α → β) :
    StandsUnless stopped (outcome.map f) (other.map f) := by
  rcases h with ⟨e, heq, he⟩ | hsame
  · subst heq
    exact of_stopped he _
  · subst hsame
    exact refl _

/-- The other run may be stopped at a comparison only where this one is. -/
theorem ite {bound wider : Prop} [Decidable bound] [Decidable wider] (hbound : wider → bound) {e e' : ε}
    (he : stopped e) (h : StandsUnless stopped outcome other) :
    StandsUnless stopped (if bound then .error e else outcome)
      (if wider then .error e' else other) := by
  by_cases hstop : bound
  · rw [if_pos hstop]
    exact of_stopped he _
  · have hwide : ¬ wider := fun hpassed => hstop (hbound hpassed)
    rw [if_neg hstop, if_neg hwide]
    exact h

end StandsUnless

namespace Reference

section Readers

variable {α : Type} {narrow wide : Reader α}

/-- What a reader with more depth does, given the outcome of one with less. -/
abbrev StandsUnlessDeep {β : Type} : Except Refusal β → Except Refusal β → Prop :=
  StandsUnless (· = .tooDeep)

/-- The wide reader reads all that the narrow one reads and refuses what it refuses, unless the narrow
one stopped at its depth. -/
def Widens (wide narrow : Reader α) : Prop :=
  ∀ input, StandsUnlessDeep (narrow.run input) (wide.run input)

theorem arguments_eq_bind (item : Reader α) (input : List Lexeme) :
    item.arguments input = (item.run input).bind fun found =>
      (item.moreArguments found.2).map fun more => (found.1 :: more.1, more.2) := by
  unfold Reader.arguments
  cases item.run input with
  | error e => rfl
  | ok found =>
    simp only [Except.bind]
    cases item.moreArguments found.2 with
    | error e => rfl
    | ok more => rfl

/-- Where no argument is read, all readers do the same. -/
theorem moreArguments_congr (item other : Reader α) {input : List Lexeme}
    (h : ∀ start rest, input = ⟨.comma, start⟩ :: rest →
      ∃ stop after, rest = ⟨.closeBracket, stop⟩ :: after) :
    item.moreArguments input = other.moreArguments input := by
  fun_cases Reader.moreArguments item input with
  | case1 => rw [Reader.moreArguments]
  | case2 => rw [Reader.moreArguments]
  | case3 start rest hclose | case4 start rest hclose | case5 start rest hclose =>
    obtain ⟨stop, after, hrest⟩ := h start rest rfl
    exact (hclose stop after hrest).elim
  | case6 hother hclosed hcomma =>
    rw [Reader.moreArguments]
    all_goals assumption

/-- Arguments are read alike if those after the first are. -/
theorem stands_arguments (h : Widens wide narrow) {input : List Lexeme}
    (hmore : ∀ rest : List Lexeme, rest.length < input.length →
      StandsUnlessDeep (narrow.moreArguments rest) (wide.moreArguments rest)) :
    StandsUnlessDeep (narrow.arguments input) (wide.arguments input) := by
  rw [arguments_eq_bind, arguments_eq_bind]
  refine (h input).bind fun found hfound => ?_
  exact (hmore found.2 (narrow.shrinks hfound)).map _

theorem stands_moreArguments (h : Widens wide narrow) (input : List Lexeme) :
    StandsUnlessDeep (narrow.moreArguments input) (wide.moreArguments input) := by
  induction hlength : input.length using Nat.strongRecOn generalizing input with
  | ind length ih =>
    by_cases hcomma : ∃ start rest, input = ⟨.comma, start⟩ :: rest ∧
        Avoids [.closeBracket] (rest.map Lexeme.token)
    · obtain ⟨start, rest, rfl, hclose⟩ := hcomma
      rw [Reader.moreArguments_comma hclose, Reader.moreArguments_comma hclose]
      refine stands_arguments h fun after hafter => ih after.length ?_ after rfl
      rw [List.length_cons] at hlength
      omega
    · rw [moreArguments_congr wide narrow]
      · exact StandsUnless.refl _
      · intro start rest hinput
        by_contra hnot
        refine hcomma ⟨start, rest, hinput, ?_⟩
        intro next hnext hmem
        obtain rfl := List.mem_singleton.mp hmem
        obtain ⟨tokens, htokens⟩ : ∃ tokens, rest.map Lexeme.token = .closeBracket :: tokens :=
          List.head?_eq_some_iff.mp hnext
        obtain ⟨stop, after, hrest, -⟩ := exists_cons_of_map_token htokens
        exact hnot ⟨stop, after, hrest⟩

theorem moreAlternatives_eq_bind (item : Reader α) (start : Nat) (rest : List Lexeme) :
    item.moreAlternatives (⟨.pipe, start⟩ :: rest) = (item.run rest).bind fun found =>
      (item.moreAlternatives found.2).map fun more => (found.1 :: more.1, more.2) := by
  rw [Reader.moreAlternatives]
  split
  · rename_i hrun
    simp only [hrun, Except.bind]
  · rename_i a after hrun
    simp only [hrun, Except.bind]
    cases item.moreAlternatives after with
    | error e => rfl
    | ok more => rfl

theorem stands_moreAlternatives (h : Widens wide narrow) (input : List Lexeme) :
    StandsUnlessDeep (narrow.moreAlternatives input) (wide.moreAlternatives input) := by
  induction hlength : input.length using Nat.strongRecOn generalizing input with
  | ind length ih =>
    by_cases hpipe : ∃ start rest, input = ⟨.pipe, start⟩ :: rest
    · obtain ⟨start, rest, rfl⟩ := hpipe
      rw [moreAlternatives_eq_bind, moreAlternatives_eq_bind]
      refine (h rest).bind fun found hfound => ?_
      have hshorter := narrow.shrinks hfound
      rw [List.length_cons] at hlength
      exact (ih found.2.length (by omega) found.2 rfl).map _
    · have hnone : ∀ reader : Reader α, reader.moreAlternatives input = .ok ([], input) := by
        intro reader
        rw [Reader.moreAlternatives]
        exact fun start rest hinput => hpipe ⟨start, rest, hinput⟩
      rw [hnone, hnone]
      exact StandsUnless.refl _

end Readers

section Types

variable {scope : Scope}

/-- A form is what its head makes of its arguments, unless it is a literal or the empty tuple. -/
theorem readForm_eq_bind {head : String} (hliteral : head ≠ "Literal") {input : List Lexeme}
    (hempty : ∀ start rest, Form.ofHead? head = some .tuple →
      input = ⟨.openParen, start⟩ :: rest → False) (inner : Reader TypeExpr) :
    readForm inner head input = (inner.arguments input).bind fun found =>
      (genericType head found.1).map (·, found.2) := by
  rw [readForm, if_neg hliteral]
  · cases inner.arguments input with
    | error e => rfl
    | ok found => rfl
  · exact hempty

theorem stands_readForm {narrow wide : Reader TypeExpr} (h : Widens wide narrow) (head : String)
    (input : List Lexeme) :
    StandsUnlessDeep (readForm narrow head input) (readForm wide head input) := by
  by_cases hinner : head ≠ "Literal" ∧
      ∀ start rest, Form.ofHead? head = some .tuple → input = ⟨.openParen, start⟩ :: rest → False
  · obtain ⟨hliteral, hempty⟩ := hinner
    rw [readForm_eq_bind hliteral hempty, readForm_eq_bind hliteral hempty]
    have harguments : StandsUnlessDeep (narrow.arguments input) (wide.arguments input) :=
      stands_arguments h fun rest _ => stands_moreArguments h rest
    exact harguments.bind fun found _ => StandsUnless.refl _
  · have hsame : readForm wide head input = readForm narrow head input := by
      unfold readForm
      split
      · rfl
      · rename_i hliteral
        split
        · rfl
        · rename_i hempty
          exact absurd ⟨hliteral, hempty⟩ hinner
    rw [hsame]
    exact StandsUnless.refl _

/-- What is read before the first bracket is read by all. -/
theorem stands_termReader (scope : Scope) {inner inner' : Option (Reader TypeExpr)}
    (h : ∀ narrow, inner = some narrow → ∃ wide, inner' = some wide ∧ Widens wide narrow) :
    Widens (termReader scope inner') (termReader scope inner) := by
  intro input
  change StandsUnlessDeep (readTerm scope inner input) (readTerm scope inner' input)
  fun_cases readTerm scope inner input with
  | case1 => exact Or.inl ⟨.tooDeep, rfl, rfl⟩
  | case2 head _ _ rest narrow =>
    obtain ⟨wide, rfl, hwidens⟩ := h narrow rfl
    exact stands_readForm hwidens head rest
  | case3 _ name start rest hopen =>
    have hsame : readTerm scope inner' (⟨.name name, start⟩ :: rest) =
        (bareType scope name).map (·, rest) := by
      rw [readTerm]
      exact hopen
    rw [hsame]
    exact StandsUnless.refl _
  | case4 _ _ hform hname =>
    have hsame : readTerm scope inner' input = .error (.misplaced .typeName input.head?) := by
      rw [readTerm]
      · exact hform
      · exact hname
    rw [hsame]
    exact StandsUnless.refl _

theorem readAlternatives_eq_bind (term : Reader TypeExpr) (input : List Lexeme) :
    readAlternatives term input = (term.run input).bind fun first =>
      (term.moreAlternatives first.2).map fun more =>
        (if more.1 = [] then first.1 else .union (first.1 :: more.1), more.2) := by
  unfold readAlternatives
  cases term.run input with
  | error e => rfl
  | ok first =>
    simp only [Except.bind]
    rcases term.moreAlternatives first.2 with e | ⟨_ | ⟨next, more⟩, rest⟩
    all_goals rfl

theorem stands_alternativesReader {narrow wide : Reader TypeExpr} (h : Widens wide narrow) :
    Widens (alternativesReader wide) (alternativesReader narrow) := by
  intro input
  change StandsUnlessDeep (readAlternatives narrow input) (readAlternatives wide input)
  rw [readAlternatives_eq_bind, readAlternatives_eq_bind]
  refine (h input).bind fun first _ => ?_
  exact (stands_moreAlternatives h first.2).map _

/-- Induction on the narrow depth: with no bracket left that may open, the readers differ only where the
narrow one stops. -/
theorem stands_typeReader (scope : Scope) {depth depth' : Nat} (h : depth ≤ depth') :
    Widens (typeReader scope depth') (typeReader scope depth) := by
  induction depth generalizing depth' with
  | zero =>
    have hterm : ∀ inner, Widens (termReader scope inner) (termReader scope none) :=
      fun inner => stands_termReader scope fun narrow hnone => by cases hnone
    cases depth' with
    | zero => exact stands_alternativesReader (hterm none)
    | succ depth' => exact stands_alternativesReader (hterm (some (typeReader scope depth')))
  | succ depth ih =>
    obtain ⟨wider, rfl⟩ : ∃ wider, depth' = wider + 1 := ⟨depth' - 1, by omega⟩
    have hinner := ih (Nat.le_of_succ_le_succ h)
    refine stands_alternativesReader (stands_termReader scope fun narrow hsome => ?_)
    obtain rfl := Option.some.inj hsome
    exact ⟨typeReader scope wider, rfl, hinner⟩

theorem stands_readWhole (scope : Scope) {depth depth' : Nat} (h : depth ≤ depth')
    (input : List Lexeme) :
    StandsUnlessDeep (readWhole scope depth input) (readWhole scope depth' input) := by
  have hbind : ∀ depth, readWhole scope depth input =
      ((typeReader scope depth).run input).bind fun found =>
        match found.2 with
        | [] => .ok found.1
        | extra :: _ => .error (.misplaced .nothing (some extra)) := by
    intro depth
    unfold readWhole
    rcases (typeReader scope depth).run input with e | ⟨type, _ | ⟨extra, rest⟩⟩
    all_goals rfl
  rw [hbind, hbind]
  exact (stands_typeReader scope h input).bind fun found _ => StandsUnless.refl _

end Types

/-- Whether the cause lies in the limits, not in the reference or the type. -/
def Cause.IsBound : Cause → Prop
  | .tooLarge _ => True
  | .tooDeep _ => True
  | _ => False

/-- The outcome under wider limits, given the one under some. -/
abbrev StandsUnlessBound {β : Type} : Except TypeError β → Except TypeError β → Prop :=
  StandsUnless (·.cause.IsBound)

section Writers

variable {limits wider : Limits} {scope : Scope}

theorem stands_spellParts (h : limits.maxDepth ≤ wider.maxDepth) (depth : Nat) (out : String)
    (type : TypeExpr) {parts parts' : Unit → Except TypeError String}
    (hparts : StandsUnlessBound (parts ()) (parts' ())) :
    StandsUnlessBound (spellParts limits scope depth out type parts)
      (spellParts wider scope depth out type parts') := by
  unfold spellParts
  cases scope.nameOf type with
  | some name => exact StandsUnless.refl _
  | none =>
    have hdeep : wider.maxDepth < depth + 1 → limits.maxDepth < depth + 1 := by omega
    exact StandsUnless.ite hdeep trivial hparts

theorem stands_spellMore {types : List TypeExpr}
    (h : ∀ type ∈ types, ∀ depth out,
      StandsUnlessBound (spell limits scope depth out type) (spell wider scope depth out type))
    (depth : Nat) (out : String) :
    StandsUnlessBound (spellMore limits scope depth out types)
      (spellMore wider scope depth out types) := by
  induction types generalizing out with
  | nil =>
    rw [spellMore, spellMore]
    exact StandsUnless.refl _
  | cons type rest ih =>
    obtain ⟨htype, hrest⟩ := List.forall_mem_cons.mp h
    rw [spellMore, spellMore]
    exact (htype depth _).bind fun out _ => ih hrest out

theorem stands_spell (h : limits.maxDepth ≤ wider.maxDepth) (type : TypeExpr) (depth : Nat)
    (out : String) :
    StandsUnlessBound (spell limits scope depth out type) (spell wider scope depth out type) := by
  induction type using induct_parts generalizing depth out with
  | h type ih =>
    cases type with
    | list item | set item | classOf item =>
      have hitem := ih item (List.mem_singleton_self item)
      rw [spell, spell]
      apply stands_spellParts h
      exact (hitem _ _).bind fun out _ => StandsUnless.refl _
    | dict key value =>
      obtain ⟨hkey, hrest⟩ := List.forall_mem_cons.mp ih
      have hvalue := hrest value (List.mem_singleton_self value)
      rw [spell, spell]
      apply stands_spellParts h
      exact (hkey _ _).bind fun out _ => (hvalue _ _).bind fun out _ => StandsUnless.refl _
    | tuple types | union types =>
      cases types with
      | nil =>
        rw [spell, spell]
        exact stands_spellParts h _ _ _ (StandsUnless.refl _)
      | cons first rest =>
        obtain ⟨hfirst, hrest⟩ := List.forall_mem_cons.mp ih
        rw [spell, spell]
        apply stands_spellParts h
        exact (hfirst _ _).bind fun out _ => stands_spellMore hrest _ out
    | literal values =>
      cases values with
      | nil =>
        rw [spell, spell]
        exact stands_spellParts h _ _ _ (StandsUnless.refl _)
      | cons first rest =>
        rw [spell, spell]
        exact stands_spellParts h _ _ _ (StandsUnless.refl _)
    | _ =>
      rw [spell, spell]
      exact StandsUnless.refl _

end Writers
end Reference

namespace Shape

open Reference (StandsUnlessBound)

variable {limits wider : Reference.Limits} {scope : Scope}

theorem stands_checkDepth (h : limits.maxDepth ≤ wider.maxDepth) (depth : Nat) :
    StandsUnlessBound (checkDepth limits scope depth) (checkDepth wider scope depth) := by
  have hdeep : wider.maxDepth < depth + 1 → limits.maxDepth < depth + 1 := by omega
  exact StandsUnless.ite hdeep trivial (StandsUnless.refl _)

theorem stands_ofItems {items : List TypeExpr}
    (h : ∀ item ∈ items, ∀ depth,
      StandsUnlessBound (ofNormal limits scope depth item) (ofNormal wider scope depth item))
    (depth : Nat) :
    StandsUnlessBound (ofItems limits scope depth items) (ofItems wider scope depth items) := by
  induction items with
  | nil =>
    rw [ofItems, ofItems]
    exact StandsUnless.refl _
  | cons item rest ih =>
    obtain ⟨hitem, hrest⟩ := List.forall_mem_cons.mp h
    rw [ofItems, ofItems]
    exact (hitem depth).bind fun shape _ => (ih hrest).bind fun more _ => StandsUnless.refl _

theorem stands_ofMembers {members : List TypeExpr}
    (h : ∀ member ∈ members, ∀ depth,
      StandsUnlessBound (ofNormal limits scope depth member) (ofNormal wider scope depth member))
    (depth : Nat) (nullable : Bool) :
    StandsUnlessBound (ofMembers limits scope depth nullable members)
      (ofMembers wider scope depth nullable members) := by
  induction members with
  | nil =>
    rw [ofMembers, ofMembers]
    exact StandsUnless.refl _
  | cons member rest ih =>
    obtain ⟨hmember, hrest⟩ := List.forall_mem_cons.mp h
    by_cases hliteral : ∃ values, member = .literal values
    · obtain ⟨values, rfl⟩ := hliteral
      rw [ofMembers, ofMembers]
      exact (ih hrest).bind fun more _ => StandsUnless.refl _
    · have hother : ∀ values, member = .literal values → False :=
        fun values heq => hliteral ⟨values, heq⟩
      rw [ofMembers, ofMembers]
      · exact (hmember depth).bind fun shape _ => (ih hrest).bind fun more _ => StandsUnless.refl _
      · exact hother
      · exact hother

theorem stands_ofNormal (h : limits.maxDepth ≤ wider.maxDepth) (type : TypeExpr) (depth : Nat) :
    StandsUnlessBound (ofNormal limits scope depth type) (ofNormal wider scope depth type) := by
  induction type using induct_parts generalizing depth with
  | h type ih =>
    have hcheck : ∀ {β : Type} {next next' : Unit → Except TypeError β},
        StandsUnlessBound (next ()) (next' ()) →
        StandsUnlessBound (checkDepth limits scope depth >>= next)
          (checkDepth wider scope depth >>= next') :=
      fun hnext => (stands_checkDepth h depth).bind fun _ _ => hnext
    cases type with
    | list item | set item | classOf item =>
      have hitem := ih item (List.mem_singleton_self item)
      rw [ofNormal, ofNormal]
      apply hcheck
      exact (hitem _).bind fun shape _ => StandsUnless.refl _
    | dict key value =>
      obtain ⟨hkey, hrest⟩ := List.forall_mem_cons.mp ih
      have hvalue := hrest value (List.mem_singleton_self value)
      rw [ofNormal, ofNormal]
      apply hcheck
      exact (hkey _).bind fun keys _ => (hvalue _).bind fun values _ => StandsUnless.refl _
    | tuple items =>
      rw [ofNormal, ofNormal]
      apply hcheck
      exact (stands_ofItems ih _).bind fun shapes _ => StandsUnless.refl _
    | union members =>
      by_cases hoptional : IsOptionalLiteral members
      · obtain ⟨values, rfl | rfl⟩ := hoptional
        all_goals
          rw [ofNormal, ofNormal]
          exact hcheck (StandsUnless.refl _)
      · have hliteral : ∀ values, members = [.literal values, .none] → False :=
          fun values heq => hoptional ⟨values, Or.inl heq⟩
        have hnone : ∀ values, members = [.none, .literal values] → False :=
          fun values heq => hoptional ⟨values, Or.inr heq⟩
        rw [ofNormal, ofNormal]
        · apply hcheck
          exact (stands_ofMembers ih _ _).bind fun shapes _ => StandsUnless.refl _
        all_goals assumption
    | someClass | literal =>
      rw [ofNormal, ofNormal]
      exact hcheck (StandsUnless.refl _)
    | _ =>
      rw [ofNormal, ofNormal]
      exact StandsUnless.refl _

end Shape

namespace Reference

/-- Both bounds of the first limits are at most those of the second. -/
structure Limits.Within (limits wider : Limits) : Prop where
  bytes : limits.maxBytes ≤ wider.maxBytes
  depth : limits.maxDepth ≤ wider.maxDepth

/-- An outcome that the limits have no part in. -/
def Settled {α : Type} (outcome : Except TypeError α) : Prop :=
  ∀ e, outcome = .error e → ¬ e.cause.IsBound

theorem Settled.eq_of_stands {α : Type} {outcome other : Except TypeError α} (h : Settled outcome)
    (hstands : StandsUnlessBound outcome other) : other = outcome := by
  rcases hstands with ⟨e, heq, hbound⟩ | hsame
  · exact absurd hbound (h e heq)
  · exact hsame

variable {limits wider : Limits} {scope : Scope}

theorem stands_decode (h : limits.Within wider) (text : String) :
    StandsUnlessBound (decode limits scope text) (decode wider scope text) := by
  have hlarge : wider.maxBytes < text.utf8ByteSize → limits.maxBytes < text.utf8ByteSize :=
    Nat.lt_of_le_of_lt h.bytes
  refine StandsUnless.ite hlarge trivial ?_
  cases lexemes text with
  | error misspelt => exact StandsUnless.refl _
  | ok input =>
    dsimp only
    rcases stands_readWhole scope h.depth input with ⟨refusal, hrefused, rfl⟩ | hsame
    · simp only [hrefused]
      exact StandsUnless.of_stopped trivial _
    · rw [hsame]
      rcases readWhole scope limits.maxDepth input with refusal | type
      · cases refusal with
        | tooDeep => exact StandsUnless.of_stopped trivial _
        | _ => exact StandsUnless.refl _
      · exact StandsUnless.refl _

theorem stands_encode (h : limits.Within wider) (type : TypeExpr) :
    StandsUnlessBound (encode limits scope type) (encode wider scope type) := by
  refine (stands_spell h.depth type.normalize 0 "").bind fun text _ => ?_
  have hlarge : wider.maxBytes < text.utf8ByteSize → limits.maxBytes < text.utf8ByteSize :=
    Nat.lt_of_le_of_lt h.bytes
  exact StandsUnless.ite hlarge trivial (StandsUnless.refl _)

end Reference

namespace Registry

open Reference

/-- Wider limits change no answer but those that the narrow ones gave for their own sake: a reference is
read, a type written and its shape made with the same value or the same error. -/
theorem limits_only_reject (r : Registry) {limits wider : Limits} (h : limits.Within wider) :
    (∀ text, Settled (decode limits r.scope text) →
      decode wider r.scope text = decode limits r.scope text) ∧
    (∀ type, Settled (encode limits r.scope type) →
      encode wider r.scope type = encode limits r.scope type) ∧
    ∀ type, Settled (Shape.ofType limits r.scope type) →
      Shape.ofType wider r.scope type = Shape.ofType limits r.scope type := by
  refine ⟨fun text hsettled => ?_, fun type hsettled => ?_, fun type hsettled => ?_⟩
  · exact hsettled.eq_of_stands (stands_decode h text)
  · exact hsettled.eq_of_stands (stands_encode h type)
  · exact hsettled.eq_of_stands (Shape.stands_ofNormal h.depth type.normalize 0)

/-- A set of rows, spelled out. -/
def rowSet : TypeExpr := .set (.list (.named "db.Cell"))

/-- A reference that stops short and one that is written through: both stay as they are. -/
theorem limits_only_reject_rows :
    (Limits.mk 12 2).Within ⟨100, 3⟩ ∧
      decode ⟨100, 3⟩ rows.scope "Set[db.Row" =
        .error ⟨"Set[db.Row", "tables", .malformed 10 (.unexpected .commaOrBracket none)⟩ ∧
      encode ⟨100, 3⟩ rows.scope rowSet = .ok "Set[db.Row]" ∧
      Shape.ofType ⟨100, 3⟩ rows.scope rowSet =
        .ok (.array (.array (.leaf "db.Cell") false) true) := by
  have h : (Limits.mk 12 2).Within ⟨100, 3⟩ := ⟨by decide, by decide⟩
  have hread : decode ⟨12, 2⟩ rows.scope "Set[db.Row" =
      .error ⟨"Set[db.Row", "tables", .malformed 10 (.unexpected .commaOrBracket none)⟩ := by
    decide +kernel
  have hwritten : encode ⟨12, 2⟩ rows.scope rowSet = .ok "Set[db.Row]" := by decide +kernel
  have hmade : Shape.ofType ⟨12, 2⟩ rows.scope rowSet =
      .ok (.array (.array (.leaf "db.Cell") false) true) := by
    rfl
  obtain ⟨hdecode, hencode, hshape⟩ := limits_only_reject rows h
  refine ⟨h, ?_, ?_, ?_⟩
  · rw [hdecode, hread]
    intro e heq
    rw [hread] at heq
    obtain rfl := Except.error.inj heq
    exact fun hbound => hbound
  · rw [hencode, hwritten]
    intro e heq
    cases hwritten.symm.trans heq
  · rw [hshape, hmade]
    intro e heq
    cases hmade.symm.trans heq

end Registry
end Callable
