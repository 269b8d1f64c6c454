import Callable.Proofs.Reference.Descent

/-!
The recursive parser and its descent. Under whatever brackets a call is made, the steps from there reach
what the call returns, with the same brackets open, or stop with its error. So both come to the same end on
all places that end in the end, whether a text has them or not; and what holds of all steps of a descent
holds of the parser at all times.
-/
namespace Callable.Reference.Parser

variable {α : Type} (p : Parser)

/-- The steps from a descent do what a call does: they reach the descent that is the goal for what it
returns, or stop with its error. -/
def Realizes (s : Descent) (goal : α → Cursor → Descent) : Walk (α × Cursor) → Prop
  | .ok (a, c) => p.Reaches s (goal a c)
  | .error e => ∃ stop, p.Reaches s stop ∧ p.step stop = .error e

namespace Realizes

variable {p} {β : Type} {s s' : Descent} {goal : α → Cursor → Descent} {goal' : β → Cursor → Descent}

theorem head (hreach : p.Reaches s s') {outcome : Walk (α × Cursor)} (h : p.Realizes s' goal outcome) :
    p.Realizes s goal outcome := by
  cases outcome with
  | ok found => exact hreach.trans h
  | error e =>
    obtain ⟨stop, hstop, herror⟩ := h
    exact ⟨stop, hreach.trans hstop, herror⟩

theorem single (hstep : p.Steps s s') {outcome : Walk (α × Cursor)} (h : p.Realizes s' goal outcome) :
    p.Realizes s goal outcome := h.head (Relation.ReflTransGen.single hstep)

theorem bind {outcome : Walk (α × Cursor)} (h : p.Realizes s goal outcome)
    {next : α × Cursor → Walk (β × Cursor)}
    (hnext : ∀ a c, p.Reaches s (goal a c) → p.Realizes (goal a c) goal' (next (a, c))) :
    p.Realizes s goal' (outcome >>= next) := by
  rcases outcome with e | ⟨a, c⟩
  · exact h
  · exact (hnext a c h).head h

/-- A step and a call that begin alike. -/
theorem step_bind {first : Walk β} {rest : β → Walk Move} {next : β → Walk (α × Cursor)}
    (hstep : p.step s = first >>= rest)
    (hnext : ∀ b, first = .ok b → p.step s = rest b → p.Realizes s goal (next b)) :
    p.Realizes s goal (first >>= next) := by
  cases first with
  | error e => exact ⟨s, Relation.ReflTransGen.refl, hstep⟩
  | ok b => exact hnext b rfl hstep

theorem of_step {a : α} {c : Cursor} (hstep : p.Steps s (goal a c)) :
    p.Realizes s goal (.ok (a, c)) := Relation.ReflTransGen.single hstep

/-- A step that makes nothing but the call. -/
theorem of_call {outcome : Walk (α × Cursor)}
    (hstep : p.step s = outcome >>= fun found => .ok (.goOn (goal found.1 found.2))) :
    p.Realizes s goal outcome := by
  cases outcome with
  | error e => exact ⟨s, Relation.ReflTransGen.refl, hstep⟩
  | ok found => exact of_step hstep

theorem of_error {e : Halt TypeError} (hstep : p.step s = .error e) :
    p.Realizes s goal (.error e) := ⟨s, Relation.ReflTransGen.refl, hstep⟩

/-- A call that is made first comes to the end of a run. -/
theorem exists_run {outcome : Walk (TypeExpr × Cursor)}
    (h : p.Realizes s (fun type => (⟨.typeRead type, [], ·⟩)) outcome) :
    ∃ steps, p.run steps s = some outcome := by
  cases outcome with
  | error e =>
    obtain ⟨stop, hstop, herror⟩ := h
    have hlast : p.run 1 stop = some (.error e) := by rw [run, herror]
    exact exists_run_of_reaches hstop hlast
  | ok found =>
    have hlast : p.run 1 ⟨.typeRead found.1, [], found.2⟩ = some (.ok found) := rfl
    exact exists_run_of_reaches h hlast

end Realizes

/-- A loop reads an item as long as there is another one ahead, and makes sure that places are passed. -/
def Loops (ahead : Cursor → Walk (Bool × Cursor)) (item : Cursor → Walk (α × Cursor))
    (loop : Cursor → Walk (List α × Cursor)) : Prop :=
  ∀ c, loop c = do
    let (more, c₁) ← ahead c
    if more then
      let (a, c₂) ← item c₁
      if p.left c₂ < p.left c then
        let (rest, c₃) ← loop c₂
        .ok (a :: rest, c₃)
      else .error .noProgress
    else .ok ([], c₁)

theorem loops_moreTerms (term : Cursor → Walk (TypeExpr × Cursor)) :
    p.Loops p.pipe term (p.moreTerms term) := by
  intro c
  rw [moreTerms, pipe]
  cases p.current c with
  | error e => rfl
  | ok slot =>
    simp only [bind, Except.bind]
    split <;> rfl

theorem unexpected_bind {β : Type} (expected : Expected) (c : Cursor) (next : α → Walk β) :
    p.unexpected expected c >>= next = p.unexpected expected c := by
  unfold unexpected
  cases p.current c <;> rfl

theorem loops_moreArguments (item : Cursor → Walk (α × Cursor)) :
    p.Loops p.comma item (p.moreArguments item) := by
  intro c
  rw [moreArguments, comma]
  cases p.current c with
  | error e => rfl
  | ok slot =>
    obtain ⟨token, position⟩ := slot
    simp only [bind, Except.bind]
    cases token with
    | none => exact (p.unexpected_bind _ _ _).symm
    | some token =>
      cases token with
      | comma =>
        cases p.current (p.advance c) with
        | error e => rfl
        | ok next =>
          dsimp only
          split <;> rfl
      | closeBracket => rfl
      | _ => exact (p.unexpected_bind _ _ _).symm

/-- The steps of a loop. Behind some items, another one is due, has been read at the head of the loop, or
was the last one. -/
structure Lists (base : Nat) (ahead : Cursor → Walk (Bool × Cursor))
    (item : Cursor → Walk (α × Cursor)) (due : List α → Cursor → Descent)
    (read : List α → α → Cursor → Descent) (last : List α → Cursor → Descent) : Prop where
  realizes : ∀ items c, p.Steady base (due items c) → p.Realizes (due items c) (read items) (item c)
  step_read : ∀ items a c, p.step (read items a c) = do
    let (more, c) ← ahead c
    .ok (.goOn (if more then due (items ++ [a]) c else last (items ++ [a]) c))
  left_lt : ∀ {items a c others b c'}, p.measure (read others b c') < p.measure (read items a c) →
    p.left c' < p.left c

section Lists

variable {p} {base : Nat} {ahead : Cursor → Walk (Bool × Cursor)}
  {item : Cursor → Walk (α × Cursor)} {loop : Cursor → Walk (List α × Cursor)}
  {due : List α → Cursor → Descent} {read : List α → α → Cursor → Descent}
  {last : List α → Cursor → Descent} (hend : p.HasEnd) (h : p.Lists base ahead item due read last)

include hend h

/-- Induction on the places that are left; the steps of a turn leave fewer of them. -/
theorem realizes_loop (hloop : p.Loops ahead item loop) {items : List α} {a : α} {c : Cursor}
    (hsteady : p.Steady base (read items a c)) :
    p.Realizes (read items a c) (fun more => last (items ++ a :: more)) (loop c) := by
  induction hleft : p.left c using Nat.strongRecOn generalizing items a c with
  | ind n ih =>
    rw [hloop]
    refine Realizes.step_bind (h.step_read items a c) fun found _ hstep => ?_
    obtain ⟨more, c₁⟩ := found
    cases more with
    | false => exact Realizes.of_step hstep
    | true =>
      have hdue := (leads_of_steps hend hstep).steady hsteady
      refine (Realizes.bind (h.realizes _ c₁ hdue) fun b c₂ hreach => ?_).single hstep
      have hlt : p.left c₂ < p.left c :=
        h.left_lt (measure_lt_of_transGen hend (Relation.TransGen.head' hstep hreach))
      simp only [if_pos hlt]
      have hsteady' := steady_of_reaches hend hreach hdue
      refine (ih (p.left c₂) (by omega) hsteady' rfl).bind fun rest c₃ _ => ?_
      rw [List.append_assoc]
      exact Relation.ReflTransGen.refl

end Lists

theorem advance_depth (c : Cursor) : (p.advance c).depth = c.depth := by
  unfold advance
  split <;> rfl

/-- Behind whatever members, the call reads a term as the steps do. -/
def TakesTerms (base : Nat) (openings : List Opening) (term : Cursor → Walk (TypeExpr × Cursor)) :
    Prop :=
  ∀ members c, p.Steady base ⟨.termDue members, openings, c⟩ →
    p.Realizes ⟨.termDue members, openings, c⟩
      (fun type => (⟨.termsRead (members ++ [type]), openings, ·⟩)) (term c)

/-- The call reads a type as the steps do. -/
def TakesTypes (base : Nat) (openings : List Opening) (type : Cursor → Walk (TypeExpr × Cursor)) :
    Prop :=
  ∀ c, p.Steady base ⟨.typeDue, openings, c⟩ →
    p.Realizes ⟨.typeDue, openings, c⟩ (fun type => (⟨.typeRead type, openings, ·⟩)) (type c)

section Types

variable {p} {base : Nat} {openings : List Opening} {members : List TypeExpr} {head : String}
  {term type : Cursor → Walk (TypeExpr × Cursor)}

theorem lists_terms (hterm : p.TakesTerms base openings term) : p.Lists base p.pipe term
    (fun members => (⟨.termDue members, openings, ·⟩))
    (fun members type => (⟨.termsRead (members ++ [type]), openings, ·⟩))
    (fun members => (⟨.typeRead (oneOf members), openings, ·⟩)) where
  realizes := hterm
  step_read _ _ _ := rfl
  left_lt h := p.left_lt_of_measure h (Nat.le_refl _)

theorem lists_values : p.Lists base p.comma p.literal
    (fun values => (⟨.valueDue members values, openings, ·⟩))
    (fun values value => (⟨.valuesRead members (values ++ [value]), openings, ·⟩))
    (fun values => (⟨.formRead members (.ok (.literal values)), openings, ·⟩)) where
  realizes _ _ _ := Realizes.of_call rfl
  step_read _ _ _ := rfl
  left_lt h := p.left_lt_of_measure h (Nat.le_refl _)

theorem lists_types
    (htype : ∀ arguments, p.TakesTypes base (⟨members, head, arguments⟩ :: openings) type) :
    p.Lists base p.comma type
      (fun arguments => (⟨.typeDue, ⟨members, head, arguments⟩ :: openings, ·⟩))
      (fun arguments type => (⟨.typeRead type, ⟨members, head, arguments⟩ :: openings, ·⟩))
      (fun arguments => (⟨.formRead members (genericType head arguments), openings, ·⟩)) where
  realizes arguments := htype arguments
  step_read _ _ _ := rfl
  left_lt h := p.left_lt_of_measure h (Nat.le_refl _)

variable (hend : p.HasEnd)

include hend

theorem realizes_arguments {item : Cursor → Walk (α × Cursor)} {due : List α → Cursor → Descent}
    {read : List α → α → Cursor → Descent} {last : List α → Cursor → Descent}
    (h : p.Lists base p.comma item due read last) {c : Cursor} (hsteady : p.Steady base (due [] c)) :
    p.Realizes (due [] c) last (p.arguments item c) := by
  refine (h.realizes [] c hsteady).bind fun a c₁ hreach => ?_
  have hsteady' := steady_of_reaches hend hreach hsteady
  have hmore := realizes_loop hend h (p.loops_moreArguments item) hsteady'
  exact hmore.bind fun more c₂ _ => Relation.ReflTransGen.refl

theorem takesTypes_alternatives (hterm : p.TakesTerms base openings term) :
    p.TakesTypes base openings (p.alternatives term) := by
  intro c hsteady
  have hstep : p.Steps ⟨.typeDue, openings, c⟩ ⟨.termDue [], openings, c⟩ := rfl
  have hdue := (leads_of_steps hend hstep).steady hsteady
  refine (Realizes.bind (hterm [] c hdue) fun first c₁ hreach => ?_).single hstep
  have hsteady' := steady_of_reaches hend hreach hdue
  have hmore := realizes_loop hend (lists_terms hterm) (p.loops_moreTerms term) hsteady'
  refine hmore.bind fun more c₂ _ => ?_
  -- One term alone is its own type, more of them are a union: `oneOf` tells the two apart as the parser does.
  cases more <;> exact Relation.ReflTransGen.refl

theorem realizes_form {s : Descent} {c : Cursor}
    (htype : ∀ arguments, p.TakesTypes base (⟨members, head, arguments⟩ :: openings) type)
    (hstep : p.step s = p.enterForm members head openings c) (hsteady : p.Steady base s) :
    p.Realizes s (fun type => (⟨.formRead members (.ok type), openings, ·⟩)) (p.form type head c) := by
  unfold form
  unfold enterForm at hstep
  split
  · rename_i hliteral
    rw [if_pos hliteral] at hstep
    have hdue := (leads_of_steps hend hstep).steady hsteady
    have hvalues := realizes_arguments hend lists_values hdue
    refine (hvalues.bind fun values c₁ _ => ?_).single hstep
    exact Relation.ReflTransGen.refl
  · rename_i hliteral
    rw [if_neg hliteral] at hstep
    refine Realizes.step_bind hstep fun slot _ hstep => ?_
    split at hstep
    · rename_i hparen
      rw [if_pos hparen]
      refine Realizes.step_bind hstep fun c₁ _ hstep => ?_
      exact Realizes.step_bind hstep fun c₂ _ hstep => Realizes.of_step hstep
    · rename_i hparen
      rw [if_neg hparen]
      have hdue := (leads_of_steps hend hstep).steady hsteady
      have harguments := realizes_arguments hend (lists_types htype) hdue
      refine (harguments.bind fun arguments c₁ _ => ?_).single hstep
      dsimp only
      cases genericType head arguments with
      | error refusal => exact Realizes.of_error rfl
      | ok made => exact Relation.ReflTransGen.refl

theorem realizes_brackets {s : Descent} {c : Cursor}
    (htype : c.depth < p.limits.maxDepth →
      ∀ arguments, p.TakesTypes base (⟨members, head, arguments⟩ :: openings) type)
    (hstep : p.step s = p.enter members head openings c) (hsteady : p.Steady base s) :
    p.Realizes s (fun type => (⟨.termsRead (members ++ [type]), openings, ·⟩))
      (p.brackets type head c) := by
  unfold brackets
  unfold enter at hstep
  dsimp only
  split
  · rename_i hdeep
    rw [if_pos hdeep] at hstep
    exact Realizes.of_error hstep
  · rename_i hroom
    rw [if_neg hroom] at hstep
    refine (realizes_form hend (htype (by omega)) hstep hsteady).bind fun made c₁ _ => ?_
    exact Realizes.of_step rfl

/-- With as many calls as brackets may still be opened, and one more, terms are read. -/
theorem takesTerms_term (calls : Nat) (hcalls : p.limits.maxDepth - (base + openings.length) < calls) :
    p.TakesTerms base openings (p.term calls) := by
  induction calls generalizing openings with
  | zero => exact absurd hcalls (Nat.not_lt_zero _)
  | succ calls ih =>
    intro members c hsteady
    rw [term]
    refine Realizes.step_bind rfl fun found hname hstep => ?_
    obtain ⟨name, c₁⟩ := found
    refine Realizes.step_bind hstep fun slot _ hstep => ?_
    split at hstep
    · rename_i hbracket
      rw [if_pos hbracket]
      -- The brackets are entered only where there is room, so the calls left suffice for one bracket more.
      refine realizes_brackets hend (fun hroom arguments => ?_) hstep hsteady
      refine takesTypes_alternatives hend (ih ?_)
      have hdepth : c.depth = base + openings.length := hsteady.depth
      have hsame : c₁.depth = c.depth := by
        have hyields := yields_expectName hend c
        rw [hname] at hyields
        exact hyields.depth
      rw [advance_depth] at hroom
      rw [List.length_cons]
      omega
    · rename_i hbracket
      rw [if_neg hbracket]
      exact Realizes.step_bind hstep fun type _ hstep => Realizes.of_step hstep

end Types

section Ended

variable {p} (hend : p.HasEnd)

include hend

theorem realizes_entry (c : Cursor) :
    p.Realizes (.entry c) (fun type => (⟨.typeRead type, [], ·⟩))
      (p.alternatives (p.term (p.limits.maxDepth - c.depth + 1)) c) := by
  have hterm : p.TakesTerms c.depth [] (p.term (p.limits.maxDepth - c.depth + 1)) :=
    takesTerms_term hend _ (Nat.lt_succ_self _)
  exact takesTypes_alternatives hend hterm c (p.steady_entry c)

/-- A run that may make three steps for each place, and three more, comes to what the parser does. -/
theorem run_entry (c : Cursor) : p.run (3 * p.left c + 3) (.entry c) =
    some (p.alternatives (p.term (p.limits.maxDepth - c.depth + 1)) c) := by
  obtain ⟨outcome, hrun⟩ := exists_run hend (p.measure_entry_lt c)
  obtain ⟨steps, hsteps⟩ := (realizes_entry hend c).exists_run
  rw [hrun, run_unique hrun hsteps]

end Ended

/-- On the places of a text, a run comes to what the reader makes of the lexemes. -/
theorem run_entry_of_lexemes {all : List Lexeme} (hslots : p.slots = slotsOf p.text.utf8ByteSize all) :
    p.run (3 * all.length + 6) (.entry ⟨0, 0⟩) =
      some (p.follow 0 ((typeReader p.scope p.limits.maxDepth).run all)) := by
  have hend : p.HasEnd := ⟨p.text.utf8ByteSize, by rw [hslots, slotsOf, List.getLast?_concat]⟩
  have hleft : 3 * p.left ⟨0, 0⟩ + 3 = 3 * all.length + 6 := by
    rw [left, length_slots hslots, Nat.sub_zero]
    omega
  rw [← alternatives_eq hslots, ← hleft]
  exact run_entry hend ⟨0, 0⟩

/-- A call for a type or a term that begins at the first descent has returned at the second: the same
brackets are open, and the type or the term has been read. -/
inductive Returns : Descent → Descent → Prop
  | type {type openings c c'} : Returns ⟨.typeDue, openings, c⟩ ⟨.typeRead type, openings, c'⟩
  | term {members type openings c c'} :
      Returns ⟨.termDue members, openings, c⟩ ⟨.termsRead (members ++ [type]), openings, c'⟩

theorem Returns.brackets_eq {s s' : Descent} (h : Returns s s') : s'.brackets = s.brackets := by
  cases h <;> rfl

/-- On all places that end in the end, the calls of a parser are bounded by its limits. It comes to an end,
which is a type or an error that is due, and the recursion with one call for a term more than brackets may
be opened comes to the same. At no time are more calls for terms open; once the head of a loop has been left
for another turn, a token has been passed; and where a call has returned, the depth is what it was. -/
theorem descent_bounded (p : Parser) (hend : p.HasEnd) (c : Cursor) :
    (∃ outcome : Except TypeError (TypeExpr × Cursor),
      p.run (3 * p.left c + 3) (.entry c) = some (checked outcome) ∧
      p.alternatives (p.term (p.limits.maxDepth - c.depth + 1)) c = checked outcome ∧
      ∀ type c', outcome = .ok (type, c') → c'.depth = c.depth) ∧
    ∀ s, p.Reaches (.entry c) s →
      s.openTerms ≤ p.limits.maxDepth - c.depth + 1 ∧
      (∀ s' loop, Relation.TransGen p.Steps s s' → s.task.loop? = some loop →
        s'.task.loop? = none ∨ s'.task.loop? = some loop → s.cursor.index < s'.cursor.index) ∧
      ∀ s', p.Reaches s s' → Returns s s' → s'.cursor.depth = s.cursor.depth := by
  have hsteady : ∀ s, p.Reaches (.entry c) s → p.Steady c.depth s :=
    fun s hreach => steady_of_reaches hend hreach (p.steady_entry c)
  refine ⟨?_, fun s hreach => ⟨?_, ?_, ?_⟩⟩
  · obtain ⟨outcome, hrun⟩ := exists_run hend (p.measure_entry_lt c)
    have hparse := realizes_entry hend c
    have hsame := Option.some.inj ((run_entry hend c).symm.trans hrun)
    refine ⟨outcome, hrun, hsame, fun type c' hok => ?_⟩
    rw [hsame, hok] at hparse
    exact (hsteady _ hparse).depth
  · have hroom := (hsteady s hreach).room
    have hterms := s.openTerms_le
    omega
  · intro s' loop hsteps hloop hturn
    have hlt := left_lt_of_loop hend hsteps hloop hturn
    unfold left at hlt
    omega
  · intro s' hreach' hreturns
    have hbefore := (hsteady s hreach).depth
    have hafter := (hsteady s' (hreach.trans hreach')).depth
    rw [hafter, hbefore, hreturns.brackets_eq]

/-- A form inside a form, where two brackets may be open. -/
def nested : Parser where
  text := "List[int | Set[str]]"
  slots := slotsOf 20 [⟨.name "List", 0⟩, ⟨.openBracket, 4⟩, ⟨.name "int", 5⟩, ⟨.pipe, 9⟩,
    ⟨.name "Set", 11⟩, ⟨.openBracket, 14⟩, ⟨.name "str", 15⟩, ⟨.closeBracket, 18⟩, ⟨.closeBracket, 19⟩]
  scope := rows.scope
  limits := ⟨100, 2⟩

/-- Three calls for terms are open at one time, and never four. -/
theorem descent_bounded_nested :
    nested.HasEnd ∧
    nested.alternatives (nested.term 3) ⟨0, 0⟩ =
      .ok (.list (.union [.builtin .int, .set (.builtin .str)]), ⟨9, 0⟩) ∧
    (∀ s, nested.Reaches (.entry ⟨0, 0⟩) s → s.openTerms ≤ 3) ∧
    ∃ s, nested.Reaches (.entry ⟨0, 0⟩) s ∧ s.openTerms = 3 := by
  have hend : nested.HasEnd := ⟨20, rfl⟩
  have hrun : nested.run 33 (.entry ⟨0, 0⟩) =
      some (.ok (.list (.union [.builtin .int, .set (.builtin .str)]), ⟨9, 0⟩)) := by
    decide +kernel
  obtain ⟨⟨outcome, hcomes, hparse, -⟩, hall⟩ := descent_bounded nested hend ⟨0, 0⟩
  refine ⟨hend, ?_, fun s hreach => (hall s hreach).1, ?_⟩
  · exact hparse.trans (Option.some.inj (hcomes.symm.trans hrun))
  · refine ⟨⟨.termDue [], [⟨[.builtin .int], "Set", []⟩, ⟨[], "List", []⟩], ⟨6, 2⟩⟩, ?_, rfl⟩
    exact .head rfl (.head rfl (.head rfl (.head rfl (.head rfl (.head rfl (.single rfl))))))

end Callable.Reference.Parser
