import Callable.Proofs.Reference.Cursor
import Mathlib.Logic.Relation

/-!
A parser whose calls are written down. Recursion hides which calls are open; a descent shows them. It holds
what is to be done next and, for each bracket that is open, what the calls around it have read so far. A
step makes a call, returns from one or passes the head of a loop. `Leads` lists what a step can do; from it
follow that the depth counts the open brackets, that never more of them are open than are allowed, and that
each step lowers a measure, so that every run ends.
-/
namespace Callable.Reference

/-- A bracket that is open, for which three calls are open: one for a type, which has read the members
before, one for a term with the head in front of the bracket, and one for the arguments inside. -/
structure Opening where
  members : List TypeExpr
  head : String
  arguments : List TypeExpr

/-- What is to be done next in the innermost open bracket. -/
inductive Task where
  /-- A call for a type. -/
  | typeDue
  /-- A call for a term, behind other members of a type. -/
  | termDue (members : List TypeExpr)
  /-- The head of the loop over pipes. -/
  | termsRead (members : List TypeExpr)
  /-- The return of a call for a type, and the head of the loop over commas if it was an argument. -/
  | typeRead (type : TypeExpr)
  /-- A call for a value of a literal. -/
  | valueDue (members : List TypeExpr) (values : List Literal)
  /-- The head of the loop over the commas of a literal. -/
  | valuesRead (members : List TypeExpr) (values : List Literal)
  /-- The return of a call for a term whose bracket is closed. -/
  | formRead (members : List TypeExpr) (made : Except Refusal TypeExpr)

structure Descent where
  task : Task
  openings : List Opening
  cursor : Cursor

/-- Where a step leads: on, or out of the call that was made first. -/
inductive Move where
  | goOn (next : Descent)
  | finish (type : TypeExpr) (c : Cursor)

namespace Task

/-- The calls for terms that are open in the innermost bracket. -/
def terms : Task → Nat
  | termDue _ | valueDue .. | valuesRead .. | formRead .. => 1
  | _ => 0

/-- The brackets that are open besides those in the openings. -/
def brackets : Task → Nat
  | valueDue .. | valuesRead .. | formRead .. => 1
  | _ => 0

/-- A bound on the steps that may follow before a token is passed. -/
def rank : Task → Nat
  | typeDue | formRead .. => 2
  | termDue _ | termsRead _ | valueDue .. => 1
  | _ => 0

/-- The loops of a parser. -/
inductive Loop where
  | pipes
  | arguments
  | values
  deriving DecidableEq

/-- The loop at whose head a descent stands. -/
def loop? : Task → Option Loop
  | termsRead _ => some .pipes
  | typeRead _ => some .arguments
  | valuesRead .. => some .values
  | _ => none

theorem rank_le_of_loop? {task task' : Task} {loop : Loop} (h : task.loop? = some loop)
    (h' : task'.loop? = none ∨ task'.loop? = some loop) : task.rank ≤ task'.rank := by
  cases task with
  | termsRead members =>
    cases h
    cases task' <;> simp_all [loop?, rank]
  | typeRead | valuesRead => exact Nat.zero_le _
  | _ => cases h

end Task

namespace Descent

def entry (c : Cursor) : Descent := ⟨.typeDue, [], c⟩

/-- The number of calls for terms that are open. -/
def openTerms (s : Descent) : Nat := s.openings.length + s.task.terms

/-- The number of brackets that are open. -/
def brackets (s : Descent) : Nat := s.openings.length + s.task.brackets

theorem openTerms_le (s : Descent) : s.openTerms ≤ s.brackets + 1 := by
  obtain ⟨task, openings, c⟩ := s
  cases task <;> simp [openTerms, brackets, Task.terms, Task.brackets]

end Descent

/-- The type that members with pipes between them denote. -/
def oneOf : List TypeExpr → TypeExpr
  | [type] => type
  | types => .union types

namespace Parser

variable {α : Type} (p : Parser)

/-- Whether another term is due behind a pipe, and the cursor in front of it or of what follows. -/
def pipe (c : Cursor) : Walk (Bool × Cursor) := do
  let slot ← p.current c
  if slot.token = some .pipe then .ok (true, p.advance c) else .ok (false, c)

/-- Whether another item in brackets is due behind a comma, and the cursor in front of it or behind the
closing bracket. -/
def comma (c : Cursor) : Walk (Bool × Cursor) := do
  let slot ← p.current c
  match slot.token with
  | some .comma =>
    let next ← p.current (p.advance c)
    if next.token = some .closeBracket then .ok (false, p.advance (p.advance c))
    else .ok (true, p.advance c)
  | some .closeBracket => .ok (false, p.advance c)
  | _ => p.unexpected .commaOrBracket c

/-- Begins to read what stands in the brackets after a head. -/
def enterForm (members : List TypeExpr) (head : String) (openings : List Opening) (c : Cursor) :
    Walk Move := do
  if head = "Literal" then .ok (.goOn ⟨.valueDue members [], openings, c⟩)
  else
    let slot ← p.current c
    if head ∈ Form.tuple.heads ∧ slot.token = some .openParen then
      let c ← p.expect (some .closeParen) .closingParen (p.advance c)
      let c ← p.expect (some .closeBracket) .closingBracket c
      .ok (.goOn ⟨.formRead members (.ok (.tuple [])), openings, c⟩)
    else .ok (.goOn ⟨.typeDue, ⟨members, head, []⟩ :: openings, c⟩)

/-- Enters a bracket that has just been passed, if one more may be open. -/
def enter (members : List TypeExpr) (head : String) (openings : List Opening) (c : Cursor) :
    Walk Move :=
  if p.limits.maxDepth < c.depth + 1 then
    .error (.failed ⟨p.text, p.scope.id, .tooDeep p.limits.maxDepth⟩)
  else p.enterForm members head openings { c with depth := c.depth + 1 }

def step : Descent → Walk Move
  | ⟨.typeDue, openings, c⟩ => .ok (.goOn ⟨.termDue [], openings, c⟩)
  | ⟨.termDue members, openings, c⟩ => do
    let (name, c) ← p.expectName c
    let slot ← p.current c
    if slot.token = some .openBracket then p.enter members name openings (p.advance c)
    else
      let type ← p.lift (bareType p.scope name)
      .ok (.goOn ⟨.termsRead (members ++ [type]), openings, c⟩)
  | ⟨.termsRead members, openings, c⟩ => do
    let (more, c) ← p.pipe c
    .ok (.goOn (if more then ⟨.termDue members, openings, c⟩
      else ⟨.typeRead (oneOf members), openings, c⟩))
  | ⟨.typeRead type, [], c⟩ => .ok (.finish type c)
  | ⟨.typeRead type, ⟨members, head, arguments⟩ :: openings, c⟩ => do
    let (more, c) ← p.comma c
    .ok (.goOn (if more then ⟨.typeDue, ⟨members, head, arguments ++ [type]⟩ :: openings, c⟩
      else ⟨.formRead members (genericType head (arguments ++ [type])), openings, c⟩))
  | ⟨.valueDue members values, openings, c⟩ => do
    let (value, c) ← p.literal c
    .ok (.goOn ⟨.valuesRead members (values ++ [value]), openings, c⟩)
  | ⟨.valuesRead members values, openings, c⟩ => do
    let (more, c) ← p.comma c
    .ok (.goOn (if more then ⟨.valueDue members values, openings, c⟩
      else ⟨.formRead members (.ok (.literal values)), openings, c⟩))
  | ⟨.formRead members made, openings, c⟩ => do
    let type ← p.lift made
    .ok (.goOn ⟨.termsRead (members ++ [type]), openings, { c with depth := c.depth - 1 }⟩)

/-- What at most so many steps come to; nothing if there are more to make. -/
def run : Nat → Descent → Option (Walk (TypeExpr × Cursor))
  | 0, _ => none
  | steps + 1, s =>
    match p.step s with
    | .error e => some (.error e)
    | .ok (.finish type c) => some (.ok (type, c))
    | .ok (.goOn next) => run steps next

def Steps (s s' : Descent) : Prop := p.step s = .ok (.goOn s')

abbrev Reaches : Descent → Descent → Prop := Relation.ReflTransGen p.Steps

/-- The last place is the end. -/
def HasEnd : Prop := ∃ position, p.slots.getLast? = some ⟨none, position⟩

/-- The cursor has gone on, past one token or more and not past the last place. -/
structure Passes (c c' : Cursor) : Prop where
  index : c.index < c'.index
  bound : c'.index < p.slots.length
  depth : c'.depth = c.depth

namespace Passes

variable {p} {c c' c'' : Cursor}

theorem trans (h : p.Passes c c') (h' : p.Passes c' c'') : p.Passes c c'' :=
  ⟨h.index.trans h'.index, h'.bound, h'.depth.trans h.depth⟩

theorem left_lt (h : p.Passes c c') : p.left c' < p.left c := by
  have hindex := h.index
  have hbound := h.bound
  unfold left
  omega

end Passes

/-- The outcome is an error that is due or a value with the property. -/
def Yields (post : α → Prop) : Walk α → Prop
  | .ok a => post a
  | .error (.failed _) => True
  | .error _ => False

theorem Yields.bind {β : Type} {post : α → Prop} {post' : β → Prop} {outcome : Walk α}
    {next : α → Walk β} (h : Yields post outcome) (hnext : ∀ a, post a → Yields post' (next a)) :
    Yields post' (outcome >>= next) := by
  cases outcome with
  | error e => cases e <;> exact h
  | ok a => exact hnext a h

theorem yields_lift (outcome : Except Refusal α) : Yields (fun _ => True) (p.lift outcome) := by
  cases outcome <;> trivial

section Ended

variable {p} (hend : p.HasEnd)

include hend

/-- There is a place at every cursor. A token stands before the last place, so the cursor moves past it. -/
theorem yields_current (c : Cursor) :
    Yields (fun slot => ∀ token, slot.token = some token → p.Passes c (p.advance c)) (p.current c) := by
  obtain ⟨position, hlast⟩ := hend
  rw [List.getLast?_eq_getElem?] at hlast
  obtain ⟨hlength, -⟩ := List.getElem?_eq_some_iff.mp hlast
  unfold current
  by_cases hlt : c.index + 1 < p.slots.length
  · have hindex : min c.index (p.slots.length - 1) < p.slots.length := by omega
    rw [List.getElem?_eq_getElem hindex, advance, if_pos hlt]
    exact fun token _ => ⟨Nat.lt_succ_self _, hlt, rfl⟩
  · have hindex : min c.index (p.slots.length - 1) = p.slots.length - 1 := by omega
    rw [hindex, hlast]
    exact fun token htoken => by cases htoken

theorem yields_unexpected (post : α → Prop) (expected : Expected) (c : Cursor) :
    Yields post (p.unexpected expected c) :=
  (yields_current hend c).bind fun _ _ => trivial

theorem yields_expect (token : Token) (expected : Expected) (c : Cursor) :
    Yields (p.Passes c) (p.expect (some token) expected c) := by
  refine (yields_current hend c).bind fun slot hpass => ?_
  split
  · rename_i htoken
    exact hpass token htoken
  · exact yields_unexpected hend _ expected c

theorem yields_expectName (c : Cursor) :
    Yields (fun found => p.Passes c found.2) (p.expectName c) := by
  refine (yields_current hend c).bind fun slot hpass => ?_
  split
  · rename_i htoken
    exact hpass _ htoken
  · exact yields_unexpected hend _ .typeName c

theorem yields_literal (c : Cursor) : Yields (fun found => p.Passes c found.2) (p.literal c) := by
  refine (yields_current hend c).bind fun slot hpass => ?_
  dsimp only
  split
  · rename_i htoken
    split
    · exact hpass _ htoken
    · trivial
  case h_6 => exact yields_unexpected hend _ .literalValue c
  all_goals
    rename_i htoken
    exact hpass _ htoken

theorem yields_pipe (c : Cursor) :
    Yields (fun found => if found.1 then p.Passes c found.2 else found.2 = c) (p.pipe c) := by
  refine (yields_current hend c).bind fun slot hpass => ?_
  split
  · rename_i htoken
    exact hpass _ htoken
  · exact rfl

theorem yields_comma (c : Cursor) : Yields (fun found => p.Passes c found.2) (p.comma c) := by
  refine (yields_current hend c).bind fun slot hpass => ?_
  split
  · rename_i htoken
    have hcomma := hpass _ htoken
    refine (yields_current hend _).bind fun next hnext => ?_
    split
    · rename_i hclose
      exact hcomma.trans (hnext _ hclose)
    · exact hcomma
  · rename_i htoken
    exact hpass _ htoken
  · exact yields_unexpected hend _ .commaOrBracket c

end Ended

/-- All that a step can do. -/
inductive Leads : Descent → Move → Prop
  | term {openings c} : Leads ⟨.typeDue, openings, c⟩ (.goOn ⟨.termDue [], openings, c⟩)
  | name {members type openings c c'} (hpass : p.Passes c c') :
      Leads ⟨.termDue members, openings, c⟩ (.goOn ⟨.termsRead (members ++ [type]), openings, c'⟩)
  | bracket {members head openings c c'} (hpass : p.Passes c c')
      (hdepth : c.depth < p.limits.maxDepth) :
      Leads ⟨.termDue members, openings, c⟩ (.goOn
        ⟨.typeDue, ⟨members, head, []⟩ :: openings, { c' with depth := c'.depth + 1 }⟩)
  | literal {members openings c c'} (hpass : p.Passes c c') (hdepth : c.depth < p.limits.maxDepth) :
      Leads ⟨.termDue members, openings, c⟩ (.goOn
        ⟨.valueDue members [], openings, { c' with depth := c'.depth + 1 }⟩)
  | emptyTuple {members openings c c'} (hpass : p.Passes c c')
      (hdepth : c.depth < p.limits.maxDepth) :
      Leads ⟨.termDue members, openings, c⟩ (.goOn
        ⟨.formRead members (.ok (.tuple [])), openings, { c' with depth := c'.depth + 1 }⟩)
  | pipe {members openings c c'} (hpass : p.Passes c c') :
      Leads ⟨.termsRead members, openings, c⟩ (.goOn ⟨.termDue members, openings, c'⟩)
  | type {members openings c} :
      Leads ⟨.termsRead members, openings, c⟩ (.goOn ⟨.typeRead (oneOf members), openings, c⟩)
  | comma {type members head arguments openings c c'} (hpass : p.Passes c c') :
      Leads ⟨.typeRead type, ⟨members, head, arguments⟩ :: openings, c⟩ (.goOn
        ⟨.typeDue, ⟨members, head, arguments ++ [type]⟩ :: openings, c'⟩)
  | arguments {type members head arguments openings c c'} (hpass : p.Passes c c') :
      Leads ⟨.typeRead type, ⟨members, head, arguments⟩ :: openings, c⟩ (.goOn
        ⟨.formRead members (genericType head (arguments ++ [type])), openings, c'⟩)
  | value {members values value openings c c'} (hpass : p.Passes c c') :
      Leads ⟨.valueDue members values, openings, c⟩ (.goOn
        ⟨.valuesRead members (values ++ [value]), openings, c'⟩)
  | valueComma {members values openings c c'} (hpass : p.Passes c c') :
      Leads ⟨.valuesRead members values, openings, c⟩ (.goOn ⟨.valueDue members values, openings, c'⟩)
  | values {members values openings c c'} (hpass : p.Passes c c') :
      Leads ⟨.valuesRead members values, openings, c⟩ (.goOn
        ⟨.formRead members (.ok (.literal values)), openings, c'⟩)
  | form {members type openings c} :
      Leads ⟨.formRead members (.ok type), openings, c⟩ (.goOn
        ⟨.termsRead (members ++ [type]), openings, { c with depth := c.depth - 1 }⟩)
  | finish {type c} : Leads ⟨.typeRead type, [], c⟩ (.finish type c)

section Inversion

variable {p} (hend : p.HasEnd)

include hend

theorem yields_enter {members : List TypeExpr} (head : String) (openings : List Opening)
    {c c' : Cursor} (hpass : p.Passes c c') :
    Yields (p.Leads ⟨.termDue members, openings, c⟩) (p.enter members head openings c') := by
  unfold enter enterForm
  split
  · trivial
  · rename_i hroom
    have hdepth : c.depth < p.limits.maxDepth := by
      have hsame := hpass.depth
      omega
    split
    · exact Leads.literal hpass hdepth
    · refine (yields_current hend _).bind fun slot hopen => ?_
      split
      · rename_i hparen
        refine (yields_expect hend _ _ _).bind fun c₁ hclose => ?_
        refine (yields_expect hend _ _ _).bind fun c₂ hbracket => ?_
        obtain ⟨index, depth⟩ := c₂
        have hclosed := ((hopen _ hparen.2).trans hclose).trans hbracket
        obtain rfl : depth = c'.depth + 1 := hclosed.depth
        have hinside : p.Passes c' ⟨index, c'.depth⟩ := ⟨hclosed.index, hclosed.bound, rfl⟩
        exact Leads.emptyTuple (hpass.trans hinside) hdepth
      · exact Leads.bracket hpass hdepth

theorem yields_step (s : Descent) : Yields (p.Leads s) (p.step s) := by
  obtain ⟨task, openings, c⟩ := s
  cases task with
  | typeDue => exact Leads.term
  | termDue members =>
    refine (yields_expectName hend c).bind fun found hname => ?_
    refine (yields_current hend _).bind fun slot hbracket => ?_
    split
    · rename_i htoken
      exact yields_enter hend _ _ (hname.trans (hbracket _ htoken))
    · exact (p.yields_lift _).bind fun type _ => Leads.name hname
  | termsRead members =>
    refine (yields_pipe hend c).bind fun found hpipe => ?_
    obtain ⟨more, c₁⟩ := found
    cases more with
    | false =>
      obtain rfl : c₁ = c := hpipe
      exact Leads.type
    | true => exact Leads.pipe hpipe
  | typeRead type =>
    cases openings with
    | nil => exact Leads.finish
    | cons opening openings =>
      refine (yields_comma hend c).bind fun found hpass => ?_
      obtain ⟨more, c₁⟩ := found
      cases more with
      | false => exact Leads.arguments hpass
      | true => exact Leads.comma hpass
  | valueDue members values => exact (yields_literal hend c).bind fun found hpass => Leads.value hpass
  | valuesRead members values =>
    refine (yields_comma hend c).bind fun found hpass => ?_
    obtain ⟨more, c₁⟩ := found
    cases more with
    | false => exact Leads.values hpass
    | true => exact Leads.valueComma hpass
  | formRead members made =>
    cases made with
    | error refusal => trivial
    | ok type => exact Leads.form

theorem leads_of_steps {s s' : Descent} (h : p.Steps s s') : p.Leads s (.goOn s') := by
  have hyields := yields_step hend s
  rwa [h] at hyields

end Inversion

/-- The depth counts the brackets that are open above a base, and there is room for them. -/
structure Steady (base : Nat) (s : Descent) : Prop where
  depth : s.cursor.depth = base + s.brackets
  room : s.brackets ≤ p.limits.maxDepth - base

/-- A bound on the steps that may follow. -/
def measure (s : Descent) : Nat := 3 * p.left s.cursor + s.task.rank

theorem left_lt_of_measure {s s' : Descent} (h : p.measure s' < p.measure s)
    (hrank : s.task.rank ≤ s'.task.rank) : p.left s'.cursor < p.left s.cursor := by
  rw [measure, measure] at h
  omega

theorem steady_entry (c : Cursor) : p.Steady c.depth (.entry c) := ⟨rfl, Nat.zero_le _⟩

theorem measure_entry_lt (c : Cursor) : p.measure (.entry c) < 3 * p.left c + 3 := Nat.lt_succ_self _

section Runs

variable {p} {s s' : Descent} {base : Nat}

theorem Leads.steady (h : p.Leads s (.goOn s')) (hs : p.Steady base s) : p.Steady base s' := by
  obtain ⟨hdepth, hroom⟩ := hs
  rw [Descent.brackets] at hdepth hroom
  cases h with
  | term | type => exact ⟨hdepth, hroom⟩
  | name hpass | pipe hpass | comma hpass | arguments hpass | value hpass | valueComma hpass
    | values hpass =>
    exact ⟨hpass.depth.trans hdepth, hroom⟩
  | bracket hpass hlt | literal hpass hlt | emptyTuple hpass hlt =>
    have hsame := hpass.depth
    dsimp only [Task.brackets] at hdepth hroom
    constructor
    all_goals
      simp only [Descent.brackets, Task.brackets, List.length_cons]
      omega
  | form =>
    dsimp only [Task.brackets] at hdepth hroom
    constructor
    all_goals
      simp only [Descent.brackets, Task.brackets]
      omega

theorem Leads.measure_lt (h : p.Leads s (.goOn s')) : p.measure s' < p.measure s := by
  cases h with
  | term | type | form => exact Nat.lt_succ_self _
  | name hpass | pipe hpass | comma hpass | arguments hpass | value hpass | valueComma hpass
    | values hpass | bracket hpass | literal hpass | emptyTuple hpass =>
    have hleft := hpass.left_lt
    simp only [measure, Task.rank, left] at hleft ⊢
    omega

theorem run_mono {steps more : Nat} {outcome : Walk (TypeExpr × Cursor)}
    (h : p.run steps s = some outcome) (hle : steps ≤ more) : p.run more s = some outcome := by
  induction steps generalizing s more with
  | zero => cases h
  | succ steps ih =>
    obtain ⟨more, rfl⟩ := Nat.exists_eq_add_one_of_ne_zero (Nat.ne_zero_of_lt hle)
    rw [run] at h ⊢
    split at h
    · exact h
    · exact h
    · exact ih h (Nat.le_of_succ_le_succ hle)

/-- A run comes to one end. -/
theorem run_unique {steps more : Nat} {outcome other : Walk (TypeExpr × Cursor)}
    (h : p.run steps s = some outcome) (h' : p.run more s = some other) : outcome = other := by
  have hwide := run_mono h (Nat.le_max_left steps more)
  have hwide' := run_mono h' (Nat.le_max_right steps more)
  exact Option.some.inj (hwide.symm.trans hwide')

theorem exists_run_of_reaches (h : p.Reaches s s') {steps : Nat} {outcome : Walk (TypeExpr × Cursor)}
    (hrun : p.run steps s' = some outcome) : ∃ more, p.run more s = some outcome := by
  induction h using Relation.ReflTransGen.head_induction_on with
  | refl => exact ⟨steps, hrun⟩
  | head hstep _ ih =>
    obtain ⟨more, hmore⟩ := ih
    refine ⟨more + 1, ?_⟩
    rw [run, hstep]
    exact hmore

variable (hend : p.HasEnd)

include hend

/-- A run with more steps than the measure comes to its end. -/
theorem exists_run {steps : Nat} (h : p.measure s < steps) :
    ∃ outcome, p.run steps s = some (checked outcome) := by
  induction steps generalizing s with
  | zero => exact absurd h (Nat.not_lt_zero _)
  | succ steps ih =>
    have hyields := yields_step hend s
    rw [run]
    cases hstep : p.step s with
    | error halt =>
      rw [hstep] at hyields
      cases halt with
      | failed e => exact ⟨.error e, rfl⟩
      | _ => exact hyields.elim
    | ok move =>
      cases move with
      | finish type c => exact ⟨.ok (type, c), rfl⟩
      | goOn next =>
        have hlt := (leads_of_steps hend hstep).measure_lt
        exact ih (by omega)

theorem steady_of_reaches (h : p.Reaches s s') (hs : p.Steady base s) : p.Steady base s' := by
  induction h with
  | refl => exact hs
  | tail _ hstep ih => exact (leads_of_steps hend hstep).steady ih

theorem measure_lt_of_transGen (h : Relation.TransGen p.Steps s s') : p.measure s' < p.measure s := by
  induction h with
  | single hstep => exact (leads_of_steps hend hstep).measure_lt
  | tail _ hstep ih => exact (leads_of_steps hend hstep).measure_lt.trans ih

/-- Once a run has left the head of a loop, and not for the head of another one, a token is passed. -/
theorem left_lt_of_loop {loop : Task.Loop} (h : Relation.TransGen p.Steps s s')
    (hloop : s.task.loop? = some loop) (hturn : s'.task.loop? = none ∨ s'.task.loop? = some loop) :
    p.left s'.cursor < p.left s.cursor :=
  p.left_lt_of_measure (measure_lt_of_transGen hend h) (Task.rank_le_of_loop? hloop hturn)

end Runs
end Parser
end Callable.Reference
