import Callable.Assembly.Assemble
import Mathlib.Data.List.Nodup

/-!
The check of names. It goes through the names of a declaration and keeps those that it has seen; so it ends
with all names proper, or at the first that is blank or repeated. Nothing but the names is read.
-/
namespace Callable

/-- Errors that tell of a name. -/
def ParamError.IsNaming : ParamError → Prop
  | emptyFunctionName | emptyParamName _ | duplicateInput _ | duplicateOutput _ => True
  | contradictoryFlags _ | requiredAfterOptional _ _ | unserializableDefault _ _ => False

namespace Assembly

/-- Names that are neither blank nor repeated. -/
structure IsProper (names : List String) : Prop where
  named : ∀ name ∈ names, Text.isBlankString name = false
  nodup : names.Nodup

/-- The error tells of the first name that is blank or was there before. -/
inductive FirstFault (repeated : String → ParamError) (names : List String) : ParamError → Prop
  | blank {before after : List String} {name : String} : names = before ++ name :: after →
      IsProper before → Text.isBlankString name = true →
      FirstFault repeated names (.emptyParamName before.length)
  | repeated {before after : List String} {name : String} : names = before ++ name :: after →
      IsProper before → Text.isBlankString name = false → name ∈ before →
      FirstFault repeated names (repeated name)

def resultNames (d : Declaration) : List String :=
  d.outputs.mapIdx fun i output => outputName i d.outputs.length output

/-- No name of the declaration is blank, and no two parameters or two results share one. -/
structure WellNamed (d : Declaration) : Prop where
  name : Text.isBlankString d.name = false
  inputs : IsProper (d.inputs.map DeclaredInput.name)
  outputs : IsProper (resultNames d)

/-- The error tells what is wrong first with the names: of the function, its parameters, its results. -/
inductive NamingFault (d : Declaration) : ParamError → Prop
  | function : Text.isBlankString d.name = true → NamingFault d .emptyFunctionName
  | input {e : ParamError} : Text.isBlankString d.name = false →
      FirstFault .duplicateInput (d.inputs.map DeclaredInput.name) e → NamingFault d e
  | output {e : ParamError} : Text.isBlankString d.name = false →
      IsProper (d.inputs.map DeclaredInput.name) →
      FirstFault .duplicateOutput (resultNames d) e → NamingFault d e

/-- Two declarations with the same names, whatever else they declare. -/
structure SameNames (d d' : Declaration) : Prop where
  name : d.name = d'.name
  inputs : d.inputs.map DeclaredInput.name = d'.inputs.map DeclaredInput.name
  outputs : resultNames d = resultNames d'

section Check

variable {repeated : String → ParamError}

theorem IsProper.concat {names : List String} {name : String} (h : IsProper names)
    (hnamed : Text.isBlankString name = false) (hnew : name ∉ names) : IsProper (names ++ [name]) where
  named := List.forall_mem_append.mpr ⟨h.named, List.forall_mem_singleton.mpr hnamed⟩
  nodup := by
    rw [List.nodup_append_comm]
    exact List.nodup_cons.mpr ⟨hnew, h.nodup⟩

theorem FirstFault.not_isProper {names : List String} {e : ParamError}
    (h : FirstFault repeated names e) : ¬ IsProper names := by
  intro hproper
  cases h with
  | blank heq _ hblank =>
    have hnamed := hproper.named _ (heq ▸ List.mem_append_right _ List.mem_cons_self)
    exact Bool.false_ne_true (hnamed.symm.trans hblank)
  | repeated heq _ _ hold =>
    have hnodup := hproper.nodup
    rw [heq, List.nodup_append] at hnodup
    exact hnodup.2.2 _ hold _ List.mem_cons_self rfl

theorem checkNames_cases (above : List String) {rest seen : List String} (habove : IsProper above)
    (hseen : ∀ name, name ∈ seen ↔ name ∈ above) :
    (checkNames repeated above.length seen rest = .ok () ∧ IsProper (above ++ rest)) ∨
      ∃ e, checkNames repeated above.length seen rest = .error e ∧
        FirstFault repeated (above ++ rest) e := by
  induction rest generalizing above seen with
  | nil =>
    rw [List.append_nil]
    exact Or.inl ⟨rfl, habove⟩
  | cons name rest ih =>
    rw [checkNames]
    by_cases hblank : Text.isBlankString name = true
    · rw [if_pos hblank]
      exact Or.inr ⟨_, rfl, FirstFault.blank rfl habove hblank⟩
    · have hnamed : Text.isBlankString name = false := (Bool.not_eq_true _).mp hblank
      rw [if_neg hblank]
      by_cases hold : name ∈ above
      · rw [if_pos ((hseen name).mpr hold)]
        exact Or.inr ⟨_, rfl, FirstFault.repeated rfl habove hnamed hold⟩
      · rw [if_neg fun h => hold ((hseen name).mp h)]
        have hmore (other : String) : other ∈ name :: seen ↔ other ∈ above ++ [name] := by
          rw [List.mem_cons, List.mem_append, List.mem_singleton, hseen, or_comm]
        have hnext := ih (above ++ [name]) (habove.concat hnamed hold) hmore
        rwa [List.length_append, List.append_assoc] at hnext

theorem checkNames_all_cases (repeated : String → ParamError) (names : List String) :
    (checkNames repeated 0 [] names = .ok () ∧ IsProper names) ∨
      ∃ e, checkNames repeated 0 [] names = .error e ∧ FirstFault repeated names e :=
  checkNames_cases [] ⟨List.forall_mem_nil _, List.nodup_nil⟩ fun _ => Iff.rfl

theorem outputNames_eq_mapIdx (outputs : List DeclaredOutput) (index count : Nat) :
    outputNames index count outputs = outputs.mapIdx fun i => outputName (index + i) count := by
  induction outputs generalizing index with
  | nil => rfl
  | cons output rest ih =>
    rw [outputNames, ih, List.mapIdx_cons]
    simp only [Nat.add_zero, Nat.add_assoc, Nat.add_comm 1]

theorem outputNames_eq_resultNames (d : Declaration) :
    outputNames 0 d.outputs.length d.outputs = resultNames d := by
  rw [outputNames_eq_mapIdx]
  simp only [Nat.zero_add]
  rfl

/-- All names of a declaration pass the check, or it tells what is wrong first with them. -/
theorem checkAllNames_cases (d : Declaration) :
    (checkAllNames d = .ok () ∧ WellNamed d) ∨
      ∃ e, checkAllNames d = .error e ∧ NamingFault d e := by
  unfold checkAllNames
  rw [outputNames_eq_resultNames]
  by_cases hblank : Text.isBlankString d.name = true
  · rw [if_pos hblank]
    exact Or.inr ⟨_, rfl, NamingFault.function hblank⟩
  · have hnamed : Text.isBlankString d.name = false := (Bool.not_eq_true _).mp hblank
    rw [if_neg hblank]
    rcases checkNames_all_cases .duplicateInput (d.inputs.map DeclaredInput.name) with
      ⟨hinputs, hproper⟩ | ⟨e, hinputs, hfault⟩
    · rw [hinputs]
      rcases checkNames_all_cases .duplicateOutput (resultNames d) with
        ⟨houtputs, hresults⟩ | ⟨e, houtputs, hfault⟩
      · exact Or.inl ⟨houtputs, hnamed, hproper, hresults⟩
      · exact Or.inr ⟨e, houtputs, NamingFault.output hnamed hproper hfault⟩
    · rw [hinputs]
      exact Or.inr ⟨e, rfl, NamingFault.input hnamed hfault⟩

theorem NamingFault.not_wellNamed {d : Declaration} {e : ParamError} (h : NamingFault d e) :
    ¬ WellNamed d := by
  intro hwell
  cases h with
  | function hblank => exact Bool.false_ne_true (hwell.name.symm.trans hblank)
  | input _ hfault => exact hfault.not_isProper hwell.inputs
  | output _ _ hfault => exact hfault.not_isProper hwell.outputs

theorem checkAllNames_eq_ok_iff (d : Declaration) : checkAllNames d = .ok () ↔ WellNamed d := by
  rcases checkAllNames_cases d with ⟨hpassed, hwell⟩ | ⟨e, hfailed, hfault⟩
  · exact iff_of_true hpassed hwell
  · rw [hfailed]
    exact iff_of_false nofun hfault.not_wellNamed

theorem NamingFault.isNaming {d : Declaration} {e : ParamError} (h : NamingFault d e) :
    e.IsNaming := by
  cases h with
  | function => trivial
  | input _ hfault => cases hfault <;> trivial
  | output _ _ hfault => cases hfault <;> trivial

theorem SameNames.checkAllNames_eq {d d' : Declaration} (h : SameNames d d') :
    checkAllNames d = checkAllNames d' := by
  unfold checkAllNames
  rw [outputNames_eq_resultNames, outputNames_eq_resultNames, h.name, h.inputs, h.outputs]

end Check

end Assembly
end Callable
