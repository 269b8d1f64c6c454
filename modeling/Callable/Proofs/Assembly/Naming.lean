import Callable.Proofs.Assembly.Signature
import Callable.Proofs.Descriptor.Rules

/-!
Names are settled first. The check before an assembly reads nothing of a declaration but its names, and
its error tells of the first that is blank or repeated. No step after it fails for a name: parameters
are named as declared, merging renames none, and the last check sees the same names as the first.
-/
namespace Callable.Assembly

/-- The work does not fail for a name. -/
def NamesPass {α : Type} (work : Logged AssemblyError α) : Prop :=
  ∀ e, work.outcome = .error (.param e) → ¬ e.IsNaming

section Work

variable {α β : Type} {limits : Reference.Limits} {scope : Scope}

theorem NamesPass.of_ok {work : Logged AssemblyError α} {a : α} (h : work.outcome = .ok a) :
    NamesPass work := by
  intro e herror
  cases h.symm.trans herror

theorem NamesPass.bind {work : Logged AssemblyError α} {next : α → Logged AssemblyError β}
    (hwork : NamesPass work) (hnext : ∀ a, work.outcome = .ok a → NamesPass (next a)) :
    NamesPass (work >>= next) := by
  intro e h
  rw [Logged.outcome_bind] at h
  cases hdone : work.outcome with
  | error failure =>
    rw [hdone] at h
    cases h
    exact hwork e hdone
  | ok a =>
    rw [hdone] at h
    exact hnext a hdone e h

theorem namesPass_of_param {outcome : Except ParamError α}
    (h : ∀ e, outcome = .error e → ¬ e.IsNaming) :
    NamesPass (.mapError .param (.ofExcept outcome)) := by
  intro e herror
  rw [Logged.outcome_mapError, Logged.outcome_ofExcept] at herror
  cases houtcome : outcome with
  | error failure =>
    rw [houtcome] at herror
    cases herror
    exact h e houtcome
  | ok a =>
    rw [houtcome] at herror
    cases herror

theorem namesPass_of_type (work : Logged TypeError α) : NamesPass (work.mapError .type) := by
  intro e herror
  rw [Logged.outcome_mapError] at herror
  cases houtcome : work.outcome with
  | error failure =>
    rw [houtcome] at herror
    cases herror
  | ok a =>
    rw [houtcome] at herror
    cases herror

theorem namesPass_reference (type : DeclaredType) : NamesPass (reference limits scope type) := by
  cases type with
  | reference text => exact namesPass_of_type _
  | type type => exact namesPass_of_type _

theorem not_isNaming_of_capturedDefault {input : DeclaredInput} {e : ParamError}
    (h : capturedDefault input = .error e) : ¬ e.IsNaming := by
  unfold capturedDefault at h
  split at h
  · cases h
  · cases h
  · cases h
    exact id

theorem namesPass_inputParam {input : DeclaredInput}
    (hnamed : Text.isBlankString input.name = false) (position : Nat) :
    NamesPass (inputParam limits scope position input) := by
  have hname : ¬ Text.isBlankString input.name = true := ne_true_of_eq_false hnamed
  unfold inputParam
  simp only [if_neg hname]
  refine NamesPass.bind (namesPass_of_param fun e => not_isNaming_of_capturedDefault) fun default _ => ?_
  refine NamesPass.bind (namesPass_reference input.type) fun type _ => ?_
  refine NamesPass.bind (namesPass_of_param fun e hcheck => ?_) fun _ _ => NamesPass.of_ok rfl
  rcases InputParam.check_eq_error hcheck with ⟨rfl, hblank⟩ | ⟨rfl, -, -⟩
  · exact absurd hblank hname
  · exact id

theorem namesPass_inputParams {inputs : List DeclaredInput}
    (hnamed : ∀ input ∈ inputs, Text.isBlankString input.name = false) (position : Nat) :
    NamesPass (inputParams limits scope position inputs) := by
  induction inputs generalizing position with
  | nil => exact NamesPass.of_ok rfl
  | cons input rest ih =>
    obtain ⟨hinput, hrest⟩ := List.forall_mem_cons.mp hnamed
    refine NamesPass.bind (namesPass_inputParam hinput position) fun param _ => ?_
    exact NamesPass.bind (ih hrest (position + 1)) fun _ _ => NamesPass.of_ok rfl

theorem namesPass_outputParam {index count : Nat} {output : DeclaredOutput}
    (hnamed : Text.isBlankString (outputName index count output) = false) :
    NamesPass (outputParam limits scope index count output) := by
  have hname : ¬ Text.isBlankString (outputName index count output) = true :=
    ne_true_of_eq_false hnamed
  unfold outputParam
  simp only [if_neg hname]
  exact NamesPass.bind (namesPass_reference output.type) fun _ _ => NamesPass.of_ok rfl

theorem namesPass_outputParams {index count : Nat} {outputs : List DeclaredOutput}
    (hnamed : ∀ name ∈ outputNames index count outputs, Text.isBlankString name = false) :
    NamesPass (outputParams limits scope index count outputs) := by
  induction outputs generalizing index with
  | nil => exact NamesPass.of_ok rfl
  | cons output rest ih =>
    obtain ⟨houtput, hrest⟩ := List.forall_mem_cons.mp hnamed
    refine NamesPass.bind (namesPass_outputParam houtput) fun param _ => ?_
    exact NamesPass.bind (ih hrest) fun _ _ => NamesPass.of_ok rfl

/-- Parameters that are well named break no rule of names. -/
theorem not_isNaming_of_breaks {name : String} {inputs : List InputParam}
    {outputs : List OutputParam} (hname : Text.isBlankString name = false)
    (hinputs : IsProper (inputs.map InputParam.name))
    (houtputs : IsProper (outputs.map OutputParam.name)) {e : ParamError}
    (h : Breaks name inputs outputs e) : ¬ e.IsNaming := by
  cases h with
  | functionName hblank => exact absurd (hname.symm.trans hblank) Bool.false_ne_true
  | inputName hp hblank =>
    have hnamed := hinputs.named _ (List.mem_map_of_mem (List.mem_of_getElem? hp))
    exact absurd (hnamed.symm.trans hblank) Bool.false_ne_true
  | outputName hp hblank =>
    have hnamed := houtputs.named _ (List.mem_map_of_mem (List.mem_of_getElem? hp))
    exact absurd (hnamed.symm.trans hblank) Bool.false_ne_true
  | repeatedInput hij hp hq heq =>
    exact absurd heq ((nodup_map_iff _ _).mp hinputs.nodup _ _ _ _ hij hp hq)
  | repeatedOutput hij hp hq heq =>
    exact absurd heq ((nodup_map_iff _ _).mp houtputs.nodup _ _ _ _ hij hp hq)
  | flags => exact id
  | order => exact id

/-- What is built for a declaration and merged with its documentation has its names. -/
theorem exists_mergeDocs_named {d : Declaration} {inputs : List InputParam}
    {outputs : List OutputParam} (hinputs : (inputParams limits scope 0 d.inputs).outcome = .ok inputs)
    (houtputs : (outputParams limits scope 0 d.outputs.length d.outputs).outcome = .ok outputs) :
    ∃ merged mergedOutputs warnings, (mergeDocs limits scope inputs outputs d.docs).outcome =
        .ok (merged, mergedOutputs, warnings) ∧
      merged.map InputParam.name = d.inputs.map DeclaredInput.name ∧
      mergedOutputs.map OutputParam.name = resultNames d := by
  have hnames := map_name_of_declares (declares_of_inputParams hinputs)
  obtain ⟨hresults, -⟩ := declares_of_outputParams houtputs
  rw [outputNames_eq_resultNames] at hresults
  cases d.docs with
  | none => exact ⟨inputs, outputs, [], rfl, hnames, hresults⟩
  | some docs =>
    obtain ⟨m, mergedOutputs, warnings, hfollows, hkept, hmerged⟩ :=
      exists_mergeDocs limits scope inputs outputs docs
    exact ⟨m.settle.inputs, mergedOutputs, warnings, hmerged,
      hfollows.settle.1.map_name.trans hnames, hkept.trans hresults⟩

/-- The last check finds no fault with names that passed the first. -/
theorem WellNamed.not_isNaming_of_make {d : Declaration} (h : WellNamed d)
    {inputs : List InputParam} {outputs : List OutputParam}
    (hinputs : inputs.map InputParam.name = d.inputs.map DeclaredInput.name)
    (houtputs : outputs.map OutputParam.name = resultNames d) {e : ParamError}
    (hmake : Descriptor.make d.name inputs outputs d.docs d.endpoints = .error e) : ¬ e.IsNaming :=
  not_isNaming_of_breaks h.name (hinputs ▸ h.inputs) (houtputs ▸ h.outputs)
    (Descriptor.breaks_of_make hmake)

theorem WellNamed.inputParams {d : Declaration} (h : WellNamed d) :
    NamesPass (inputParams limits scope 0 d.inputs) :=
  namesPass_inputParams (List.forall_mem_map.mp h.inputs.named) 0

theorem WellNamed.outputParams {d : Declaration} (h : WellNamed d) :
    NamesPass (outputParams limits scope 0 d.outputs.length d.outputs) := by
  refine namesPass_outputParams ?_
  rw [outputNames_eq_resultNames]
  exact h.outputs.named

theorem WellNamed.assemble {d : Declaration} (h : WellNamed d) :
    NamesPass (assemble limits scope d) := by
  have hchecked : checkAllNames d = .ok () := (checkAllNames_eq_ok_iff d).mpr h
  unfold Assembly.assemble
  rw [hchecked]
  refine NamesPass.bind (NamesPass.of_ok rfl) fun _ _ => ?_
  refine NamesPass.bind h.inputParams fun inputs hinputs => ?_
  refine NamesPass.bind h.outputParams fun outputs houtputs => ?_
  obtain ⟨merged, mergedOutputs, warnings, hmerged, hnames, hresults⟩ :=
    exists_mergeDocs_named hinputs houtputs
  refine NamesPass.bind (NamesPass.of_ok hmerged) fun found hfound => ?_
  cases hmerged.symm.trans hfound
  refine NamesPass.bind (NamesPass.of_ok rfl) fun _ _ => ?_
  refine NamesPass.bind (namesPass_of_param fun e => h.not_isNaming_of_make hnames hresults) ?_
  exact fun _ _ => NamesPass.bind (NamesPass.of_ok rfl) fun _ _ => NamesPass.of_ok rfl

/-- A fault with the names is all that an assembly tells, and it is told before any other work. -/
theorem assemble_eq_of_checkAllNames {d : Declaration} {e : ParamError}
    (h : checkAllNames d = .error e) : assemble limits scope d = .error (.param e) := by
  unfold assemble
  rw [h]
  rfl

end Work

/-- Assembly fails for a name exactly if a name of the declaration is blank or repeated. The error then
tells of the first such name, and any declaration with the same names fails with it, in any scope and
within any limits, before anything else is done. With proper names neither the parameters and results
nor the last check, after merging, fail for a name. -/
theorem assemble_naming (d : Declaration) :
    (∀ limits scope, (∃ e, (assemble limits scope d).outcome = .error (.param e) ∧ e.IsNaming) ↔
      ¬ WellNamed d) ∧
    (¬ WellNamed d → ∃ e, NamingFault d e ∧ e.IsNaming ∧ ∀ limits scope d', SameNames d' d →
      assemble limits scope d' = .error (.param e)) ∧
    (WellNamed d → ∀ limits scope,
      NamesPass (inputParams limits scope 0 d.inputs) ∧
      NamesPass (outputParams limits scope 0 d.outputs.length d.outputs) ∧
      ∀ inputs outputs, (inputParams limits scope 0 d.inputs).outcome = .ok inputs →
        (outputParams limits scope 0 d.outputs.length d.outputs).outcome = .ok outputs →
        ∃ merged mergedOutputs warnings, (mergeDocs limits scope inputs outputs d.docs).outcome =
            .ok (merged, mergedOutputs, warnings) ∧
          ∀ e, Descriptor.make d.name merged mergedOutputs d.docs d.endpoints = .error e →
            ¬ e.IsNaming) := by
  have hfails (hnot : ¬ WellNamed d) : ∃ e, NamingFault d e ∧ ∀ limits scope d', SameNames d' d →
      assemble limits scope d' = .error (.param e) := by
    rcases checkAllNames_cases d with ⟨-, hwell⟩ | ⟨e, hchecked, hfault⟩
    · exact absurd hwell hnot
    · refine ⟨e, hfault, fun limits scope d' hsame => assemble_eq_of_checkAllNames ?_⟩
      rw [hsame.checkAllNames_eq, hchecked]
  refine ⟨fun limits scope => ⟨fun hnaming hwell => ?_, fun hnot => ?_⟩, fun hnot => ?_,
    fun hwell limits scope => ⟨hwell.inputParams, hwell.outputParams, ?_⟩⟩
  · obtain ⟨e, herror, hnaming⟩ := hnaming
    exact hwell.assemble e herror hnaming
  · obtain ⟨e, hfault, hall⟩ := hfails hnot
    exact ⟨e, congrArg Logged.outcome (hall limits scope d ⟨rfl, rfl, rfl⟩), hfault.isNaming⟩
  · obtain ⟨e, hfault, hall⟩ := hfails hnot
    exact ⟨e, hfault, hfault.isNaming, hall⟩
  · intro inputs outputs hinputs houtputs
    obtain ⟨merged, mergedOutputs, warnings, hmerged, hnames, hresults⟩ :=
      exists_mergeDocs_named hinputs houtputs
    exact ⟨merged, mergedOutputs, warnings, hmerged, fun e => hwell.not_isNaming_of_make hnames hresults⟩

/-- A result may not take the name that another one has by its place. -/
example : (assemble {} (Registry.new "plane").scope
    { name := "split", outputs := [{}, { name := some "out0" }] }).outcome =
      .error (.param (.duplicateOutput "out0")) := by
  decide +kernel

end Callable.Assembly
