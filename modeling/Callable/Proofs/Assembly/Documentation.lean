import Callable.Assembly.Assemble
import Callable.Proofs.Assembly.Merge
import Callable.Proofs.Descriptor.Check
import Callable.Registry

/-!
Documentation never makes assembly fail. Merging it in always gives parameters and results, and
these are sound if those of the signature alone are.
-/
namespace Callable.Assembly

/-- The steps of an assembly that succeeds. -/
theorem assemble_eq_ok_iff (limits : Reference.Limits) (scope : Scope) (d : Declaration)
    (a : Assembled) :
    (assemble limits scope d).outcome = .ok a ↔
      checkAllNames d = .ok () ∧ ∃ inputs outputs inputs' outputs',
        (inputParams limits scope 0 d.inputs).outcome = .ok inputs ∧
        (outputParams limits scope 0 d.outputs.length d.outputs).outcome = .ok outputs ∧
        (mergeDocs limits scope inputs outputs d.docs).outcome =
          .ok (inputs', outputs', a.warnings) ∧
        Descriptor.make d.name inputs' outputs' d.docs d.endpoints = .ok a.descriptor := by
  unfold assemble
  simp only [Logged.bind_eq_ok_iff, Logged.mapError_eq_ok_iff, Logged.outcome_ofExcept]
  constructor
  · intro h
    obtain ⟨_, hnames, inputs, hinputs, outputs, houtputs, ⟨inputs', outputs', warnings⟩, hmerged,
      _, -, descriptor, hmade, _, -, ha⟩ := h
    cases ha
    exact ⟨hnames, inputs, outputs, inputs', outputs', hinputs, houtputs, hmerged, hmade⟩
  · intro h
    obtain ⟨hnames, inputs, outputs, inputs', outputs', hinputs, houtputs, hmerged, hmade⟩ := h
    exact ⟨(), hnames, inputs, hinputs, outputs, houtputs, _, hmerged, (), rfl, _, hmade, (), rfl,
      rfl⟩

theorem exists_mergeDocs (limits : Reference.Limits) (scope : Scope) (inputs : List InputParam)
    (outputs : List OutputParam) (docs : Docs) :
    ∃ m outputs' warnings, Follows inputs m ∧
      outputs'.map OutputParam.name = outputs.map OutputParam.name ∧
      (mergeDocs limits scope inputs outputs (some docs)).outcome =
        .ok (m.settle.inputs, outputs', warnings) := by
  obtain ⟨m, hfollows, hinputs⟩ :=
    exists_mergeInputs (ε := AssemblyError) limits scope inputs docs.inputs
  obtain ⟨outputs', warnings, hnames, houtputs⟩ :=
    exists_mergeOutputs (ε := AssemblyError) limits scope 0 docs.outputs.length outputs docs.outputs
  refine ⟨m, outputs', m.settle.warnings ++ warnings, hfollows, hnames, ?_⟩
  unfold mergeDocs
  simp only [Logged.bind_eq_ok_iff]
  exact ⟨_, hinputs, _, houtputs, rfl⟩

theorem make_eq_ok {name : String} {inputs : List InputParam} {outputs : List OutputParam}
    {docs : Option Docs} {endpoints : Endpoints} {made : Descriptor}
    (h : Descriptor.make name inputs outputs docs endpoints = .ok made) :
    made.name = name ∧ made.inputs = inputs ∧ made.outputs = outputs ∧ made.docs = docs ∧
      made.endpoints = endpoints := by
  unfold Descriptor.make at h
  split at h
  · cases h
  · cases h
    exact ⟨rfl, rfl, rfl, rfl, rfl⟩

/-- A declaration that assembles without documentation assembles with any, under the same names. -/
theorem assemble_documented (limits : Reference.Limits) (scope : Scope) (d : Declaration)
    (docs : Docs) (a : Assembled)
    (h : (assemble limits scope { d with docs := none }).outcome = .ok a) :
    ∃ a', (assemble limits scope { d with docs := some docs }).outcome = .ok a' ∧
      a'.descriptor.docs = some docs ∧
      a'.descriptor.inputs.map InputParam.name = a.descriptor.inputs.map InputParam.name ∧
      a'.descriptor.outputs.map OutputParam.name = a.descriptor.outputs.map OutputParam.name := by
  obtain ⟨hnames, inputs, outputs, inputs', outputs', hinputs, houtputs, hmerged, hmade⟩ :=
    (assemble_eq_ok_iff limits scope _ a).mp h
  obtain ⟨rfl, hrest⟩ := Prod.mk.inj (Except.ok.inj hmerged)
  obtain ⟨rfl, -⟩ := Prod.mk.inj hrest
  obtain ⟨hname, hin, hout, -, -⟩ := make_eq_ok hmade
  have hsound : Sound d.name inputs outputs := by
    rw [← hname, ← hin, ← hout]
    exact a.descriptor.sound
  obtain ⟨m, documented, warnings, hfollows, hkept, hdocs⟩ :=
    exists_mergeDocs limits scope inputs outputs docs
  obtain ⟨hok, hmade'⟩ :=
    Descriptor.exists_make (hfollows.sound_settle hsound hkept) (some docs) d.endpoints
  refine ⟨⟨_, warnings⟩, (assemble_eq_ok_iff limits scope _ _).mpr
    ⟨hnames, inputs, outputs, _, _, hinputs, houtputs, hdocs, hmade'⟩, rfl, ?_, ?_⟩
  · rw [hin]
    exact hfollows.settle.1.map_name
  · rw [hout]
    exact hkept

def area : Declaration where
  name := "area"
  inputs := [{ name := "width", positional := true }, { name := "height", positional := true }]

/-- Documentation that would misplace an optional parameter, and fits in little else. -/
def areaDocs : Docs where
  inputs := [{ name := "width", optional := some true }, { name := "depth" },
    { name := "width", type := some "no.Such", optional := some false }]
  outputs := [{ name := some "square" }]

theorem assemble_documented_area :
    ∃ a, (assemble {} (Registry.new "plane").scope { area with docs := none }).outcome = .ok a ∧
      ∃ a', (assemble {} (Registry.new "plane").scope
          { area with docs := some areaDocs }).outcome = .ok a' ∧
        a'.descriptor.docs = some areaDocs := by
  have hok : (assemble {} (Registry.new "plane").scope
      { area with docs := none }).outcome.isOk = true := by
    decide +kernel
  cases h : (assemble {} (Registry.new "plane").scope { area with docs := none }).outcome with
  | error e =>
    rw [h] at hok
    cases hok
  | ok a =>
    obtain ⟨a', ha', hdocs, -⟩ := assemble_documented {} _ area areaDocs a h
    exact ⟨a, rfl, a', ha', hdocs⟩

end Callable.Assembly
