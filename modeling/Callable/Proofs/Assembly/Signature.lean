import Callable.Proofs.Assembly.Documentation
import Callable.Proofs.Assembly.Names
import Callable.Proofs.Assembly.Withdrawal
import Mathlib.Data.List.Forall2

/-!
The signature is authoritative. An assembly takes apart into the parameters that the declaration alone
resolves to and what documentation makes of them; so whatever a declaration says of its function, its
parameters and its results is found in the descriptor as it was said.
-/
namespace Callable.Assembly

section Places

variable {α β : Type} {R : α → β → Prop} {as : List α} {bs : List β}

theorem exists_left_of_forall₂
    (h : List.Forall₂ R as bs) {i : Nat} {b : β} (hb : bs[i]? = some b) :
    ∃ a, as[i]? = some a ∧ R a b := by
  obtain ⟨hlength, hplaces⟩ := List.forall₂_iff_get.mp h
  obtain ⟨hi, rfl⟩ := List.getElem?_eq_some_iff.mp hb
  have hi' : i < as.length := hlength ▸ hi
  exact ⟨as[i], List.getElem?_eq_getElem hi', hplaces i hi' hi⟩

theorem exists_right_of_forall₂
    (h : List.Forall₂ R as bs) {i : Nat} {a : α} (ha : as[i]? = some a) :
    ∃ b, bs[i]? = some b ∧ R a b := by
  obtain ⟨hlength, hplaces⟩ := List.forall₂_iff_get.mp h
  obtain ⟨hi, rfl⟩ := List.getElem?_eq_some_iff.mp ha
  have hi' : i < bs.length := hlength ▸ hi
  exact ⟨bs[i], List.getElem?_eq_getElem hi', hplaces i hi hi'⟩

theorem forall₂_of_places
    (hlength : bs.length = as.length)
    (h : ∀ (i : Nat) a b, as[i]? = some a → bs[i]? = some b → R a b) : List.Forall₂ R as bs := by
  refine List.forall₂_iff_get.mpr ⟨hlength.symm, fun i hi hi' => ?_⟩
  exact h i _ _ (List.getElem?_eq_getElem hi) (List.getElem?_eq_getElem hi')

end Places

/-- A parameter as its declaration resolves, documentation left aside. -/
structure Declares (limits : Reference.Limits) (scope : Scope) (input : DeclaredInput)
    (p : InputParam) : Prop where
  name : p.name = input.name
  type : (reference limits scope input.type).outcome = .ok p.type
  positional : p.positional = input.positional
  default : p.default.map DeclaredDefault.value = input.default
  optional : p.optional = input.optional
  description : p.description = input.description
  middleware : p.middleware = input.middleware
  endpoints : p.endpoints = input.endpoints

/-- A result as its declaration resolves, its name left aside. -/
structure DeclaresOutput (limits : Reference.Limits) (scope : Scope) (output : DeclaredOutput)
    (p : OutputParam) : Prop where
  type : (reference limits scope output.type).outcome = .ok p.type
  description : p.description = output.description
  endpoints : p.endpoints = output.endpoints

section Resolution

variable {limits : Reference.Limits} {scope : Scope}

theorem declares_of_inputParam {position : Nat} {input : DeclaredInput} {p : InputParam}
    (h : (inputParam limits scope position input).outcome = .ok p) :
    Declares limits scope input p := by
  unfold inputParam at h
  split at h
  · cases h
  · simp only [Logged.bind_eq_ok_iff, Logged.mapError_eq_ok_iff, Logged.outcome_ofExcept,
      Logged.outcome_pure] at h
    obtain ⟨default, hdefault, type, htype, _, -, hp⟩ := h
    cases hp
    refine ⟨rfl, htype, rfl, ?_, rfl, rfl, rfl, rfl⟩
    unfold capturedDefault at hdefault
    split at hdefault
    · rename_i hnone
      cases hdefault
      rw [hnone, Option.map_none]
    · rename_i value hvalue
      cases hdefault
      rw [hvalue, Option.map_some]
    · cases hdefault

theorem declares_of_inputParams {position : Nat} {inputs : List DeclaredInput}
    {params : List InputParam}
    (h : (inputParams limits scope position inputs).outcome = .ok params) :
    List.Forall₂ (Declares limits scope) inputs params := by
  induction inputs generalizing position params with
  | nil =>
    cases h
    exact List.Forall₂.nil
  | cons input rest ih =>
    simp only [inputParams, Logged.bind_eq_ok_iff, Logged.outcome_pure] at h
    obtain ⟨p, hp, more, hmore, hparams⟩ := h
    cases hparams
    exact List.Forall₂.cons (declares_of_inputParam hp) (ih hmore)

theorem declares_of_outputParam {index count : Nat} {output : DeclaredOutput} {p : OutputParam}
    (h : (outputParam limits scope index count output).outcome = .ok p) :
    p.name = outputName index count output ∧ DeclaresOutput limits scope output p := by
  unfold outputParam at h
  simp only at h
  split at h
  · cases h
  · simp only [Logged.bind_eq_ok_iff, Logged.outcome_pure] at h
    obtain ⟨type, htype, hp⟩ := h
    cases hp
    exact ⟨rfl, htype, rfl, rfl⟩

theorem declares_of_outputParams {index count : Nat} {outputs : List DeclaredOutput}
    {params : List OutputParam}
    (h : (outputParams limits scope index count outputs).outcome = .ok params) :
    params.map OutputParam.name = outputNames index count outputs ∧
      List.Forall₂ (DeclaresOutput limits scope) outputs params := by
  induction outputs generalizing index params with
  | nil =>
    cases h
    exact ⟨rfl, List.Forall₂.nil⟩
  | cons output rest ih =>
    simp only [outputParams, Logged.bind_eq_ok_iff, Logged.outcome_pure] at h
    obtain ⟨p, hp, more, hmore, hparams⟩ := h
    cases hparams
    obtain ⟨hname, hdeclares⟩ := declares_of_outputParam hp
    obtain ⟨hnames, hrest⟩ := ih hmore
    refine ⟨?_, List.Forall₂.cons hdeclares hrest⟩
    rw [List.map_cons, outputNames, hname, hnames]

theorem map_name_of_declares {inputs : List DeclaredInput} {params : List InputParam}
    (h : List.Forall₂ (Declares limits scope) inputs params) :
    params.map InputParam.name = inputs.map DeclaredInput.name := by
  induction h with
  | nil => rfl
  | cons hdeclares _ ih => rw [List.map_cons, List.map_cons, hdeclares.name, ih]

end Resolution

/-- The entries on parameters, none if there is no documentation. -/
def inputDocs (docs : Option Docs) : List InputDoc := (docs.map Docs.inputs).getD []

/-- The entries on results, none if there is no documentation. -/
def outputDocs (docs : Option Docs) : List OutputDoc := (docs.map Docs.outputs).getD []

/-- A descriptor and its warnings come from the parameters `inputs` and results `outputs` of the
signature, with documentation merged in. -/
structure Assembles (limits : Reference.Limits) (scope : Scope) (d : Declaration)
    (inputs : List InputParam) (outputs : List OutputParam) (a : Assembled) : Prop where
  name : a.descriptor.name = d.name
  docs : a.descriptor.docs = d.docs
  endpoints : a.descriptor.endpoints = d.endpoints
  declares : List.Forall₂ (Declares limits scope) d.inputs inputs
  declaresOutputs : List.Forall₂ (DeclaresOutput limits scope) d.outputs outputs
  outputNames : outputs.map OutputParam.name = outputNames 0 d.outputs.length d.outputs
  merged : ∃ inputWarnings outputWarnings, a.warnings = inputWarnings ++ outputWarnings ∧
    Settles limits scope (inputDocs d.docs) inputs a.descriptor.inputs inputWarnings ∧
    ∀ w ∈ outputWarnings,
      IsOutputDrift limits scope 0 (outputDocs d.docs).length (outputDocs d.docs) w
  mergedOutputs : ∀ i : Nat, a.descriptor.outputs[i]? =
    (outputs[i]?).map (enrichOutput limits scope (outputDocs d.docs)[i]?)

section Parts

variable {limits : Reference.Limits} {scope : Scope}

theorem exists_settles_mergeDocs (limits : Reference.Limits) (scope : Scope) {inputs : List InputParam}
    (hnames : (inputs.map InputParam.name).Nodup) (outputs : List OutputParam)
    (docs : Option Docs) :
    ∃ merged mergedOutputs inputWarnings outputWarnings,
      (mergeDocs limits scope inputs outputs docs).outcome =
        .ok (merged, mergedOutputs, inputWarnings ++ outputWarnings) ∧
      Settles limits scope (inputDocs docs) inputs merged inputWarnings ∧
      (∀ w ∈ outputWarnings,
        IsOutputDrift limits scope 0 (outputDocs docs).length (outputDocs docs) w) ∧
      ∀ i : Nat, mergedOutputs[i]? =
        (outputs[i]?).map (enrichOutput limits scope (outputDocs docs)[i]?) := by
  cases docs with
  | none =>
    have hsettles := (Reads.start limits scope inputs).settles hnames
    have hsame : Merged.settle ⟨inputs, [], []⟩ = ⟨inputs, [], []⟩ := by
      unfold Merged.settle
      split <;> rfl
    rw [hsame] at hsettles
    refine ⟨inputs, outputs, [], [], rfl, hsettles, fun w hw => (by cases hw), fun i => ?_⟩
    have hnone : enrichOutput limits scope none = id := funext enrichOutput_none
    change _ = (outputs[i]?).map (enrichOutput limits scope none)
    rw [hnone, Option.map_id, id]
  | some docs =>
    obtain ⟨merged, inputWarnings, hinputs, hsettles⟩ :=
      exists_settles_mergeInputs (ε := AssemblyError) limits scope hnames docs.inputs
    obtain ⟨mergedOutputs, outputWarnings, houtputs, hplaces, hdrift⟩ :=
      exists_enriched_mergeOutputs (ε := AssemblyError) limits scope 0 docs.outputs.length outputs
        docs.outputs
    refine ⟨merged, mergedOutputs, inputWarnings, outputWarnings, ?_, hsettles, hdrift, hplaces⟩
    unfold mergeDocs
    simp only [Logged.bind_eq_ok_iff]
    exact ⟨_, hinputs, _, houtputs, rfl⟩

/-- Every assembly that succeeds is of this kind. -/
theorem exists_assembles {d : Declaration} {a : Assembled}
    (h : (assemble limits scope d).outcome = .ok a) :
    ∃ inputs outputs, Assembles limits scope d inputs outputs a := by
  obtain ⟨hchecked, inputs, outputs, inputs', outputs', hinputs, houtputs, hmerged, hmade⟩ :=
    (assemble_eq_ok_iff limits scope d a).mp h
  have hdeclares := declares_of_inputParams hinputs
  obtain ⟨hnames, hdeclaresOutputs⟩ := declares_of_outputParams houtputs
  have hnodup : (inputs.map InputParam.name).Nodup := by
    rw [map_name_of_declares hdeclares]
    exact ((checkAllNames_eq_ok_iff d).mp hchecked).inputs.nodup
  obtain ⟨merged, mergedOutputs, inputWarnings, outputWarnings, houtcome, hsettles, hdrift,
    hplaces⟩ := exists_settles_mergeDocs limits scope hnodup outputs d.docs
  obtain ⟨rfl, hrest⟩ := Prod.mk.inj (Except.ok.inj (houtcome.symm.trans hmerged))
  obtain ⟨rfl, hwarnings⟩ := Prod.mk.inj hrest
  obtain ⟨hname, hin, hout, hdocs, hendpoints⟩ := make_eq_ok hmade
  refine ⟨inputs, outputs, hname, hdocs, hendpoints, hdeclares, hdeclaresOutputs, hnames,
    ⟨inputWarnings, outputWarnings, hwarnings.symm, ?_, hdrift⟩, ?_⟩
  · rw [hin]
    exact hsettles
  · rw [hout]
    exact hplaces

namespace Assembles

variable {d : Declaration} {inputs : List InputParam} {outputs : List OutputParam} {a : Assembled}

theorem exists_enrich (h : Assembles limits scope d inputs outputs a) {i : Nat} {q : InputParam}
    (hq : a.descriptor.inputs[i]? = some q) :
    ∃ input p, d.inputs[i]? = some input ∧ Declares limits scope input p ∧
      (q = enrich limits scope (inputDocs d.docs) p ∨ p.optional = none ∧
        q = { enrich limits scope (inputDocs d.docs) p with optional := none }) := by
  obtain ⟨_, _, -, hsettles, -⟩ := h.merged
  obtain ⟨hi, -⟩ := List.getElem?_eq_some_iff.mp hq
  obtain ⟨p, hp⟩ : ∃ p, inputs[i]? = some p :=
    ⟨_, List.getElem?_eq_getElem (hsettles.length ▸ hi)⟩
  obtain ⟨input, hinput, hdeclares⟩ := exists_left_of_forall₂ h.declares hp
  exact ⟨input, p, hinput, hdeclares, hsettles.eq_enrich hp hq⟩

theorem exists_enrichOutput (h : Assembles limits scope d inputs outputs a) {i : Nat}
    {q : OutputParam} (hq : a.descriptor.outputs[i]? = some q) :
    ∃ output p, d.outputs[i]? = some output ∧ DeclaresOutput limits scope output p ∧
      q = enrichOutput limits scope (outputDocs d.docs)[i]? p := by
  rw [h.mergedOutputs] at hq
  obtain ⟨p, hp, hq⟩ := Option.map_eq_some_iff.mp hq
  obtain ⟨output, houtput, hdeclares⟩ := exists_left_of_forall₂ h.declaresOutputs hp
  exact ⟨output, p, houtput, hdeclares, hq.symm⟩

end Assembles

end Parts

/-- A parameter is as it was declared, in all that its declaration says. -/
structure KeepsInput (limits : Reference.Limits) (scope : Scope) (input : DeclaredInput)
    (q : InputParam) : Prop where
  name : q.name = input.name
  positional : q.positional = input.positional
  default : q.default.map DeclaredDefault.value = input.default
  middleware : q.middleware = input.middleware
  endpoints : q.endpoints = input.endpoints
  description : ∀ text, input.description = some text → q.description = some text
  optional : ∀ flag, input.optional = some flag → q.optional = some flag
  type : ∃ encoding, (reference limits scope input.type).outcome = .ok encoding ∧
    (encoding ≠ "Any" → q.type = encoding)

/-- A result is as it was declared, in all that its declaration says beside the name. -/
structure KeepsOutput (limits : Reference.Limits) (scope : Scope) (output : DeclaredOutput)
    (q : OutputParam) : Prop where
  endpoints : q.endpoints = output.endpoints
  description : ∀ text, output.description = some text → q.description = some text
  type : ∃ encoding, (reference limits scope output.type).outcome = .ok encoding ∧
    (encoding ≠ "Any" → q.type = encoding)

section Kept

variable {limits : Reference.Limits} {scope : Scope}

theorem fillType_of_ne {type : String} (h : type ≠ "Any") (told : Option String) :
    fillType type told = type := if_neg h

theorem Declares.keeps_enrich {input : DeclaredInput} {p : InputParam}
    (h : Declares limits scope input p) (docs : List InputDoc) :
    KeepsInput limits scope input (enrich limits scope docs p) where
  name := h.name
  positional := h.positional
  default := h.default
  middleware := h.middleware
  endpoints := h.endpoints
  description text htext := by
    change p.description.or _ = _
    rw [h.description, htext, Option.some_or]
  optional flag hflag := by
    change p.optional.or _ = _
    rw [h.optional, hflag, Option.some_or]
  type := ⟨p.type, h.type, fun hany => fillType_of_ne hany _⟩

/-- A flag that the declaration does not tell may be taken back. -/
theorem KeepsInput.withdraw {input : DeclaredInput} {q : InputParam}
    (h : KeepsInput limits scope input q) (hflag : input.optional = none) :
    KeepsInput limits scope input { q with optional := none } where
  name := h.name
  positional := h.positional
  default := h.default
  middleware := h.middleware
  endpoints := h.endpoints
  description := h.description
  optional flag hsome := by cases hflag.symm.trans hsome
  type := h.type

theorem DeclaresOutput.keeps_enrich {output : DeclaredOutput} {p : OutputParam}
    (h : DeclaresOutput limits scope output p) (doc : Option OutputDoc) :
    KeepsOutput limits scope output (enrichOutput limits scope doc p) where
  endpoints := h.endpoints
  description text htext := by
    change p.description.or _ = _
    rw [h.description, htext, Option.some_or]
  type := ⟨p.type, h.type, fun hany => fillType_of_ne hany _⟩

end Kept

/-- Whatever documentation says, a descriptor keeps what its declaration says. -/
theorem assemble_keeps_signature (limits : Reference.Limits) (scope : Scope) (d : Declaration)
    (a : Assembled) (h : (assemble limits scope d).outcome = .ok a) :
    a.descriptor.name = d.name ∧ a.descriptor.endpoints = d.endpoints ∧
      a.descriptor.docs = d.docs ∧
      List.Forall₂ (KeepsInput limits scope) d.inputs a.descriptor.inputs ∧
      List.Forall₂ (KeepsOutput limits scope) d.outputs a.descriptor.outputs ∧
      a.descriptor.outputs.map OutputParam.name =
        outputNames 0 d.outputs.length d.outputs := by
  obtain ⟨inputs, outputs, hparts⟩ := exists_assembles h
  obtain ⟨inputWarnings, -, -, hsettles, -⟩ := hparts.merged
  have hnames : a.descriptor.outputs.map OutputParam.name = outputs.map OutputParam.name := by
    refine List.ext_getElem? fun i => ?_
    rw [List.getElem?_map, List.getElem?_map, hparts.mergedOutputs, Option.map_map]
    rfl
  refine ⟨hparts.name, hparts.endpoints, hparts.docs, ?_, ?_, hnames.trans hparts.outputNames⟩
  · have hlength : a.descriptor.inputs.length = d.inputs.length :=
      hsettles.length.trans hparts.declares.length_eq.symm
    refine forall₂_of_places hlength fun i input q hinput hq => ?_
    obtain ⟨_, p, hsame, hdeclares, hmerge⟩ := hparts.exists_enrich hq
    cases hinput.symm.trans hsame
    have hkeeps := hdeclares.keeps_enrich (inputDocs d.docs)
    rcases hmerge with rfl | ⟨hflag, rfl⟩
    · exact hkeeps
    · exact hkeeps.withdraw (hdeclares.optional.symm.trans hflag)
  · have hlength : a.descriptor.outputs.length = d.outputs.length := by
      have hsame := congrArg List.length hnames
      rw [List.length_map, List.length_map] at hsame
      exact hsame.trans hparts.declaresOutputs.length_eq.symm
    refine forall₂_of_places hlength fun i output q houtput hq => ?_
    obtain ⟨_, p, hsame, hdeclares, rfl⟩ := hparts.exists_enrichOutput hq
    cases houtput.symm.trans hsame
    exact hdeclares.keeps_enrich (outputDocs d.docs)[i]?

/-- A crate whose declaration speaks for itself, with documentation that contradicts it twice. -/
def crate : Declaration where
  name := "crate"
  inputs := [
    { name := "load", type := .type (.builtin .int), positional := true, optional := some false,
      description := some "Kilograms.", middleware := ["log"] },
    { name := "lid", positional := true, default := some (.value (.bool true)) }]
  outputs := [{ type := .reference "list[int]", description := some "Sizes." }]
  docs := some {
    inputs := [
      { name := "lid", optional := some false, type := some "no.Such" },
      { name := "load", optional := some true, type := some "str", description := some "Tons." },
      { name := "load", optional := some true, positional := some false }]
    outputs := [{ name := some "size", type := some "str", description := some "Size." }] }
  endpoints := [("rpc", { middleware := ["auth"] })]

theorem assemble_keeps_signature_crate :
    ∃ a, (assemble {} (Registry.new "port").scope crate).outcome = .ok a ∧
      a.descriptor.name = "crate" ∧ a.descriptor.endpoints = crate.endpoints ∧
      List.Forall₂ (KeepsInput {} (Registry.new "port").scope) crate.inputs a.descriptor.inputs ∧
      List.Forall₂ (KeepsOutput {} (Registry.new "port").scope) crate.outputs
        a.descriptor.outputs ∧
      a.descriptor.outputs.map OutputParam.name = ["out"] := by
  have hok : (assemble {} (Registry.new "port").scope crate).outcome.toOption.isSome = true := by
    decide +kernel
  obtain ⟨a, h⟩ := Option.isSome_iff_exists.mp hok
  have h := (toOption_eq_some_iff _ a).mp h
  obtain ⟨hname, hendpoints, -, hinputs, houtputs, hnames⟩ :=
    assemble_keeps_signature {} _ crate a h
  exact ⟨a, h, hname, hendpoints, hinputs, houtputs, hnames⟩

end Callable.Assembly
