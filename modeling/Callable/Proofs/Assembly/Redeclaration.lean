import Callable.Proofs.Assembly.Context

/-!
Assembly is a fixpoint on its own output. A descriptor can be read as a declaration again, with its types
as references and its results named. In the scope it was assembled in, and with its own documentation,
this declaration assembles to the same descriptor. Types do not move because they are canonical; what
documentation has told once it does not tell otherwise; and a flag that was taken back is granted once
more and taken back once more, since the parameter that stood in its way has not changed.
-/
namespace Callable

def InputParam.declared (p : InputParam) : DeclaredInput where
  name := p.name
  type := .reference p.type
  positional := p.positional
  default := p.default.map .value
  optional := p.optional
  description := p.description
  middleware := p.middleware
  endpoints := p.endpoints

def OutputParam.declared (p : OutputParam) : DeclaredOutput where
  name := some p.name
  type := .reference p.type
  description := p.description
  endpoints := p.endpoints

/-- The declaration that says of a function what its descriptor says. -/
def Descriptor.declared (d : Descriptor) : Declaration where
  name := d.name
  inputs := d.inputs.map InputParam.declared
  outputs := d.outputs.map OutputParam.declared
  docs := d.docs
  endpoints := d.endpoints

namespace Assembly

variable {limits : Reference.Limits} {scope : Scope}

theorem reference_of_canonical {type : String} (h : Reference.canonical limits scope type = .ok type) :
    (reference limits scope (.reference type)).outcome = .ok type := by
  rw [reference, Logged.mapError_eq_ok_iff, Reference.outcome_canonicalLogged]
  exact h

theorem capturedDefault_declared (p : InputParam) : capturedDefault p.declared = .ok p.default := by
  unfold capturedDefault InputParam.declared
  cases p.default with
  | none => rfl
  | some value => rfl

theorem inputParam_declared {p : InputParam}
    (htype : Reference.canonical limits scope p.type = .ok p.type)
    (hnamed : Text.isBlankString p.name = false)
    (hflags : ¬ (p.optional = some false ∧ p.default.isSome = true)) (position : Nat) :
    (inputParam limits scope position p.declared).outcome = .ok p := by
  have hname : ¬ Text.isBlankString p.declared.name = true := ne_true_of_eq_false hnamed
  unfold inputParam
  simp only [if_neg hname, Logged.bind_eq_ok_iff, Logged.mapError_eq_ok_iff,
    Logged.outcome_ofExcept, Logged.outcome_pure]
  exact ⟨p.default, capturedDefault_declared p, p.type, reference_of_canonical htype, (),
    (p.check_eq_ok_iff position).mpr ⟨hnamed, hflags⟩, rfl⟩

theorem inputParams_declared {inputs : List InputParam}
    (htypes : ∀ p ∈ inputs, Reference.canonical limits scope p.type = .ok p.type)
    (hnamed : ∀ p ∈ inputs, Text.isBlankString p.name = false)
    (hflags : ∀ p ∈ inputs, ¬ (p.optional = some false ∧ p.default.isSome = true))
    (position : Nat) :
    (inputParams limits scope position (inputs.map InputParam.declared)).outcome = .ok inputs := by
  induction inputs generalizing position with
  | nil => rfl
  | cons p rest ih =>
    obtain ⟨htype, htypes⟩ := List.forall_mem_cons.mp htypes
    obtain ⟨hname, hnamed⟩ := List.forall_mem_cons.mp hnamed
    obtain ⟨hflag, hflags⟩ := List.forall_mem_cons.mp hflags
    simp only [List.map_cons, inputParams, Logged.bind_eq_ok_iff, Logged.outcome_pure]
    exact ⟨p, inputParam_declared htype hname hflag position, rest,
      ih htypes hnamed hflags (position + 1), rfl⟩

theorem outputParams_declared {outputs : List OutputParam}
    (htypes : ∀ p ∈ outputs, Reference.canonical limits scope p.type = .ok p.type)
    (hnamed : ∀ p ∈ outputs, Text.isBlankString p.name = false) (index count : Nat) :
    (outputParams limits scope index count (outputs.map OutputParam.declared)).outcome =
      .ok outputs := by
  induction outputs generalizing index with
  | nil => rfl
  | cons p rest ih =>
    obtain ⟨htype, htypes⟩ := List.forall_mem_cons.mp htypes
    obtain ⟨hname, hnamed⟩ := List.forall_mem_cons.mp hnamed
    have hparam : (outputParam limits scope index count p.declared).outcome = .ok p := by
      have hblank : ¬ Text.isBlankString (outputName index count p.declared) = true :=
        ne_true_of_eq_false hname
      unfold outputParam
      simp only [if_neg hblank, Logged.bind_eq_ok_iff, Logged.outcome_pure]
      exact ⟨p.type, reference_of_canonical htype, rfl⟩
    simp only [List.map_cons, outputParams, Logged.bind_eq_ok_iff, Logged.outcome_pure]
    exact ⟨p, hparam, rest, ih htypes hnamed (index + 1), rfl⟩

theorem outputNames_declared (outputs : List OutputParam) (index count : Nat) :
    outputNames index count (outputs.map OutputParam.declared) = outputs.map OutputParam.name := by
  induction outputs generalizing index with
  | nil => rfl
  | cons p rest ih =>
    rw [List.map_cons, outputNames, ih, List.map_cons]
    rfl

theorem wellNamed_declared (d : Descriptor) : WellNamed d.declared where
  name := d.sound.named
  inputs := by
    change IsProper ((d.inputs.map InputParam.declared).map DeclaredInput.name)
    rw [List.map_map]
    exact ⟨List.forall_mem_map.mpr d.sound.inputs_named, d.sound.inputs_nodup⟩
  outputs := by
    rw [← outputNames_eq_resultNames]
    change IsProper (outputNames 0 _ (d.outputs.map OutputParam.declared))
    rw [outputNames_declared]
    exact ⟨List.forall_mem_map.mpr d.sound.outputs_named, d.sound.outputs_nodup⟩

theorem checkAllNames_declared (d : Descriptor) : checkAllNames d.declared = .ok () :=
  (checkAllNames_eq_ok_iff d.declared).mpr (wellNamed_declared d)

theorem fillType_told {type : String} {told : Option String}
    (h : ∀ text, told = some text → text ≠ "Any") :
    fillType (fillType type told) told = fillType type told := by
  rw [fillType_fillType type told h, Option.or_self]

theorem ne_any_of_resolved? {documented : Option String} {type : String}
    (h : resolved? limits scope documented = some type) : type ≠ "Any" := by
  obtain ⟨_, -, -, hany⟩ := (resolved?_eq_some_iff limits scope documented type).mp h
  exact hany

section Again

variable {docs : List InputDoc} {inputs merged again : List InputParam}
  {warnings more : List Warning}

/-- Merged in once more, documentation has at most the flag left to tell. -/
theorem enrich_withFlag (docs : List InputDoc) (p : InputParam) (flag : Option Bool) :
    enrich limits scope docs { enrich limits scope docs p with optional := flag } =
      { enrich limits scope docs p with
        optional := flag.or (firstSaid docs p.name fun doc => admittedFlag p doc.optional) } := by
  have htype : fillType (enrich limits scope docs p).type
      (firstSaid docs p.name fun doc => resolved? limits scope doc.type) =
        (enrich limits scope docs p).type := by
    refine fillType_told fun text htext => ?_
    obtain ⟨_, -, -, hanswer⟩ := exists_of_firstSaid htext
    exact ne_any_of_resolved? hanswer
  have hdescription : (enrich limits scope docs p).description.or
      (firstSaid docs p.name InputDoc.description) = (enrich limits scope docs p).description := by
    change (p.description.or _).or _ = p.description.or _
    rw [Option.or_assoc, Option.or_self]
  change { enrich limits scope docs p with
    type := fillType (enrich limits scope docs p).type
      (firstSaid docs p.name fun doc => resolved? limits scope doc.type)
    description := (enrich limits scope docs p).description.or
      (firstSaid docs p.name InputDoc.description)
    optional := flag.or (firstSaid docs p.name fun doc => admittedFlag p doc.optional) } = _
  rw [htype, hdescription]

theorem enrich_enrich (docs : List InputDoc) (p : InputParam) :
    enrich limits scope docs (enrich limits scope docs p) = enrich limits scope docs p := by
  have hflag : (enrich limits scope docs p).optional.or
      (firstSaid docs p.name fun doc => admittedFlag p doc.optional) =
        (enrich limits scope docs p).optional := by
    change (p.optional.or _).or _ = p.optional.or _
    rw [Option.or_assoc, Option.or_self]
  refine (enrich_withFlag docs p (enrich limits scope docs p).optional).trans ?_
  rw [hflag]

/-- A flag that documentation has given is there and cannot be given again. -/
theorem not_grants_enrich (docs : List InputDoc) (p : InputParam) :
    ¬ Grants docs (enrich limits scope docs p) := by
  intro hgrants
  obtain ⟨-, hdefault, hflag, hfirst⟩ := grants_iff.mp hgrants
  have hown : p.optional = none := (Option.or_eq_none_iff.mp hflag).1
  have hgiven : none = some true :=
    (hflag.symm.trans (optional_enrich limits scope hdefault hown)).trans hfirst
  cases hgiven

theorem grants_withdrawn {p : InputParam} (h : Grants docs p) :
    Grants docs { enrich limits scope docs p with optional := none } := by
  obtain ⟨hpositional, hdefault, -, hfirst⟩ := grants_iff.mp h
  exact grants_iff.mpr ⟨hpositional, hdefault, rfl, hfirst⟩

/-- What stands in the way of a flag after a merge stood in its way before. -/
theorem Settles.isBlocked (h : Settles limits scope docs inputs merged warnings) {i : Nat}
    (hblocked : IsBlocked docs inputs i) : IsBlocked docs merged i := by
  obtain ⟨j, q, hij, hq, hpositional, hrequired, hgrants⟩ := hblocked
  refine ⟨j, enrich limits scope docs q, hij,
    h.kept j q hq fun hwithdrawn => hgrants hwithdrawn.1, hpositional, ?_, not_grants_enrich docs q⟩
  exact (isRequired_enrich limits scope hpositional).mpr ⟨hrequired, hgrants⟩

/-- Merging the same documentation in once more changes nothing. -/
theorem Settles.eq_of_settles (h : Settles limits scope docs inputs merged warnings)
    (hagain : Settles limits scope docs merged again more) : again = merged := by
  refine List.ext_getElem? fun i => ?_
  cases hp : inputs[i]? with
  | none =>
    have hmerged : merged.length ≤ i := by
      rw [h.length]
      exact List.getElem?_eq_none_iff.mp hp
    have hlength : again.length ≤ i := by rwa [hagain.length]
    rw [List.getElem?_eq_none hmerged, List.getElem?_eq_none hlength]
  | some p =>
    by_cases hwithdrawn : Grants docs p ∧ IsBlocked docs inputs i
    · obtain ⟨hgrants, hblocked⟩ := hwithdrawn
      have hq := h.withdrawn i p hp hgrants hblocked
      rw [hq, hagain.withdrawn i _ hq (grants_withdrawn hgrants) (h.isBlocked hblocked),
        enrich_withFlag]
    · have hq := h.kept i p hp hwithdrawn
      rw [hq, hagain.kept i _ hq fun hnew => not_grants_enrich docs p hnew.1, enrich_enrich]

theorem enrichOutput_enrichOutput (doc : Option OutputDoc) (p : OutputParam) :
    enrichOutput limits scope doc (enrichOutput limits scope doc p) =
      enrichOutput limits scope doc p := by
  have htype : fillType (enrichOutput limits scope doc p).type
      (resolved? limits scope (doc.bind OutputDoc.type)) =
        (enrichOutput limits scope doc p).type := fillType_told fun _ => ne_any_of_resolved?
  have hdescription : (enrichOutput limits scope doc p).description.or
      (doc.bind OutputDoc.description) = (enrichOutput limits scope doc p).description := by
    change (p.description.or _).or _ = p.description.or _
    rw [Option.or_assoc, Option.or_self]
  change { enrichOutput limits scope doc p with
    type := fillType (enrichOutput limits scope doc p).type
      (resolved? limits scope (doc.bind OutputDoc.type))
    description := (enrichOutput limits scope doc p).description.or
      (doc.bind OutputDoc.description) } = _
  rw [htype, hdescription]

end Again

section Fixpoint

variable {d : Declaration} {inputs : List InputParam} {outputs : List OutputParam} {a : Assembled}
  {r : Registry}

theorem Assembles.canonical_input (hr : r.Reached) (h : Assembles limits r.scope d inputs outputs a)
    {q : InputParam} (hq : q ∈ a.descriptor.inputs) :
    Reference.canonical limits r.scope q.type = .ok q.type := by
  obtain ⟨i, hi⟩ := List.getElem?_of_mem hq
  obtain ⟨input, p, -, hdeclares, hmerge⟩ := h.exists_enrich hi
  have hcanonical :=
    isCanonical_enrich hr (isCanonical_of_reference hr hdeclares.type) (inputDocs d.docs)
  rcases hmerge with rfl | ⟨-, rfl⟩
  · exact hcanonical.spelled
  · exact hcanonical.spelled

theorem Assembles.canonical_output (hr : r.Reached) (h : Assembles limits r.scope d inputs outputs a)
    {q : OutputParam} (hq : q ∈ a.descriptor.outputs) :
    Reference.canonical limits r.scope q.type = .ok q.type := by
  obtain ⟨i, hi⟩ := List.getElem?_of_mem hq
  obtain ⟨output, p, -, hdeclares, rfl⟩ := h.exists_enrichOutput hi
  exact (isCanonical_enrichOutput hr (isCanonical_of_reference hr hdeclares.type) _).spelled

/-- Merging documentation into what came out of an assembly leaves it as it is. -/
theorem Assembles.exists_mergeDocs_again (h : Assembles limits scope d inputs outputs a) :
    ∃ warnings, (mergeDocs limits scope a.descriptor.inputs a.descriptor.outputs
        a.descriptor.docs).outcome = .ok (a.descriptor.inputs, a.descriptor.outputs, warnings) := by
  obtain ⟨_, _, -, hsettles, -⟩ := h.merged
  rw [h.docs]
  obtain ⟨again, againOutputs, _, _, hmerged, hagain, -, hplaces⟩ :=
    exists_settles_mergeDocs limits scope a.descriptor.sound.inputs_nodup a.descriptor.outputs d.docs
  have hinputs : again = a.descriptor.inputs := hsettles.eq_of_settles hagain
  have houtputs : againOutputs = a.descriptor.outputs := by
    refine List.ext_getElem? fun i => ?_
    rw [hplaces, h.mergedOutputs, Option.map_map]
    exact congrArg (fun f => (outputs[i]?).map f) (funext (enrichOutput_enrichOutput _))
  rw [hinputs, houtputs] at hmerged
  exact ⟨_, hmerged⟩

end Fixpoint

/-- In the scope of a registry that some run leads to, what an assembly gives, declared as it stands,
assembles to the same descriptor again. -/
theorem assemble_declared (r : Registry) (hr : r.Reached) (limits : Reference.Limits)
    (d : Declaration) (a : Assembled) (h : (assemble limits r.scope d).outcome = .ok a) :
    ∃ a', (assemble limits r.scope a.descriptor.declared).outcome = .ok a' ∧
      a'.descriptor = a.descriptor := by
  obtain ⟨inputs, outputs, hparts⟩ := exists_assembles h
  obtain ⟨warnings, hmerged⟩ := hparts.exists_mergeDocs_again
  have hsound := a.descriptor.sound
  have hinputs := inputParams_declared (fun p hp => hparts.canonical_input hr hp)
    hsound.inputs_named hsound.inputs_consistent 0
  have houtputs := outputParams_declared (fun p hp => hparts.canonical_output hr hp)
    hsound.outputs_named 0 a.descriptor.declared.outputs.length
  obtain ⟨_, hmade⟩ :=
    Descriptor.exists_make hsound a.descriptor.docs a.descriptor.endpoints
  exact ⟨⟨a.descriptor, warnings⟩, (assemble_eq_ok_iff limits r.scope _ _).mpr
    ⟨checkAllNames_declared a.descriptor, _, _, _, _, hinputs, houtputs, hmerged, hmade⟩, rfl⟩

/-- A cabinet whose documentation makes the height optional but not the width, gives a type twice, and
would ask for what has a default. -/
def cabinet : Declaration where
  name := "cabinet"
  inputs := [{ name := "width", positional := true, type := .reference "int | None" },
    { name := "depth", positional := true },
    { name := "height", positional := true, middleware := ["clamp"] }, { name := "cells" },
    { name := "finish", default := some (.value .null), description := some "Paint." }]
  outputs := [{}, { type := .type (.list (.named "db.Cell")) }]
  docs := some {
    inputs := [{ name := "width", optional := some true }, { name := "cells", type := some "Any" },
      { name := "cells", type := some "list[db.Cell]", optional := some false },
      { name := "cells", type := some "int" }, { name := "height", optional := some true },
      { name := "finish", optional := some false, description := some "Varnish." }]
    outputs := [{ name := some "doors", type := some "int" }] }
  endpoints := [("rpc", { middleware := ["auth"] })]

theorem assemble_declared_cabinet :
    Reference.rows.Reached ∧ ∃ a a', (assemble {} Reference.rows.scope cabinet).outcome = .ok a ∧
      a.descriptor.inputs.map InputParam.type =
        ["Union[int, None]", "Any", "Any", "db.Row", "Any"] ∧
      a.descriptor.inputs.map InputParam.optional = [none, none, some true, some false, none] ∧
      (assemble {} Reference.rows.scope a.descriptor.declared).outcome = .ok a' ∧
      a'.descriptor = a.descriptor := by
  have hr : Reference.rows.Reached := ⟨_, _, rfl⟩
  have hrun : (assemble {} Reference.rows.scope cabinet).outcome.toOption.map
      (fun a => (a.descriptor.inputs.map InputParam.type,
        a.descriptor.inputs.map InputParam.optional)) =
        some (["Union[int, None]", "Any", "Any", "db.Row", "Any"],
          [none, none, some true, some false, none]) := by
    decide +kernel
  obtain ⟨a, h, hlists⟩ := Option.map_eq_some_iff.mp hrun
  obtain ⟨htypes, hflags⟩ := Prod.mk.inj hlists
  have h := (toOption_eq_some_iff _ a).mp h
  obtain ⟨a', h', hsame⟩ := assemble_declared Reference.rows hr {} cabinet a h
  exact ⟨hr, a, a', h, htypes, hflags, h', hsame⟩

end Assembly
end Callable
