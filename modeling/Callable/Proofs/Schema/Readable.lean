import Callable.Proofs.Descriptor.Rules
import Callable.Proofs.Schema.Meaning
import Callable.Proofs.Wire.Record

/-!
What the schema admits can be read. Each schema has a reader that reads every value it admits: of a
closed object every member is known and fits its field, and the fields that must be there are. What is
left to fail for a valid document are the rules of descriptors, which no schema states.
-/
namespace Callable.Schema

open Json (Draft)
open Validation
open Wire (Origin Result Holds)

/-- The reader reads every value that the schema admits. -/
def Readable {α : Type} (schema : Schema) (item : Draft → Result α) : Prop :=
  ∀ j : Json, j.Distinct → schema.admits j = true → ∃ a, item (.ofJson j) = .ok a

theorem readable_string : Readable string Wire.string := by
  intro j _ hadmits
  cases j with
  | str s => exact ⟨s, rfl⟩
  | _ => cases hadmits

theorem readable_nonempty (description : String) : Readable (nonempty description) Wire.string := by
  intro j hdistinct hadmits
  exact readable_string j hdistinct (Bool.and_eq_true_iff.mp hadmits).1

theorem readable_boolean : Readable boolean Wire.boolean := by
  intro j _ hadmits
  cases j with
  | bool b => exact ⟨b, rfl⟩
  | _ => cases hadmits

theorem readable_anything (description : String) : Readable (anything description) Wire.present :=
  fun j _ _ => ⟨some j.tidy, Wire.present_ofJson j⟩

section Collections

variable {α : Type} {schema : Schema} {item : Draft → Result α}

theorem Readable.ref (h : Readable schema item) (name : String) :
    Readable (.ref name schema) item :=
  h

theorem Readable.nullable (h : Readable schema item) : Readable schema (Wire.nullable item) := by
  intro j hdistinct hadmits
  obtain ⟨a, ha⟩ := h j hdistinct hadmits
  cases j with
  | null => exact ⟨none, rfl⟩
  | _ =>
    refine ⟨some a, ?_⟩
    change (item _).map some = _
    rw [ha]
    rfl

theorem Readable.either_null (h : Readable schema item) :
    Readable (either null schema) (Wire.nullable item) := by
  intro j hdistinct hadmits
  cases j with
  | null => exact ⟨none, rfl⟩
  | _ => exact h.nullable _ hdistinct ((Bool.false_bne _).symm.trans hadmits)

theorem Readable.list (h : Readable schema item) : Readable (array schema) (Wire.list item) := by
  intro j hdistinct hadmits
  cases j with
  | arr values =>
    rw [Json.Distinct, Json.distinctItems_iff] at hdistinct
    rw [admits, List.all_eq_true] at hadmits
    obtain ⟨as, has⟩ := Wire.exists_forall₂ fun value hvalue =>
      h value (hdistinct value hvalue) (hadmits value hvalue)
    exact ⟨as, Wire.list_ofJson has⟩
  | _ => cases hadmits

theorem Readable.table (h : Readable schema item) : Readable (map schema) (Wire.table item) := by
  intro j hdistinct hadmits
  cases j with
  | obj members =>
    obtain ⟨-, hvalues⟩ := (Json.distinct_obj_iff members).mp hdistinct
    rw [admits, List.all_eq_true] at hadmits
    have hentry : ∀ member ∈ members, ∃ entry, Wire.ReadsEntry item member entry := by
      intro member hmember
      obtain ⟨a, ha⟩ := h member.2 (hvalues member hmember) (hadmits member hmember)
      exact ⟨(member.1, a), rfl, ha⟩
    obtain ⟨entries, hentries⟩ := Wire.exists_forall₂ hentry
    exact ⟨_, Wire.table_ofJson hentries⟩
  | _ => cases hadmits

end Collections

/-- What an object holds under a name, if anything, is admitted by the schema. -/
def Fits (members : List (String × Json)) (name : String) (schema : Schema) : Prop :=
  ∀ value, members.lookup name = some value → value.Distinct ∧ schema.admits value = true

theorem exists_members {properties : List (String × Schema)} {required : List String} {j : Json}
    (hdistinct : j.Distinct) (h : (closed properties required).admits j = true) :
    ∃ members, j = .obj members ∧ (members.map Prod.fst).Nodup ∧
      (∀ name ∈ required, ∃ value, members.lookup name = some value) ∧
      (∀ member ∈ members, member.1 ∈ properties.map Prod.fst) ∧
      ∀ name schema, properties.lookup name = some schema → Fits members name schema := by
  cases j with
  | obj members =>
    obtain ⟨hnodup, hvalues⟩ := (Json.distinct_obj_iff members).mp hdistinct
    rw [admits, Bool.and_eq_true, List.all_eq_true, List.all_eq_true] at h
    obtain ⟨hrequired, hmembers⟩ := h
    refine ⟨members, rfl, hnodup, fun name hname => Option.isSome_iff_exists.mp (hrequired name hname),
      fun member hmember => ?_, fun name schema hschema value hvalue => ?_⟩
    · cases hfound : properties.lookup member.1 with
      | some schema => exact List.mem_map_of_mem (mem_of_lookup hfound)
      | none =>
        have hadmits := hmembers member hmember
        rw [admitsMember_of_unknown hfound] at hadmits
        cases hadmits
    · have hmember := mem_of_lookup hvalue
      have hadmits := hmembers _ hmember
      rw [admitsMember_of_lookup hschema] at hadmits
      exact ⟨hvalues _ hmember, hadmits⟩
  | _ => cases h

section Fields

variable {α : Type} {schema : Schema} {item : Draft → Result α} {members : List (String × Json)}
  {name : String}

theorem Readable.exists_need (h : Readable schema item) (hfits : Fits members name schema)
    (hthere : ∃ value, members.lookup name = some value) (left : Option α) :
    ∃ a, Holds members name item left a := by
  obtain ⟨value, hvalue⟩ := hthere
  obtain ⟨hdistinct, hadmits⟩ := hfits value hvalue
  obtain ⟨a, ha⟩ := h value hdistinct hadmits
  exact ⟨a, Holds.of_lookup hvalue ha⟩

theorem Readable.exists_getD (h : Readable schema item) (hfits : Fits members name schema)
    (absent : α) : ∃ a, Holds members name item (some absent) a := by
  cases hfound : members.lookup name with
  | none => exact ⟨absent, Holds.of_absent hfound⟩
  | some value => exact h.exists_need hfits ⟨value, hfound⟩ (some absent)

end Fields

section Records

variable (origin : Origin)

theorem readable_endpoint : Readable endpoint (Wire.endpoint origin) := by
  intro j hdistinct hadmits
  obtain ⟨members, rfl, hnodup, -, -, hfits⟩ := exists_members hdistinct hadmits
  obtain ⟨middleware, hmiddleware⟩ :=
    (readable_nonempty _).list.exists_getD (hfits "middleware" _ rfl) []
  exact ⟨⟨middleware⟩, Wire.endpoint_ofJson hnodup hmiddleware⟩

theorem readable_endpoints : Readable (ref "endpoints" endpoints) (Wire.endpoints origin) :=
  ((readable_endpoint origin).ref "endpoint").table.ref "endpoints"

theorem readable_typeRef : Readable (ref "type_ref" typeRef) Wire.string :=
  (readable_nonempty _).ref "type_ref"

theorem readable_inputParam : Readable inputParam (Wire.inputParam origin) := by
  intro j hdistinct hadmits
  obtain ⟨members, rfl, hnodup, hrequired, -, hfits⟩ := exists_members hdistinct hadmits
  simp only [List.forall_mem_cons] at hrequired
  obtain ⟨hasName, hasType, hasPositional, -⟩ := hrequired
  obtain ⟨name, hname⟩ := (readable_nonempty _).exists_need (hfits "name" _ rfl) hasName none
  obtain ⟨type, htype⟩ := readable_typeRef.exists_need (hfits "type" _ rfl) hasType none
  obtain ⟨positional, hpositional⟩ :=
    readable_boolean.exists_need (hfits "positional" _ rfl) hasPositional none
  obtain ⟨default, hdefault⟩ := (readable_anything _).exists_getD (hfits "default" _ rfl) none
  obtain ⟨optional, hoptional⟩ := readable_boolean.nullable.exists_getD (hfits "optional" _ rfl) none
  obtain ⟨description, hdescription⟩ :=
    readable_string.nullable.exists_getD (hfits "description" _ rfl) none
  obtain ⟨middleware, hmiddleware⟩ :=
    (readable_nonempty _).list.exists_getD (hfits "middleware" _ rfl) []
  obtain ⟨endpoints, hendpoints⟩ :=
    (readable_endpoints origin).exists_getD (hfits "endpoints" _ rfl) []
  exact ⟨⟨name, type, positional, default, optional, description, middleware, endpoints⟩,
    Wire.inputParam_ofJson hnodup hname htype hpositional hdefault hoptional hdescription
      hmiddleware hendpoints⟩

theorem readable_outputParam : Readable outputParam (Wire.outputParam origin) := by
  intro j hdistinct hadmits
  obtain ⟨members, rfl, hnodup, hrequired, -, hfits⟩ := exists_members hdistinct hadmits
  simp only [List.forall_mem_cons] at hrequired
  obtain ⟨hasName, hasType, -⟩ := hrequired
  obtain ⟨name, hname⟩ := (readable_nonempty _).exists_need (hfits "name" _ rfl) hasName none
  obtain ⟨type, htype⟩ := readable_typeRef.exists_need (hfits "type" _ rfl) hasType none
  obtain ⟨description, hdescription⟩ :=
    readable_string.nullable.exists_getD (hfits "description" _ rfl) none
  obtain ⟨endpoints, hendpoints⟩ :=
    (readable_endpoints origin).exists_getD (hfits "endpoints" _ rfl) []
  exact ⟨⟨name, type, description, endpoints⟩,
    Wire.outputParam_ofJson hnodup hname htype hdescription hendpoints⟩

theorem readable_inputDoc : Readable inputDoc (Wire.inputDoc origin) := by
  intro j hdistinct hadmits
  obtain ⟨members, rfl, hnodup, hrequired, -, hfits⟩ := exists_members hdistinct hadmits
  simp only [List.forall_mem_cons] at hrequired
  obtain ⟨hasName, -⟩ := hrequired
  obtain ⟨name, hname⟩ := (readable_nonempty _).exists_need (hfits "name" _ rfl) hasName none
  obtain ⟨description, hdescription⟩ :=
    readable_string.nullable.exists_getD (hfits "description" _ rfl) none
  obtain ⟨type, htype⟩ := readable_typeRef.nullable.exists_getD (hfits "type" _ rfl) none
  obtain ⟨default, hdefault⟩ := (readable_anything _).exists_getD (hfits "default" _ rfl) none
  obtain ⟨optional, hoptional⟩ := readable_boolean.nullable.exists_getD (hfits "optional" _ rfl) none
  obtain ⟨positional, hpositional⟩ :=
    readable_boolean.nullable.exists_getD (hfits "positional" _ rfl) none
  exact ⟨⟨name, description, type, default, optional, positional⟩,
    Wire.inputDoc_ofJson hnodup hname hdescription htype hdefault hoptional hpositional⟩

theorem readable_outputDoc : Readable outputDoc (Wire.outputDoc origin) := by
  intro j hdistinct hadmits
  obtain ⟨members, rfl, hnodup, -, -, hfits⟩ := exists_members hdistinct hadmits
  obtain ⟨name, hname⟩ := readable_string.nullable.exists_getD (hfits "name" _ rfl) none
  obtain ⟨type, htype⟩ := readable_typeRef.nullable.exists_getD (hfits "type" _ rfl) none
  obtain ⟨description, hdescription⟩ :=
    readable_string.nullable.exists_getD (hfits "description" _ rfl) none
  exact ⟨⟨name, type, description⟩, Wire.outputDoc_ofJson hnodup hname htype hdescription⟩

theorem readable_docs : Readable docs (Wire.docs origin) := by
  intro j hdistinct hadmits
  obtain ⟨members, rfl, hnodup, -, -, hfits⟩ := exists_members hdistinct hadmits
  obtain ⟨text, htext⟩ := readable_string.nullable.exists_getD (hfits "original" _ rfl) none
  obtain ⟨inputs, hinputs⟩ :=
    (readable_inputDoc origin).list.exists_getD (hfits "input_params" _ rfl) []
  obtain ⟨outputs, houtputs⟩ :=
    (readable_outputDoc origin).list.exists_getD (hfits "output_params" _ rfl) []
  obtain ⟨summary, hsummary⟩ := readable_string.nullable.exists_getD (hfits "summary" _ rfl) none
  obtain ⟨exceptions, hexceptions⟩ :=
    readable_string.table.exists_getD (hfits "exceptions" _ rfl) []
  exact ⟨⟨text, inputs, outputs, summary, exceptions⟩,
    Wire.docs_ofJson hnodup htext hinputs houtputs hsummary hexceptions⟩

/-- The parts of a descriptor as the members of an object hold them, the endpoints being the only ones
that may be left out. -/
structure HoldsParts (members : List (String × Json)) (name : String) (inputs : List InputParam)
    (outputs : List OutputParam) (docs : Option Docs) (endpoints : Endpoints) : Prop where
  name : Holds members "name" Wire.string none name
  inputs : Holds members "input_params" (Wire.list (Wire.inputParam origin)) none inputs
  outputs : Holds members "output_params" (Wire.list (Wire.outputParam origin)) none outputs
  docs : Holds members "docstring" (Wire.nullable (Wire.docs origin)) none docs
  endpoints : Holds members "endpoints" (Wire.endpoints origin) (some []) endpoints

/-- A document that the schema admits holds all parts of a descriptor and nothing else, and is read by
making the descriptor of these parts. -/
theorem exists_parts {j : Json} (hdistinct : j.Distinct) (hadmits : descriptor.admits j = true) :
    ∃ members name inputs outputs docs endpoints, j = .obj members ∧
      HoldsParts origin members name inputs outputs docs endpoints ∧
      Wire.descriptor origin (.ofJson j) =
        (Descriptor.make name inputs outputs docs endpoints).mapError .invalid := by
  obtain ⟨members, rfl, hnodup, hrequired, hknown, hfits⟩ := exists_members hdistinct hadmits
  simp only [List.forall_mem_cons] at hrequired
  obtain ⟨hasName, hasInputs, hasOutputs, hasDocs, -⟩ := hrequired
  obtain ⟨name, hname⟩ := (readable_nonempty _).exists_need (hfits "name" _ rfl) hasName none
  obtain ⟨inputs, hinputs⟩ := ((readable_inputParam origin).ref "input_param").list.exists_need
    (hfits "input_params" _ rfl) hasInputs none
  obtain ⟨outputs, houtputs⟩ := ((readable_outputParam origin).ref "output_param").list.exists_need
    (hfits "output_params" _ rfl) hasOutputs none
  obtain ⟨docs, hdocs⟩ := ((readable_docs origin).ref "docstring").either_null.exists_need
    (hfits "docstring" _ rfl) hasDocs none
  obtain ⟨endpoints, hendpoints⟩ :=
    (readable_endpoints origin).exists_getD (hfits "endpoints" _ rfl) []
  refine ⟨members, name, inputs, outputs, docs, endpoints, rfl,
    ⟨hname, hinputs, houtputs, hdocs, hendpoints⟩, ?_⟩
  exact Wire.descriptor_ofJson hnodup hknown hname (hinputs.relax _) (houtputs.relax _)
    (hdocs.relax _) hendpoints

end Records

/-- A valid document is read as the descriptor of its parts, or these break the rule of descriptors that
the error names. It never fails to be read for a field that is missing, unknown or of a wrong type. -/
theorem descriptor_of_accepts {j : Json} (hdistinct : j.Distinct) (h : Accepts document j)
    (origin : Origin) :
    ∃ members name inputs outputs docs endpoints, j = .obj members ∧
      HoldsParts origin members name inputs outputs docs endpoints ∧
      ((∃ d, Wire.descriptor origin (.ofJson j) = .ok d ∧ d.name = name ∧ d.inputs = inputs ∧
          d.outputs = outputs ∧ d.docs = docs ∧ d.endpoints = endpoints) ∨
        ∃ e, Wire.descriptor origin (.ofJson j) = .error (.invalid e) ∧
          Breaks name inputs outputs e) := by
  have hadmits : descriptor.admits j = true := (accepts_document_iff j).mp h
  obtain ⟨members, name, inputs, outputs, docs, endpoints, hobj, hparts, hread⟩ :=
    exists_parts origin hdistinct hadmits
  refine ⟨members, name, inputs, outputs, docs, endpoints, hobj, hparts, ?_⟩
  cases hmake : Descriptor.make name inputs outputs docs endpoints with
  | ok d =>
    rw [hmake] at hread
    exact Or.inl ⟨d, hread, Assembly.make_eq_ok hmake⟩
  | error e =>
    rw [hmake] at hread
    exact Or.inr ⟨e, hread, Descriptor.breaks_of_make hmake⟩

/-- A valid document with two parameters of one name. -/
def homonyms : Json :=
  let param := Json.obj [("name", .str "x"), ("positional", .bool true), ("type", .str "int")]
  .obj [("docstring", .null), ("input_params", .arr [param, param]), ("name", .str "f"),
    ("output_params", .arr [])]

theorem descriptor_of_accepts_homonyms : homonyms.Distinct ∧ Accepts document homonyms ∧
    ∃ members name inputs outputs docs endpoints, homonyms = .obj members ∧
      HoldsParts .value members name inputs outputs docs endpoints ∧
      Wire.descriptor .value (.ofJson homonyms) = .error (.invalid (.duplicateInput "x")) ∧
      Breaks name inputs outputs (.duplicateInput "x") := by
  have htidy : homonyms.tidy = homonyms := by decide
  have hdistinct : homonyms.Distinct := htidy ▸ Json.distinct_tidy homonyms
  have haccepts : Accepts document homonyms := (accepts_document_iff homonyms).mpr (by decide)
  have hfails : Wire.descriptor .value (.ofJson homonyms) =
    .error (.invalid (.duplicateInput "x")) := by rfl
  obtain ⟨members, name, inputs, outputs, docs, endpoints, hobj, hparts, hread⟩ :=
    descriptor_of_accepts hdistinct haccepts .value
  refine ⟨hdistinct, haccepts, members, name, inputs, outputs, docs, endpoints, hobj, hparts,
    hfails, ?_⟩
  rcases hread with ⟨d, hd, -⟩ | ⟨e, he, hbreaks⟩
  · cases hfails.symm.trans hd
  · cases hfails.symm.trans he
    exact hbreaks

end Callable.Schema
