import Callable.Proofs.Schema.Meaning
import Callable.Proofs.Wire.Written

/-!
What is written conforms to the published schema. Record by record, the schema admits what is written if
some texts are not empty: the names, which a descriptor has anyhow, the references to types, the handles
of middleware and the names that the documentation speaks of. Nothing else can go wrong, whichever fields
are there.
-/
namespace Callable

/-- The handles of the middleware of endpoints. -/
def handlesOf (endpoints : Endpoints) : List String :=
  endpoints.flatMap fun entry => entry.2.middleware

def InputParam.handles (p : InputParam) : List String := p.middleware ++ handlesOf p.endpoints

def Docs.typeRefs (docs : Docs) : List String :=
  docs.inputs.filterMap InputDoc.type ++ docs.outputs.filterMap OutputDoc.type

namespace Descriptor

/-- The type references of parameters, of results and of the documentation. -/
def typeRefs (d : Descriptor) : List String :=
  d.inputs.map InputParam.type ++ d.outputs.map OutputParam.type ++ d.docs.toList.flatMap Docs.typeRefs

/-- The handles of all middleware, of parameters and of every endpoint. -/
def handles (d : Descriptor) : List String :=
  d.inputs.flatMap InputParam.handles ++ d.outputs.flatMap (fun p => handlesOf p.endpoints) ++
    handlesOf d.endpoints

/-- The names of the parameters that the documentation speaks of. -/
def documentedNames (d : Descriptor) : List String :=
  d.docs.toList.flatMap fun docs => docs.inputs.map InputDoc.name

/-- No reference to a type, no handle and no documented name is empty. -/
@[mk_iff]
structure IsFilled (d : Descriptor) : Prop where
  typeRefs : ∀ reference ∈ d.typeRefs, reference ≠ ""
  handles : ∀ handle ∈ d.handles, handle ≠ ""
  documentedNames : ∀ name ∈ d.documentedNames, name ≠ ""

instance (d : Descriptor) : Decidable d.IsFilled := decidable_of_iff _ (isFilled_iff d).symm

end Descriptor

namespace Schema

open Validation
open Wire (strings ofTable filled mem_filled inhabited? mem_inhabited? ofEndpoint ofInputParam
  ofOutputParam ofInputDoc ofOutputDoc ofDocs ofDescriptor ofEndpoint_eq ofInputParam_eq
  ofOutputParam_eq ofInputDoc_eq ofOutputDoc_eq ofDocs_eq ofDescriptor_eq endpointFields inputFields
  outputFields inputDocFields outputDocFields docsFields descriptorFields)

@[simp] theorem admits_anything (description : String) (value : Json) :
    (anything description).admits value = true :=
  rfl

@[simp] theorem admits_boolean (b : Bool) : boolean.admits (.bool b) = true := rfl

@[simp] theorem admits_string (s : String) : string.admits (.str s) = true := rfl

@[simp] theorem admits_ref (name : String) (target : Schema) (value : Json) :
    (ref name target).admits value = target.admits value :=
  rfl

@[simp] theorem admits_nonempty_iff (description s : String) :
    (nonempty description).admits (.str s) = true ↔ s ≠ "" := by
  change decide ((1 : Int) ≤ s.length) = true ↔ s ≠ ""
  rw [decide_eq_true_iff, ne_eq, ← String.length_eq_zero_iff]
  omega

@[simp] theorem admits_array_iff {α : Type} (write : α → Json) (schema : Schema) (items : List α) :
    (array schema).admits (.arr (items.map write)) = true ↔
      ∀ item ∈ items, schema.admits (write item) = true := by
  rw [admits, List.all_eq_true, List.forall_mem_map]

@[simp] theorem admits_nonempties_iff (description : String) (items : List String) :
    (array (nonempty description)).admits (strings items) = true ↔ ∀ item ∈ items, item ≠ "" := by
  rw [strings, admits_array_iff]
  exact forall₂_congr fun item _ => admits_nonempty_iff description item

@[simp] theorem admits_ofTable_iff {α : Type} (write : α → Json) (values : Schema)
    (table : Table α) : (map values).admits (ofTable write table) = true ↔
      ∀ entry ∈ table, values.admits (write entry.2) = true := by
  rw [ofTable, admits, List.all_eq_true, List.forall_mem_map]

/-- The value of a field, if there is one, is admitted as a member. -/
def AdmitsField (properties : List (String × Schema)) (field : String × Option Json) : Prop :=
  ∀ value ∈ field.2, admitsMember properties field.1 value = true

section Fields

variable {properties : List (String × Schema)} {name : String}

@[simp] theorem admitsField_some (value : Json) :
    AdmitsField properties (name, some value) ↔ admitsMember properties name value = true := by
  refine ⟨fun h => h value rfl, ?_⟩
  rintro h _ ⟨⟩
  exact h

@[simp] theorem admitsField_map {α : Type} (write : α → Json) (field : Option α) :
    AdmitsField properties (name, field.map write) ↔
      ∀ a ∈ field, admitsMember properties name (write a) = true := by
  cases field with
  | none => exact iff_of_true (fun value hvalue => by cases hvalue) fun a ha => by cases ha
  | some a =>
    rw [Option.map_some, admitsField_some]
    exact ⟨fun h _ hb => Option.some.inj hb ▸ h, fun h => h a rfl⟩

@[simp] theorem admitsField_default (field : Option Json) :
    AdmitsField properties ("default", field) ↔
      ∀ value ∈ field, admitsMember properties "default" value = true :=
  Iff.rfl

@[simp high] theorem admitsField_inhabited? {α : Type} (write : List α → Json) (items : List α) :
    AdmitsField properties (name, (inhabited? items).map write) ↔
      items = [] ∨ admitsMember properties name (write items) = true := by
  rw [admitsField_map]
  cases items with
  | nil => exact iff_of_true (fun found hfound => by cases hfound) (Or.inl rfl)
  | cons first rest =>
    rw [or_iff_right (List.cons_ne_nil first rest)]
    exact ⟨fun h => h _ rfl, fun h found hfound => mem_inhabited? hfound ▸ h⟩

end Fields

/-- An object whose required fields are there is admitted if the value of each field is. -/
theorem admits_filled_iff {properties : List (String × Schema)} {required : List String}
    {fields : List (String × Option Json)}
    (hrequired : ∀ name ∈ required, ∃ value, (name, some value) ∈ fields) :
    (closed properties required).admits (.obj (filled fields)) = true ↔
      ∀ field ∈ fields, AdmitsField properties field := by
  rw [admits, Bool.and_eq_true, List.all_eq_true, List.all_eq_true]
  constructor
  · rintro ⟨-, hmembers⟩ field hfield value hvalue
    have hmember : (field.1, value) ∈ filled fields := by
      rw [mem_filled, ← hvalue]
      exact hfield
    exact hmembers _ hmember
  · refine fun h => ⟨fun name hname => ?_, fun member hmember => h _ (mem_filled.mp hmember) _ rfl⟩
    obtain ⟨value, hfield⟩ := hrequired name hname
    rw [List.lookup_isSome_iff]
    exact ⟨(name, value), mem_filled.mpr hfield, beq_self_eq_true name⟩

/-- Nothing is asked of a list that is left out. -/
theorem nil_or_forall_iff {α : Type} {P : α → Prop} (items : List α) :
    (items = [] ∨ ∀ a ∈ items, P a) ↔ ∀ a ∈ items, P a :=
  or_iff_right_of_imp fun hempty => hempty ▸ List.forall_mem_nil _

theorem nil_or_handles_iff (t : Endpoints) :
    (t = [] ∨ ∀ handle ∈ handlesOf t, handle ≠ "") ↔ ∀ handle ∈ handlesOf t, handle ≠ "" :=
  or_iff_right_of_imp fun hempty => hempty ▸ List.forall_mem_nil _

theorem admits_ofEndpoint_iff (e : Endpoint) :
    endpoint.admits (ofEndpoint e) = true ↔ ∀ handle ∈ e.middleware, handle ≠ "" := by
  rw [ofEndpoint_eq, endpoint, admits_filled_iff (List.forall_mem_nil _)]
  simp [endpointFields, admitsMember, nil_or_forall_iff]

@[simp] theorem admits_endpoints_iff (t : Endpoints) :
    endpoints.admits (ofTable ofEndpoint t) = true ↔ ∀ handle ∈ handlesOf t, handle ≠ "" := by
  rw [endpoints, admits_ofTable_iff, handlesOf, List.forall_mem_flatMap]
  exact forall₂_congr fun entry _ => admits_ofEndpoint_iff entry.2

@[simp] theorem admits_ofInputParam_iff (p : InputParam) :
    inputParam.admits (ofInputParam p) = true ↔
      p.name ≠ "" ∧ p.type ≠ "" ∧ ∀ handle ∈ p.handles, handle ≠ "" := by
  rw [ofInputParam_eq, inputParam, admits_filled_iff (by simp [inputFields]), InputParam.handles,
    List.forall_mem_append, ← nil_or_forall_iff p.middleware, ← nil_or_handles_iff p.endpoints]
  simp [inputFields, admitsMember, typeRef]

@[simp] theorem admits_ofOutputParam_iff (p : OutputParam) :
    outputParam.admits (ofOutputParam p) = true ↔
      p.name ≠ "" ∧ p.type ≠ "" ∧ ∀ handle ∈ handlesOf p.endpoints, handle ≠ "" := by
  rw [ofOutputParam_eq, outputParam, admits_filled_iff (by simp [outputFields]),
    ← nil_or_handles_iff p.endpoints]
  simp [outputFields, admitsMember, typeRef]

@[simp] theorem admits_ofInputDoc_iff (doc : InputDoc) :
    inputDoc.admits (ofInputDoc doc) = true ↔ doc.name ≠ "" ∧ ∀ type ∈ doc.type, type ≠ "" := by
  rw [ofInputDoc_eq, inputDoc, admits_filled_iff (by simp [inputDocFields])]
  simp [inputDocFields, admitsMember, typeRef]

@[simp] theorem admits_ofOutputDoc_iff (doc : OutputDoc) :
    outputDoc.admits (ofOutputDoc doc) = true ↔ ∀ type ∈ doc.type, type ≠ "" := by
  rw [ofOutputDoc_eq, outputDoc, admits_filled_iff (List.forall_mem_nil _)]
  simp [outputDocFields, admitsMember, typeRef]

theorem forall_mem_filterMap_iff {α : Type} {P : String → Prop} (f : α → Option String)
    (items : List α) : (∀ s ∈ items.filterMap f, P s) ↔ ∀ a ∈ items, ∀ s ∈ f a, P s := by
  simp only [List.mem_filterMap, Option.mem_def]
  exact ⟨fun h a ha s hs => h s ⟨a, ha, hs⟩, fun h s ⟨a, ha, hs⟩ => h a ha s hs⟩

theorem admits_ofDocs_iff (docs : Docs) :
    Schema.docs.admits (ofDocs docs) = true ↔
      (∀ type ∈ docs.typeRefs, type ≠ "") ∧ ∀ doc ∈ docs.inputs, doc.name ≠ "" := by
  rw [ofDocs_eq, Schema.docs, admits_filled_iff (by simp [docsFields]), Docs.typeRefs,
    List.forall_mem_append, forall_mem_filterMap_iff, forall_mem_filterMap_iff]
  simp only [docsFields, List.forall_mem_cons, admitsField_some, admitsField_map]
  simp [admitsMember, forall_and]
  tauto

/-- Documentation is never `null`, so one of the two forms fits if its parts do. -/
theorem admits_docstring_iff (docs : Option Docs) :
    (either null (ref "docstring" Schema.docs)).admits ((docs.map ofDocs).getD .null) = true ↔
      ∀ d ∈ docs, (∀ type ∈ d.typeRefs, type ≠ "") ∧ ∀ doc ∈ d.inputs, doc.name ≠ "" := by
  cases docs with
  | none => exact iff_of_true rfl fun d hd => by cases hd
  | some d =>
    have hnull : null.admits (ofDocs d) = false := rfl
    rw [Option.map_some, Option.getD_some, admits, admits_ref, hnull, Bool.false_bne,
      admits_ofDocs_iff]
    exact ⟨fun h _ hd => Option.some.inj hd ▸ h, fun h => h d rfl⟩

/-- A descriptor is admitted part by part. -/
theorem admits_ofDescriptor_iff (d : Descriptor) :
    descriptor.admits (ofDescriptor d) = true ↔ d.name ≠ "" ∧
      (∀ p ∈ d.inputs, p.name ≠ "" ∧ p.type ≠ "" ∧ ∀ handle ∈ p.handles, handle ≠ "") ∧
      (∀ p ∈ d.outputs, p.name ≠ "" ∧ p.type ≠ "" ∧
        ∀ handle ∈ handlesOf p.endpoints, handle ≠ "") ∧
      (∀ docs ∈ d.docs, (∀ type ∈ docs.typeRefs, type ≠ "") ∧
        ∀ doc ∈ docs.inputs, doc.name ≠ "") ∧
      ∀ handle ∈ handlesOf d.endpoints, handle ≠ "" := by
  rw [ofDescriptor_eq, descriptor, admits_filled_iff (by simp [descriptorFields]),
    ← nil_or_handles_iff d.endpoints]
  simp [descriptorFields, admitsMember, admits_docstring_iff]

theorem ne_empty_of_named {name : String} (h : Text.isBlankString name = false) : name ≠ "" := by
  rintro rfl
  cases h

/-- The names that the schema asks for beside the filled texts are those of a sound descriptor. -/
theorem admits_ofDescriptor_iff_isFilled (d : Descriptor) :
    descriptor.admits (ofDescriptor d) = true ↔ d.IsFilled := by
  rw [admits_ofDescriptor_iff]
  constructor
  · rintro ⟨-, hinputs, houtputs, hdocs, hendpoints⟩
    refine ⟨?_, ?_, ?_⟩
    · simp only [Descriptor.typeRefs, List.forall_mem_append, List.forall_mem_map,
        List.forall_mem_flatMap, Option.mem_toList]
      exact ⟨⟨fun p hp => (hinputs p hp).2.1, fun p hp => (houtputs p hp).2.1⟩,
        fun docs hd => (hdocs docs hd).1⟩
    · simp only [Descriptor.handles, List.forall_mem_append, List.forall_mem_flatMap]
      exact ⟨⟨fun p hp => (hinputs p hp).2.2, fun p hp => (houtputs p hp).2.2⟩, hendpoints⟩
    · simp only [Descriptor.documentedNames, List.forall_mem_map, List.forall_mem_flatMap,
        Option.mem_toList]
      exact fun docs hd => (hdocs docs hd).2
  · rintro ⟨htypes, hhandles, hnames⟩
    simp only [Descriptor.typeRefs, List.forall_mem_append, List.forall_mem_map,
      List.forall_mem_flatMap, Option.mem_toList] at htypes
    simp only [Descriptor.handles, List.forall_mem_append, List.forall_mem_flatMap] at hhandles
    simp only [Descriptor.documentedNames, List.forall_mem_map, List.forall_mem_flatMap,
      Option.mem_toList] at hnames
    obtain ⟨⟨hinputs, houtputs⟩, hdocs⟩ := htypes
    obtain ⟨⟨hinputs', houtputs'⟩, hendpoints⟩ := hhandles
    exact ⟨ne_empty_of_named d.sound.named,
      fun p hp => ⟨ne_empty_of_named (d.sound.inputs_named p hp), hinputs p hp, hinputs' p hp⟩,
      fun p hp => ⟨ne_empty_of_named (d.sound.outputs_named p hp), houtputs p hp, houtputs' p hp⟩,
      fun docs hd => ⟨hdocs docs hd, hnames docs hd⟩, hendpoints⟩

/-- The wire form of a descriptor is valid under the published schema exactly if no reference to a type,
no handle of middleware and no documented name is empty. So are its other orders, if it is tidy. -/
theorem accepts_ofDescriptor_iff (d : Descriptor) :
    (Accepts document (ofDescriptor d) ↔ d.IsFilled) ∧
      (d.IsTidy → ∀ j, Json.Arranges (ofDescriptor d) j → (Accepts document j ↔ d.IsFilled)) := by
  rw [accepts_document_iff, admits_ofDescriptor_iff_isFilled]
  refine ⟨Iff.rfl, fun htidy j hj => ?_⟩
  rw [accepts_document_iff, admits_of_arranges descriptor (Wire.distinct_ofDescriptor htidy) hj,
    admits_ofDescriptor_iff_isFilled]

theorem accepts_ofDescriptor_lending :
    Wire.lending.IsTidy ∧ Accepts document (ofDescriptor Wire.lending) ∧
      Accepts document (ofDescriptor Wire.lending).tidy := by
  have hfilled : Wire.lending.IsFilled := by decide
  exact ⟨Wire.isTidy_lending, (accepts_ofDescriptor_iff Wire.lending).1.mpr hfilled,
    ((accepts_ofDescriptor_iff Wire.lending).2 Wire.isTidy_lending _
      (Json.arranges_tidy _)).mpr hfilled⟩

end Schema
end Callable
