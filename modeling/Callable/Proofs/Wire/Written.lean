import Callable.Proofs.Json.Tidy
import Callable.Wire.Records

/-!
What is written. A record is written as an object with a member for each field that has a value, so the
object is known by its fields: under a name it holds the value of the field, and no name comes twice. A
descriptor whose tables are in order and whose defaults are tidy is written without a repeated key
anywhere.
-/
namespace Callable

@[mk_iff]
structure InputParam.IsTidy (p : InputParam) : Prop where
  default : ∀ value ∈ p.default, value.tidy = value
  endpoints : p.endpoints.IsSorted

@[mk_iff]
structure OutputParam.IsTidy (p : OutputParam) : Prop where
  endpoints : p.endpoints.IsSorted

@[mk_iff]
structure InputDoc.IsTidy (doc : InputDoc) : Prop where
  default : ∀ value ∈ doc.default, value.tidy = value

@[mk_iff]
structure Docs.IsTidy (docs : Docs) : Prop where
  inputs : ∀ doc ∈ docs.inputs, doc.IsTidy
  exceptions : docs.exceptions.IsSorted

/-- Every table of the descriptor lists its names in order, each once, and so does every object among
its defaults. -/
@[mk_iff]
structure Descriptor.IsTidy (d : Descriptor) : Prop where
  inputs : ∀ p ∈ d.inputs, p.IsTidy
  outputs : ∀ p ∈ d.outputs, p.IsTidy
  docs : ∀ docs ∈ d.docs, docs.IsTidy
  endpoints : d.endpoints.IsSorted

instance {α : Type} (table : Table α) : Decidable table.IsSorted :=
  inferInstanceAs (Decidable (List.Pairwise _ table))

instance (p : InputParam) : Decidable p.IsTidy := decidable_of_iff _ (InputParam.isTidy_iff p).symm

instance (p : OutputParam) : Decidable p.IsTidy := decidable_of_iff _ (OutputParam.isTidy_iff p).symm

instance (doc : InputDoc) : Decidable doc.IsTidy := decidable_of_iff _ (InputDoc.isTidy_iff doc).symm

instance (docs : Docs) : Decidable docs.IsTidy := decidable_of_iff _ (Docs.isTidy_iff docs).symm

instance (d : Descriptor) : Decidable d.IsTidy := decidable_of_iff _ (Descriptor.isTidy_iff d).symm

namespace Wire

/-- The member for a field, if the field has a value. -/
def ofField (field : String × Option Json) : List (String × Json) := member? field.1 id field.2

/-- The members of an object for fields that may have no value. -/
def filled (fields : List (String × Option Json)) : List (String × Json) := fields.flatMap ofField

/-- A list that has items. -/
def inhabited? {α : Type} (items : List α) : Option (List α) :=
  if items.isEmpty then none else some items

theorem mem_inhabited? {α : Type} {items found : List α} (h : found ∈ inhabited? items) :
    found = items := by
  unfold inhabited? at h
  split at h
  · cases h
  · exact (Option.some.inj h).symm

theorem inhabited?_eq_none {α : Type} {items : List α} (h : inhabited? items = none) : items = [] := by
  unfold inhabited? at h
  split at h
  · rename_i hempty
    exact List.isEmpty_iff.mp hempty
  · cases h

theorem ofField_some (name : String) (value : Json) :
    ofField (name, some value) = [(name, value)] :=
  rfl

theorem member?_eq {α : Type} (name : String) (write : α → Json) (value : Option α) :
    member? name write value = ofField (name, value.map write) := by
  cases value <;> rfl

theorem memberUnlessEmpty_eq {α : Type} (name : String) (write : List α → Json) (items : List α) :
    memberUnlessEmpty name write items = ofField (name, (inhabited? items).map write) := by
  unfold memberUnlessEmpty inhabited?
  split <;> rfl

section Filled

variable {fields : List (String × Option Json)}

theorem filled_nil : filled [] = [] := rfl

theorem filled_cons (field : String × Option Json) (rest : List (String × Option Json)) :
    filled (field :: rest) = ofField field ++ filled rest :=
  List.flatMap_cons

theorem mem_filled {member : String × Json} :
    member ∈ filled fields ↔ (member.1, some member.2) ∈ fields := by
  rw [filled, List.mem_flatMap]
  constructor
  · rintro ⟨⟨name, value⟩, hfield, hmember⟩
    cases value with
    | none => cases hmember
    | some value =>
      cases List.mem_singleton.mp hmember
      exact hfield
  · exact fun hfield => ⟨_, hfield, List.mem_singleton_self _⟩

theorem nodup_filled (h : (fields.map Prod.fst).Nodup) : ((filled fields).map Prod.fst).Nodup := by
  refine h.sublist ?_
  clear h
  induction fields with
  | nil => exact List.Sublist.refl []
  | cons field rest ih =>
    obtain ⟨name, value⟩ := field
    cases value with
    | none => exact ih.cons _
    | some value => exact ih.cons_cons _

theorem lookup_filled (h : (fields.map Prod.fst).Nodup) {field : String × Option Json}
    (hfield : field ∈ fields) : (filled fields).lookup field.1 = field.2 := by
  obtain ⟨name, value⟩ := field
  cases value with
  | some value =>
    have hmem : (name, value) ∈ filled fields := mem_filled.mpr hfield
    exact lookup_of_mem (nodup_filled h) hmem
  | none =>
    refine lookup_eq_none fun member hmember heq => ?_
    have hother := lookup_of_mem h (mem_filled.mp hmember)
    rw [heq, lookup_of_mem h hfield] at hother
    cases hother

theorem distinct_filled (h : (fields.map Prod.fst).Nodup)
    (hvalues : ∀ field ∈ fields, ∀ value ∈ field.2, value.Distinct) :
    (Json.obj (filled fields)).Distinct := by
  rw [Json.distinct_obj_iff]
  exact ⟨nodup_filled h, fun member hmember => hvalues _ (mem_filled.mp hmember) _ rfl⟩

/-- An arrangement of an object holds under the name of each field an arrangement of its value. -/
theorem exists_filled {j : Json} (h : (fields.map Prod.fst).Nodup)
    (hj : Json.Arranges (.obj (filled fields)) j) :
    ∃ members, j = .obj members ∧ (members.map Prod.fst).Nodup ∧
      (∀ member ∈ members, member.1 ∈ fields.map Prod.fst) ∧
      ∀ field ∈ fields, Option.Rel Json.Arranges field.2 (members.lookup field.1) := by
  obtain ⟨members, rfl, hnodup, hmembers⟩ := hj.exists_obj (nodup_filled h)
  refine ⟨members, rfl, hnodup, fun member hmember => ?_, fun field hfield => ?_⟩
  · have hrel := hmembers member.1
    rw [lookup_of_mem hnodup hmember] at hrel
    cases hwritten : (filled fields).lookup member.1 with
    | none =>
      rw [hwritten] at hrel
      cases hrel
    | some value => exact List.mem_map_of_mem (mem_filled.mp (mem_of_lookup hwritten))
  · have hrel := hmembers field.1
    rwa [lookup_filled h hfield] at hrel

end Filled

def endpointFields (e : Endpoint) : List (String × Option Json) :=
  [("middleware", (inhabited? e.middleware).map strings)]

def inputFields (p : InputParam) : List (String × Option Json) :=
  [("name", some (.str p.name)), ("type", some (.str p.type)),
    ("positional", some (.bool p.positional)), ("default", p.default),
    ("optional", p.optional.map .bool), ("description", p.description.map .str),
    ("middleware", (inhabited? p.middleware).map strings),
    ("endpoints", (inhabited? p.endpoints).map (ofTable ofEndpoint))]

def outputFields (p : OutputParam) : List (String × Option Json) :=
  [("name", some (.str p.name)), ("type", some (.str p.type)),
    ("description", p.description.map .str),
    ("endpoints", (inhabited? p.endpoints).map (ofTable ofEndpoint))]

def inputDocFields (doc : InputDoc) : List (String × Option Json) :=
  [("name", some (.str doc.name)), ("description", doc.description.map .str),
    ("type", doc.type.map .str), ("default", doc.default), ("optional", doc.optional.map .bool),
    ("positional", doc.positional.map .bool)]

def outputDocFields (doc : OutputDoc) : List (String × Option Json) :=
  [("name", doc.name.map .str), ("type", doc.type.map .str),
    ("description", doc.description.map .str)]

def docsFields (docs : Docs) : List (String × Option Json) :=
  [("original", docs.text.map .str), ("input_params", some (.arr (docs.inputs.map ofInputDoc))),
    ("output_params", some (.arr (docs.outputs.map ofOutputDoc))),
    ("summary", docs.summary.map .str), ("exceptions", some (ofTable .str docs.exceptions))]

def descriptorFields (d : Descriptor) : List (String × Option Json) :=
  [("name", some (.str d.name)), ("input_params", some (.arr (d.inputs.map ofInputParam))),
    ("output_params", some (.arr (d.outputs.map ofOutputParam))),
    ("docstring", some ((d.docs.map ofDocs).getD .null)),
    ("endpoints", (inhabited? d.endpoints).map (ofTable ofEndpoint))]

theorem ofEndpoint_eq (e : Endpoint) : ofEndpoint e = .obj (filled (endpointFields e)) := by
  simp only [ofEndpoint, endpointFields, filled_cons, filled_nil, memberUnlessEmpty_eq,
    List.append_nil]

theorem ofInputParam_eq (p : InputParam) : ofInputParam p = .obj (filled (inputFields p)) := by
  simp only [ofInputParam, inputFields, filled_cons, filled_nil, ofField_some, member?_eq,
    memberUnlessEmpty_eq, Option.map_id_apply, List.append_assoc, List.cons_append, List.nil_append,
    List.append_nil]

theorem ofOutputParam_eq (p : OutputParam) : ofOutputParam p = .obj (filled (outputFields p)) := by
  simp only [ofOutputParam, outputFields, filled_cons, filled_nil, ofField_some, member?_eq,
    memberUnlessEmpty_eq, List.cons_append, List.nil_append, List.append_nil]

theorem ofInputDoc_eq (doc : InputDoc) : ofInputDoc doc = .obj (filled (inputDocFields doc)) := by
  simp only [ofInputDoc, inputDocFields, filled_cons, filled_nil, ofField_some, member?_eq,
    Option.map_id_apply, List.append_assoc, List.cons_append, List.nil_append, List.append_nil]

theorem ofOutputDoc_eq (doc : OutputDoc) :
    ofOutputDoc doc = .obj (filled (outputDocFields doc)) := by
  simp only [ofOutputDoc, outputDocFields, filled_cons, filled_nil, member?_eq, List.append_assoc,
    List.append_nil]

theorem ofDocs_eq (docs : Docs) : ofDocs docs = .obj (filled (docsFields docs)) := by
  simp only [ofDocs, docsFields, filled_cons, filled_nil, ofField_some, member?_eq,
    List.append_assoc, List.cons_append, List.nil_append]

theorem ofDescriptor_eq (d : Descriptor) :
    ofDescriptor d = .obj (filled (descriptorFields d)) := by
  simp only [ofDescriptor, descriptorFields, filled_cons, filled_nil, ofField_some,
    memberUnlessEmpty_eq, List.cons_append, List.nil_append, List.append_nil]

theorem distinct_of_tidy {value : Json} (h : value.tidy = value) : value.Distinct :=
  h ▸ Json.distinct_tidy value

theorem distinct_arr {items : List Json} (h : ∀ item ∈ items, item.Distinct) :
    (Json.arr items).Distinct := by
  rw [Json.Distinct, Json.distinctItems_iff]
  exact h

theorem distinct_strings (items : List String) : (strings items).Distinct :=
  distinct_arr (List.forall_mem_map.mpr fun _ _ => trivial)

theorem distinct_ofTable {α : Type} {write : α → Json} {table : Table α} (h : table.IsSorted)
    (hwrite : ∀ a, (write a).Distinct) : (ofTable write table).Distinct := by
  change (Json.obj (table.mapValues write)).Distinct
  rw [Json.distinct_obj_iff, Table.map_fst_mapValues]
  exact ⟨h.nodup, List.forall_mem_map.mpr fun entry _ => hwrite entry.2⟩

theorem distinct_some {written : Json} (h : written.Distinct) :
    ∀ value ∈ some written, value.Distinct := by
  rintro _ ⟨⟩
  exact h

theorem distinct_map {α : Type} {write : α → Json} {field : Option α}
    (h : ∀ a ∈ field, (write a).Distinct) : ∀ value ∈ field.map write, value.Distinct := by
  intro value hvalue
  obtain ⟨a, ha, rfl⟩ := Option.map_eq_some_iff.mp hvalue
  exact h a ha

theorem nodup_endpointFields (e : Endpoint) : ((endpointFields e).map Prod.fst).Nodup :=
  List.nodup_singleton _

theorem nodup_inputFields (p : InputParam) : ((inputFields p).map Prod.fst).Nodup := by
  simp [inputFields]

theorem nodup_outputFields (p : OutputParam) : ((outputFields p).map Prod.fst).Nodup := by
  simp [outputFields]

theorem nodup_inputDocFields (doc : InputDoc) : ((inputDocFields doc).map Prod.fst).Nodup := by
  simp [inputDocFields]

theorem nodup_outputDocFields (doc : OutputDoc) : ((outputDocFields doc).map Prod.fst).Nodup := by
  simp [outputDocFields]

theorem nodup_docsFields (docs : Docs) : ((docsFields docs).map Prod.fst).Nodup := by
  simp [docsFields]

theorem nodup_descriptorFields (d : Descriptor) :
    ((descriptorFields d).map Prod.fst).Nodup := by
  simp [descriptorFields]

theorem distinct_ofEndpoint (e : Endpoint) : (ofEndpoint e).Distinct := by
  rw [ofEndpoint_eq]
  refine distinct_filled (nodup_endpointFields e) ?_
  simp only [endpointFields, List.forall_mem_singleton]
  exact distinct_map fun items _ => distinct_strings items

theorem distinct_ofEndpoints {endpoints : Endpoints} (h : endpoints.IsSorted) :
    ∀ value ∈ (inhabited? endpoints).map (ofTable ofEndpoint), value.Distinct :=
  distinct_map fun _ hfound => mem_inhabited? hfound ▸ distinct_ofTable h distinct_ofEndpoint

theorem distinct_ofInputParam {p : InputParam} (h : p.IsTidy) : (ofInputParam p).Distinct := by
  rw [ofInputParam_eq]
  refine distinct_filled (nodup_inputFields p) ?_
  simp only [inputFields, List.forall_mem_cons]
  exact ⟨distinct_some trivial, distinct_some trivial, distinct_some trivial,
    fun value hvalue => distinct_of_tidy (h.default value hvalue),
    distinct_map fun _ _ => trivial, distinct_map fun _ _ => trivial,
    distinct_map fun items _ => distinct_strings items, distinct_ofEndpoints h.endpoints,
    List.forall_mem_nil _⟩

theorem distinct_ofOutputParam {p : OutputParam} (h : p.IsTidy) : (ofOutputParam p).Distinct := by
  rw [ofOutputParam_eq]
  refine distinct_filled (nodup_outputFields p) ?_
  simp only [outputFields, List.forall_mem_cons]
  exact ⟨distinct_some trivial, distinct_some trivial, distinct_map fun _ _ => trivial,
    distinct_ofEndpoints h.endpoints, List.forall_mem_nil _⟩

theorem distinct_ofInputDoc {doc : InputDoc} (h : doc.IsTidy) : (ofInputDoc doc).Distinct := by
  rw [ofInputDoc_eq]
  refine distinct_filled (nodup_inputDocFields doc) ?_
  simp only [inputDocFields, List.forall_mem_cons]
  exact ⟨distinct_some trivial, distinct_map fun _ _ => trivial, distinct_map fun _ _ => trivial,
    fun value hvalue => distinct_of_tidy (h.default value hvalue),
    distinct_map fun _ _ => trivial, distinct_map fun _ _ => trivial, List.forall_mem_nil _⟩

theorem distinct_ofOutputDoc (doc : OutputDoc) : (ofOutputDoc doc).Distinct := by
  rw [ofOutputDoc_eq]
  refine distinct_filled (nodup_outputDocFields doc) ?_
  simp only [outputDocFields, List.forall_mem_cons]
  exact ⟨distinct_map fun _ _ => trivial, distinct_map fun _ _ => trivial,
    distinct_map fun _ _ => trivial, List.forall_mem_nil _⟩

theorem distinct_ofDocs {docs : Docs} (h : docs.IsTidy) : (ofDocs docs).Distinct := by
  rw [ofDocs_eq]
  refine distinct_filled (nodup_docsFields docs) ?_
  simp only [docsFields, List.forall_mem_cons]
  refine ⟨distinct_map fun _ _ => trivial, distinct_some (distinct_arr ?_),
    distinct_some (distinct_arr ?_), distinct_map fun _ _ => trivial,
    distinct_some (distinct_ofTable h.exceptions fun _ => trivial), List.forall_mem_nil _⟩
  · exact List.forall_mem_map.mpr fun doc hdoc => distinct_ofInputDoc (h.inputs doc hdoc)
  · exact List.forall_mem_map.mpr fun doc _ => distinct_ofOutputDoc doc

theorem distinct_docstring {docs : Option Docs} (h : ∀ d ∈ docs, d.IsTidy) :
    ((docs.map ofDocs).getD .null).Distinct := by
  cases docs with
  | none => trivial
  | some d => exact distinct_ofDocs (h d rfl)

theorem distinct_ofDescriptor {d : Descriptor} (h : d.IsTidy) : (ofDescriptor d).Distinct := by
  rw [ofDescriptor_eq]
  refine distinct_filled (nodup_descriptorFields d) ?_
  simp only [descriptorFields, List.forall_mem_cons]
  refine ⟨distinct_some trivial, distinct_some (distinct_arr ?_), distinct_some (distinct_arr ?_),
    distinct_some (distinct_docstring h.docs), distinct_ofEndpoints h.endpoints,
    List.forall_mem_nil _⟩
  · exact List.forall_mem_map.mpr fun p hp => distinct_ofInputParam (h.inputs p hp)
  · exact List.forall_mem_map.mpr fun p hp => distinct_ofOutputParam (h.outputs p hp)

/-- A descriptor with a default of `null` beside an absent one, in a parameter and in what is said of
it, with middleware and with endpoints that have none. -/
def lending : Descriptor where
  name := "lend"
  inputs := [
    { name := "book", type := "str", positional := true, middleware := ["audit", "trace"],
      endpoints := [("http", {}), ("rpc", { middleware := ["trace"] })] },
    { name := "until", type := "Any", default := some .null, optional := some true },
    { name := "terms", type := "Any", default := some (.obj [("fee", .int 0), ("law", .null)]) }]
  outputs := [{ name := "result", type := "bool", endpoints := [("rpc", {})] }]
  docs := some {
    text := some "Lends a book."
    inputs := [{ name := "until", default := some .null }, { name := "book" }]
    outputs := [{ type := some "bool" }]
    exceptions := [("KeyError", "no such book"), ("LookupError", "")] }
  endpoints := [("rpc", {})]
  sound := sound_of_checkParams (by decide)

theorem isTidy_lending : lending.IsTidy := by decide

end Wire
end Callable
