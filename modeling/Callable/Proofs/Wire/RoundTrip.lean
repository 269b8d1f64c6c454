import Callable.Proofs.Wire.Record
import Callable.Proofs.Wire.Tidiness

/-!
The wire form keeps descriptors. What was written is read back, with the members of its objects in
whatever order: first for single values, lists and tables, then record by record. Fields that were left
out come back as absent or empty, and a default of null, which is written, does not.
-/
namespace Callable.Wire

open Json (Draft)

/-- The value, its members in whatever order, is read as `a`. -/
def ReadsBack {α : Type} (item : Draft → Result α) (w : Json) (a : α) : Prop :=
  ∀ j, Json.Arranges w j → item (.ofJson j) = .ok a

theorem readsBack_string (s : String) : ReadsBack string (.str s) s := by
  intro j hj
  rw [hj.eq_str]
  rfl

theorem readsBack_boolean (b : Bool) : ReadsBack boolean (.bool b) b := by
  intro j hj
  rw [hj.eq_bool]
  rfl

theorem readsBack_present {value : Json} (h : value.tidy = value) :
    ReadsBack present value (some value) := by
  intro j hj
  rw [present_ofJson, hj.tidy, h]

section Collections

variable {α : Type} {item : Draft → Result α} {write : α → Json}

theorem ReadsBack.nullable {w : Json} {a : α} (h : ReadsBack item w a) {e : WireError}
    (hnull : item .null = .error e) : ReadsBack (Wire.nullable item) w (some a) :=
  fun j hj => nullable_eq_ok hnull (h j hj)

theorem readsBack_list {as : List α} (h : ∀ a ∈ as, ReadsBack item (write a) a) :
    ReadsBack (list item) (.arr (as.map write)) as := by
  intro j hj
  obtain ⟨js, rfl, hjs⟩ := hj.exists_arr
  refine list_ofJson ?_
  rw [List.forall₂_map_left_iff] at hjs
  clear hj
  induction hjs with
  | nil => exact List.Forall₂.nil
  | cons hitem _ ih =>
    obtain ⟨ha, hrest⟩ := List.forall_mem_cons.mp h
    exact List.Forall₂.cons (ha _ hitem) (ih hrest)

theorem ReadsEntry.map_fst_eq {members : List (String × Json)} {entries : List (String × α)}
    (h : List.Forall₂ (ReadsEntry item) members entries) :
    members.map Prod.fst = entries.map Prod.fst := by
  induction h with
  | nil => rfl
  | cons hentry _ ih => rw [List.map_cons, List.map_cons, hentry.1, ih]

theorem ReadsEntry.lookup {members : List (String × Json)} {entries : List (String × α)}
    (h : List.Forall₂ (ReadsEntry item) members entries) (name : String) :
    Option.Rel (fun value a => item (.ofJson value) = .ok a) (members.lookup name)
      (entries.lookup name) := by
  induction h with
  | nil => exact Option.Rel.none
  | cons hentry _ ih =>
    rw [lookup_cons_eq_ite, lookup_cons_eq_ite, hentry.1]
    split
    · exact Option.Rel.some hentry.2
    · exact ih

theorem exists_of_rel_some {β γ : Type} {R : β → γ → Prop} {b : β} {right : Option γ}
    (hrel : Option.Rel R (some b) right) : ∃ c, right = some c ∧ R b c := by
  cases hrel with
  | some h => exact ⟨_, rfl, h⟩

theorem rel_of_rel_map {β γ : Type} {R : β → γ → Prop} {S : γ → α → Prop} {f : α → β}
    (h : ∀ a c, R (f a) c → S c a) {left : Option α} {right : Option γ}
    (hrel : Option.Rel R (left.map f) right) : Option.Rel S right left := by
  cases left with
  | none =>
    cases hrel
    exact Option.Rel.none
  | some a =>
    cases hrel with
    | some hvalue => exact Option.Rel.some (h a _ hvalue)

/-- What is read from one value is one thing. -/
theorem eq_of_rel {value : Option Json} {left right : Option α}
    (hleft : Option.Rel (fun value a => item (.ofJson value) = .ok a) value left)
    (hright : Option.Rel (fun value a => item (.ofJson value) = .ok a) value right) :
    left = right := by
  cases hleft with
  | none =>
    cases hright
    rfl
  | some ha =>
    cases hright with
    | some hb => exact congrArg some (Except.ok.inj (ha.symm.trans hb))

/-- Entries met in another order are put back into theirs. -/
theorem readsBack_table {t : Table α} (hsorted : t.IsSorted)
    (h : ∀ a, ReadsBack item (write a) a) : ReadsBack (table item) (ofTable write t) t := by
  intro j hj
  have hkeys : ((t.mapValues write).map Prod.fst).Nodup := by
    rw [Table.map_fst_mapValues]
    exact hsorted.nodup
  obtain ⟨members, rfl, hnodup, hmembers⟩ := Json.Arranges.exists_obj hkeys hj
  have hread (name : String) : Option.Rel (fun value a => item (.ofJson value) = .ok a)
      (members.lookup name) (t.lookup name) := by
    have hrel := hmembers name
    rw [Table.lookup_mapValues] at hrel
    exact rel_of_rel_map h hrel
  have hentry : ∀ member ∈ members, ∃ entry, ReadsEntry item member entry := by
    intro member hmember
    have hrel := hread member.1
    rw [lookup_of_mem hnodup hmember] at hrel
    obtain ⟨a, -, hvalue⟩ := exists_of_rel_some hrel
    exact ⟨(member.1, a), rfl, hvalue⟩
  obtain ⟨entries, hentries⟩ := exists_forall₂ hentry
  have hnames : (entries.map Prod.fst).Nodup := ReadsEntry.map_fst_eq hentries ▸ hnodup
  rw [table_ofJson hentries]
  refine congrArg Except.ok ((Table.isSorted_ofList entries).ext hsorted fun name => ?_)
  rw [Table.lookup_ofList hnames]
  exact eq_of_rel (ReadsEntry.lookup hentries name) (hread name)

end Collections

section Fields

variable {α : Type} {members : List (String × Json)} {name : String} {item : Draft → Result α}

/-- A field that was left out is one that may be absent. -/
theorem holds_of_rel {field : Option Json} {left : Option α} {a : α}
    (hrel : Option.Rel Json.Arranges field (members.lookup name))
    (hsome : ∀ w ∈ field, ReadsBack item w a) (hnone : field = none → left = some a) :
    Holds members name item left a := by
  cases field with
  | some w =>
    obtain ⟨value, hfound, hvalue⟩ := exists_of_rel_some hrel
    exact Holds.of_lookup hfound (hsome w rfl value hvalue)
  | none =>
    have habsent : members.lookup name = none := by
      cases hfound : members.lookup name with
      | none => rfl
      | some value =>
        rw [hfound] at hrel
        cases hrel
    rw [hnone rfl]
    exact Holds.of_absent habsent

/-- A field that is always written. -/
theorem holds_of_some {w : Json} {left : Option α} {a : α}
    (hrel : Option.Rel Json.Arranges (some w) (members.lookup name)) (h : ReadsBack item w a) :
    Holds members name item left a := by
  refine holds_of_rel hrel ?_ fun hnone => by cases hnone
  rintro _ ⟨⟩
  exact h

/-- A field that is written if it has a value. -/
theorem holds_of_map {β : Type} {item : Draft → Result (Option β)} {write : β → Json}
    {field : Option β} (hrel : Option.Rel Json.Arranges (field.map write) (members.lookup name))
    (h : ∀ b ∈ field, ReadsBack item (write b) (some b)) :
    Holds members name item (some none) field := by
  refine holds_of_rel hrel (fun w hw => ?_) fun hnone => ?_
  · obtain ⟨b, hb, rfl⟩ := Option.map_eq_some_iff.mp hw
    rw [hb]
    exact h b hb
  · rw [Option.map_eq_none_iff.mp hnone]

/-- A list that is written if it has items. -/
theorem holds_of_inhabited {β : Type} {item : Draft → Result (List β)} {write : List β → Json}
    {items : List β}
    (hrel : Option.Rel Json.Arranges ((inhabited? items).map write) (members.lookup name))
    (h : ReadsBack item (write items) items) : Holds members name item (some []) items := by
  refine holds_of_rel hrel (fun w hw => ?_) fun hnone => ?_
  · obtain ⟨found, hfound, rfl⟩ := Option.map_eq_some_iff.mp hw
    rw [mem_inhabited? hfound]
    exact h
  · rw [inhabited?_eq_none (Option.map_eq_none_iff.mp hnone)]

/-- A default, which may be `null`, is written if it is there. -/
theorem holds_of_default {default : Option Json}
    (hrel : Option.Rel Json.Arranges default (members.lookup name))
    (h : ∀ value ∈ default, value.tidy = value) :
    Holds members name present (some none) default := by
  refine holds_of_rel hrel (fun w hw => ?_) fun hnone => by rw [hnone]
  rw [hw]
  exact readsBack_present (h w hw)

end Fields

section Records

variable (origin : Origin)

theorem readsBack_strings (items : List String) : ReadsBack (list string) (strings items) items :=
  readsBack_list fun item _ => readsBack_string item

theorem readsBack_nullable_string (s : String) : ReadsBack (nullable string) (.str s) (some s) :=
  (readsBack_string s).nullable rfl

theorem readsBack_nullable_boolean (b : Bool) : ReadsBack (nullable boolean) (.bool b) (some b) :=
  (readsBack_boolean b).nullable rfl

theorem readsBack_endpoint (e : Endpoint) : ReadsBack (endpoint origin) (ofEndpoint e) e := by
  intro j hj
  rw [ofEndpoint_eq] at hj
  obtain ⟨members, rfl, hnodup, -, hfields⟩ := exists_filled (nodup_endpointFields e) hj
  have hmiddleware := hfields _ (List.mem_singleton_self _)
  exact endpoint_ofJson hnodup (holds_of_inhabited hmiddleware (readsBack_strings _))

theorem readsBack_endpoints {t : Endpoints} (h : t.IsSorted) :
    ReadsBack (endpoints origin) (ofTable ofEndpoint t) t :=
  readsBack_table h (readsBack_endpoint origin)

theorem readsBack_inputParam {p : InputParam} (h : p.IsTidy) :
    ReadsBack (inputParam origin) (ofInputParam p) p := by
  intro j hj
  rw [ofInputParam_eq] at hj
  obtain ⟨members, rfl, hnodup, -, hfields⟩ := exists_filled (nodup_inputFields p) hj
  simp only [inputFields, List.forall_mem_cons] at hfields
  obtain ⟨hname, htype, hpositional, hdefault, hoptional, hdescription, hmiddleware, hendpoints,
    -⟩ := hfields
  exact inputParam_ofJson hnodup (holds_of_some hname (readsBack_string _))
    (holds_of_some htype (readsBack_string _)) (holds_of_some hpositional (readsBack_boolean _))
    (holds_of_default hdefault h.default)
    (holds_of_map hoptional fun b _ => readsBack_nullable_boolean b)
    (holds_of_map hdescription fun s _ => readsBack_nullable_string s)
    (holds_of_inhabited hmiddleware (readsBack_strings _))
    (holds_of_inhabited hendpoints (readsBack_endpoints origin h.endpoints))

theorem readsBack_outputParam {p : OutputParam} (h : p.IsTidy) :
    ReadsBack (outputParam origin) (ofOutputParam p) p := by
  intro j hj
  rw [ofOutputParam_eq] at hj
  obtain ⟨members, rfl, hnodup, -, hfields⟩ := exists_filled (nodup_outputFields p) hj
  simp only [outputFields, List.forall_mem_cons] at hfields
  obtain ⟨hname, htype, hdescription, hendpoints, -⟩ := hfields
  exact outputParam_ofJson hnodup (holds_of_some hname (readsBack_string _))
    (holds_of_some htype (readsBack_string _))
    (holds_of_map hdescription fun s _ => readsBack_nullable_string s)
    (holds_of_inhabited hendpoints (readsBack_endpoints origin h.endpoints))

theorem readsBack_inputDoc {doc : InputDoc} (h : doc.IsTidy) :
    ReadsBack (inputDoc origin) (ofInputDoc doc) doc := by
  intro j hj
  rw [ofInputDoc_eq] at hj
  obtain ⟨members, rfl, hnodup, -, hfields⟩ := exists_filled (nodup_inputDocFields doc) hj
  simp only [inputDocFields, List.forall_mem_cons] at hfields
  obtain ⟨hname, hdescription, htype, hdefault, hoptional, hpositional, -⟩ := hfields
  exact inputDoc_ofJson hnodup (holds_of_some hname (readsBack_string _))
    (holds_of_map hdescription fun s _ => readsBack_nullable_string s)
    (holds_of_map htype fun s _ => readsBack_nullable_string s)
    (holds_of_default hdefault h.default)
    (holds_of_map hoptional fun b _ => readsBack_nullable_boolean b)
    (holds_of_map hpositional fun b _ => readsBack_nullable_boolean b)

theorem readsBack_outputDoc (doc : OutputDoc) :
    ReadsBack (outputDoc origin) (ofOutputDoc doc) doc := by
  intro j hj
  rw [ofOutputDoc_eq] at hj
  obtain ⟨members, rfl, hnodup, -, hfields⟩ := exists_filled (nodup_outputDocFields doc) hj
  simp only [outputDocFields, List.forall_mem_cons] at hfields
  obtain ⟨hname, htype, hdescription, -⟩ := hfields
  exact outputDoc_ofJson hnodup (holds_of_map hname fun s _ => readsBack_nullable_string s)
    (holds_of_map htype fun s _ => readsBack_nullable_string s)
    (holds_of_map hdescription fun s _ => readsBack_nullable_string s)

theorem readsBack_docs {d : Docs} (h : d.IsTidy) : ReadsBack (docs origin) (ofDocs d) d := by
  intro j hj
  rw [ofDocs_eq] at hj
  obtain ⟨members, rfl, hnodup, -, hfields⟩ := exists_filled (nodup_docsFields d) hj
  simp only [docsFields, List.forall_mem_cons] at hfields
  obtain ⟨htext, hinputs, houtputs, hsummary, hexceptions, -⟩ := hfields
  exact docs_ofJson hnodup (holds_of_map htext fun s _ => readsBack_nullable_string s)
    (holds_of_some hinputs (readsBack_list fun doc hdoc =>
      readsBack_inputDoc origin (h.inputs doc hdoc)))
    (holds_of_some houtputs (readsBack_list fun doc _ => readsBack_outputDoc origin doc))
    (holds_of_map hsummary fun s _ => readsBack_nullable_string s)
    (holds_of_some hexceptions (readsBack_table h.exceptions readsBack_string))

/-- A descriptor without documentation is written with `null` in its place. -/
theorem readsBack_docstring {d : Option Docs} (h : ∀ docs ∈ d, docs.IsTidy) :
    ReadsBack (nullable (docs origin)) ((d.map ofDocs).getD .null) d := by
  cases d with
  | none =>
    intro j hj
    rw [hj.eq_null]
    rfl
  | some d => exact (readsBack_docs origin (h d rfl)).nullable rfl

theorem readsBack_descriptor {d : Descriptor} (h : d.IsTidy) :
    ReadsBack (descriptor origin) (ofDescriptor d) d := by
  intro j hj
  rw [ofDescriptor_eq] at hj
  obtain ⟨members, rfl, hnodup, hknown, hfields⟩ := exists_filled (nodup_descriptorFields d) hj
  simp only [descriptorFields, List.forall_mem_cons] at hfields
  obtain ⟨hname, hinputs, houtputs, hdocs, hendpoints, -⟩ := hfields
  rw [descriptor_ofJson hnodup hknown (holds_of_some hname (readsBack_string _))
    (holds_of_some hinputs (readsBack_list fun p hp => readsBack_inputParam origin (h.inputs p hp)))
    (holds_of_some houtputs (readsBack_list fun p hp =>
      readsBack_outputParam origin (h.outputs p hp)))
    (holds_of_some hdocs (readsBack_docstring origin h.docs))
    (holds_of_inhabited hendpoints (readsBack_endpoints origin h.endpoints))]
  obtain ⟨sound, hmade⟩ := Descriptor.exists_make d.sound d.docs d.endpoints
  rw [hmade]
  rfl

end Records

theorem descriptor_written {d : Descriptor} (h : d.IsTidy) (origin : Origin) :
    descriptor origin (.ofJson (ofDescriptor d)) = .ok d :=
  readsBack_descriptor origin h _ (Json.arranges_self (distinct_ofDescriptor h))

/-- What was read is written and read again as it is. -/
theorem descriptor_written_of_read {origin : Origin} {draft : Draft} {d : Descriptor}
    (h : descriptor origin draft = .ok d) (again : Origin) :
    descriptor again (.ofJson (ofDescriptor d)) = .ok d :=
  descriptor_written (isTidy_of_descriptor h) again

/-- What was assembled of a tidy declaration is written and read as it is. -/
theorem descriptor_written_of_assemble {limits : Reference.Limits} {scope : Scope} {d : Declaration}
    {a : Assembly.Assembled} (h : (Assembly.assemble limits scope d).outcome = .ok a)
    (hd : d.IsTidy) (origin : Origin) :
    descriptor origin (.ofJson (ofDescriptor a.descriptor)) = .ok a.descriptor :=
  descriptor_written (Assembly.isTidy_of_assemble h hd) origin

section Omitted

variable {fields : List (String × Option Json)} (hnodup : (fields.map Prod.fst).Nodup)
  {name : String}

include hnodup

theorem member?_filled {value : Option Json} (hfield : (name, value) ∈ fields) :
    (Json.obj (filled fields)).member? name = value :=
  lookup_filled hnodup hfield

theorem member?_filled_eq_none_iff {α : Type} (write : List α → Json) {items : List α}
    (hfield : (name, (inhabited? items).map write) ∈ fields) :
    (Json.obj (filled fields)).member? name = none ↔ items = [] := by
  rw [member?_filled hnodup hfield, Option.map_eq_none_iff]
  refine ⟨inhabited?_eq_none, fun hempty => ?_⟩
  rw [hempty]
  rfl

end Omitted

/-- What is written of an endpoint tells whether it has middleware. -/
theorem middleware_ofEndpoint (e : Endpoint) :
    (ofEndpoint e).member? "middleware" = none ↔ e.middleware = [] := by
  rw [ofEndpoint_eq]
  exact member?_filled_eq_none_iff (nodup_endpointFields e) strings (List.mem_singleton_self _)

/-- The default is written as it is, `null` too, and empty lists and tables are left out. -/
theorem omitted_ofInputParam (p : InputParam) :
    (ofInputParam p).member? "default" = p.default ∧
      ((ofInputParam p).member? "middleware" = none ↔ p.middleware = []) ∧
      ((ofInputParam p).member? "endpoints" = none ↔ p.endpoints = []) := by
  have hnodup := nodup_inputFields p
  rw [ofInputParam_eq]
  exact ⟨member?_filled hnodup (by simp [inputFields]),
    member?_filled_eq_none_iff hnodup strings (by simp [inputFields]),
    member?_filled_eq_none_iff hnodup (ofTable ofEndpoint) (by simp [inputFields])⟩

theorem omitted_ofOutputParam (p : OutputParam) :
    (ofOutputParam p).member? "endpoints" = none ↔ p.endpoints = [] := by
  rw [ofOutputParam_eq]
  exact member?_filled_eq_none_iff (nodup_outputFields p) (ofTable ofEndpoint)
    (by simp [outputFields])

theorem default_ofInputDoc (doc : InputDoc) : (ofInputDoc doc).member? "default" = doc.default := by
  rw [ofInputDoc_eq]
  exact member?_filled (nodup_inputDocFields doc) (by simp [inputDocFields])

theorem omitted_ofDescriptor (d : Descriptor) :
    (ofDescriptor d).member? "endpoints" = none ↔ d.endpoints = [] := by
  rw [ofDescriptor_eq]
  exact member?_filled_eq_none_iff (nodup_descriptorFields d) (ofTable ofEndpoint)
    (by simp [descriptorFields])

/-- The wire form of a tidy descriptor is read back as the descriptor, as it is written and with the
members of its objects in any other order. A default is written exactly if there is one, be it `null`,
and empty lists and tables are left out. -/
theorem descriptor_ofDescriptor {d : Descriptor} (h : d.IsTidy) (origin : Origin) :
    descriptor origin (.ofJson (ofDescriptor d)) = .ok d ∧
      (∀ j, Json.Arranges (ofDescriptor d) j → descriptor origin (.ofJson j) = .ok d) ∧
      (∀ p ∈ d.inputs, (ofInputParam p).member? "default" = p.default ∧
        ((ofInputParam p).member? "middleware" = none ↔ p.middleware = []) ∧
        ((ofInputParam p).member? "endpoints" = none ↔ p.endpoints = [])) ∧
      (∀ p ∈ d.outputs, (ofOutputParam p).member? "endpoints" = none ↔ p.endpoints = []) ∧
      (∀ docs ∈ d.docs, ∀ doc ∈ docs.inputs,
        (ofInputDoc doc).member? "default" = doc.default) ∧
      ((ofDescriptor d).member? "endpoints" = none ↔ d.endpoints = []) ∧
      ∀ e : Endpoint, (ofEndpoint e).member? "middleware" = none ↔ e.middleware = [] := by
  exact ⟨descriptor_written h origin, readsBack_descriptor origin h,
    fun p _ => omitted_ofInputParam p, fun p _ => omitted_ofOutputParam p,
    fun _ _ doc _ => default_ofInputDoc doc, omitted_ofDescriptor d, middleware_ofEndpoint⟩

theorem descriptor_ofDescriptor_lending :
    lending.IsTidy ∧ descriptor .value (.ofJson (ofDescriptor lending)) = .ok lending ∧
      descriptor .text (.ofJson (ofDescriptor lending).tidy) = .ok lending :=
  ⟨isTidy_lending, (descriptor_ofDescriptor isTidy_lending .value).1,
    (descriptor_ofDescriptor isTidy_lending .text).2.1 _ (Json.arranges_tidy _)⟩

end Callable.Wire
