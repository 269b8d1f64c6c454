import Callable.Proofs.Json.Tidy
import Callable.Proofs.Schema.Validation

/-!
What the published document admits. A schema has a meaning of its own, without a document: the values it
admits. Its JSON form judges values the same way in every document that holds what its references stand
for, and the published document is one.
-/
namespace Callable.Schema

open Validation

mutual

/-- Whether the schema admits a value. -/
def admits : Schema → Json → Bool
  | anything _, _ => true
  | null, value => isOfType "null" value
  | boolean, value => isOfType "boolean" value
  | string, value => isOfType "string" value
  | nonempty _, value => isOfType "string" value && hasLength 1 value
  | array items, value =>
    match value with
    | .arr values => values.all fun value => admits items value
    | _ => false
  | closed properties required, value =>
    match value with
    | .obj members => (required.all fun name => (members.lookup name).isSome) &&
        members.all fun member => admitsMember properties member.1 member.2
    | _ => false
  | map values, value =>
    match value with
    | .obj members => members.all fun member => admits values member.2
    | _ => false
  | either first second, value => admits first value != admits second value
  | ref _ target, value => admits target value

/-- Whether a member has a schema of its own and is admitted by it. -/
def admitsMember : List (String × Schema) → String → Json → Bool
  | [], _, _ => false
  | (key, schema) :: rest, name, value =>
    if name = key then admits schema value else admitsMember rest name value

end

mutual

/-- The references within a schema and what they stand for. -/
def refs : Schema → List (String × Schema)
  | array items => refs items
  | closed properties _ => memberRefs properties
  | map values => refs values
  | either first second => refs first ++ refs second
  | ref name target => (name, target) :: refs target
  | _ => []

def memberRefs : List (String × Schema) → List (String × Schema)
  | [] => []
  | (_, schema) :: rest => refs schema ++ memberRefs rest

end

/-- The document holds what the references of a schema stand for. -/
def Defines (document : Json) (refs : List (String × Schema)) : Prop :=
  ∀ ref ∈ refs, resolve? document ("#/$defs/" ++ ref.1) = some ref.2.toJson

instance (document : Json) (refs : List (String × Schema)) : Decidable (Defines document refs) :=
  inferInstanceAs (Decidable (∀ ref ∈ refs, _ = _))

theorem lookup_membersToJson (properties : List (String × Schema)) (name : String) :
    (membersToJson properties).lookup name = (properties.lookup name).map toJson := by
  induction properties with
  | nil => rfl
  | cons property rest ih =>
    rw [membersToJson, lookup_cons_eq_ite, lookup_cons_eq_ite, ih]
    split <;> rfl

theorem admitsMember_of_lookup {properties : List (String × Schema)} {name : String}
    {schema : Schema} (h : properties.lookup name = some schema) (value : Json) :
    admitsMember properties name value = schema.admits value := by
  induction properties with
  | nil => cases h
  | cons property rest ih =>
    rw [lookup_cons_eq_ite] at h
    rw [admitsMember]
    split at h
    · rename_i heq
      rw [if_pos heq, Option.some.inj h]
    · rename_i hne
      rw [if_neg hne, ih h]

theorem admitsMember_of_unknown {properties : List (String × Schema)} {name : String}
    (h : properties.lookup name = none) (value : Json) :
    admitsMember properties name value = false := by
  induction properties with
  | nil => rfl
  | cons property rest ih =>
    rw [lookup_cons_eq_ite] at h
    rw [admitsMember]
    split at h
    · cases h
    · rename_i hne
      rw [if_neg hne, ih h]

section Closed

variable {document : Json} {judge : Json → Json → Option Bool} {properties : List (String × Schema)}
  {required : List String} {schema : List (String × Json)}

/-- Whether a member is admitted by its schema if it has one. -/
def fits (properties : List (String × Schema)) (member : String × Json) : Bool :=
  match properties.lookup member.1 with
  | some schema => schema.admits member.2
  | none => true

theorem isSome_and_fits (member : String × Json) :
    ((properties.lookup member.1).isSome && fits properties member) =
      admitsMember properties member.1 member.2 := by
  unfold fits
  split
  · rename_i schema hfound
    rw [hfound, admitsMember_of_lookup hfound]
    rfl
  · rename_i hnone
    rw [hnone, admitsMember_of_unknown hnone]
    rfl

theorem judgeProperties_eq (hjudge : ∀ property ∈ properties, ∀ value,
      judge property.2.toJson value = some (property.2.admits value))
    (members : List (String × Json)) :
    judgeProperties judge (membersToJson properties) (.obj members) =
      some (members.all (fits properties)) := by
  refine all_map fun member _ => ?_
  rw [lookup_membersToJson, fits]
  cases hfound : properties.lookup member.1 with
  | none => rfl
  | some schema => exact hjudge _ (mem_of_lookup hfound) member.2

theorem judgeOthers_eq (hfalse : ∀ value, judge (.bool false) value = some false)
    (members : List (String × Json)) :
    judgeOthers judge (membersToJson properties) (.bool false) (.obj members) =
      some (members.all fun member => (properties.lookup member.1).isSome) := by
  refine all_map fun member _ => ?_
  rw [lookup_membersToJson]
  cases properties.lookup member.1 with
  | none => exact hfalse member.2
  | some schema => rfl

theorem judgeRequired_eq (members : List (String × Json)) :
    judgeRequired (required.map .str) (.obj members) =
      some (required.all fun name => (members.lookup name).isSome) := by
  rw [judgeRequired, List.map_map]
  exact all_map fun name _ => rfl

/-- No name is required where the keyword is left out. -/
theorem all_required (value : Json) :
    all ((if required.isEmpty then [] else [("required", Json.arr (required.map .str))]).map
      fun keyword => judgeKeyword judge document schema value keyword.1 keyword.2) =
        judgeRequired (required.map .str) value := by
  split
  · rename_i hempty
    rw [List.isEmpty_iff.mp hempty]
    cases value <;> rfl
  · exact all_singleton _

/-- The verdict of a closed object is that of its keywords together. -/
theorem all_closedMembers_of_verdicts (hschema : propertiesOf schema = membersToJson properties)
    {value : Json} {r o p : Bool} (hr : judgeRequired (required.map .str) value = some r)
    (ho : judgeOthers judge (membersToJson properties) (.bool false) value = some o)
    (hp : judgeProperties judge (membersToJson properties) value = some p) :
    all ((closedMembers (membersToJson properties) required).map fun keyword =>
      judgeKeyword judge document schema value keyword.1 keyword.2) =
        some (isOfType "object" value && r && (o && p)) := by
  have hothers : judgeKeyword judge document schema value "additionalProperties" (.bool false) =
      some o := by
    rw [← ho, ← hschema]
    rfl
  have hproperties : judgeKeyword judge document schema value "properties"
      (.obj (membersToJson properties)) = some p := hp
  rw [closedMembers, List.map_append, List.map_append]
  refine all_append (all_append ?_ ?_) ?_
  · exact all_singleton _
  · rw [all_required, hr]
  · rw [List.map_cons, all, hothers, List.map_singleton, all_singleton, hproperties]
    rfl

theorem all_known_and_fits (members : List (String × Json)) :
    ((members.all fun member => (properties.lookup member.1).isSome) &&
      members.all (fits properties)) =
        members.all fun member => admitsMember properties member.1 member.2 := by
  simp only [← isSome_and_fits]
  rw [Bool.eq_iff_iff, Bool.and_eq_true, List.all_eq_true, List.all_eq_true, List.all_eq_true]
  simp only [Bool.and_eq_true]
  exact ⟨fun h member hmember => ⟨h.1 member hmember, h.2 member hmember⟩,
    fun h => ⟨fun member hmember => (h member hmember).1, fun member hmember =>
      (h member hmember).2⟩⟩

theorem all_closedMembers (hschema : propertiesOf schema = membersToJson properties)
    (hjudge : ∀ property ∈ properties, ∀ value,
      judge property.2.toJson value = some (property.2.admits value))
    (hfalse : ∀ value, judge (.bool false) value = some false) (value : Json) :
    all ((closedMembers (membersToJson properties) required).map fun keyword =>
      judgeKeyword judge document schema value keyword.1 keyword.2) =
        some ((closed properties required).admits value) := by
  cases value with
  | obj members =>
    rw [all_closedMembers_of_verdicts hschema (judgeRequired_eq members)
      (judgeOthers_eq hfalse members) (judgeProperties_eq hjudge members), admits,
      all_known_and_fits]
    rfl
  | _ => exact all_closedMembers_of_verdicts hschema rfl rfl rfl

end Closed

section Agreement

variable {document : Json}

/-- The keywords of a schema are judged one step above the schemas within it. -/
theorem judges_of_keywords {keywords : List (String × Json)} {verdict : Json → Bool} (least : Nat)
    (h : ∀ depth, least ≤ depth → ∀ value, all (keywords.map fun keyword =>
      judgeKeyword (judge document depth) document keywords value keyword.1 keyword.2) =
        some (verdict value)) : Judges document (.obj keywords) verdict := by
  refine ⟨least + 1, fun depth hdepth value => ?_⟩
  obtain ⟨above, rfl⟩ := Nat.exists_eq_add_of_le hdepth
  rw [Nat.add_right_comm]
  exact h (least + above) (Nat.le_add_right _ _) value

theorem judges_items {items : Schema} (h : Judges document items.toJson items.admits) :
    Judges document (array items).toJson (array items).admits := by
  obtain ⟨least, hitems⟩ := h
  refine judges_of_keywords least fun depth hdepth value => ?_
  cases value with
  | arr values =>
    have hall : judgeItems (judge document depth) items.toJson (.arr values) =
        some (values.all fun value => items.admits value) :=
      all_map fun value _ => hitems depth hdepth value
    refine (all_pair _ (judgeItems _ items.toJson (.arr values))).trans ?_
    rw [hall]
    rfl
  | _ => rfl

theorem judges_values {values : Schema} (h : Judges document values.toJson values.admits) :
    Judges document (map values).toJson (map values).admits := by
  obtain ⟨least, hvalues⟩ := h
  refine judges_of_keywords least fun depth hdepth value => ?_
  cases value with
  | obj members =>
    have hall : judgeOthers (judge document depth) [] values.toJson (.obj members) =
        some (members.all fun member => values.admits member.2) :=
      all_map fun member _ => hvalues depth hdepth member.2
    refine (all_pair _ (judgeOthers _ [] values.toJson (.obj members))).trans ?_
    rw [hall]
    rfl
  | _ => rfl

theorem judges_either {first second : Schema} (h : Judges document first.toJson first.admits)
    (h' : Judges document second.toJson second.admits) :
    Judges document (either first second).toJson (either first second).admits := by
  obtain ⟨least, hfirst⟩ := h
  obtain ⟨least', hsecond⟩ := h'
  refine judges_of_keywords (max least least') fun depth hdepth value => ?_
  change all [(favourable [judge document depth first.toJson value,
    judge document depth second.toJson value]).map fun n => decide (n = 1)] = _
  rw [all_singleton, hfirst depth (Nat.max_le.mp hdepth).1, hsecond depth (Nat.max_le.mp hdepth).2,
    admits]
  cases first.admits value <;> cases second.admits value <;> rfl

theorem judges_ref {name : String} {target : Schema}
    (hname : resolve? document ("#/$defs/" ++ name) = some target.toJson)
    (h : Judges document target.toJson target.admits) :
    Judges document (ref name target).toJson (ref name target).admits := by
  obtain ⟨least, htarget⟩ := h
  refine judges_of_keywords least fun depth hdepth value => ?_
  change all [(resolve? document ("#/$defs/" ++ name)).bind fun schema =>
    judge document depth schema value] = _
  rw [all_singleton, hname]
  exact htarget depth hdepth value

/-- These keywords stand in no value's way. -/
def Idle (document : Json) (keywords : List (String × Json)) : Prop :=
  ∀ judge schema value, all (keywords.map fun keyword =>
    judgeKeyword judge document schema value keyword.1 keyword.2) = some true

/-- A closed object may have idle keywords around its own. -/
theorem judges_closed {properties : List (String × Schema)} {required : List String}
    (hproperties : ∃ least, ∀ depth, least ≤ depth → ∀ property ∈ properties, ∀ value,
      judge document depth property.2.toJson value = some (property.2.admits value))
    {before after : List (String × Json)} (hbefore : Idle document before)
    (hafter : Idle document after)
    (hschema : propertiesOf (before ++ closedMembers (membersToJson properties) required ++ after) =
      membersToJson properties) :
    Judges document (.obj (before ++ closedMembers (membersToJson properties) required ++ after))
      (closed properties required).admits := by
  obtain ⟨least, hjudge⟩ := hproperties
  refine judges_of_keywords (least + 1) fun depth hdepth value => ?_
  have hfalse (value : Json) : judge document depth (.bool false) value = some false := by
    obtain ⟨above, rfl⟩ := Nat.exists_eq_add_of_le hdepth
    rw [Nat.add_right_comm]
    rfl
  rw [List.map_append, List.map_append]
  refine (all_append (all_append (hbefore _ _ value) (all_closedMembers hschema
    (hjudge depth (Nat.le_of_succ_le hdepth)) hfalse value)) (hafter _ _ value)).trans ?_
  rw [Bool.true_and, Bool.and_true]

theorem propertiesOf_closedMembers (properties : List (String × Json)) (required : List String) :
    propertiesOf (closedMembers properties required) = properties := by
  cases required with
  | nil => rfl
  | cons name rest => rfl

mutual

theorem judges_toJson (schema : Schema) (h : Defines document (refs schema)) :
    Judges document schema.toJson schema.admits := by
  cases schema with
  | anything description => exact judges_of_keywords 0 fun depth _ value => rfl
  | null => exact judges_of_keywords 0 fun depth _ value => all_singleton _
  | boolean => exact judges_of_keywords 0 fun depth _ value => all_singleton _
  | string => exact judges_of_keywords 0 fun depth _ value => all_singleton _
  | nonempty description =>
    refine judges_of_keywords 0 fun depth _ value => ?_
    change some (_ && (_ && true)) = _
    rw [Bool.and_true]
    rfl
  | array items => exact judges_items (judges_toJson items h)
  | closed properties required =>
    have hschema := propertiesOf_closedMembers (membersToJson properties) required
    rw [← List.append_nil (closedMembers (membersToJson properties) required)] at hschema
    have hidle : Idle document [] := fun _ _ _ => rfl
    have hclosed := judges_closed (judges_membersToJson properties h) hidle hidle hschema
    rwa [List.append_nil] at hclosed
  | map values => exact judges_values (judges_toJson values h)
  | either first second =>
    obtain ⟨hfirst, hsecond⟩ := List.forall_mem_append.mp h
    exact judges_either (judges_toJson first hfirst) (judges_toJson second hsecond)
  | ref name target =>
    obtain ⟨hname, htarget⟩ := List.forall_mem_cons.mp h
    exact judges_ref hname (judges_toJson target htarget)

theorem judges_membersToJson (properties : List (String × Schema))
    (h : Defines document (memberRefs properties)) :
    ∃ least, ∀ depth, least ≤ depth → ∀ property ∈ properties, ∀ value,
      judge document depth property.2.toJson value = some (property.2.admits value) := by
  match properties with
  | [] => exact ⟨0, fun _ _ => List.forall_mem_nil _⟩
  | (_, schema) :: rest =>
    obtain ⟨hschema, hrest⟩ := List.forall_mem_append.mp h
    obtain ⟨least, hjudge⟩ := judges_toJson schema hschema
    obtain ⟨least', hjudges⟩ := judges_membersToJson rest hrest
    refine ⟨max least least', fun depth hdepth => List.forall_mem_cons.mpr ⟨?_, ?_⟩⟩
    · exact hjudge depth (Nat.max_le.mp hdepth).1
    · exact hjudges depth (Nat.max_le.mp hdepth).2

end

end Agreement

section Order

/-- What holds of the members of an object and of their tidy values holds of the tidy object. -/
theorem all_tidied {members : List (String × Json)} (hnodup : (members.map Prod.fst).Nodup)
    {P : String → Json → Bool}
    (h : ∀ member ∈ members, P member.1 member.2.tidy = P member.1 member.2) :
    (Table.ofList (Table.mapValues Json.tidy members)).all (fun entry => P entry.1 entry.2) =
      members.all fun member => P member.1 member.2 := by
  rw [Bool.eq_iff_iff, List.all_eq_true, List.all_eq_true]
  constructor
  · intro hall member hmember
    have hfound := Json.lookup_tidied hnodup member.1
    rw [lookup_of_mem hnodup hmember] at hfound
    rw [← h member hmember]
    exact hall _ (mem_of_lookup hfound)
  · intro hall entry hentry
    obtain ⟨member, hmember, rfl⟩ := List.mem_map.mp (Table.mem_of_mem_ofList hentry)
    exact (h member hmember).trans (hall member hmember)

mutual

theorem admits_tidy (schema : Schema) {value : Json} (h : value.Distinct) :
    schema.admits value.tidy = schema.admits value := by
  cases schema with
  | array items =>
    cases value with
    | arr values =>
      rw [Json.Distinct, Json.distinctItems_iff] at h
      rw [Json.tidy, Json.tidyItems_eq_map, admits, admits, Bool.eq_iff_iff, List.all_eq_true,
        List.all_eq_true, List.forall_mem_map]
      exact forall₂_congr fun value hvalue => by rw [admits_tidy items (h value hvalue)]
    | _ => rfl
  | closed properties required =>
    cases value with
    | obj members =>
      obtain ⟨hnodup, hvalues⟩ := (Json.distinct_obj_iff members).mp h
      have hmembers := all_tidied (P := admitsMember properties) hnodup fun member hmember =>
        admitsMember_tidy properties member.1 (hvalues member hmember)
      rw [Json.tidy_obj, admits, admits, hmembers]
      simp only [Json.lookup_tidied hnodup, Option.isSome_map]
    | _ => rfl
  | map values =>
    cases value with
    | obj members =>
      obtain ⟨hnodup, hvalues⟩ := (Json.distinct_obj_iff members).mp h
      rw [Json.tidy_obj, admits, admits]
      exact all_tidied (P := fun _ value => values.admits value) hnodup fun member hmember =>
        admits_tidy values (hvalues member hmember)
    | _ => rfl
  | either first second => rw [admits, admits, admits_tidy first h, admits_tidy second h]
  | ref name target => exact admits_tidy target h
  | _ => cases value <;> rfl

theorem admitsMember_tidy (properties : List (String × Schema)) (name : String) {value : Json}
    (h : value.Distinct) :
    admitsMember properties name value.tidy = admitsMember properties name value := by
  match properties with
  | [] => rfl
  | (key, schema) :: rest =>
    rw [admitsMember, admitsMember, admits_tidy schema h, admitsMember_tidy rest name h]

end

/-- The order of members is of no matter. -/
theorem admits_of_arranges (schema : Schema) {w j : Json} (hw : w.Distinct)
    (h : Json.Arranges w j) : schema.admits j = schema.admits w := by
  rw [← admits_tidy schema h.distinct, h.tidy, admits_tidy schema hw]

end Order

theorem defines_document : Defines document (refs descriptor) := by
  decide +kernel

theorem judges_document : Judges document document descriptor.admits :=
  judges_closed (judges_membersToJson _ defines_document) (fun _ _ _ => rfl) (fun _ _ _ => rfl) rfl

theorem accepts_document_iff (value : Json) :
    Accepts document value ↔ descriptor.admits value = true :=
  accepts_iff judges_document value

end Callable.Schema
