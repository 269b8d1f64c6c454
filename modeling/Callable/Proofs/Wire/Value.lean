import Callable.Proofs.Json.Tidy
import Callable.Wire.Records

/-!
Reading values. The draft of a value has no flaw, so that it can be read depends on the value alone. A
list is read item by item and a table entry by entry, in any order. A record is read from an object if
each of its fields is either there and can be read or may be left out; `Holds` says this of one field.
-/
namespace Callable

namespace Json.Draft

mutual

theorem toJson_ofJson (value : Json) : (ofJson value).toJson = .ok value := by
  cases value with
  | arr items =>
    rw [ofJson, toJson, toItems_ofItems]
    rfl
  | obj members =>
    rw [ofJson, toJson, toMembers_ofMembers]
    rfl
  | _ => rfl

theorem toItems_ofItems (items : List Json) : toItems (ofItems items) = .ok items := by
  cases items with
  | nil => rfl
  | cons item rest =>
    rw [ofItems, toItems, toJson_ofJson, toItems_ofItems]
    rfl

theorem toMembers_ofMembers (members : List (String × Json)) :
    toMembers (ofMembers members) = .ok members := by
  match members with
  | [] => rfl
  | (key, value) :: rest =>
    rw [ofMembers, toMembers, toJson_ofJson, toMembers_ofMembers]
    rfl

end

mutual

theorem skip_ofJson (value : Json) : (ofJson value).skip = .ok () := by
  cases value with
  | arr items =>
    rw [ofJson, skip, skipItems_ofItems]
    rfl
  | obj members =>
    rw [ofJson, skip, skipMembers_ofMembers]
    rfl
  | _ => rfl

theorem skipItems_ofItems (items : List Json) : skipItems (ofItems items) = .ok () := by
  cases items with
  | nil => rfl
  | cons item rest =>
    rw [ofItems, skipItems, skip_ofJson]
    exact skipItems_ofItems rest

theorem skipMembers_ofMembers (members : List (String × Json)) :
    skipMembers (ofMembers members) = .ok () := by
  match members with
  | [] => rfl
  | (key, value) :: rest =>
    rw [ofMembers, skipMembers, skip_ofJson]
    exact skipMembers_ofMembers rest

end

end Json.Draft

namespace Wire

open Json (Draft)

theorem anything_ofJson (value : Json) : anything (.ofJson value) = .ok value.tidy := by
  rw [anything, Draft.toJson_ofJson]

theorem present_ofJson (value : Json) : present (.ofJson value) = .ok (some value.tidy) := by
  rw [present, anything_ofJson]
  rfl

/-- What can be read and is not `null` can be read where `null` is allowed. -/
theorem nullable_eq_ok {α : Type} {item : Draft → Result α} {e : WireError}
    (hnull : item .null = .error e) {draft : Draft} {a : α} (h : item draft = .ok a) :
    nullable item draft = .ok (some a) := by
  cases draft with
  | null => cases hnull.symm.trans h
  | _ =>
    change (item _).map some = _
    rw [h]
    rfl

section Collections

variable {α : Type} {item : Draft → Result α}

theorem exists_forall₂ {β γ : Type} {R : β → γ → Prop} {bs : List β} (h : ∀ b ∈ bs, ∃ c, R b c) :
    ∃ cs, List.Forall₂ R bs cs := by
  induction bs with
  | nil => exact ⟨[], List.Forall₂.nil⟩
  | cons b rest ih =>
    obtain ⟨hb, hrest⟩ := List.forall_mem_cons.mp h
    obtain ⟨c, hc⟩ := hb
    obtain ⟨cs, hcs⟩ := ih hrest
    exact ⟨c :: cs, List.Forall₂.cons hc hcs⟩

theorem readAll_ofItems {values : List Json} {as : List α}
    (h : List.Forall₂ (fun value a => item (.ofJson value) = .ok a) values as) :
    readAll item (Draft.ofItems values) = .ok as := by
  induction h with
  | nil => rfl
  | cons hvalue _ ih =>
    rw [Draft.ofItems, readAll, hvalue, ih]
    rfl

theorem list_ofJson {values : List Json} {as : List α}
    (h : List.Forall₂ (fun value a => item (.ofJson value) = .ok a) values as) :
    list item (.ofJson (.arr values)) = .ok as := by
  rw [Draft.ofJson, list, readAll_ofItems h]
  rfl

/-- The member has the name of the entry, and its value can be read as that of the entry. -/
def ReadsEntry (item : Draft → Result α) (member : String × Json) (entry : String × α) : Prop :=
  member.1 = entry.1 ∧ item (.ofJson member.2) = .ok entry.2

theorem readEntries_ofMembers {members : List (String × Json)} {entries : List (String × α)}
    (h : List.Forall₂ (ReadsEntry item) members entries) (done : Table α) :
    readEntries item done (Draft.ofMembers members) = .ok (Table.putAll entries done) := by
  induction h generalizing done with
  | nil => rfl
  | cons hentry _ ih =>
    rw [Draft.ofMembers, readEntries, hentry.1, hentry.2]
    exact ih _

theorem table_ofJson {members : List (String × Json)} {entries : List (String × α)}
    (h : List.Forall₂ (ReadsEntry item) members entries) :
    table item (.ofJson (.obj members)) = .ok (Table.ofList entries) := by
  rw [Draft.ofJson, table, readEntries_ofMembers h]
  rfl

end Collections

section Members

variable {fields : List Field} {closed : Bool} {key : String} {value : Json}
  {before : List (String × Draft)}

/-- A member of a field that was not met yet is added to those found. -/
theorem readMembers_known {field : Field} (hfind : fields.find? (·.name = key) = some field)
    (hfresh : before.lookup key = none) (hcheck : field.check (.ofJson value) = .ok ())
    (rest : List (String × Json)) :
    readMembers fields closed before (Draft.ofMembers ((key, value) :: rest)) =
      readMembers fields closed ((key, Draft.ofJson value) :: before) (Draft.ofMembers rest) := by
  rw [Draft.ofMembers, readMembers, hfind]
  simp only [hfresh, Option.isSome_none, Bool.false_eq_true, if_false]
  rw [hcheck]
  rfl

/-- A member of no field is passed over where the record is open. -/
theorem readMembers_unknown (hfind : fields.find? (·.name = key) = none) (hopen : closed = false)
    (rest : List (String × Json)) :
    readMembers fields closed before (Draft.ofMembers ((key, value) :: rest)) =
      readMembers fields closed before (Draft.ofMembers rest) := by
  rw [Draft.ofMembers, readMembers, hfind]
  simp only [hopen, Bool.false_eq_true, if_false, Draft.skip_ofJson]

theorem name_of_find? {field : Field} (hfind : fields.find? (·.name = key) = some field) :
    field.name = key := by
  have hfound := List.find?_some hfind
  exact of_decide_eq_true hfound

theorem name_ne_of_find? (hfind : fields.find? (·.name = key) = none) :
    ∀ field ∈ fields, field.name ≠ key := by
  intro field hfield heq
  exact List.find?_eq_none.mp hfind field hfield (decide_eq_true heq)

/-- The members of an object are found under their names, whatever their order. -/
theorem readMembers_ofMembers {members : List (String × Json)}
    (hnodup : (members.map Prod.fst).Nodup)
    (hknown : closed = true → ∀ member ∈ members, ∃ field ∈ fields, field.name = member.1)
    (hchecks : ∀ field ∈ fields, ∀ member ∈ members, member.1 = field.name →
      field.check (.ofJson member.2) = .ok ())
    (hfresh : ∀ member ∈ members, before.lookup member.1 = none) :
    ∃ found, readMembers fields closed before (Draft.ofMembers members) = .ok found ∧
      ∀ field ∈ fields, found.lookup field.name =
        ((members.lookup field.name).map Draft.ofJson).or (before.lookup field.name) := by
  induction members generalizing before with
  | nil => exact ⟨before, rfl, fun field _ => rfl⟩
  | cons member rest ih =>
    obtain ⟨key, value⟩ := member
    obtain ⟨hnew, hrest⟩ := List.nodup_cons.mp hnodup
    obtain ⟨hunmet, hfresh⟩ := List.forall_mem_cons.mp hfresh
    have hlater : ∀ later ∈ rest, later.1 ≠ key := by
      intro later hmem heq
      exact hnew (List.mem_map.mpr ⟨later, hmem, heq⟩)
    have hknown' (hclosed : closed = true) := (List.forall_mem_cons.mp (hknown hclosed)).2
    have hchecks' (field : Field) (hfield : field ∈ fields) :=
      (List.forall_mem_cons.mp (hchecks field hfield)).2
    cases hfind : fields.find? (·.name = key) with
    | some field =>
      have hcheck : field.check (.ofJson value) = .ok () :=
        hchecks field (List.mem_of_find?_eq_some hfind) (key, value) List.mem_cons_self
          (name_of_find? hfind).symm
      have hunmet' : ∀ later ∈ rest,
          List.lookup later.1 ((key, Draft.ofJson value) :: before) = none := by
        intro later hmem
        rw [lookup_cons_eq_ite, if_neg (hlater later hmem)]
        exact hfresh later hmem
      obtain ⟨found, hfound, hlookup⟩ := ih hrest hknown' hchecks' hunmet'
      refine ⟨found, (readMembers_known hfind hunmet hcheck rest).trans hfound,
        fun other hother => ?_⟩
      rw [hlookup other hother, lookup_cons_eq_ite, lookup_cons_eq_ite]
      by_cases hsame : other.name = key
      · rw [if_pos hsame, if_pos hsame, hsame, lookup_eq_none hlater]
        rfl
      · rw [if_neg hsame, if_neg hsame]
    | none =>
      have hothers := name_ne_of_find? hfind
      have hopen : closed = false := by
        refine eq_false_of_ne_true fun hclosed => ?_
        obtain ⟨field, hfield, hname⟩ := hknown hclosed (key, value) List.mem_cons_self
        exact hothers field hfield hname
      obtain ⟨found, hfound, hlookup⟩ := ih hrest hknown' hchecks' hfresh
      refine ⟨found, (readMembers_unknown hfind hopen rest).trans hfound, fun field hfield => ?_⟩
      rw [hlookup field hfield, lookup_cons_eq_ite, if_neg (hothers field hfield)]

end Members

/-- An object is read as a record if the values of its fields can be read; a closed record has no
other members. -/
theorem exists_record (origin : Origin) {fields : List Field} {closed : Bool}
    {members : List (String × Json)} (hnodup : (members.map Prod.fst).Nodup)
    (hknown : closed = true → ∀ member ∈ members, ∃ field ∈ fields, field.name = member.1)
    (hchecks : ∀ field ∈ fields, ∀ value, members.lookup field.name = some value →
      field.check (.ofJson value) = .ok ()) :
    ∃ found, record origin fields closed (.ofJson (.obj members)) = .ok found ∧
      ∀ field ∈ fields, found.found.lookup field.name =
        (members.lookup field.name).map Draft.ofJson := by
  have hmembers : ∀ field ∈ fields, ∀ member ∈ members, member.1 = field.name →
      field.check (.ofJson member.2) = .ok () := by
    intro field hfield member hmember hname
    exact hchecks field hfield member.2 (hname ▸ lookup_of_mem hnodup hmember)
  obtain ⟨found, hfound, hlookup⟩ := readMembers_ofMembers hnodup hknown hmembers
    (fun member _ => (rfl : List.lookup member.1 ([] : List (String × Draft)) = none))
  refine ⟨⟨found, false⟩, ?_, fun field hfield => ?_⟩
  · rw [Draft.ofJson, record, hfound]
    rfl
  · rw [hlookup field hfield, List.lookup_nil, Option.or_none]

/-- The members of an object hold `a` under a name, or hold nothing there and `a` is taken if the field
is left out. -/
def Holds {α : Type} (members : List (String × Json)) (name : String) (item : Draft → Result α)
    (absent : Option α) (a : α) : Prop :=
  match members.lookup name with
  | some value => item (.ofJson value) = .ok a
  | none => absent = some a

namespace Holds

variable {α : Type} {members : List (String × Json)} {name : String} {item : Draft → Result α}
  {a absent : α} {left : Option α} {fields : Fields}

theorem of_lookup {value : Json} (h : members.lookup name = some value)
    (hvalue : item (.ofJson value) = .ok a) : Holds members name item left a := by
  rw [Holds, h]
  exact hvalue

theorem of_absent (h : members.lookup name = none) : Holds members name item (some a) a := by
  rw [Holds, h]

/-- What is there need not be. -/
theorem relax (h : Holds members name item none a) (left : Option α) :
    Holds members name item left a := by
  unfold Holds at h ⊢
  split at h
  · exact h
  · cases h

theorem check (h : Holds members name item left a) (value : Json)
    (hvalue : members.lookup (Field.of name item).name = some value) :
    (Field.of name item).check (.ofJson value) = .ok () := by
  change members.lookup name = some value at hvalue
  rw [Holds, hvalue] at h
  change (item _).map _ = _
  rw [h]
  rfl

theorem need (h : Holds members name item none a)
    (hfound : fields.found.lookup name = (members.lookup name).map Draft.ofJson) :
    fields.need name item = .ok a := by
  unfold Holds at h
  rw [Fields.need, hfound]
  split at h
  · rename_i value hvalue
    rw [hvalue, Option.map_some]
    exact h
  · cases h

theorem getD (h : Holds members name item (some absent) a)
    (hfound : fields.found.lookup name = (members.lookup name).map Draft.ofJson) :
    fields.getD name item absent = .ok a := by
  unfold Holds at h
  rw [Fields.getD, hfound]
  split at h
  · rename_i value hvalue
    rw [hvalue, Option.map_some]
    exact h
  · rename_i hnone
    rw [hnone, Option.map_none]
    exact congrArg Except.ok (Option.some.inj h)

end Holds

end Wire
end Callable
