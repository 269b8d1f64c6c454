import Callable.Json.Basic
import Mathlib.Data.List.Forall2
import Mathlib.Data.List.Nodup

/-!
Tables in order and tidy values. A table in order is known by its look-ups, and entries are put in their
order. Tidying keeps what a look-up finds, repeats no key and changes nothing the second time. Two values
that repeat no key and tidy to the same value are one value with its members in different orders; they
agree part by part.
-/
namespace Callable

theorem mem_of_lookup {α : Type} {entries : List (String × α)} {name : String} {value : α}
    (h : entries.lookup name = some value) : (name, value) ∈ entries := by
  obtain ⟨before, after, rfl, -⟩ := List.lookup_eq_some_iff.mp h
  exact List.mem_append_right _ List.mem_cons_self

theorem lookup_of_mem {α : Type} {entries : List (String × α)}
    (hnodup : (entries.map Prod.fst).Nodup) {entry : String × α} (h : entry ∈ entries) :
    entries.lookup entry.1 = some entry.2 := by
  induction entries with
  | nil => cases h
  | cons first rest ih =>
    obtain ⟨hfirst, hrest⟩ := List.nodup_cons.mp hnodup
    rw [lookup_cons_eq_ite]
    rcases List.mem_cons.mp h with rfl | h
    · rw [if_pos rfl]
    · have hne : entry.1 ≠ first.1 := fun heq => hfirst (heq ▸ List.mem_map_of_mem h)
      rw [if_neg hne, ih hrest h]

theorem lookup_eq_none {α : Type} {entries : List (String × α)} {name : String}
    (h : ∀ entry ∈ entries, entry.1 ≠ name) : entries.lookup name = none := by
  rw [List.lookup_eq_none_iff]
  intro entry hentry
  exact bne_iff_ne.mpr (h entry hentry).symm

namespace Table

variable {α : Type} {table other : Table α}

/-- Each name stands before those that are greater, and once. -/
def IsSorted (table : Table α) : Prop := List.Pairwise (fun a b => a.1 < b.1) table

theorem isSorted_nil : IsSorted ([] : Table α) := List.Pairwise.nil

theorem IsSorted.nodup (h : table.IsSorted) : (List.map Prod.fst table).Nodup := by
  refine List.pairwise_map.mpr (h.imp fun hlt heq => ?_)
  rw [heq] at hlt
  exact String.lt_irrefl _ hlt

theorem mem_of_mem_put {name : String} {value : α} {entry : String × α}
    (h : entry ∈ table.put name value) : entry = (name, value) ∨ entry ∈ table := by
  induction table with
  | nil => exact Or.inl (List.mem_singleton.mp h)
  | cons first rest ih =>
    unfold put at h
    split at h
    · exact List.mem_cons.mp h
    · split at h
      · exact (List.mem_cons.mp h).imp_right (List.mem_cons_of_mem _)
      · rcases List.mem_cons.mp h with rfl | h
        · exact Or.inr List.mem_cons_self
        · exact (ih h).imp_right (List.mem_cons_of_mem _)

theorem IsSorted.put (h : table.IsSorted) (name : String) (value : α) :
    (table.put name value).IsSorted := by
  induction table with
  | nil => exact List.pairwise_singleton _ _
  | cons first rest ih =>
    obtain ⟨hfirst, hrest⟩ := List.pairwise_cons.mp h
    unfold Table.put
    split
    · rename_i hlt
      refine List.pairwise_cons.mpr ⟨List.forall_mem_cons.mpr ⟨hlt, fun entry hentry => ?_⟩, h⟩
      exact String.lt_trans hlt (hfirst entry hentry)
    · rename_i hle
      split
      · rename_i heq
        exact List.pairwise_cons.mpr ⟨fun entry hentry => heq ▸ hfirst entry hentry, hrest⟩
      · rename_i hne
        refine List.pairwise_cons.mpr ⟨fun entry hentry => ?_, ih hrest⟩
        rcases mem_of_mem_put hentry with rfl | hentry
        · exact Std.lt_of_le_of_ne hle (Ne.symm hne)
        · exact hfirst entry hentry

theorem lookup_eq_none_of_lt {name : String} (h : ∀ entry ∈ table, name < entry.1) :
    table.lookup name = none := by
  refine lookup_eq_none fun entry hentry heq => ?_
  exact String.lt_irrefl name (heq ▸ h entry hentry)

theorem IsSorted.le_of_lookup {first : String × α} (h : IsSorted (first :: table)) {name : String}
    {value : α} (hfound : List.lookup name (first :: table) = some value) : first.1 ≤ name := by
  rcases List.mem_cons.mp (mem_of_lookup hfound) with rfl | hmem
  · exact String.le_refl name
  · exact Std.le_of_lt ((List.pairwise_cons.mp h).1 _ hmem)

/-- Tables in order that give the same answers are the same. -/
theorem IsSorted.ext (h : table.IsSorted) (h' : other.IsSorted)
    (hsame : ∀ name, table.lookup name = other.lookup name) : table = other := by
  induction table generalizing other with
  | nil =>
    cases other with
    | nil => rfl
    | cons first rest =>
      have hfirst := hsame first.1
      rw [lookup_cons_eq_ite, if_pos rfl] at hfirst
      cases hfirst
  | cons first rest ih =>
    obtain ⟨hfirst, hrest⟩ := List.pairwise_cons.mp h
    cases other with
    | nil =>
      have hnone := hsame first.1
      rw [lookup_cons_eq_ite, if_pos rfl] at hnone
      cases hnone
    | cons first' rest' =>
      obtain ⟨hfirst', hrest'⟩ := List.pairwise_cons.mp h'
      have hleft : List.lookup first'.1 (first :: rest) = some first'.2 := by
        rw [hsame, lookup_cons_eq_ite, if_pos rfl]
      have hright : List.lookup first.1 (first' :: rest') = some first.2 := by
        rw [← hsame, lookup_cons_eq_ite, if_pos rfl]
      have hname : first.1 = first'.1 :=
        String.le_antisymm (h.le_of_lookup hleft) (h'.le_of_lookup hright)
      have hvalue := hsame first.1
      rw [lookup_cons_eq_ite, lookup_cons_eq_ite, if_pos rfl, if_pos hname] at hvalue
      have htail : rest = rest' := by
        refine ih hrest hrest' fun name => ?_
        by_cases heq : name = first.1
        · rw [heq, lookup_eq_none_of_lt hfirst, hname, lookup_eq_none_of_lt hfirst']
        · have hlater := hsame name
          rwa [lookup_cons_eq_ite, lookup_cons_eq_ite, if_neg heq, if_neg (hname ▸ heq)] at hlater
      rw [htail, Prod.ext hname (Option.some.inj hvalue)]

/-- Entries put into a table one after the other. -/
def putAll (entries : List (String × α)) (table : Table α) : Table α :=
  entries.foldl (fun table entry => table.put entry.1 entry.2) table

theorem IsSorted.putAll (h : table.IsSorted) (entries : List (String × α)) :
    (Table.putAll entries table).IsSorted := by
  induction entries generalizing table with
  | nil => exact h
  | cons entry rest ih => exact ih (h.put entry.1 entry.2)

theorem isSorted_ofList (entries : List (String × α)) : (ofList entries).IsSorted :=
  isSorted_nil.putAll entries

theorem mem_of_mem_putAll {entries : List (String × α)} {entry : String × α}
    (h : entry ∈ putAll entries table) : entry ∈ entries ∨ entry ∈ table := by
  induction entries generalizing table with
  | nil => exact Or.inr h
  | cons first rest ih =>
    rcases ih h with hmem | hmem
    · exact Or.inl (List.mem_cons_of_mem _ hmem)
    · rcases mem_of_mem_put hmem with rfl | hmem
      · exact Or.inl List.mem_cons_self
      · exact Or.inr hmem

theorem mem_of_mem_ofList {entries : List (String × α)} {entry : String × α}
    (h : entry ∈ ofList entries) : entry ∈ entries :=
  (mem_of_mem_putAll h).resolve_right List.not_mem_nil

theorem lookup_putAll {entries : List (String × α)} (hnodup : (entries.map Prod.fst).Nodup)
    (table : Table α) (name : String) :
    (putAll entries table).lookup name = (entries.lookup name).or (table.lookup name) := by
  induction entries generalizing table with
  | nil => rfl
  | cons entry rest ih =>
    obtain ⟨hnew, hrest⟩ := List.nodup_cons.mp hnodup
    have hput := get?_put entry.1 entry.2 table name
    change List.lookup name (table.put entry.1 entry.2) =
      if name = entry.1 then _ else List.lookup name table at hput
    change List.lookup name (putAll rest (table.put entry.1 entry.2)) = _
    rw [ih hrest, hput, lookup_cons_eq_ite]
    by_cases hname : name = entry.1
    · have hnone : rest.lookup name = none := lookup_eq_none fun later hlater heq =>
        hnew (hname ▸ heq ▸ List.mem_map_of_mem hlater)
      rw [hnone, if_pos hname, if_pos hname]
      rfl
    · rw [if_neg hname, if_neg hname]

theorem lookup_ofList {entries : List (String × α)} (hnodup : (entries.map Prod.fst).Nodup)
    (name : String) : (ofList entries).lookup name = entries.lookup name := by
  change (putAll entries []).lookup name = _
  rw [lookup_putAll hnodup, List.lookup_nil, Option.or_none]

theorem lookup_mapValues {β : Type} (f : α → β) (table : Table α) (name : String) :
    (table.mapValues f).lookup name = (table.lookup name).map f := by
  induction table with
  | nil => rfl
  | cons entry rest ih =>
    change List.lookup name ((entry.1, f entry.2) :: Table.mapValues f rest) = _
    rw [lookup_cons_eq_ite, lookup_cons_eq_ite, ih]
    split <;> rfl

theorem map_fst_mapValues {β : Type} (f : α → β) (table : Table α) :
    List.map Prod.fst (table.mapValues f) = List.map Prod.fst table := by
  rw [mapValues, List.map_map]
  rfl

end Table

namespace Json

mutual

/-- No object in the value lists a key twice. -/
def Distinct : Json → Prop
  | .arr items => DistinctItems items
  | .obj members => (members.map Prod.fst).Nodup ∧ DistinctMembers members
  | _ => True

def DistinctItems : List Json → Prop
  | [] => True
  | item :: rest => Distinct item ∧ DistinctItems rest

def DistinctMembers : List (String × Json) → Prop
  | [] => True
  | (_, value) :: rest => Distinct value ∧ DistinctMembers rest

end

theorem distinctItems_iff (items : List Json) :
    DistinctItems items ↔ ∀ item ∈ items, item.Distinct := by
  induction items with
  | nil => exact iff_of_true trivial fun item hitem => by cases hitem
  | cons item rest ih => rw [DistinctItems, ih, List.forall_mem_cons]

theorem distinctMembers_iff (members : List (String × Json)) :
    DistinctMembers members ↔ ∀ member ∈ members, member.2.Distinct := by
  induction members with
  | nil => exact iff_of_true trivial fun member hmember => by cases hmember
  | cons member rest ih => rw [DistinctMembers, ih, List.forall_mem_cons]

theorem distinct_obj_iff (members : List (String × Json)) :
    (obj members).Distinct ↔
      (members.map Prod.fst).Nodup ∧ ∀ member ∈ members, member.2.Distinct := by
  rw [Distinct, distinctMembers_iff]

theorem tidyItems_eq_map (items : List Json) : tidyItems items = items.map tidy := by
  induction items with
  | nil => rfl
  | cons item rest ih => rw [tidyItems, ih, List.map_cons]

theorem tidyMembers_eq_putAll (members : List (String × Json)) (done : Table Json) :
    tidyMembers members done = Table.putAll (Table.mapValues tidy members) done := by
  induction members generalizing done with
  | nil => rfl
  | cons member rest ih => exact ih (done.put member.1 member.2.tidy)

theorem tidy_obj (members : List (String × Json)) :
    (obj members).tidy = obj (Table.ofList (Table.mapValues tidy members)) := by
  rw [tidy, tidyMembers_eq_putAll]
  rfl

theorem lookup_tidied {members : List (String × Json)} (hnodup : (members.map Prod.fst).Nodup)
    (key : String) :
    (Table.ofList (Table.mapValues tidy members)).lookup key = (members.lookup key).map tidy := by
  rw [Table.lookup_ofList, Table.lookup_mapValues]
  rw [Table.map_fst_mapValues]
  exact hnodup

theorem forall_mem_tidied {P : Json → Prop} {members : List (String × Json)}
    (h : ∀ member ∈ members, P member.2.tidy) :
    ∀ entry ∈ Table.ofList (Table.mapValues tidy members), P entry.2 := by
  intro entry hentry
  obtain ⟨member, hmember, rfl⟩ := List.mem_map.mp (Table.mem_of_mem_ofList hentry)
  exact h member hmember

mutual

theorem distinct_tidy (value : Json) : value.tidy.Distinct := by
  cases value with
  | arr items =>
    rw [tidy, Distinct, tidyItems_eq_map, distinctItems_iff, List.forall_mem_map]
    exact distinct_tidyItems items
  | obj members =>
    rw [tidy_obj, distinct_obj_iff]
    exact ⟨(Table.isSorted_ofList _).nodup, forall_mem_tidied (distinct_tidyEach members)⟩
  | _ => trivial

theorem distinct_tidyItems (items : List Json) : ∀ item ∈ items, item.tidy.Distinct := by
  cases items with
  | nil => exact fun item hitem => by cases hitem
  | cons item rest =>
    exact List.forall_mem_cons.mpr ⟨distinct_tidy item, distinct_tidyItems rest⟩

theorem distinct_tidyEach (members : List (String × Json)) :
    ∀ member ∈ members, member.2.tidy.Distinct := by
  match members with
  | [] => exact fun member hmember => by cases hmember
  | (_, value) :: rest =>
    exact List.forall_mem_cons.mpr ⟨distinct_tidy value, distinct_tidyEach rest⟩

end

theorem tidy_arr_eq {items : List Json} (h : ∀ item ∈ items, item.tidy = item) :
    (arr items).tidy = arr items := by
  rw [tidy, tidyItems_eq_map, List.map_congr_left h, List.map_id']

/-- An object in order with tidy values is tidy. -/
theorem tidy_obj_eq {members : Table Json} (hsorted : members.IsSorted)
    (h : ∀ member ∈ members, member.2.tidy = member.2) : (obj members).tidy = obj members := by
  rw [tidy_obj]
  refine congrArg obj ((Table.isSorted_ofList _).ext hsorted fun key => ?_)
  rw [lookup_tidied hsorted.nodup]
  cases hfound : members.lookup key with
  | none => rfl
  | some found => exact congrArg some (h _ (mem_of_lookup hfound))

mutual

theorem tidy_tidy (value : Json) : value.tidy.tidy = value.tidy := by
  cases value with
  | arr items =>
    rw [tidy, tidyItems_eq_map]
    exact tidy_arr_eq (List.forall_mem_map.mpr (tidy_tidyItems items))
  | obj members =>
    rw [tidy_obj]
    exact tidy_obj_eq (Table.isSorted_ofList _)
      (forall_mem_tidied (P := fun value => value.tidy = value) (tidy_tidyEach members))
  | _ => rfl

theorem tidy_tidyItems (items : List Json) : ∀ item ∈ items, item.tidy.tidy = item.tidy := by
  cases items with
  | nil => exact fun item hitem => by cases hitem
  | cons item rest =>
    exact List.forall_mem_cons.mpr ⟨tidy_tidy item, tidy_tidyItems rest⟩

theorem tidy_tidyEach (members : List (String × Json)) :
    ∀ member ∈ members, member.2.tidy.tidy = member.2.tidy := by
  match members with
  | [] => exact fun member hmember => by cases hmember
  | (_, value) :: rest =>
    exact List.forall_mem_cons.mpr ⟨tidy_tidy value, tidy_tidyEach rest⟩

end

/-- The value `j` repeats no key and is `w` with the members of its objects in some order. -/
structure Arranges (w j : Json) : Prop where
  distinct : j.Distinct
  tidy : j.tidy = w.tidy

theorem arranges_self {w : Json} (h : w.Distinct) : Arranges w w := ⟨h, rfl⟩

theorem arranges_tidy (w : Json) : Arranges w w.tidy := ⟨distinct_tidy w, tidy_tidy w⟩

namespace Arranges

variable {j : Json}

theorem eq_null (h : Arranges null j) : j = null := by
  have htidy := h.tidy
  cases j <;> cases htidy
  rfl

theorem eq_bool {b : Bool} (h : Arranges (bool b) j) : j = bool b := by
  have htidy := h.tidy
  cases j <;> cases htidy
  rfl

theorem eq_str {s : String} (h : Arranges (str s) j) : j = str s := by
  have htidy := h.tidy
  cases j <;> cases htidy
  rfl

/-- An array keeps the order of its items. -/
theorem exists_arr {ws : List Json} (h : Arranges (arr ws) j) :
    ∃ js, j = arr js ∧ List.Forall₂ Arranges ws js := by
  obtain ⟨hdistinct, htidy⟩ := h
  cases j with
  | arr js =>
    refine ⟨js, rfl, ?_⟩
    rw [Distinct, distinctItems_iff] at hdistinct
    rw [Json.tidy, Json.tidy, tidyItems_eq_map, tidyItems_eq_map, arr.injEq] at htidy
    induction js generalizing ws with
    | nil =>
      cases ws with
      | nil => exact List.Forall₂.nil
      | cons w rest => cases htidy
    | cons item js ih =>
      cases ws with
      | nil => cases htidy
      | cons w rest =>
        rw [List.map_cons, List.map_cons, List.cons.injEq] at htidy
        obtain ⟨hitem, hrest⟩ := List.forall_mem_cons.mp hdistinct
        exact List.Forall₂.cons ⟨hitem, htidy.1⟩ (ih hrest htidy.2)
  | _ => cases htidy

/-- Under each key an object has the value it had, arranged too. -/
theorem exists_obj {written : List (String × Json)} (hnodup : (written.map Prod.fst).Nodup)
    (h : Arranges (obj written) j) :
    ∃ members, j = obj members ∧ (members.map Prod.fst).Nodup ∧
      ∀ key, Option.Rel Arranges (written.lookup key) (members.lookup key) := by
  obtain ⟨hdistinct, htidy⟩ := h
  cases j with
  | obj members =>
    rw [distinct_obj_iff] at hdistinct
    refine ⟨members, rfl, hdistinct.1, fun key => ?_⟩
    rw [tidy_obj, tidy_obj, obj.injEq] at htidy
    have hsame := congrArg (List.lookup key) htidy
    rw [lookup_tidied hdistinct.1, lookup_tidied hnodup] at hsame
    cases hmember : members.lookup key with
    | none =>
      rw [hmember, Option.map_none] at hsame
      rw [Option.map_eq_none_iff.mp hsame.symm]
      exact Option.Rel.none
    | some value =>
      rw [hmember, Option.map_some] at hsame
      obtain ⟨w, hw, hvalue⟩ := Option.map_eq_some_iff.mp hsame.symm
      rw [hw]
      exact Option.Rel.some ⟨hdistinct.2 _ (mem_of_lookup hmember), hvalue.symm⟩
  | _ => cases htidy

end Arranges

end Json
end Callable
