import Callable.Proofs.Assembly.Signature
import Callable.Proofs.Wire.Written

/-!
Descriptors are tidy wherever they come from. Tables are built entry by entry and keep their order, and a
default is tidied when it is read; so a descriptor that was read, from any draft, is one whose wire form
repeats no key. A default that was captured from a host is tidy as well, and assembly leaves tables and
defaults as they were declared.
-/
namespace Callable

namespace Wire

open Json (Draft)
open Reference (exists_of_bind_eq_ok exists_of_map_eq_ok)

section Collections

variable {α : Type} {item : Draft → Result α} {draft : Draft}

theorem eq_of_ended {ending : Json.Ending} {a b : α} (h : ended ending a = .ok b) : a = b := by
  unfold ended at h
  split at h
  · exact Except.ok.inj h
  · cases h

/-- A draft of another kind is not read. -/
theorem refuse_ne_ok (draft : Draft) (a : α) : refuse draft ≠ .ok a := by
  unfold refuse
  split <;> exact fun h => by cases h

theorem exists_of_readAll {drafts : List Draft} {as : List α} (h : readAll item drafts = .ok as) :
    ∀ a ∈ as, ∃ draft, item draft = .ok a := by
  induction drafts generalizing as with
  | nil =>
    cases h
    exact List.forall_mem_nil _
  | cons first rest ih =>
    obtain ⟨a, ha, h⟩ := exists_of_bind_eq_ok h
    obtain ⟨others, hothers, h⟩ := exists_of_bind_eq_ok h
    cases h
    exact List.forall_mem_cons.mpr ⟨⟨first, ha⟩, ih hothers⟩

theorem exists_of_list {as : List α} (h : list item draft = .ok as) :
    ∀ a ∈ as, ∃ draft, item draft = .ok a := by
  unfold list at h
  split at h
  · obtain ⟨found, hfound, hended⟩ := exists_of_bind_eq_ok h
    rw [← eq_of_ended hended]
    exact exists_of_readAll hfound
  · exact absurd h (refuse_ne_ok _ as)

theorem isSorted_of_readEntries {members : List (Option String × Draft)} {done t : Table α}
    (hdone : done.IsSorted) (h : readEntries item done members = .ok t) : t.IsSorted := by
  induction members generalizing done with
  | nil =>
    cases h
    exact hdone
  | cons member rest ih =>
    obtain ⟨name, value⟩ := member
    cases name with
    | none => cases h
    | some name =>
      obtain ⟨a, -, h⟩ := exists_of_bind_eq_ok h
      exact ih (hdone.put name a) h

theorem isSorted_of_table {t : Table α} (h : table item draft = .ok t) : t.IsSorted := by
  unfold table at h
  split at h
  · obtain ⟨found, hfound, hended⟩ := exists_of_bind_eq_ok h
    rw [← eq_of_ended hended]
    exact isSorted_of_readEntries Table.isSorted_nil hfound
  · exact absurd h (refuse_ne_ok _ t)

theorem tidy_of_present {read : Option Json} (h : present draft = .ok read) :
    ∀ value ∈ read, value.tidy = value := by
  obtain ⟨value, hvalue, rfl⟩ := exists_of_map_eq_ok h
  rintro _ ⟨⟩
  unfold anything at hvalue
  split at hvalue
  · rw [← Except.ok.inj hvalue]
    exact Json.tidy_tidy _
  · cases hvalue

theorem exists_of_nullable {read : Option α} (h : nullable item draft = .ok read) :
    ∀ a ∈ read, ∃ draft, item draft = .ok a := by
  unfold nullable at h
  split at h
  · cases h
    exact fun a ha => by cases ha
  · obtain ⟨a, ha, rfl⟩ := exists_of_map_eq_ok h
    rintro _ ⟨⟩
    exact ⟨_, ha⟩

/-- A field that may be left out is as it is when absent, or was read. -/
theorem getD_cases {fields : Fields} {name : String} {absent a : α}
    (h : fields.getD name item absent = .ok a) : a = absent ∨ ∃ draft, item draft = .ok a := by
  unfold Fields.getD at h
  split at h
  · exact Or.inr ⟨_, h⟩
  · exact Or.inl (Except.ok.inj h).symm

end Collections

section Fields

variable {fields : Fields} {name : String}

theorem isSorted_of_getD {α : Type} {item : Draft → Result α} {t : Table α}
    (h : fields.getD name (table item) [] = .ok t) : t.IsSorted := by
  rcases getD_cases h with rfl | ⟨draft, hread⟩
  · exact Table.isSorted_nil
  · exact isSorted_of_table hread

theorem tidy_of_getD {default : Option Json} (h : fields.getD name present none = .ok default) :
    ∀ value ∈ default, value.tidy = value := by
  rcases getD_cases h with rfl | ⟨draft, hread⟩
  · exact fun value hvalue => by cases hvalue
  · exact tidy_of_present hread

theorem exists_of_getD {α : Type} {item : Draft → Result α} {as : List α}
    (h : fields.getD name (list item) [] = .ok as) : ∀ a ∈ as, ∃ draft, item draft = .ok a := by
  rcases getD_cases h with rfl | ⟨draft, hread⟩
  · exact List.forall_mem_nil _
  · exact exists_of_list hread

end Fields

section Records

variable {origin : Origin} {draft : Draft}

theorem isTidy_of_inputParam {p : InputParam} (h : inputParam origin draft = .ok p) : p.IsTidy := by
  obtain ⟨fields, -, h⟩ := exists_of_bind_eq_ok h
  obtain ⟨name, -, h⟩ := exists_of_bind_eq_ok h
  obtain ⟨type, -, h⟩ := exists_of_bind_eq_ok h
  obtain ⟨positional, -, h⟩ := exists_of_bind_eq_ok h
  obtain ⟨default, hdefault, h⟩ := exists_of_bind_eq_ok h
  obtain ⟨optional, -, h⟩ := exists_of_bind_eq_ok h
  obtain ⟨description, -, h⟩ := exists_of_bind_eq_ok h
  obtain ⟨middleware, -, h⟩ := exists_of_bind_eq_ok h
  obtain ⟨endpoints, hendpoints, h⟩ := exists_of_bind_eq_ok h
  cases h
  exact ⟨tidy_of_getD hdefault, isSorted_of_getD hendpoints⟩

theorem isTidy_of_outputParam {p : OutputParam} (h : outputParam origin draft = .ok p) :
    p.IsTidy := by
  obtain ⟨fields, -, h⟩ := exists_of_bind_eq_ok h
  obtain ⟨name, -, h⟩ := exists_of_bind_eq_ok h
  obtain ⟨type, -, h⟩ := exists_of_bind_eq_ok h
  obtain ⟨description, -, h⟩ := exists_of_bind_eq_ok h
  obtain ⟨endpoints, hendpoints, h⟩ := exists_of_bind_eq_ok h
  cases h
  exact ⟨isSorted_of_getD hendpoints⟩

theorem isTidy_of_inputDoc {doc : InputDoc} (h : inputDoc origin draft = .ok doc) : doc.IsTidy := by
  obtain ⟨fields, -, h⟩ := exists_of_bind_eq_ok h
  obtain ⟨name, -, h⟩ := exists_of_bind_eq_ok h
  obtain ⟨description, -, h⟩ := exists_of_bind_eq_ok h
  obtain ⟨type, -, h⟩ := exists_of_bind_eq_ok h
  obtain ⟨default, hdefault, h⟩ := exists_of_bind_eq_ok h
  obtain ⟨optional, -, h⟩ := exists_of_bind_eq_ok h
  obtain ⟨positional, -, h⟩ := exists_of_bind_eq_ok h
  cases h
  exact ⟨tidy_of_getD hdefault⟩

theorem isTidy_of_docs {d : Docs} (h : docs origin draft = .ok d) : d.IsTidy := by
  obtain ⟨fields, -, h⟩ := exists_of_bind_eq_ok h
  obtain ⟨text, -, h⟩ := exists_of_bind_eq_ok h
  obtain ⟨inputs, hinputs, h⟩ := exists_of_bind_eq_ok h
  obtain ⟨outputs, -, h⟩ := exists_of_bind_eq_ok h
  obtain ⟨summary, -, h⟩ := exists_of_bind_eq_ok h
  obtain ⟨exceptions, hexceptions, h⟩ := exists_of_bind_eq_ok h
  cases h
  refine ⟨fun doc hdoc => ?_, isSorted_of_getD hexceptions⟩
  obtain ⟨draft, hdraft⟩ := exists_of_getD hinputs doc hdoc
  exact isTidy_of_inputDoc hdraft

theorem isTidy_of_descriptor {d : Descriptor} (h : descriptor origin draft = .ok d) : d.IsTidy := by
  obtain ⟨fields, -, h⟩ := exists_of_bind_eq_ok h
  obtain ⟨name, -, h⟩ := exists_of_bind_eq_ok h
  obtain ⟨inputs, hinputs, h⟩ := exists_of_bind_eq_ok h
  obtain ⟨outputs, houtputs, h⟩ := exists_of_bind_eq_ok h
  obtain ⟨more, hdocs, h⟩ := exists_of_bind_eq_ok h
  obtain ⟨endpoints, hendpoints, h⟩ := exists_of_bind_eq_ok h
  cases hmake : Descriptor.make name inputs outputs more endpoints with
  | error e =>
    rw [hmake] at h
    cases h
  | ok made =>
    rw [hmake] at h
    cases h
    obtain ⟨-, rfl, rfl, rfl, rfl⟩ := Assembly.make_eq_ok hmake
    refine ⟨fun p hp => ?_, fun p hp => ?_, fun docs hread => ?_, isSorted_of_getD hendpoints⟩
    · obtain ⟨draft, hdraft⟩ := exists_of_getD hinputs p hp
      exact isTidy_of_inputParam hdraft
    · obtain ⟨draft, hdraft⟩ := exists_of_getD houtputs p hp
      exact isTidy_of_outputParam hdraft
    · rcases getD_cases hdocs with habsent | ⟨draft, hdraft⟩
      · rw [habsent] at hread
        cases hread
      · obtain ⟨draft, hdraft⟩ := exists_of_nullable hdraft docs hread
        exact isTidy_of_docs hdraft

end Records

end Wire

namespace HostValue

open Reference (exists_of_bind_eq_ok)

theorem mem_put_tidy {table : Table Json} (h : ∀ entry ∈ table, entry.2.tidy = entry.2)
    (name : String) {value : Json} (hvalue : value.tidy = value) :
    ∀ entry ∈ table.put name value, entry.2.tidy = entry.2 := by
  intro entry hentry
  rcases Table.mem_of_mem_put hentry with rfl | hentry
  · exact hvalue
  · exact h entry hentry

mutual

theorem tidy_of_capture {value : HostValue} {j : Json} (h : value.capture = .ok j) : j.tidy = j := by
  cases value with
  | list items =>
    obtain ⟨captured, hcaptured, h⟩ := exists_of_bind_eq_ok h
    cases h
    exact Json.tidy_arr_eq (tidy_of_captureAll hcaptured)
  | map entries =>
    obtain ⟨captured, hcaptured, h⟩ := exists_of_bind_eq_ok h
    cases h
    obtain ⟨hsorted, hvalues⟩ :=
      tidy_of_captureEntries Table.isSorted_nil (List.forall_mem_nil _) hcaptured
    exact Json.tidy_obj_eq hsorted hvalues
  | int n =>
    unfold capture at h
    split at h
    · cases h
      rfl
    · cases h
  | _ =>
    cases h
    rfl

theorem tidy_of_captureAll {items : List HostValue} {captured : List Json}
    (h : captureAll items = .ok captured) : ∀ item ∈ captured, item.tidy = item := by
  cases items with
  | nil =>
    cases h
    exact List.forall_mem_nil _
  | cons first rest =>
    obtain ⟨value, hvalue, h⟩ := exists_of_bind_eq_ok h
    obtain ⟨others, hothers, h⟩ := exists_of_bind_eq_ok h
    cases h
    exact List.forall_mem_cons.mpr ⟨tidy_of_capture hvalue, tidy_of_captureAll hothers⟩

theorem tidy_of_captureEntries {entries : List (HostValue × HostValue)} {done captured : Table Json}
    (hsorted : done.IsSorted) (hvalues : ∀ entry ∈ done, entry.2.tidy = entry.2)
    (h : captureEntries done entries = .ok captured) :
    captured.IsSorted ∧ ∀ entry ∈ captured, entry.2.tidy = entry.2 := by
  match entries with
  | [] =>
    cases h
    exact ⟨hsorted, hvalues⟩
  | (key, value) :: rest =>
    obtain ⟨name, -, h⟩ := exists_of_bind_eq_ok h
    obtain ⟨first, hfirst, h⟩ := exists_of_bind_eq_ok h
    exact tidy_of_captureEntries (hsorted.put name first)
      (mem_put_tidy hvalues name (tidy_of_capture hfirst)) h

end

end HostValue

/-- A default that a host gives is tidy if it is captured. -/
theorem DeclaredDefault.tidy_of_ofHost {value : HostValue} {j : Json} (h : ofHost value = .value j) :
    j.tidy = j := by
  unfold ofHost at h
  split at h
  · rename_i captured hcaptured
    cases h
    exact HostValue.tidy_of_capture hcaptured
  · cases h

structure DeclaredInput.IsTidy (input : DeclaredInput) : Prop where
  default : ∀ value, input.default = some (.value value) → value.tidy = value
  endpoints : input.endpoints.IsSorted

structure Declaration.IsTidy (d : Declaration) : Prop where
  inputs : ∀ input ∈ d.inputs, input.IsTidy
  outputs : ∀ output ∈ d.outputs, output.endpoints.IsSorted
  docs : ∀ docs ∈ d.docs, docs.IsTidy
  endpoints : d.endpoints.IsSorted

namespace Assembly

variable {limits : Reference.Limits} {scope : Scope} {d : Declaration} {a : Assembled}

theorem Declares.isTidy {input : DeclaredInput} {p : InputParam}
    (h : Declares limits scope input p) (hinput : input.IsTidy) : p.IsTidy where
  default value hvalue := by
    refine hinput.default value ?_
    rw [← h.default, hvalue]
    rfl
  endpoints := h.endpoints ▸ hinput.endpoints

theorem isTidy_of_assemble (h : (assemble limits scope d).outcome = .ok a) (hd : d.IsTidy) :
    a.descriptor.IsTidy := by
  obtain ⟨inputs, outputs, hparts⟩ := exists_assembles h
  refine ⟨fun q hq => ?_, fun q hq => ?_, hparts.docs ▸ hd.docs, hparts.endpoints ▸ hd.endpoints⟩
  · obtain ⟨i, hi⟩ := List.getElem?_of_mem hq
    obtain ⟨input, p, hinput, hdeclares, hmerge⟩ := hparts.exists_enrich hi
    have htidy := hdeclares.isTidy (hd.inputs input (List.mem_of_getElem? hinput))
    rcases hmerge with rfl | ⟨-, rfl⟩
    · exact ⟨htidy.default, htidy.endpoints⟩
    · exact ⟨htidy.default, htidy.endpoints⟩
  · obtain ⟨i, hi⟩ := List.getElem?_of_mem hq
    obtain ⟨output, p, houtput, hdeclares, rfl⟩ := hparts.exists_enrichOutput hi
    refine ⟨?_⟩
    change p.endpoints.IsSorted
    rw [hdeclares.endpoints]
    exact hd.outputs output (List.mem_of_getElem? houtput)

end Assembly
end Callable
