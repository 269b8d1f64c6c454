import Callable.Proofs.Wire.Value

/-!
What each record is read from. For every kind of record one statement: an object that holds its fields,
in whatever order, is read as the record with these fields. Beyond this nothing is known of how records
are read, neither where it is shown that what was written is read back nor where it is shown that what
the schema admits can be read.
-/
namespace Callable.Wire

open Json (Draft)

theorem ok_bind {ε α β : Type} (a : α) (next : α → Except ε β) : (Except.ok a >>= next) = next a :=
  rfl

section Records

variable {origin : Origin} {members : List (String × Json)}
  (hnodup : (members.map Prod.fst).Nodup)

include hnodup

/-- What is made of a record depends on what the object holds under the names of its fields. -/
theorem record_bind {β : Type} {fields : List Field} {closed : Bool} {next : Fields → Result β}
    {result : Result β}
    (hknown : closed = true → ∀ member ∈ members, member.1 ∈ fields.map Field.name)
    (hchecks : ∀ field ∈ fields, ∀ value, members.lookup field.name = some value →
      field.check (.ofJson value) = .ok ())
    (hnext : ∀ found : Fields, (∀ field ∈ fields, found.found.lookup field.name =
      (members.lookup field.name).map Draft.ofJson) → next found = result) :
    (record origin fields closed (.ofJson (.obj members)) >>= next) = result := by
  obtain ⟨found, hrecord, hfound⟩ := exists_record origin hnodup
    (fun hclosed member hmember => List.mem_map.mp (hknown hclosed member hmember)) hchecks
  rw [hrecord, ok_bind]
  exact hnext found hfound

theorem endpoint_ofJson {e : Endpoint}
    (hmiddleware : Holds members "middleware" (list string) (some []) e.middleware) :
    endpoint origin (.ofJson (.obj members)) = .ok e := by
  rw [endpoint]
  refine record_bind hnodup (fun hclosed => by cases hclosed) ?_ fun fields hfound => ?_
  · simp only [List.forall_mem_singleton]
    exact hmiddleware.check
  · rw [hmiddleware.getD (hfound _ (List.mem_singleton_self _))]
    rfl

theorem inputParam_ofJson {p : InputParam} (hname : Holds members "name" string none p.name)
    (htype : Holds members "type" string none p.type)
    (hpositional : Holds members "positional" boolean none p.positional)
    (hdefault : Holds members "default" present (some none) p.default)
    (hoptional : Holds members "optional" (nullable boolean) (some none) p.optional)
    (hdescription : Holds members "description" (nullable string) (some none) p.description)
    (hmiddleware : Holds members "middleware" (list string) (some []) p.middleware)
    (hendpoints : Holds members "endpoints" (endpoints origin) (some []) p.endpoints) :
    inputParam origin (.ofJson (.obj members)) = .ok p := by
  rw [inputParam]
  refine record_bind hnodup (fun hclosed => by cases hclosed) ?_ fun fields hfound => ?_
  · simp only [List.forall_mem_cons]
    exact ⟨hname.check, htype.check, hpositional.check, hdefault.check, hoptional.check,
      hdescription.check, hmiddleware.check, hendpoints.check, List.forall_mem_nil _⟩
  · simp only [List.forall_mem_cons] at hfound
    obtain ⟨fname, ftype, fpositional, fdefault, foptional, fdescription, fmiddleware,
      fendpoints, -⟩ := hfound
    rw [hname.need fname, ok_bind, htype.need ftype, ok_bind, hpositional.need fpositional,
      ok_bind, hdefault.getD fdefault, ok_bind, hoptional.getD foptional, ok_bind,
      hdescription.getD fdescription, ok_bind, hmiddleware.getD fmiddleware, ok_bind,
      hendpoints.getD fendpoints]
    rfl

theorem outputParam_ofJson {p : OutputParam} (hname : Holds members "name" string none p.name)
    (htype : Holds members "type" string none p.type)
    (hdescription : Holds members "description" (nullable string) (some none) p.description)
    (hendpoints : Holds members "endpoints" (endpoints origin) (some []) p.endpoints) :
    outputParam origin (.ofJson (.obj members)) = .ok p := by
  rw [outputParam]
  refine record_bind hnodup (fun hclosed => by cases hclosed) ?_ fun fields hfound => ?_
  · simp only [List.forall_mem_cons]
    exact ⟨hname.check, htype.check, hdescription.check, hendpoints.check,
      List.forall_mem_nil _⟩
  · simp only [List.forall_mem_cons] at hfound
    obtain ⟨fname, ftype, fdescription, fendpoints, -⟩ := hfound
    rw [hname.need fname, ok_bind, htype.need ftype, ok_bind, hdescription.getD fdescription,
      ok_bind, hendpoints.getD fendpoints]
    rfl

theorem inputDoc_ofJson {doc : InputDoc} (hname : Holds members "name" string none doc.name)
    (hdescription : Holds members "description" (nullable string) (some none) doc.description)
    (htype : Holds members "type" (nullable string) (some none) doc.type)
    (hdefault : Holds members "default" present (some none) doc.default)
    (hoptional : Holds members "optional" (nullable boolean) (some none) doc.optional)
    (hpositional : Holds members "positional" (nullable boolean) (some none) doc.positional) :
    inputDoc origin (.ofJson (.obj members)) = .ok doc := by
  rw [inputDoc]
  refine record_bind hnodup (fun hclosed => by cases hclosed) ?_ fun fields hfound => ?_
  · simp only [List.forall_mem_cons]
    exact ⟨hname.check, hdescription.check, htype.check, hdefault.check, hoptional.check,
      hpositional.check, List.forall_mem_nil _⟩
  · simp only [List.forall_mem_cons] at hfound
    obtain ⟨fname, fdescription, ftype, fdefault, foptional, fpositional, -⟩ := hfound
    rw [hname.need fname, ok_bind, hdescription.getD fdescription, ok_bind, htype.getD ftype,
      ok_bind, hdefault.getD fdefault, ok_bind, hoptional.getD foptional, ok_bind,
      hpositional.getD fpositional]
    rfl

theorem outputDoc_ofJson {doc : OutputDoc}
    (hname : Holds members "name" (nullable string) (some none) doc.name)
    (htype : Holds members "type" (nullable string) (some none) doc.type)
    (hdescription : Holds members "description" (nullable string) (some none) doc.description) :
    outputDoc origin (.ofJson (.obj members)) = .ok doc := by
  rw [outputDoc]
  refine record_bind hnodup (fun hclosed => by cases hclosed) ?_ fun fields hfound => ?_
  · simp only [List.forall_mem_cons]
    exact ⟨hname.check, htype.check, hdescription.check, List.forall_mem_nil _⟩
  · simp only [List.forall_mem_cons] at hfound
    obtain ⟨fname, ftype, fdescription, -⟩ := hfound
    rw [hname.getD fname, ok_bind, htype.getD ftype, ok_bind, hdescription.getD fdescription]
    rfl

theorem docs_ofJson {d : Docs}
    (htext : Holds members "original" (nullable string) (some none) d.text)
    (hinputs : Holds members "input_params" (list (inputDoc origin)) (some []) d.inputs)
    (houtputs : Holds members "output_params" (list (outputDoc origin)) (some []) d.outputs)
    (hsummary : Holds members "summary" (nullable string) (some none) d.summary)
    (hexceptions : Holds members "exceptions" (table string) (some []) d.exceptions) :
    docs origin (.ofJson (.obj members)) = .ok d := by
  rw [docs]
  refine record_bind hnodup (fun hclosed => by cases hclosed) ?_ fun fields hfound => ?_
  · simp only [List.forall_mem_cons]
    exact ⟨htext.check, hinputs.check, houtputs.check, hsummary.check, hexceptions.check,
      List.forall_mem_nil _⟩
  · simp only [List.forall_mem_cons] at hfound
    obtain ⟨ftext, finputs, foutputs, fsummary, fexceptions, -⟩ := hfound
    rw [htext.getD ftext, ok_bind, hinputs.getD finputs, ok_bind, houtputs.getD foutputs,
      ok_bind, hsummary.getD fsummary, ok_bind, hexceptions.getD fexceptions]
    rfl

/-- A descriptor has no other members, and is read if it can be made. -/
theorem descriptor_ofJson
    (hknown : ∀ member ∈ members,
      member.1 ∈ ["name", "input_params", "output_params", "docstring", "endpoints"])
    {name : String} {inputs : List InputParam} {outputs : List OutputParam} {d : Option Docs}
    {more : Endpoints} (hname : Holds members "name" string none name)
    (hinputs : Holds members "input_params" (list (inputParam origin)) (some []) inputs)
    (houtputs : Holds members "output_params" (list (outputParam origin)) (some []) outputs)
    (hdocs : Holds members "docstring" (nullable (docs origin)) (some none) d)
    (hendpoints : Holds members "endpoints" (endpoints origin) (some []) more) :
    descriptor origin (.ofJson (.obj members)) =
      (Descriptor.make name inputs outputs d more).mapError .invalid := by
  rw [descriptor]
  refine record_bind hnodup (fun _ => hknown) ?_ fun fields hfound => ?_
  · simp only [List.forall_mem_cons]
    exact ⟨hname.check, hinputs.check, houtputs.check, hdocs.check, hendpoints.check,
      List.forall_mem_nil _⟩
  · simp only [List.forall_mem_cons] at hfound
    obtain ⟨fname, finputs, foutputs, fdocs, fendpoints, -⟩ := hfound
    rw [hname.need fname, ok_bind, hinputs.getD finputs, ok_bind, houtputs.getD foutputs,
      ok_bind, hdocs.getD fdocs, ok_bind, hendpoints.getD fendpoints, ok_bind]

end Records

end Callable.Wire
