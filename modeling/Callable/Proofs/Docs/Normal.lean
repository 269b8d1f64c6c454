import Callable.Docs.Normal
import Callable.Proofs.Reference.Canonical
import Mathlib.Data.List.Forall2

/-!
Documentation in normal form. Readers of docstrings leave results without names, so the normal form
names them by their places; and the types that it has are canonical spellings in the scope they were
read in, which spelling them once more does not change.
-/
namespace Callable.Docs

/-- No result has a name. -/
def Unnamed (outputs : List OutputDoc) : Prop := ∀ doc ∈ outputs, doc.name = none

theorem Unnamed.append {outputs more : List OutputDoc} (h : Unnamed outputs) (hmore : Unnamed more) :
    Unnamed (outputs ++ more) := by
  intro doc hdoc
  rcases List.mem_append.mp hdoc with hdoc | hdoc
  · exact h doc hdoc
  · exact hmore doc hdoc

theorem unnamed_singleton {doc : OutputDoc} (h : doc.name = none) : Unnamed [doc] :=
  List.forall_mem_singleton.mpr h

theorem name_eq_none_of_entry {text : List Char} {doc : OutputDoc}
    (h : returnEntry? text = some doc) : doc.name = none := by
  unfold returnEntry? at h
  split at h
  · cases h
  · split at h <;> cases h
    rfl

theorem Unnamed.addReturnLine {done : List OutputDoc} (h : Unnamed done) (text : List Char) :
    Unnamed (addReturnLine done text) := by
  unfold Docs.addReturnLine
  split
  · rename_i doc hentry
    exact List.forall_mem_cons.mpr ⟨name_eq_none_of_entry hentry, h⟩
  · obtain ⟨hlast, hbefore⟩ := List.forall_mem_cons.mp h
    exact List.forall_mem_cons.mpr ⟨hlast, hbefore⟩
  · exact unnamed_singleton rfl

theorem unnamed_allReturnDocs (sections : List Section) : Unnamed (allReturnDocs sections) := by
  intro doc hdoc
  refine List.foldlRecOn (motive := Unnamed) _ addReturnLine (fun doc hdoc => by cases hdoc)
    (fun done hdone text _ => hdone.addReturnLine text) doc (List.mem_reverse.mp hdoc)

theorem forall_mem_of_modifyFirst? {α : Type} {P : α → Prop} {test : α → Bool} {change : α → α}
    (hchange : ∀ a, P a → P (change a)) {as bs : List α} (has : ∀ a ∈ as, P a)
    (h : modifyFirst? test change as = some bs) : ∀ b ∈ bs, P b := by
  induction as generalizing bs with
  | nil => cases h
  | cons a rest ih =>
    obtain ⟨ha, hrest⟩ := List.forall_mem_cons.mp has
    unfold modifyFirst? at h
    split at h
    · cases h
      exact List.forall_mem_cons.mpr ⟨hchange a ha, hrest⟩
    · obtain ⟨more, hmore, rfl⟩ := Option.map_eq_some_iff.mp h
      exact List.forall_mem_cons.mpr ⟨ha, ih hrest hmore⟩

theorem Unnamed.applyReturnType {outputs : List OutputDoc} (h : Unnamed outputs) (type : String) :
    Unnamed (applyReturnType type outputs) := by
  have hchange (doc : OutputDoc) (hdoc : doc.name = none) :
      { doc with type := some type : OutputDoc }.name = none := hdoc
  unfold Docs.applyReturnType
  simp only
  cases hfound : modifyFirst? (fun doc : OutputDoc => doc.type.isNone)
      (fun doc => { doc with type := some type }) outputs with
  | none => exact h.append (unnamed_singleton rfl)
  | some changed => exact forall_mem_of_modifyFirst? hchange h hfound

/-- What a field adds to documentation. -/
inductive Field.Adds (field : Field) (docs : Docs) : Docs → Prop
  | param (name : String) (type : Option String) :
      FieldKind.ofTag? field.tag = some .param →
      Adds field docs { docs with
        inputs := docs.inputs ++ [{ name, type, description := some field.body }] }
  | type {inputs : List InputDoc} :
      FieldKind.ofTag? field.tag = some .type → applyType field docs.inputs = some inputs →
      Adds field docs { docs with inputs }
  | raises (name : String) :
      FieldKind.ofTag? field.tag = some .raises →
      Adds field docs { docs with exceptions := docs.exceptions.put name field.body }
  | returns :
      FieldKind.ofTag? field.tag = some .returns →
      Adds field docs { docs with outputs := docs.outputs ++ [{ description := some field.body }] }
  | returnType :
      FieldKind.ofTag? field.tag = some .returnType → field.body ≠ "" →
      Adds field docs { docs with outputs := applyReturnType field.body docs.outputs }

theorem Field.adds_of_apply {docs docs' : Docs} {field : Field} (h : field.apply docs = .ok docs') :
    field.Adds docs docs' := by
  cases hkind : FieldKind.ofTag? field.tag with
  | none => simp [Field.apply, hkind] at h
  | some kind =>
    cases kind <;> simp only [Field.apply, hkind] at h
    · split at h <;> cases h <;> exact .param _ _ hkind
    · split at h <;> cases h
      rename_i happlied
      exact .type hkind happlied
    · split at h <;> cases h
      exact .raises _ hkind
    · cases h
      exact .returns hkind
    · split at h <;> cases h
      rename_i hbody
      exact .returnType hkind hbody

theorem Unnamed.apply {docs docs' : Docs} (h : Unnamed docs.outputs) {field : Field}
    (happly : field.apply docs = .ok docs') : Unnamed docs'.outputs := by
  cases Field.adds_of_apply happly with
  | param | type | raises => exact h
  | returns => exact h.append (unnamed_singleton rfl)
  | returnType => exact h.applyReturnType field.body

theorem Unnamed.applyFields {docs docs' : Docs} (h : Unnamed docs.outputs) {fields : List Field}
    (happly : applyFields docs fields = .ok docs') : Unnamed docs'.outputs := by
  induction fields generalizing docs with
  | nil =>
    cases happly
    exact h
  | cons field rest ih =>
    obtain ⟨next, hnext, hrest⟩ := Reference.exists_of_bind_eq_ok happly
    exact ih (h.apply hnext) hrest

theorem unnamed_of_readSectioned {sections : SectionSet} {docstring : String} {docs : Docs}
    (h : (readSectioned sections docstring).outcome = .ok docs) : Unnamed docs.outputs := by
  unfold readSectioned at h
  simp only [Logged.bind_eq_ok_iff, Logged.outcome_pure] at h
  obtain ⟨found, -, inputs, -, hdocs⟩ := h
  cases hdocs
  exact unnamed_allReturnDocs found.sections

theorem unnamed_of_readFieldList {docstring : String} {docs : Docs}
    (h : readFieldList docstring = .ok docs) : Unnamed docs.outputs := by
  unfold readFieldList at h
  refine Unnamed.applyFields ?_ h
  exact fun doc hdoc => by cases hdoc

/-- The reader goes by the text; its documentation is not given beforehand. -/
def Reader.ReadsText : Reader → Prop
  | .given _ => False
  | _ => True

theorem unnamed_of_read {reader : Reader} (hreader : reader.ReadsText) {docstring : String}
    {docs : Docs} (h : (reader.read docstring).outcome = .ok docs) : Unnamed docs.outputs := by
  cases reader with
  | sectioned sections => exact unnamed_of_readSectioned h
  | fieldList => exact unnamed_of_readFieldList h
  | styled choice sections =>
    simp only [Reader.read, Logged.bind_eq_ok_iff] at h
    obtain ⟨-, -, h⟩ := h
    split at h
    · exact unnamed_of_readSectioned h
    · exact unnamed_of_readFieldList h
  | given docs => cases hreader

section Normal

variable {limits : Reference.Limits} {scope : Scope}

/-- An entry on a parameter in normal form: its type as the scope spells it, its default as a value of
that type, and the flags it leaves open as they follow from the others. -/
theorem normalizeInput_eq_ok {doc q : InputDoc}
    (h : (normalizeInput limits scope doc).outcome = .ok q) :
    ∃ reference default,
      (doc.type = none ∧ reference = none ∧ default = (documentedDefault doc).2 ∨
        ∃ text type spelling, doc.type = some text ∧
          Reference.decode limits scope text = .ok type ∧
          Reference.encode limits scope type = .ok spelling ∧ reference = some spelling ∧
          fitDefault doc.name spelling type (documentedDefault doc).2 = .ok default) ∧
      q = {
        name := doc.name
        description := nonEmpty (tidy (documentedDefault doc).1)
        type := reference
        default
        optional := some (doc.optional.getD (default.isSome ||
          !(doc.positional.getD !(default.isSome || doc.optional = some true))))
        positional := some (doc.positional.getD !(default.isSome || doc.optional = some true)) } := by
  unfold normalizeInput at h
  dsimp only at h
  split at h
  · rename_i hnone
    simp only [Logged.bind_eq_ok_iff, Logged.outcome_pure] at h
    obtain ⟨_, htold, hq⟩ := h
    cases htold
    exact ⟨none, _, Or.inl ⟨hnone, rfl, rfl⟩, (Except.ok.inj hq).symm⟩
  · rename_i text htext
    simp only [Logged.bind_eq_ok_iff, Logged.mapError_eq_ok_iff, Logged.outcome_ofExcept,
      Logged.outcome_pure, Reference.outcome_encodeLogged] at h
    obtain ⟨type, hdecode, spelling, hencode, default, hfits, _, htold, hq⟩ := h
    cases htold
    exact ⟨some spelling, default,
      Or.inr ⟨text, type, spelling, htext, hdecode, hencode, rfl, hfits⟩, (Except.ok.inj hq).symm⟩

theorem normalizeOutput_eq_ok {index count : Nat} {doc q : OutputDoc}
    (h : (normalizeOutput limits scope index count doc).outcome = .ok q) :
    q.name = some (doc.name.getD (defaultOutputName index count)) ∧
      q.description = nonEmpty (Text.trim (doc.description.getD "").toList) ∧
      (doc.type = none ∧ q.type = none ∨ ∃ text spelling, doc.type = some text ∧
        Reference.canonical limits scope text = .ok spelling ∧ q.type = some spelling) := by
  unfold normalizeOutput at h
  split at h
  · rename_i hnone
    simp only [Logged.bind_eq_ok_iff, Logged.outcome_pure] at h
    obtain ⟨_, htold, hq⟩ := h
    cases htold
    cases hq
    exact ⟨rfl, rfl, Or.inl ⟨hnone, rfl⟩⟩
  · rename_i text htext
    simp only [Logged.bind_eq_ok_iff, Logged.outcome_pure] at h
    obtain ⟨told, htold, hq⟩ := h
    change (Logged.mapError _ _ >>= fun spelling => pure (some spelling)).outcome = _ at htold
    simp only [Logged.bind_eq_ok_iff, Logged.mapError_eq_ok_iff, Logged.outcome_pure,
      Reference.outcome_canonicalLogged] at htold
    obtain ⟨spelling, hcanonical, heq⟩ := htold
    cases heq
    cases hq
    exact ⟨rfl, rfl, Or.inr ⟨text, spelling, htext, hcanonical, rfl⟩⟩

/-- Entries on parameters are normalised one by one. -/
theorem normalizeInputs_eq_ok {docs results : List InputDoc}
    (h : (normalizeInputs limits scope docs).outcome = .ok results) :
    List.Forall₂ (fun doc q => (normalizeInput limits scope doc).outcome = .ok q) docs results := by
  induction docs generalizing results with
  | nil =>
    cases h
    exact List.Forall₂.nil
  | cons doc rest ih =>
    simp only [normalizeInputs, Logged.bind_eq_ok_iff, Logged.outcome_pure] at h
    obtain ⟨q, hq, more, hmore, hresults⟩ := h
    cases hresults
    exact List.Forall₂.cons hq (ih hmore)

/-- Entries on results are normalised one by one, each at its place. -/
theorem normalizeOutputs_eq_ok {index count : Nat} {docs results : List OutputDoc}
    (h : (normalizeOutputs limits scope index count docs).outcome = .ok results) :
    results.length = docs.length ∧ ∀ (i : Nat) q, results[i]? = some q →
      ∃ doc ∈ docs, (normalizeOutput limits scope (index + i) count doc).outcome = .ok q := by
  induction docs generalizing index results with
  | nil =>
    cases h
    exact ⟨rfl, fun i q hq => by cases hq⟩
  | cons doc rest ih =>
    simp only [normalizeOutputs, Logged.bind_eq_ok_iff, Logged.outcome_pure] at h
    obtain ⟨first, hfirst, more, hmore, hresults⟩ := h
    cases hresults
    obtain ⟨hlength, hplaces⟩ := ih hmore
    refine ⟨by rw [List.length_cons, List.length_cons, hlength], fun i q hq => ?_⟩
    cases i with
    | zero =>
      cases hq
      exact ⟨doc, List.mem_cons_self, hfirst⟩
    | succ i =>
      obtain ⟨found, hfound, hnormal⟩ := hplaces i q hq
      rw [Nat.add_right_comm, Nat.add_assoc] at hnormal
      exact ⟨found, List.mem_cons_of_mem _ hfound, hnormal⟩

end Normal

/-- Documentation that fits a scope: its types are canonical spellings there, and its results have the
names of their places. -/
structure Fits (limits : Reference.Limits) (scope : Scope) (docs : Docs) : Prop where
  inputs : ∀ doc ∈ docs.inputs, ∀ text, doc.type = some text →
    Reference.canonical limits scope text = .ok text
  outputs : ∀ doc ∈ docs.outputs, ∀ text, doc.type = some text →
    Reference.canonical limits scope text = .ok text
  names : ∀ (i : Nat) doc, docs.outputs[i]? = some doc →
    doc.name = some (defaultOutputName i docs.outputs.length)

section Fits

variable {r : Registry} {limits : Reference.Limits}

theorem canonical_of_canonical (hr : r.Reached) {text spelling : String}
    (h : Reference.canonical limits r.scope text = .ok spelling) :
    Reference.canonical limits r.scope spelling = .ok spelling := by
  obtain ⟨type, -, hencode⟩ := (Reference.canonical_eq_ok_iff limits r.scope text spelling).mp h
  exact Reference.canonical_of_encode hr.resolve_of_nameOf hr.isName hencode

theorem canonical_of_normalizeInput (hr : r.Reached) {doc q : InputDoc}
    (h : (normalizeInput limits r.scope doc).outcome = .ok q) {text : String}
    (htext : q.type = some text) : Reference.canonical limits r.scope text = .ok text := by
  obtain ⟨reference, _, ⟨-, rfl, -⟩ | ⟨_, type, spelling, -, -, hencode, rfl, -⟩, rfl⟩ :=
    normalizeInput_eq_ok h
  · cases htext
  · cases htext
    exact Reference.canonical_of_encode hr.resolve_of_nameOf hr.isName hencode

theorem canonical_of_normalizeOutput (hr : r.Reached) {index count : Nat} {doc q : OutputDoc}
    (h : (normalizeOutput limits r.scope index count doc).outcome = .ok q) {text : String}
    (htext : q.type = some text) : Reference.canonical limits r.scope text = .ok text := by
  obtain ⟨-, -, ⟨-, hnone⟩ | ⟨_, spelling, -, hcanonical, htype⟩⟩ := normalizeOutput_eq_ok h
  · cases hnone.symm.trans htext
  · cases htype.symm.trans htext
    exact canonical_of_canonical hr hcanonical

/-- What is read of a docstring in the scope of a registry fits that scope. -/
theorem fits_of_ofDocstring (hr : r.Reached) {reader : Reader} (hreader : reader.ReadsText)
    {docstring : String} {docs : Docs}
    (h : (ofDocstring limits r.scope reader docstring).outcome = .ok docs) :
    Fits limits r.scope docs := by
  unfold ofDocstring normalize at h
  simp only [Logged.bind_eq_ok_iff, Logged.outcome_pure] at h
  obtain ⟨found, hread, inputs, hinputs, outputs, houtputs, hdocs⟩ := h
  have hunnamed := unnamed_of_read hreader hread
  obtain ⟨hlength, hplaces⟩ := normalizeOutputs_eq_ok houtputs
  cases hdocs
  refine ⟨?_, ?_, ?_⟩
  · intro q hq text htext
    obtain ⟨i, hi, rfl⟩ := List.getElem_of_mem hq
    obtain ⟨hlength, hplaces⟩ := List.forall₂_iff_get.mp (normalizeInputs_eq_ok hinputs)
    exact canonical_of_normalizeInput hr (hplaces i (hlength ▸ hi) hi) htext
  · intro q hq text htext
    obtain ⟨i, hi⟩ := List.getElem?_of_mem hq
    obtain ⟨doc, -, hnormal⟩ := hplaces i q hi
    exact canonical_of_normalizeOutput hr hnormal htext
  · intro i q hq
    obtain ⟨doc, hdoc, hnormal⟩ := hplaces i q hq
    obtain ⟨hname, -, -⟩ := normalizeOutput_eq_ok hnormal
    rw [hunnamed doc hdoc, Option.getD_none, Nat.zero_add, ← hlength] at hname
    exact hname

end Fits

end Callable.Docs
