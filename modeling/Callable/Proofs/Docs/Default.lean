import Callable.Proofs.Docs.Normal

/-!
Defaults and the flags that go with them. A reader of docstrings leaves defaults where they are told, in
the descriptions, and says nothing of positions; so both come from the normal form. Whether a parameter is
optional may be said before, and then stays as it was said: a parameter with a default is optional unless
its entry has the flag `false`. Entries in sections have a flag always, those of field lists only after a
field on the type.
-/
namespace Callable.Docs

/-- An entry leaves open what the normal form finds out: no default, no word on positions. -/
structure Untold (doc : InputDoc) : Prop where
  default : doc.default = none
  positional : doc.positional = none

section Entries

variable {P : InputDoc → Prop}

/-- What holds of new entries and of continued ones holds of the entries of a section. -/
theorem forall_mem_of_paramDocs (hentry : ∀ entry : ParamEntry, P entry.doc)
    (hcontinued : ∀ (doc : InputDoc) (description : Option String), P doc →
      P { doc with description := description })
    {header : String} {lines : List (Nat × List Char)} {done docs : List InputDoc}
    (hdone : ∀ doc ∈ done, P doc) (h : paramDocs header done lines = .ok docs) :
    ∀ doc ∈ docs, P doc := by
  induction lines generalizing done with
  | nil =>
    cases h
    exact fun doc hdoc => hdone doc (List.mem_reverse.mp hdoc)
  | cons line rest ih =>
    obtain ⟨number, text⟩ := line
    unfold paramDocs at h
    split at h
    · rename_i entry _
      exact ih (List.forall_mem_cons.mpr ⟨hentry entry, hdone⟩) h
    · obtain ⟨hlast, hbefore⟩ := List.forall_mem_cons.mp hdone
      exact ih (List.forall_mem_cons.mpr ⟨hcontinued _ _ hlast, hbefore⟩) h
    · cases h

/-- The entries of the first section, if it is on parameters, and those of the others. -/
theorem exists_of_allParamDocs_cons {s : Section} {rest : List Section} {docs : List InputDoc}
    (h : allParamDocs (s :: rest) = .ok docs) :
    ∃ here, (s.kind = .params ∧ paramDocs s.header [] s.lines = .ok here ∨
        s.kind ≠ .params ∧ here = []) ∧
      ∃ more, allParamDocs rest = .ok more ∧ docs = here ++ more := by
  unfold allParamDocs at h
  by_cases hkind : s.kind = .params
  · rw [if_pos hkind] at h
    obtain ⟨here, hhere, h⟩ := Reference.exists_of_bind_eq_ok h
    obtain ⟨more, hmore, h⟩ := Reference.exists_of_bind_eq_ok h
    cases h
    exact ⟨here, Or.inl ⟨hkind, hhere⟩, more, hmore, rfl⟩
  · rw [if_neg hkind] at h
    obtain ⟨here, hhere, h⟩ := Reference.exists_of_bind_eq_ok h
    obtain ⟨more, hmore, h⟩ := Reference.exists_of_bind_eq_ok h
    cases h
    cases hhere
    exact ⟨[], Or.inr ⟨hkind, rfl⟩, more, hmore, rfl⟩

theorem forall_mem_of_allParamDocs (hentry : ∀ entry : ParamEntry, P entry.doc)
    (hcontinued : ∀ (doc : InputDoc) (description : Option String), P doc →
      P { doc with description := description })
    {sections : List Section} {docs : List InputDoc} (h : allParamDocs sections = .ok docs) :
    ∀ doc ∈ docs, P doc := by
  induction sections generalizing docs with
  | nil =>
    cases h
    exact List.forall_mem_nil _
  | cons s rest ih =>
    obtain ⟨here, hhere, more, hmore, rfl⟩ := exists_of_allParamDocs_cons h
    refine List.forall_mem_append.mpr ⟨?_, ih hmore⟩
    rcases hhere with ⟨-, hhere⟩ | ⟨-, rfl⟩
    · exact forall_mem_of_paramDocs hentry hcontinued (List.forall_mem_nil _) hhere
    · exact List.forall_mem_nil _

theorem forall_mem_of_modifyLast? {α : Type} {Q : α → Prop} {change : α → α}
    (hchange : ∀ a, Q a → Q (change a)) {as bs : List α} (has : ∀ a ∈ as, Q a)
    (h : modifyLast? change as = some bs) : ∀ b ∈ bs, Q b := by
  fun_induction modifyLast? change as generalizing bs with
  | case1 => cases h
  | case2 a =>
    cases h
    exact List.forall_mem_singleton.mpr (hchange a (List.forall_mem_singleton.mp has))
  | case3 a rest _ ih =>
    obtain ⟨ha, hrest⟩ := List.forall_mem_cons.mp has
    obtain ⟨more, hmore, rfl⟩ := Option.map_eq_some_iff.mp h
    exact List.forall_mem_cons.mpr ⟨ha, ih hrest hmore⟩

end Entries

/-- A field on a type changes the type and the flag of an entry, and nothing else. -/
theorem untold_of_applyType {field : Field} {inputs changed : List InputDoc}
    (h : ∀ doc ∈ inputs, Untold doc) (happly : applyType field inputs = some changed) :
    ∀ doc ∈ changed, Untold doc := by
  have hchange : ∀ (type : Option String) (optional : Bool) (doc : InputDoc), Untold doc →
      Untold { doc with type := type, optional := some optional } :=
    fun type optional doc hdoc => ⟨hdoc.default, hdoc.positional⟩
  unfold applyType at happly
  dsimp only at happly
  split at happly
  · exact forall_mem_of_modifyLast? (hchange _ _) h happly
  · exact forall_mem_of_modifyFirst? (hchange _ _) h happly
  · cases happly

theorem untold_of_apply {docs docs' : Docs} {field : Field} (h : ∀ doc ∈ docs.inputs, Untold doc)
    (happly : field.apply docs = .ok docs') : ∀ doc ∈ docs'.inputs, Untold doc := by
  cases Field.adds_of_apply happly with
  | param name type hkind =>
    exact List.forall_mem_append.mpr ⟨h, List.forall_mem_singleton.mpr ⟨rfl, rfl⟩⟩
  | type hkind hchanged => exact untold_of_applyType h hchanged
  | raises | returns | returnType => exact h

theorem untold_of_applyFields {docs docs' : Docs} {fields : List Field}
    (h : ∀ doc ∈ docs.inputs, Untold doc) (happly : applyFields docs fields = .ok docs') :
    ∀ doc ∈ docs'.inputs, Untold doc := by
  induction fields generalizing docs with
  | nil =>
    cases happly
    exact h
  | cons field rest ih =>
    obtain ⟨next, hnext, hrest⟩ := Reference.exists_of_bind_eq_ok happly
    exact ih (untold_of_apply h hnext) hrest

/-- Entries in sections leave defaults open, but have a flag. -/
theorem untold_of_readSectioned {sections : SectionSet} {docstring : String} {docs : Docs}
    (h : (readSectioned sections docstring).outcome = .ok docs) :
    ∀ doc ∈ docs.inputs, Untold doc ∧ doc.optional ≠ none := by
  unfold readSectioned at h
  simp only [Logged.bind_eq_ok_iff, Logged.outcome_pure, Logged.outcome_ofExcept] at h
  obtain ⟨found, -, inputs, hinputs, hdocs⟩ := h
  cases hdocs
  refine forall_mem_of_allParamDocs (fun entry => ?_) (fun doc description hdoc => ?_) hinputs
  · exact ⟨⟨rfl, rfl⟩, Option.some_ne_none _⟩
  · exact ⟨⟨hdoc.1.default, hdoc.1.positional⟩, hdoc.2⟩

theorem untold_of_readFieldList {docstring : String} {docs : Docs}
    (h : readFieldList docstring = .ok docs) : ∀ doc ∈ docs.inputs, Untold doc := by
  unfold readFieldList at h
  exact untold_of_applyFields (List.forall_mem_nil _) h

theorem untold_of_read {reader : Reader} (hreader : reader.ReadsText) {docstring : String}
    {docs : Docs} (h : (reader.read docstring).outcome = .ok docs) :
    ∀ doc ∈ docs.inputs, Untold doc := by
  cases reader with
  | sectioned sections => exact fun doc hdoc => (untold_of_readSectioned h doc hdoc).1
  | fieldList => exact untold_of_readFieldList h
  | styled choice sections =>
    simp only [Reader.read, Logged.bind_eq_ok_iff] at h
    obtain ⟨-, -, h⟩ := h
    split at h
    · exact fun doc hdoc => (untold_of_readSectioned h doc hdoc).1
    · exact untold_of_readFieldList h
  | given docs => cases hreader

/-- The default that the description of an entry tells. -/
def toldDefault? (doc : InputDoc) : Option (List Char) :=
  (extractDefault? (Text.trim (doc.description.getD "").toList)).map Prod.snd

/-- What the normal form of an entry says of the default and of the flags. -/
structure Decides (doc q : InputDoc) : Prop where
  name : q.name = doc.name
  default : q.default.isSome = (toldDefault? doc).isSome
  optional : q.optional = some (doc.optional.getD q.default.isSome)
  positional : q.positional = some (!(q.default.isSome || doc.optional = some true))

theorem isSome_documentedDefault {doc : InputDoc} (h : doc.default = none) :
    (documentedDefault doc).2.isSome = (toldDefault? doc).isSome := by
  unfold documentedDefault toldDefault?
  dsimp only
  cases extractDefault? (Text.trim (doc.description.getD "").toList) with
  | none => rw [h]; rfl
  | some found => rw [h]; rfl

theorem isSome_of_fitDefault {name reference : String} {type : TypeExpr}
    {default fitted : Option Json} (h : fitDefault name reference type default = .ok fitted) :
    fitted.isSome = default.isSome := by
  unfold fitDefault at h
  split at h
  · split at h <;> cases h
    rfl
  · cases h
    rfl

variable {limits : Reference.Limits} {scope : Scope}

theorem decides_of_normalizeInput {doc q : InputDoc} (hdoc : Untold doc)
    (h : (normalizeInput limits scope doc).outcome = .ok q) : Decides doc q := by
  obtain ⟨reference, default, hdefault, rfl⟩ := normalizeInput_eq_ok h
  have htold : default.isSome = (toldDefault? doc).isSome := by
    rw [← isSome_documentedDefault hdoc.default]
    rcases hdefault with ⟨-, -, rfl⟩ | ⟨_, _, _, -, -, -, -, hfits⟩
    · rfl
    · exact isSome_of_fitDefault hfits
  refine ⟨rfl, htold, ?_, ?_⟩
  · dsimp only
    rw [hdoc.positional, Option.getD_none, Bool.not_not]
    cases doc.optional with
    | none => simp
    | some flag => rfl
  · dsimp only
    rw [hdoc.positional, Option.getD_none]

/-- Entries are decided one by one. -/
theorem exists_decides {reader : Reader} (hreader : reader.ReadsText) {docstring : String}
    {docs : Docs} (h : (ofDocstring limits scope reader docstring).outcome = .ok docs) :
    ∃ found, (reader.read docstring).outcome = .ok found ∧
      List.Forall₂ Decides found.inputs docs.inputs := by
  unfold ofDocstring normalize at h
  simp only [Logged.bind_eq_ok_iff, Logged.outcome_pure] at h
  obtain ⟨found, hread, inputs, hinputs, outputs, -, hdocs⟩ := h
  cases hdocs
  have huntold := untold_of_read hreader hread
  have hnormal := (List.forall₂_and_left _ _).mpr ⟨huntold, normalizeInputs_eq_ok hinputs⟩
  exact ⟨found, hread, hnormal.imp fun doc q hboth => decides_of_normalizeInput hboth.1 hboth.2⟩

/-- A parameter has a default exactly if its entry tells one, and then is optional unless the entry has
the flag `false`, as every entry in sections has that is not marked as optional. -/
theorem optional_of_default {reader : Reader} (hreader : reader.ReadsText) {docstring : String}
    {docs : Docs} (h : (ofDocstring limits scope reader docstring).outcome = .ok docs) :
    ∃ found, (reader.read docstring).outcome = .ok found ∧
      List.Forall₂ Decides found.inputs docs.inputs ∧
      ∀ sections, reader = .sectioned sections → ∀ doc ∈ found.inputs, doc.optional ≠ none := by
  obtain ⟨found, hread, hdecides⟩ := exists_decides hreader h
  refine ⟨found, hread, hdecides, ?_⟩
  intro sections hsections doc hdoc
  subst hsections
  exact (untold_of_readSectioned hread doc hdoc).2

def countText : String := "Args:\n    x (int): Count, defaults to 3."

/-- What is read of the entry on a count: a default, and the flag of an entry without a mark. -/
def countDocs : Docs where
  text := some countText
  inputs := [{
    name := "x", description := some "Count.", type := some "int", default := some (.int 3)
    optional := some false, positional := some false }]

theorem ofDocstring_count :
    (ofDocstring ⟨100, 3⟩ (Registry.new "tables").scope (.sectioned .standard) countText).outcome =
      .ok countDocs := by
  decide +kernel

theorem optional_of_default_count :
    (Reader.sectioned .standard).ReadsText ∧
      (ofDocstring ⟨100, 3⟩ (Registry.new "tables").scope (.sectioned .standard) countText).outcome =
        .ok countDocs ∧
      ∃ found, ((Reader.sectioned .standard).read countText).outcome = .ok found ∧
        List.Forall₂ Decides found.inputs countDocs.inputs ∧
        ∀ doc ∈ found.inputs, doc.optional ≠ none := by
  have hreader : (Reader.sectioned .standard).ReadsText := trivial
  obtain ⟨found, hread, hdecides, hflags⟩ := optional_of_default hreader ofDocstring_count
  exact ⟨hreader, ofDocstring_count, found, hread, hdecides, hflags .standard rfl⟩

/-- A default alone does not make the flag `true`. -/
theorem not_optional_of_default_count :
    ¬ ∀ (r : Registry), r.Reached → ∀ (limits : Reference.Limits) (reader : Reader)
      (docstring : String) (docs : Docs), reader.ReadsText →
      (ofDocstring limits r.scope reader docstring).outcome = .ok docs →
      ∀ q ∈ docs.inputs, q.default.isSome = true → q.optional = some true := by
  intro hall
  have hr : (Registry.new "tables").Reached := ⟨"tables", [], rfl⟩
  have hflag := hall (Registry.new "tables") hr ⟨100, 3⟩ (.sectioned .standard) countText
    countDocs trivial ofDocstring_count _ (List.mem_singleton_self _) rfl
  exact absurd hflag (by decide)

end Callable.Docs
