import Callable.Proofs.Assembly.Signature
import Callable.Proofs.Docs.Normal

/-!
Assembly in the scope of a registry. Wherever the type of a parameter or result comes from, it stands in
the descriptor in its canonical spelling. Documentation that was read in the same scope applies there as
it is: all its types resolve, to themselves, and the names it gives results are those of their places.
-/
namespace Callable.Assembly

/-- A reference that denotes a type and is spelled as the scope spells it. -/
structure IsCanonical (limits : Reference.Limits) (scope : Scope) (text : String) : Prop where
  denotes : ∃ type, Reference.decode limits scope text = .ok type
  spelled : Reference.canonical limits scope text = .ok text

section Canonical

variable {limits : Reference.Limits} {scope : Scope} {r : Registry}

theorem isCanonical_of_spelled {text : String}
    (h : Reference.canonical limits scope text = .ok text) : IsCanonical limits scope text := by
  obtain ⟨type, hdecode, -⟩ := (Reference.canonical_eq_ok_iff limits scope text text).mp h
  exact ⟨⟨type, hdecode⟩, h⟩

theorem isCanonical_of_canonical (hr : r.Reached) {text spelling : String}
    (h : Reference.canonical limits r.scope text = .ok spelling) :
    IsCanonical limits r.scope spelling :=
  isCanonical_of_spelled (Docs.canonical_of_canonical hr h)

/-- Declared types are resolved to canonical references, be they types or references. -/
theorem isCanonical_of_reference (hr : r.Reached) {declared : DeclaredType} {text : String}
    (h : (reference limits r.scope declared).outcome = .ok text) :
    IsCanonical limits r.scope text := by
  cases declared with
  | reference given =>
    rw [reference, Logged.mapError_eq_ok_iff, Reference.outcome_canonicalLogged] at h
    exact isCanonical_of_canonical hr h
  | type type =>
    rw [reference, Logged.mapError_eq_ok_iff, Reference.outcome_encodeLogged] at h
    exact isCanonical_of_spelled
      (Reference.canonical_of_encode hr.resolve_of_nameOf hr.isName h)

theorem isCanonical_of_resolved? (hr : r.Reached) {documented : Option String} {told : String}
    (h : resolved? limits r.scope documented = some told) : IsCanonical limits r.scope told := by
  obtain ⟨_, -, hcanonical, -⟩ := (resolved?_eq_some_iff limits r.scope documented told).mp h
  exact isCanonical_of_canonical hr hcanonical

theorem isCanonical_fillType {type : String} {told : Option String}
    (htype : IsCanonical limits scope type)
    (htold : ∀ text, told = some text → IsCanonical limits scope text) :
    IsCanonical limits scope (fillType type told) := by
  unfold fillType
  split
  · rename_i hany
    cases told with
    | none => exact hany ▸ htype
    | some text => exact htold text rfl
  · exact htype

theorem isCanonical_enrich (hr : r.Reached) {p : InputParam}
    (h : IsCanonical limits r.scope p.type) (docs : List InputDoc) :
    IsCanonical limits r.scope (enrich limits r.scope docs p).type := by
  refine isCanonical_fillType h fun text htext => ?_
  obtain ⟨_, -, -, hresolved⟩ := exists_of_firstSaid htext
  exact isCanonical_of_resolved? hr hresolved

theorem isCanonical_enrichOutput (hr : r.Reached) {p : OutputParam}
    (h : IsCanonical limits r.scope p.type) (doc : Option OutputDoc) :
    IsCanonical limits r.scope (enrichOutput limits r.scope doc p).type :=
  isCanonical_fillType h fun _ hresolved => isCanonical_of_resolved? hr hresolved

end Canonical

/-- In the scope of a registry that some run leads to, every type in an assembled descriptor resolves,
and is spelled canonically. -/
theorem assemble_canonical (r : Registry) (hr : r.Reached) (limits : Reference.Limits)
    (d : Declaration) (a : Assembled) (h : (assemble limits r.scope d).outcome = .ok a) :
    (∀ p ∈ a.descriptor.inputs, IsCanonical limits r.scope p.type) ∧
      ∀ p ∈ a.descriptor.outputs, IsCanonical limits r.scope p.type := by
  obtain ⟨inputs, outputs, hparts⟩ := exists_assembles h
  constructor
  · intro q hq
    obtain ⟨i, hi⟩ := List.getElem?_of_mem hq
    obtain ⟨input, p, -, hdeclares, hmerge⟩ := hparts.exists_enrich hi
    have hcanonical :=
      isCanonical_enrich hr (isCanonical_of_reference hr hdeclares.type) (inputDocs d.docs)
    rcases hmerge with rfl | ⟨-, rfl⟩
    · exact hcanonical
    · exact hcanonical
  · intro q hq
    obtain ⟨i, hi⟩ := List.getElem?_of_mem hq
    obtain ⟨output, p, -, hdeclares, rfl⟩ := hparts.exists_enrichOutput hi
    exact isCanonical_enrichOutput hr (isCanonical_of_reference hr hdeclares.type) _

/-- A ledger whose types are given as a type, as a reference in a loose spelling, and by documentation,
of which one does not resolve. -/
def ledger : Declaration where
  name := "ledger"
  inputs := [{ name := "first", type := .type (.list (.named "db.Cell")), positional := true },
    { name := "more", type := .reference "list[ list[db.Cell] ]" }, { name := "key" },
    { name := "note" }]
  outputs := [{}]
  docs := some {
    inputs := [{ name := "key", type := some "Optional[str]" },
      { name := "note", type := some "db.Note" }]
    outputs := [{ type := some "dict[str, list[db.Cell]]" }] }

theorem assemble_canonical_ledger :
    Reference.rows.Reached ∧ ∃ a, (assemble {} Reference.rows.scope ledger).outcome = .ok a ∧
      a.descriptor.inputs.map InputParam.type =
        ["db.Row", "List[db.Row]", "Union[str, None]", "Any"] ∧
      ∀ p ∈ a.descriptor.inputs, IsCanonical {} Reference.rows.scope p.type := by
  have hr : Reference.rows.Reached := ⟨_, _, rfl⟩
  have htypes : (assemble {} Reference.rows.scope ledger).outcome.toOption.map
      (fun a => a.descriptor.inputs.map InputParam.type) =
        some ["db.Row", "List[db.Row]", "Union[str, None]", "Any"] := by
    decide +kernel
  obtain ⟨a, h, hlist⟩ := Option.map_eq_some_iff.mp htypes
  have h := (toOption_eq_some_iff _ a).mp h
  exact ⟨hr, a, h, hlist, (assemble_canonical Reference.rows hr {} ledger a h).1⟩

section Fits

variable {limits : Reference.Limits} {scope : Scope} {docs : Docs}

theorem not_isUnresolved {documented : Option String}
    (h : ∀ text, documented = some text → Reference.canonical limits scope text = .ok text)
    (w : Warning) : ¬ IsUnresolved limits scope documented w := by
  rintro ⟨_, text, _, htext, herror, -⟩
  cases herror.symm.trans (h text htext)

theorem resolved?_eq_filter {documented : Option String}
    (h : ∀ text, documented = some text → Reference.canonical limits scope text = .ok text) :
    resolved? limits scope documented = documented.filter (· ≠ "Any") := by
  cases documented with
  | none => rfl
  | some text => rw [resolved?, Option.bind_some, h text rfl, Except.toOption]

theorem firstSaid_congr {α : Type} {entries : List InputDoc} {name : String}
    {answer answer' : InputDoc → Option α} (h : ∀ doc ∈ entries, answer doc = answer' doc) :
    firstSaid entries name answer = firstSaid entries name answer' := by
  induction entries with
  | nil => rfl
  | cons doc rest ih =>
    obtain ⟨hdoc, hrest⟩ := List.forall_mem_cons.mp h
    have hlater := ih hrest
    unfold firstSaid at hlater ⊢
    rw [List.findSome?_cons, List.findSome?_cons, hdoc, hlater]

/-- `Any` gives way to the first documented type of another kind, as it is documented. -/
theorem type_enrich_of_fits (h : Docs.Fits limits scope docs) {p : InputParam} (hany : p.type = "Any") :
    (enrich limits scope docs.inputs p).type =
      (firstSaid docs.inputs p.name fun doc => doc.type.filter (· ≠ "Any")).getD "Any" := by
  have hsame : (firstSaid docs.inputs p.name fun doc => resolved? limits scope doc.type) =
      firstSaid docs.inputs p.name fun doc => doc.type.filter (· ≠ "Any") :=
    firstSaid_congr fun doc hdoc => resolved?_eq_filter (h.inputs doc hdoc)
  change fillType p.type _ = _
  rw [hsame, fillType, if_pos hany]

theorem type_enrichOutput_of_fits (h : Docs.Fits limits scope docs) (i : Nat) {p : OutputParam}
    (hany : p.type = "Any") :
    (enrichOutput limits scope docs.outputs[i]? p).type =
      ((docs.outputs[i]?).bind OutputDoc.type).getD "Any" := by
  have hdocumented : ∀ text, (docs.outputs[i]?).bind OutputDoc.type = some text →
      Reference.canonical limits scope text = .ok text := by
    intro text htext
    obtain ⟨doc, hdoc, htype⟩ := Option.bind_eq_some_iff.mp htext
    exact h.outputs doc (List.mem_of_getElem? hdoc) text htype
  change fillType p.type _ = _
  rw [resolved?_eq_filter hdocumented, fillType, if_pos hany]
  cases (docs.outputs[i]?).bind OutputDoc.type with
  | none => rfl
  | some text =>
    rw [Option.filter_some]
    split
    · rfl
    · rename_i hsame
      exact (of_not_not fun hne => hsame (decide_eq_true hne)).symm

/-- Documentation that fits the scope is warned of only for what it names. -/
theorem Assembles.warnings_of_fits {d : Declaration} {inputs : List InputParam}
    {outputs : List OutputParam} {a : Assembled}
    (h : Assembles limits scope d inputs outputs a) (hdocs : d.docs = some docs)
    (hfits : Docs.Fits limits scope docs) {w : Warning} (hw : w ∈ a.warnings) :
    (∃ name, w = .unknownInput name) ∨ (∃ name, w = .contradictoryOptional name) ∨
      ∃ index, w = .extraOutput index := by
  obtain ⟨_, _, hwarnings, hsettles, hdrift⟩ := h.merged
  rw [hdocs] at hsettles hdrift
  rw [hwarnings] at hw
  rcases List.mem_append.mp hw with hw | hw
  · rcases hsettles.drift w hw with ⟨doc, hdoc, hunknown | hunresolved⟩ | ⟨_, p, -, -, -, hflag⟩
    · exact Or.inl ⟨doc.name, hunknown⟩
    · exact absurd hunresolved (not_isUnresolved (hfits.inputs doc hdoc) w)
    · exact Or.inr (Or.inl ⟨p.name, hflag⟩)
  · obtain ⟨i, doc, hdoc, hextra | ⟨name, _, hname, hother, -⟩ | hunresolved⟩ := hdrift w hw
    · exact Or.inr (Or.inr ⟨_, hextra⟩)
    · have hplace := hfits.names i doc hdoc
      rw [Nat.zero_add] at hother
      exact absurd (Option.some.inj (hname.symm.trans hplace)) hother
    · exact absurd hunresolved
        (not_isUnresolved (hfits.outputs doc (List.mem_of_getElem? hdoc)) w)

end Fits

/-- What is read of a docstring in the scope of a registry applies there as it is: no type of it is
left unresolved, no name of a result unmatched, and where the signature says `Any` the descriptor has
the type that is documented, character for character. -/
theorem assemble_ofDocstring (r : Registry) (hr : r.Reached) (limits : Reference.Limits)
    (reader : Docs.Reader) (hreader : reader.ReadsText) (docstring : String) (docs : Docs)
    (hread : (Docs.ofDocstring limits r.scope reader docstring).outcome = .ok docs)
    (d : Declaration) (hdocs : d.docs = some docs) (a : Assembled)
    (h : (assemble limits r.scope d).outcome = .ok a) :
    (∀ name text, .unresolvedType name text ∉ a.warnings) ∧
      (∀ index documented declared, .unmatchedOutputName index documented declared ∉ a.warnings) ∧
      (∀ (i : Nat) input p, d.inputs[i]? = some input → a.descriptor.inputs[i]? = some p →
        (reference limits r.scope input.type).outcome = .ok "Any" →
        p.type = (firstSaid docs.inputs input.name fun doc => doc.type.filter (· ≠ "Any")).getD
          "Any") ∧
      ∀ (i : Nat) output p, d.outputs[i]? = some output → a.descriptor.outputs[i]? = some p →
        (reference limits r.scope output.type).outcome = .ok "Any" →
        p.type = ((docs.outputs[i]?).bind OutputDoc.type).getD "Any" := by
  have hfits := Docs.fits_of_ofDocstring hr hreader hread
  obtain ⟨inputs, outputs, hparts⟩ := exists_assembles h
  refine ⟨?_, ?_, ?_, ?_⟩
  · intro name text hw
    rcases hparts.warnings_of_fits hdocs hfits hw with ⟨_, hw⟩ | ⟨_, hw⟩ | ⟨_, hw⟩ <;> cases hw
  · intro index documented declared hw
    rcases hparts.warnings_of_fits hdocs hfits hw with ⟨_, hw⟩ | ⟨_, hw⟩ | ⟨_, hw⟩ <;> cases hw
  · intro i input q hinput hq hany
    obtain ⟨_, p, hsame, hdeclares, hmerge⟩ := hparts.exists_enrich hq
    cases hinput.symm.trans hsame
    have hpany : p.type = "Any" := Except.ok.inj (hdeclares.type.symm.trans hany)
    have htype := type_enrich_of_fits hfits hpany
    rw [hdeclares.name] at htype
    rw [hdocs] at hmerge
    rcases hmerge with rfl | ⟨-, rfl⟩
    · exact htype
    · exact htype
  · intro i output q houtput hq hany
    obtain ⟨_, p, hsame, hdeclares, rfl⟩ := hparts.exists_enrichOutput hq
    cases houtput.symm.trans hsame
    have hpany : p.type = "Any" := Except.ok.inj (hdeclares.type.symm.trans hany)
    rw [hdocs]
    exact type_enrichOutput_of_fits hfits i hpany

def ledgerText : String :=
  "Args:\n note (Any): Remark.\n note (list[db.Cell]): Marked.\nReturns:\n int: Total.\n"

/-- The entry on a parameter that says `Any` leaves the place to the one after it. -/
theorem assemble_ofDocstring_ledger :
    Reference.rows.Reached ∧ Docs.Reader.ReadsText (.styled none .standard) ∧
      ∃ docs a, (Docs.ofDocstring {} Reference.rows.scope (.styled none .standard)
          ledgerText).outcome = .ok docs ∧
        (assemble {} Reference.rows.scope { ledger with docs := some docs }).outcome = .ok a ∧
        a.descriptor.inputs.map InputParam.type = ["db.Row", "List[db.Row]", "Any", "db.Row"] ∧
        a.descriptor.outputs.map OutputParam.type = ["int"] ∧
        (∀ name text, .unresolvedType name text ∉ a.warnings) ∧
        ∀ index documented declared,
          .unmatchedOutputName index documented declared ∉ a.warnings := by
  have hr : Reference.rows.Reached := ⟨_, _, rfl⟩
  have hrun : ((Docs.ofDocstring {} Reference.rows.scope (.styled none .standard)
      ledgerText).outcome.toOption.bind fun docs =>
        (assemble {} Reference.rows.scope { ledger with docs := some docs }).outcome.toOption.map
          fun a => (a.descriptor.inputs.map InputParam.type,
            a.descriptor.outputs.map OutputParam.type)) =
              some (["db.Row", "List[db.Row]", "Any", "db.Row"], ["int"]) := by
    decide +kernel
  obtain ⟨docs, hread, hassembled⟩ := Option.bind_eq_some_iff.mp hrun
  obtain ⟨a, h, htypes⟩ := Option.map_eq_some_iff.mp hassembled
  obtain ⟨hinputs, houtputs⟩ := Prod.mk.inj htypes
  have hread := (toOption_eq_some_iff _ docs).mp hread
  have h := (toOption_eq_some_iff _ a).mp h
  obtain ⟨hresolved, hmatched, -⟩ := assemble_ofDocstring Reference.rows hr {}
    (.styled none .standard) trivial ledgerText docs hread { ledger with docs := some docs } rfl a h
  exact ⟨hr, trivial, docs, a, hread, h, hinputs, houtputs, hresolved, hmatched⟩

end Callable.Assembly
