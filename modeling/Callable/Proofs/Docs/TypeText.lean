import Callable.Proofs.Docs.Default
import Callable.Proofs.Docs.Dialects
import Callable.Proofs.Reference.Lettering

/-!
References as types in docstrings. A field on a type takes every reference that a registry writes, but a
reference that ends in `optional` is read as one with a mark. In sections a type must look like one, and
quotes and minus signs do not: these stand in literals, so entries on parameters with such literals are
refused.
-/
namespace Callable.Docs

open Reference (Inked Penned)

theorem isTypeChar_of_continuesName {c : Char} (h : Reference.continuesName c = true) :
    isTypeChar c = true := by
  simp only [Reference.continuesName, Char.isAlphanum, Bool.or_eq_true, beq_iff_eq] at h
  obtain (((halpha | hdigit) | rfl) | rfl) := h
  · rw [isTypeChar, Text.isLetterOrDigit_of_isAlpha halpha, Bool.or_true]
  · rw [isTypeChar, Text.isLetterOrDigit_of_isDigit hdigit, Bool.or_true]
  · decide
  · decide

/-- Outside quotes all characters but the minus sign stand in types. -/
theorem isTypeChar_of_isPlain {c : Char} (h : Reference.isPlain c = true) (hminus : c ≠ '-') :
    isTypeChar c = true := by
  have hbrackets : ['[', ']', '(', ')'].all isTypeChar = true := by decide
  rcases Bool.or_eq_true_iff.mp h with hname | hmark
  · exact isTypeChar_of_continuesName hname
  · rcases List.mem_cons.mp (List.contains_iff_mem.mp hmark) with hsign | hbracket
    · exact absurd hsign hminus
    · exact List.all_eq_true.mp hbrackets c hbracket

theorem isBlank_of_isTypeChar {c : Char} (h : isTypeChar c = true) : Text.isBlank c = false := by
  rcases Bool.or_eq_true_iff.mp h with hmark | hletter
  · have hmarks : "[],.()_|".toList.all (fun c => !Text.isBlank c) = true := by decide
    have hc := List.all_eq_true.mp hmarks c (List.contains_iff_mem.mp hmark)
    simpa using hc
  · exact Text.isBlank_of_isLetterOrDigit hletter

theorem isBlank_of_isPlain {c : Char} (h : Reference.isPlain c = true) :
    Text.isBlank c = false := by
  by_cases hminus : c = '-'
  · subst hminus
    decide
  · exact isBlank_of_isTypeChar (isTypeChar_of_isPlain h hminus)

theorem isBlank_head_of_inked {c : Char} {rest : List Char} (h : Inked (c :: rest)) :
    Text.isBlank c = false := by
  cases h with
  | plain hc _ => exact isBlank_of_isPlain hc
  | comma _ => decide
  | quote _ => decide

section Penned

variable {text : List Char} (h : Penned text)

include h

theorem isPlain_last_of_penned : ∀ c ∈ text.getLast?, Reference.isPlain c = true := by
  obtain ⟨c, hlast, hc⟩ := h.last
  intro d hd
  obtain rfl : c = d := Option.some.inj (hlast.symm.trans hd)
  rcases hc with hname | rfl
  · exact Reference.isPlain_of_continuesName hname
  · decide

theorem isLineText_of_penned : IsLineText text := by
  have hhead : ∀ c ∈ text.head?, Text.isBlank c = false := by
    intro c hc
    obtain ⟨rest, rfl⟩ := List.head?_eq_some_iff.mp hc
    exact isBlank_head_of_inked h.inked
  have hlast : ∀ c ∈ text.getLast?, Text.isBlank c = false := fun c hc =>
    isBlank_of_isPlain (isPlain_last_of_penned h c hc)
  refine ⟨?_, ?_, h.inked.feed⟩
  · rintro rfl
    obtain ⟨c, hnone, -⟩ := h.last
    cases hnone
  · rw [Text.trim_eq_self_iff, Text.trimStart_eq_self_iff, Text.trimEnd_eq_self_iff]
    exact ⟨hhead, hlast⟩

theorem commaless_of_penned : text.getLast? ≠ some ',' := by
  intro hcomma
  exact absurd (isPlain_last_of_penned h ',' hcomma) (by decide)

end Penned

theorem isTypeTextAfter_of_inked {text : List Char} (h : Inked text) (hquote : '\'' ∉ text)
    (hminus : '-' ∉ text) (previous : Option Char) : isTypeTextAfter previous text = true := by
  induction h generalizing previous with
  | nil => rw [isTypeTextAfter]
  | @plain c rest hc _ ih =>
    rw [List.mem_cons, not_or] at hquote hminus
    have htype : isTypeChar c = true := isTypeChar_of_isPlain hc (Ne.symm hminus.1)
    have hspace : c ≠ ' ' := by
      rintro rfl
      exact absurd (isBlank_of_isPlain hc) (by decide)
    rw [isTypeTextAfter, if_neg hspace, Bool.and_eq_true]
    exact ⟨htype, ih hquote.2 hminus.2 (some c)⟩
  | @comma rest _ ih =>
    simp only [List.mem_cons, not_or] at hquote hminus
    have hrest := ih hquote.2.2 hminus.2.2 (some ' ')
    rw [isTypeTextAfter, isTypeTextAfter, if_neg (by decide), if_pos rfl, hrest]
    rfl
  | quote _ => exact absurd List.mem_cons_self hquote

/-- A reference without quotes and minus signs looks like a type. -/
theorem isTypeText_of_penned {text : List Char} (h : Penned text) (hquote : '\'' ∉ text)
    (hminus : '-' ∉ text) : isTypeText text = true := by
  have hnonempty : text.isEmpty = false := by simpa using (isLineText_of_penned h).ne_nil
  rw [isTypeText, hnonempty, isTypeTextAfter_of_inked h.inked hquote hminus, Bool.not_false,
    Bool.true_and]

/-- A character of literals that no type text has. -/
structure IsForeign (c : Char) : Prop where
  type : isTypeChar c = false
  blank : Text.isBlank c = false
  colon : c ≠ ':'

theorem isForeign_quote : IsForeign '\'' := ⟨by decide, by decide, by decide⟩

theorem isForeign_minus : IsForeign '-' := ⟨by decide, by decide, by decide⟩

theorem IsForeign.ne {c d : Char} (h : IsForeign c) (hd : isTypeChar d = true) : c ≠ d := by
  rintro rfl
  exact Bool.false_ne_true (h.type.symm.trans hd)

/-- The first foreign character of a reference stands before every colon. -/
theorem exists_foreign {text : List Char} (h : Inked text) (hmark : '\'' ∈ text ∨ '-' ∈ text) :
    ∃ before c after, text = before ++ c :: after ∧ IsForeign c ∧ ':' ∉ before := by
  by_cases hquote : '\'' ∈ text
  · obtain ⟨before, after, rfl, hbefore⟩ := List.eq_append_cons_of_mem hquote
    exact ⟨before, '\'', after, rfl, isForeign_quote, h.colon_not_mem hbefore⟩
  · have hminus : '-' ∈ text := hmark.resolve_left hquote
    obtain ⟨before, after, rfl⟩ := List.append_of_mem hminus
    have hbefore : '\'' ∉ before := fun hmem => hquote (List.mem_append_left _ hmem)
    exact ⟨before, '-', after, rfl, isForeign_minus, h.colon_not_mem hbefore⟩

/-- The type of an entry reaches beyond a foreign character before the first colon. -/
theorem mem_of_typedEntry? {before after inside description : List Char} {c : Char}
    (hc : IsForeign c) (hbefore : ':' ∉ before)
    (h : typedEntry? (before ++ c :: after) = some (inside, description)) : c ∈ inside := by
  have hbracket : c ∉ [')'] := fun hmem => hc.ne (by decide) (List.mem_singleton.mp hmem)
  have hinside : c ∈ inside ++ [')'] → c ∈ inside := fun hmem =>
    (List.mem_append.mp hmem).resolve_right hbracket
  have hcut : ∀ tail, Text.cut? "):".toList (before ++ c :: after) = some (inside, tail) →
      c ∈ inside := by
    intro tail htail
    have heq : before ++ c :: after = (inside ++ [')']) ++ ':' :: tail := by
      rw [Text.eq_append_of_cut? htail]
      simp
    exact hinside (Text.mem_of_append_eq hbefore hc.colon heq)
  unfold typedEntry? at h
  split at h
  · rename_i htail
    cases h
    exact hcut _ htail
  · rename_i htail
    cases h
    exact hcut _ htail
  · cases h
  · obtain ⟨head, hhead, heq⟩ := Option.map_eq_some_iff.mp h
    cases heq
    apply hinside
    rw [← Text.eq_append_of_dropSuffix? hhead]
    simp

/-- Taking off a mark leaves foreign characters. -/
theorem exists_type_of_foreign {text : List Char} {c : Char} (hc : IsForeign c) (h : c ∈ text) :
    ∃ type, (splitOptional text).1 = some type ∧ c ∈ type := by
  unfold splitOptional
  cases hsuffix : Text.dropSuffix? "optional".toList text with
  | none => exact ⟨text, rfl, h⟩
  | some head =>
    have hmark : c ∉ "optional".toList := by
      intro hmem
      have hletters : "optional".toList.all isTypeChar = true := by decide
      exact Bool.false_ne_true (hc.type.symm.trans (List.all_eq_true.mp hletters c hmem))
    have hhead : c ∈ head := by
      rw [Text.eq_append_of_dropSuffix? hsuffix] at h
      exact (List.mem_append.mp h).resolve_right hmark
    have hcomma : (c == ',') = false := beq_eq_false_iff_ne.mpr (hc.ne (by decide))
    have hend : c ∈ Text.trimEnd head := Text.mem_dropWhile_reverse hc.blank hhead
    have hleft := Text.mem_trim hc.blank (Text.mem_dropWhile_reverse (p := (· == ',')) hcomma hend)
    exact ⟨_, if_neg (List.ne_nil_of_mem hleft), hleft⟩

/-- An entry with a foreign character in its type is none. -/
theorem ParamNote.IsLegible.paramEntry?_eq_none {note : ParamNote} (h : note.IsLegible)
    {before after : List Char} {c : Char} (hc : IsForeign c) (hbefore : ':' ∉ before)
    (htype : note.type = before ++ c :: after) : paramEntry? note.entry = none := by
  obtain ⟨more, hmore⟩ : ∃ more, note.entry = note.name ++ ' ' :: '(' :: (before ++ c :: more) := by
    unfold entry typeText
    rw [htype]
    split <;> simp
  rw [hmore, paramEntry?_typed h.name]
  cases hfound : typedEntry? (before ++ c :: more) with
  | none => rfl
  | some found =>
    obtain ⟨inside, description⟩ := found
    -- wherever the type of the entry ends, the character is in it
    have hinside : c ∈ inside := mem_of_typedEntry? hc hbefore hfound
    have hmem : c ∈ Text.trim inside := Text.mem_trim hc.blank hinside
    obtain ⟨type, htype, hctype⟩ := exists_type_of_foreign hc hmem
    have hno : isTypeText type = false := by
      rw [isTypeText, Bool.and_eq_false_iff, ← Bool.not_eq_true, ← Bool.not_eq_true]
      refine Or.inr fun hafter => ?_
      rcases isTypeChar_of_mem hafter hctype with rfl | hletter
      · exact absurd hc.blank (by decide)
      · exact Bool.false_ne_true (hc.type.symm.trans hletter)
    simp only [Option.bind_eq_bind, Option.bind_some, htype, Option.all_some, hno, Bool.false_eq_true,
      if_false]

/-- A note on a parameter and its type. -/
def typeNote (name type : List Char) (optional : Bool) : ParamNote where
  name
  type
  optional
  first := "Note.".toList
  more := []

/-- The docstring documents one parameter, with this type and this flag. -/
def Documents (limits : Reference.Limits) (scope : Scope) (reader : Reader) (docstring : String)
    (name : List Char) (type : String) (optional : Bool) : Prop :=
  ∃ docs doc, (ofDocstring limits scope reader docstring).outcome = .ok docs ∧
    docs.inputs = [doc] ∧ doc.name = String.ofList name ∧ doc.type = some type ∧
    doc.optional = some optional

theorem isLegible_typeNote {name type : List Char} (hname : IsNoteName name)
    (htype : IsLineText type) (optional : Bool) : (typeNote name type optional).IsLegible := by
  have hfirst : IsLineText "Note.".toList := ⟨by decide, by decide, by decide⟩
  exact ⟨hname, htype, hfirst, List.forall_mem_nil _⟩

theorem hasFields_typeNote (name type : List Char) (optional : Bool) :
    HasFields [typeNote name type optional] (joined (typeNote name type optional).fieldLines) :=
  ⟨_, rfl, .cons (laidOut_self _) (.cons (laidOut_self _) .nil)⟩

theorem hasSection_typeNote (name type : List Char) (optional : Bool) :
    HasSection [typeNote name type optional]
      (joined ["Args:".toList, List.replicate 4 ' ' ++ (typeNote name type optional).entry]) :=
  ⟨[_], rfl, .cons (laidOut_spaces (by decide) _) .nil⟩

theorem splitOptional_typeNote {name type : List Char} {optional : Bool} (h : Penned type)
    (hmark : optional = true ∨ ¬ "optional".toList <:+ type) :
    splitOptional (typeNote name type optional).typeText = (some type, optional) :=
  ParamNote.splitOptional_typeText (isLineText_of_penned h) (commaless_of_penned h) hmark

theorem colon_typeNote {name type : List Char} {optional : Bool} (h : Inked type)
    (hquote : '\'' ∉ type) : ':' ∉ (typeNote name type optional).typeText := by
  rw [← List.append_nil type] at h
  have hcolon : ':' ∉ type := h.colon_not_mem hquote
  unfold ParamNote.typeText
  split
  · rw [List.mem_append, not_or]
    exact ⟨hcolon, by decide⟩
  · exact hcolon

/-- The first line of a section is an entry, or the section is refused. -/
theorem exists_read_section {sections : SectionSet} (hargs : sections.get? "Args" = some .params)
    {name type : List Char} {optional : Bool} (hnote : (typeNote name type optional).IsLegible)
    {docstring : String} (h : HasSection [typeNote name type optional] docstring) :
    ∃ fault, (readSectioned sections docstring).outcome =
      match paramEntry? (typeNote name type optional).entry with
      | some entry => .ok { text := some docstring, inputs := [entry.doc] }
      | none => .error fault := by
  obtain ⟨raws, rfl, hraws⟩ := h
  have htexts := hnote.isLineText_sectionLines
  obtain ⟨lines, hlines, hread⟩ := exists_readSectioned hargs hraws
    (List.forall_mem_flatMap.mpr (List.forall_mem_singleton.mpr htexts))
  rw [List.flatMap_singleton] at hlines
  obtain ⟨⟨number, text⟩, rest, rfl, rfl, hnil⟩ := List.map_eq_cons_iff.mp hlines
  obtain rfl := List.map_eq_nil_iff.mp hnil
  refine ⟨.entry "Args" number ("expected `name (type): description`, found `" ++
    String.ofList (typeNote name type optional).entry ++ "`"), ?_⟩
  rw [hread]
  cases hentry : paramEntry? (typeNote name type optional).entry with
  | none => simp only [paramDocs, hentry, Except.map]
  | some entry => simp only [paramDocs, hentry, Except.map, List.reverse_singleton]

theorem read_fields {name type : List Char} {optional : Bool}
    (hnote : (typeNote name type optional).IsLegible) {docstring : String}
    (h : HasFields [typeNote name type optional] docstring) :
    readFieldList docstring =
      .ok { text := some docstring, inputs := [(typeNote name type optional).typedDoc] } := by
  obtain ⟨raws, rfl, hraws⟩ := h
  rw [List.flatMap_singleton] at hraws
  have hlines := map_text_of_shows (shows_textLines hraws hnote.isLineText_fieldLines)
  obtain ⟨line, stop, hfold⟩ := exists_fields_note hnote hlines [] []
  unfold readFieldList
  rw [hfold]
  simp only [List.reverse_cons, List.reverse_nil, List.nil_append, List.singleton_append]
  rw [applyFields_note _ (List.forall_mem_nil _)]
  rfl

section Documents

variable {limits : Reference.Limits} {scope : Scope} {reader : Reader} {docstring text : String}
  {name : List Char} {optional : Bool}

/-- The note tells no default. -/
theorem documentedDefault_typeNote (name type : List Char) (optional : Bool) :
    documentedDefault (typeNote name type optional).doc = ("Note.".toList, none) := by
  have hnote : String.ofList (Text.joinLines ["Note.".toList]) = "Note." := by decide +kernel
  have hdescription : (typeNote name type optional).doc.description = some "Note." :=
    congrArg some hnote
  have htrim : Text.trim "Note.".toList = "Note.".toList := by decide
  have hnone : extractDefault? "Note.".toList = none := by decide +kernel
  unfold documentedDefault
  simp only [hdescription, Option.getD_some, htrim, hnone]
  rfl

/-- A note that is read as it was written documents its type. -/
theorem documents_of_read {type : TypeExpr}
    (hdecode : Reference.decode limits scope text = .ok type)
    (hencode : Reference.encode limits scope type = .ok text)
    (hread : (reader.read docstring).outcome =
      .ok { text := some docstring, inputs := [(typeNote name text.toList optional).doc] }) :
    Documents limits scope reader docstring name text optional := by
  have htype : (typeNote name text.toList optional).doc.type = some text :=
    congrArg some String.ofList_toList
  have hnormal : ∃ doc, (normalizeInput limits scope (typeNote name text.toList optional).doc).outcome =
      .ok doc ∧ doc.name = String.ofList name ∧ doc.type = some text ∧
      doc.optional = some optional := by
    unfold normalizeInput
    simp only [documentedDefault_typeNote, htype, Logged.bind_eq_ok_iff, Logged.mapError_eq_ok_iff,
      Logged.outcome_ofExcept, Logged.outcome_pure, Reference.outcome_encodeLogged]
    exact ⟨_, ⟨type, hdecode, text, hencode, none, rfl, (some text, none), rfl, rfl⟩, rfl, rfl, rfl⟩
  obtain ⟨doc, hdoc, hname, htext, hoptional⟩ := hnormal
  have hinputs : (normalizeInputs limits scope [(typeNote name text.toList optional).doc]).outcome =
      .ok [doc] := by
    unfold normalizeInputs
    rw [Logged.outcome_bind, hdoc]
    rfl
  refine ⟨{ text := some docstring, inputs := [doc] }, doc, ?_, rfl, hname, htext, hoptional⟩
  unfold ofDocstring normalize
  rw [Logged.outcome_bind, hread]
  change (normalizeInputs _ _ _ >>= _).outcome = _
  rw [Logged.outcome_bind, hinputs]
  rfl

theorem not_documents_of_refused (hreader : reader.ReadsText) {fault : DocsError}
    (hread : (reader.read docstring).outcome = .error fault) :
    ¬ Documents limits scope reader docstring name text optional := by
  intro hdocuments
  obtain ⟨docs, doc, hdocs, -⟩ := hdocuments
  obtain ⟨found, hfound, -⟩ := exists_decides hreader hdocs
  cases hread.symm.trans hfound

/-- A flag that was read stays, so a reference that ends as a marked one is not documented as unmarked. -/
theorem unmarked_of_documents (hreader : reader.ReadsText) {type : List Char} {doc : InputDoc}
    (hread : (reader.read docstring).outcome = .ok { text := some docstring, inputs := [doc] })
    (hflag : doc.optional = some (splitOptional (typeNote name type optional).typeText).2)
    (h : Documents limits scope reader docstring name text optional) :
    optional = true ∨ ¬ "optional".toList <:+ type := by
  obtain ⟨docs, q, hdocs, hinputs, -, -, hoptional⟩ := h
  obtain ⟨found, hfound, hdecides⟩ := exists_decides hreader hdocs
  cases hread.symm.trans hfound
  rw [hinputs] at hdecides
  obtain ⟨hdoc, -⟩ := List.forall₂_cons.mp hdecides
  have hsame : (splitOptional (typeNote name type optional).typeText).2 = optional := by
    have hboth := hdoc.optional
    rw [hflag, Option.getD_some, hoptional] at hboth
    exact (Option.some.inj hboth).symm
  by_cases hmarked : optional = true
  · exact Or.inl hmarked
  · refine Or.inr fun hsuffix => ?_
    obtain ⟨head, rfl⟩ := hsuffix
    rw [ParamNote.typeText, typeNote, if_neg hmarked, splitOptional, Text.dropSuffix?_append] at hsame
    exact hmarked hsame.symm

end Documents

section Reached

variable {r : Registry} (hr : r.Reached) {limits : Reference.Limits} {type : TypeExpr} {text : String}
  (hencode : Reference.encode limits r.scope type = .ok text) {name : List Char} (hname : IsNoteName name)
  {optional : Bool} {docstring : String}

include hr hencode

theorem penned_of_reached : Penned text.toList :=
  (Reference.hereditary_penned limits r.scope).of_encode hr.resolve_of_nameOf hencode

/-- A reference that is read without changes is documented. -/
theorem documents_of_encode {reader : Reader}
    (hread : (reader.read docstring).outcome =
      .ok { text := some docstring, inputs := [(typeNote name text.toList optional).doc] }) :
    Documents limits r.scope reader docstring name text optional := by
  have hdecode := Reference.decode_of_encode hr.resolve_of_nameOf hr.isName hencode
  refine documents_of_read hdecode ?_ hread
  rw [Reference.encode_normalize, hencode]

include hname

/-- A field list documents every reference but those that end as marked ones without being marked. -/
theorem documents_fieldList_iff
    (h : HasFields [typeNote name text.toList optional] docstring) :
    Documents limits r.scope .fieldList docstring name text optional ↔
      (optional = true ∨ ¬ "optional".toList <:+ text.toList) := by
  have hpenned := penned_of_reached hr hencode
  have hline := isLineText_of_penned hpenned
  have hread := read_fields (isLegible_typeNote hname hline optional) h
  have hreader : Reader.fieldList.ReadsText := trivial
  constructor
  · exact unmarked_of_documents hreader hread rfl
  · intro hmark
    rw [ParamNote.typedDoc_eq hline.ne_nil (splitOptional_typeNote hpenned hmark)] at hread
    exact documents_of_encode hr hencode hread

/-- A section documents those of them that have no quote and no minus sign. -/
theorem documents_sectioned_iff {sections : SectionSet} (hargs : sections.get? "Args" = some .params)
    (h : HasSection [typeNote name text.toList optional] docstring) :
    Documents limits r.scope (.sectioned sections) docstring name text optional ↔
      (optional = true ∨ ¬ "optional".toList <:+ text.toList) ∧
        '\'' ∉ text.toList ∧ '-' ∉ text.toList := by
  have hpenned := penned_of_reached hr hencode
  have hnote := isLegible_typeNote hname (isLineText_of_penned hpenned) optional
  have hreader : (Reader.sectioned sections).ReadsText := trivial
  obtain ⟨fault, hread⟩ := exists_read_section hargs hnote h
  by_cases hforeign : '\'' ∈ text.toList ∨ '-' ∈ text.toList
  · obtain ⟨before, c, after, htext, hc, hbefore⟩ := exists_foreign hpenned.inked hforeign
    rw [hnote.paramEntry?_eq_none hc hbefore htext] at hread
    constructor
    · intro hdocuments
      exact absurd hdocuments (not_documents_of_refused hreader hread)
    · intro hplain
      exact absurd hforeign (not_or.mpr hplain.2)
  · obtain ⟨hquote, hminus⟩ := not_or.mp hforeign
    rw [hnote.paramEntry?_entry (colon_typeNote hpenned.inked hquote)] at hread
    constructor
    · intro hdocuments
      refine ⟨?_, hquote, hminus⟩
      -- a reference that ends as a marked one may look like no type once it is cut
      by_cases htype : (splitOptional (typeNote name text.toList optional).typeText).1.all isTypeText
      · rw [if_pos htype] at hread
        exact unmarked_of_documents hreader hread rfl hdocuments
      · rw [if_neg htype] at hread
        exact absurd hdocuments (not_documents_of_refused hreader hread)
    · intro hplain
      have htype : (some text.toList).all isTypeText = true :=
        isTypeText_of_penned hpenned hquote hminus
      rw [splitOptional_typeNote hpenned hplain.1, if_pos htype] at hread
      exact documents_of_encode hr hencode hread

end Reached

/-- Which references can be documented. A field list takes all but those that end in `optional` without
being marked; a section takes those of them that have no quote and no minus sign. -/
theorem documents_reference {r : Registry} (hr : r.Reached) {limits : Reference.Limits}
    {type : TypeExpr} {text : String} (hencode : Reference.encode limits r.scope type = .ok text)
    {sections : SectionSet} (hargs : sections.get? "Args" = some .params) {name : List Char}
    (hname : IsNoteName name) (optional : Bool) :
    (∀ fields, HasFields [typeNote name text.toList optional] fields →
      (Documents limits r.scope .fieldList fields name text optional ↔
        (optional = true ∨ ¬ "optional".toList <:+ text.toList))) ∧
      ∀ sectioned, HasSection [typeNote name text.toList optional] sectioned →
        (Documents limits r.scope (.sectioned sections) sectioned name text optional ↔
          (optional = true ∨ ¬ "optional".toList <:+ text.toList) ∧
            '\'' ∉ text.toList ∧ '-' ∉ text.toList) := by
  constructor
  · intro fields hfields
    exact documents_fieldList_iff hr hencode hname hfields
  · intro sectioned hsectioned
    exact documents_sectioned_iff hr hencode hname hargs hsectioned

def letterFields : String := ":param x: Note.\n:type x: Literal['a']"

def letterSection : String := "Args:\n    x (Literal['a']): Note."

theorem encode_letter : Reference.encode ⟨100, 3⟩ (Registry.new "tables").scope
    (.literal [.str "a"]) = .ok "Literal['a']" := by
  decide +kernel

theorem isNoteName_x : IsNoteName "x".toList :=
  ⟨by decide, List.all_eq_true.mp (by decide)⟩

theorem hasFields_letter :
    HasFields [typeNote "x".toList "Literal['a']".toList false] letterFields := by
  have htext : joined (typeNote "x".toList "Literal['a']".toList false).fieldLines = letterFields := by
    decide +kernel
  exact htext ▸ hasFields_typeNote _ _ _

theorem hasSection_letter :
    HasSection [typeNote "x".toList "Literal['a']".toList false] letterSection := by
  have htext : joined ["Args:".toList, List.replicate 4 ' ' ++
      (typeNote "x".toList "Literal['a']".toList false).entry] = letterSection := by
    decide +kernel
  exact htext ▸ hasSection_typeNote _ _ _

theorem documents_reference_letter :
    (Registry.new "tables").Reached ∧
      Reference.encode ⟨100, 3⟩ (Registry.new "tables").scope (.literal [.str "a"]) =
        .ok "Literal['a']" ∧
      SectionSet.standard.get? "Args" = some .params ∧ IsNoteName "x".toList ∧
      Documents ⟨100, 3⟩ (Registry.new "tables").scope .fieldList letterFields "x".toList
        "Literal['a']" false ∧
      ¬ Documents ⟨100, 3⟩ (Registry.new "tables").scope (.sectioned .standard) letterSection
        "x".toList "Literal['a']" false := by
  have hr : (Registry.new "tables").Reached := ⟨"tables", [], rfl⟩
  obtain ⟨hfields, hsectioned⟩ :=
    documents_reference hr encode_letter standard_args isNoteName_x false
  refine ⟨hr, encode_letter, standard_args, isNoteName_x, ?_, ?_⟩
  · rw [hfields letterFields hasFields_letter]
    decide
  · rw [hsectioned letterSection hasSection_letter]
    decide

/-- A registry with a name that ends as marked types do. -/
def shop : Registry := (Registry.new "shop").afterAll [.registerNamed "shop.optional"]

def shopFields : String := ":param x: Note.\n:type x: shop.optional"

theorem encode_shop : Reference.encode ⟨100, 3⟩ shop.scope (.named "shop.optional") =
    .ok "shop.optional" := by
  decide +kernel

theorem hasFields_shop :
    HasFields [typeNote "x".toList "shop.optional".toList false] shopFields := by
  have htext : joined (typeNote "x".toList "shop.optional".toList false).fieldLines = shopFields := by
    decide +kernel
  exact htext ▸ hasFields_typeNote _ _ _

/-- There are references that neither a section nor a field list documents. -/
theorem not_documents_every_reference :
    (¬ ∀ (r : Registry), r.Reached → ∀ (limits : Reference.Limits) (type : TypeExpr) (text : String),
      Reference.encode limits r.scope type = .ok text →
      ∀ (name : List Char), IsNoteName name → ∀ (optional : Bool) (sectioned : String),
        HasSection [typeNote name text.toList optional] sectioned →
        Documents limits r.scope (.sectioned .standard) sectioned name text optional) ∧
      ¬ ∀ (r : Registry), r.Reached → ∀ (limits : Reference.Limits) (type : TypeExpr) (text : String),
        Reference.encode limits r.scope type = .ok text →
        ∀ (name : List Char), IsNoteName name → ∀ (optional : Bool) (fields : String),
          HasFields [typeNote name text.toList optional] fields →
          Documents limits r.scope .fieldList fields name text optional := by
  constructor
  · intro hall
    have hr : (Registry.new "tables").Reached := ⟨"tables", [], rfl⟩
    have hdocuments := hall _ hr _ _ _ encode_letter _ isNoteName_x false _ hasSection_letter
    rw [documents_sectioned_iff hr encode_letter isNoteName_x standard_args hasSection_letter]
      at hdocuments
    exact absurd hdocuments (by decide)
  · intro hall
    have hr : shop.Reached := ⟨"shop", [.registerNamed "shop.optional"], rfl⟩
    have hdocuments := hall _ hr _ _ _ encode_shop _ isNoteName_x false _ hasFields_shop
    rw [documents_fieldList_iff hr encode_shop isNoteName_x hasFields_shop] at hdocuments
    exact absurd hdocuments (by decide)

end Callable.Docs
