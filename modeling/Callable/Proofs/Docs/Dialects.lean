import Callable.Docs.Style
import Callable.Proofs.Docs.Note
import Callable.Proofs.Docs.Outline

/-!
The two dialects say the same. Notes on parameters, written as entries of a section or as a field list,
are read as what they say, in their order. Both readers take in line after line and hold the entry or
field that the next line may continue; so each goes through the notes one by one, and what is read of a
note does not depend on the others as long as the names differ.
-/
namespace Callable.Docs

theorem joinLines_cons_cons (first next : List Char) (rest : List (List Char)) :
    Text.joinLines (first :: next :: rest) = Text.joinLines ((first ++ ' ' :: next) :: rest) := by
  cases rest with
  | nil => simp [Text.joinLines]
  | cons more rest => simp [Text.joinLines, List.intercalate_cons_cons]

/-- A description continued by some lines. -/
def extendAll (description : String) (more : List (List Char)) : String :=
  more.foldl (fun description line => extend description (String.ofList line)) description

/-- A description that is continued line by line is that of all lines. -/
theorem extendAll_eq_joinLines {first : List Char} (hne : first ≠ []) (more : List (List Char)) :
    extendAll (String.ofList first) more = String.ofList (Text.joinLines (first :: more)) := by
  induction more generalizing first with
  | nil => simp [extendAll, Text.joinLines]
  | cons next rest ih =>
    have hnonempty : String.ofList first ≠ "" := by simpa using hne
    have hextend : extend (String.ofList first) (String.ofList next) =
        String.ofList (first ++ ' ' :: next) := by
      rw [extend, if_neg hnonempty]
      apply String.toList_injective
      simp
    have hrest : extendAll (String.ofList (first ++ ' ' :: next)) rest =
        String.ofList (Text.joinLines ((first ++ ' ' :: next) :: rest)) := ih (by simp)
    rw [joinLines_cons_cons, ← hrest, ← hextend]
    rfl

theorem ParamNote.IsLegible.extendAll_more {note : ParamNote} (h : note.IsLegible) :
    extendAll (String.ofList note.first) note.more = note.description :=
  extendAll_eq_joinLines h.first.ne_nil note.more

/-- All deeper lines go to the section. -/
theorem run_of_deeper (sections : SectionSet) {lines : List Line} {indent : Nat}
    (hdeep : ∀ line ∈ lines, indent < line.indent) (s : Section) :
    (Progress.run sections { zone := .body indent, sections := [s] } lines).outcome =
      .ok { zone := .body indent
            sections := [{ s with lines := (numbered lines).reverse ++ s.lines }] } := by
  have hquiet : ∀ line ∈ lines,
      header? line.text = none ∨ (Zone.body indent).admits line.indent = false := by
    intro line hline
    exact Or.inr (by simpa [Zone.admits] using hdeep line hline)
  rw [Progress.run_of_quiet hquiet, Progress.foldlM_add_body rfl rfl]

/-- A docstring that is one section on parameters. -/
theorem scan_params {sections : SectionSet} {header : String}
    (hkind : sections.get? header = some .params) {docstring : String} {first : Line}
    {lines : List Line} (hlines : textLines docstring = first :: lines)
    (hheader : header? first.text = some header.toList)
    (hdeep : ∀ line ∈ lines, first.indent < line.indent) :
    (scan sections docstring).outcome =
      .ok ⟨none, [⟨.params, header, first.number, numbered lines⟩], []⟩ := by
  have hopened : (Progress.step sections {} first).outcome =
      .ok { zone := .body first.indent, sections := [⟨.params, header, first.number, []⟩] } := by
    unfold Progress.step
    simp only [hheader, Zone.admits, if_true, String.ofList_toList, hkind, Logged.outcome_bind,
      Logged.outcome_note, Progress.open]
    rfl
  have hrun : (Progress.run sections {} (first :: lines)).outcome =
      .ok { zone := .body first.indent, sections := [⟨.params, header, first.number,
        (numbered lines).reverse⟩] } := by
    rw [Progress.run, Logged.outcome_bind, hopened]
    have hall := run_of_deeper sections hdeep ⟨.params, header, first.number, []⟩
    rw [List.append_nil] at hall
    exact hall
  unfold scan
  rw [hlines, Logged.outcome_bind, hrun]
  change Except.ok _ = _
  simp [Progress.scan]

theorem paramDocs_of_entry {header : String} {text : List Char} {entry : ParamEntry}
    (h : paramEntry? text = some entry) (number : Nat) (done : List InputDoc)
    (rest : List (Nat × List Char)) :
    paramDocs header done ((number, text) :: rest) =
      paramDocs header (entry.doc :: done) rest := by
  simp only [paramDocs, h]

theorem paramDocs_of_no_entry {header : String} {text : List Char} (h : paramEntry? text = none)
    (number : Nat) (last : InputDoc) (before : List InputDoc) (rest : List (Nat × List Char)) :
    paramDocs header (last :: before) ((number, text) :: rest) =
      paramDocs header ({ last with
        description := some (continued last.description (String.ofList text)) } :: before) rest := by
  simp only [paramDocs, h]

/-- Lines that begin no entry continue the last one. -/
theorem paramDocs_append (header : String) {lines : List (Nat × List Char)}
    (hmore : ∀ text ∈ lines.map Prod.snd, Continues text) (last : InputDoc) (description : String)
    (before : List InputDoc) (rest : List (Nat × List Char)) :
    paramDocs header ({ last with description := some description } :: before) (lines ++ rest) =
      paramDocs header ({ last with
        description := some (extendAll description (lines.map Prod.snd)) } :: before) rest := by
  induction lines generalizing description with
  | nil => rfl
  | cons line lines ih =>
    obtain ⟨number, text⟩ := line
    obtain ⟨htext, hlines⟩ := List.forall_mem_cons.mp hmore
    rw [List.cons_append, paramDocs_of_no_entry htext.no_entry]
    exact ih hlines (extend description (String.ofList text))

/-- The lines of notes are read as the notes. -/
theorem paramDocs_notes (header : String) {notes : List ParamNote}
    (hplain : ∀ note ∈ notes, note.IsPlain) {lines : List (Nat × List Char)}
    (hlines : lines.map Prod.snd = notes.flatMap ParamNote.sectionLines) (done : List InputDoc) :
    paramDocs header done lines = .ok (done.reverse ++ notes.map ParamNote.doc) := by
  induction notes generalizing lines done with
  | nil =>
    obtain rfl := List.map_eq_nil_iff.mp hlines
    rw [paramDocs, List.map_nil, List.append_nil]
  | cons note rest ih =>
    obtain ⟨hnote, hrest⟩ := List.forall_mem_cons.mp hplain
    rw [List.flatMap_cons] at hlines
    obtain ⟨here, below, rfl, hhere, hbelow⟩ := List.map_eq_append_iff.mp hlines
    obtain ⟨⟨number, text⟩, more, rfl, rfl, hmore⟩ := List.map_eq_cons_iff.mp hhere
    have hcontinue : ∀ text ∈ more.map Prod.snd, Continues text := hmore ▸ hnote.more
    have hdoc : paramDocs header done ((number, note.entry) :: more ++ below) =
        paramDocs header (note.doc :: done) below := by
      rw [List.cons_append, paramDocs_of_entry hnote.paramEntry?_entry]
      have hall := paramDocs_append header hcontinue note.doc
        (String.ofList note.first) done below
      rw [hmore, hnote.isLegible.extendAll_more] at hall
      exact hall
    rw [hdoc, ih hrest hbelow, List.reverse_cons, List.append_assoc]
    rfl

/-- The field on a parameter, with all lines of its description. -/
def ParamNote.described (note : ParamNote) (line : Nat) : Field :=
  ⟨line, "param", [String.ofList note.name], note.description⟩

/-- The field on the type of a parameter. -/
def ParamNote.typed (note : ParamNote) (line : Nat) : Field :=
  ⟨line, "type", [String.ofList note.name], String.ofList note.typeText⟩

/-- The fields are those of the notes, wherever they stand. -/
inductive FieldsOf : List ParamNote → List Field → Prop
  | nil : FieldsOf [] []
  | cons {note : ParamNote} {notes : List ParamNote} {fields : List Field} (line stop : Nat) :
      FieldsOf notes fields →
      FieldsOf (note :: notes) (note.described line :: note.typed stop :: fields)

theorem addFieldLine_of_field {line : Line} {field : Field} (h : fieldLine? line = some field)
    (summary : List (List Char)) (fields : List Field) :
    addFieldLine (summary, fields) line = (summary, field :: fields) := by
  simp only [addFieldLine, h]

/-- Lines that begin no field continue the last one. -/
theorem foldl_addFieldLine {lines : List Line} (hmore : ∀ line ∈ lines, fieldLine? line = none)
    (summary : List (List Char)) (last : Field) (before : List Field) :
    lines.foldl addFieldLine (summary, last :: before) =
      (summary, { last with body := extendAll last.body (lines.map Line.text) } :: before) := by
  induction lines generalizing last with
  | nil => rfl
  | cons line rest ih =>
    obtain ⟨hline, hrest⟩ := List.forall_mem_cons.mp hmore
    have hadd : addFieldLine (summary, last :: before) line =
        (summary, { last with body := extend last.body (String.ofList line.text) } :: before) := by
      simp only [addFieldLine, hline]
    rw [List.foldl_cons, hadd, ih hrest]
    rfl

theorem exists_fields_note {note : ParamNote} (hnote : note.IsLegible) {lines : List Line}
    (hlines : lines.map Line.text = note.fieldLines) (summary : List (List Char))
    (done : List Field) :
    ∃ line stop, lines.foldl addFieldLine (summary, done) =
      (summary, note.typed stop :: note.described line :: done) := by
  obtain ⟨top, others, rfl, htop, hothers⟩ := List.map_eq_cons_iff.mp hlines
  obtain ⟨more, ending, rfl, hmore, hending⟩ := List.map_eq_append_iff.mp hothers
  obtain ⟨last, _, rfl, hlast, hnil⟩ := List.map_eq_cons_iff.mp hending
  obtain rfl := List.map_eq_nil_iff.mp hnil
  have hcontinue : ∀ line ∈ more, fieldLine? line = none := by
    intro line hline
    have htext : line.text ∈ note.more := hmore ▸ List.mem_map_of_mem hline
    exact (hnote.more _ htext).no_field line rfl
  have hparam := fieldLine?_field (by decide) (by decide) hnote.name hnote.first htop
  have htype :=
    fieldLine?_field (by decide) (by decide) hnote.name hnote.isLineText_typeText hlast
  refine ⟨top.number, last.number, ?_⟩
  rw [List.foldl_cons, List.foldl_append, addFieldLine_of_field hparam,
    foldl_addFieldLine hcontinue, hmore, hnote.extendAll_more, List.foldl_cons, addFieldLine_of_field htype]
  rfl

/-- The fields found in the lines of notes. -/
theorem exists_fields {notes : List ParamNote} (hplain : ∀ note ∈ notes, note.IsPlain)
    {lines : List Line} (hlines : lines.map Line.text = notes.flatMap ParamNote.fieldLines)
    (summary : List (List Char)) (done : List Field) :
    ∃ fields, FieldsOf notes fields ∧
      lines.foldl addFieldLine (summary, done) = (summary, fields.reverse ++ done) := by
  induction notes generalizing lines done with
  | nil =>
    obtain rfl := List.map_eq_nil_iff.mp hlines
    exact ⟨[], FieldsOf.nil, rfl⟩
  | cons note rest ih =>
    obtain ⟨hnote, hrest⟩ := List.forall_mem_cons.mp hplain
    rw [List.flatMap_cons] at hlines
    obtain ⟨here, below, rfl, hhere, hbelow⟩ := List.map_eq_append_iff.mp hlines
    obtain ⟨line, stop, hfold⟩ := exists_fields_note hnote.isLegible hhere summary done
    obtain ⟨fields, hfields, hall⟩ :=
      ih hrest hbelow (note.typed stop :: note.described line :: done)
    refine ⟨_, FieldsOf.cons line stop hfields, ?_⟩
    rw [List.foldl_append, hfold, hall]
    simp

theorem modifyFirst?_append {α : Type} {test : α → Bool} (change : α → α) {front : List α}
    (hfront : ∀ a ∈ front, test a = false) {a : α} (ha : test a = true) (rest : List α) :
    modifyFirst? test change (front ++ a :: rest) = some (front ++ change a :: rest) := by
  induction front with
  | nil => rw [List.nil_append, modifyFirst?, if_pos ha, List.nil_append]
  | cons b front ih =>
    obtain ⟨hb, hfront⟩ := List.forall_mem_cons.mp hfront
    rw [List.cons_append, modifyFirst?, hb, ih hfront]
    rfl

theorem applyFields_cons {docs docs' : Docs} {field : Field} (h : field.apply docs = .ok docs')
    (rest : List Field) : applyFields docs (field :: rest) = applyFields docs' rest := by
  rw [applyFields, h]
  rfl

/-- What is known of a parameter before its type is. -/
def ParamNote.untyped (note : ParamNote) : InputDoc where
  name := String.ofList note.name
  description := some note.description

theorem apply_described (note : ParamNote) (docs : Docs) (line : Nat) :
    (note.described line).apply docs =
      .ok { docs with inputs := docs.inputs ++ [note.untyped] } := by
  have hkind : FieldKind.ofTag? "param" = some .param := rfl
  simp only [Field.apply, ParamNote.described, hkind, ParamNote.untyped]

/-- What is known of a parameter when its type is read. -/
def ParamNote.typedDoc (note : ParamNote) : InputDoc :=
  { note.untyped with
    type := ((splitOptional note.typeText).1.filter (!·.isEmpty)).map String.ofList
    optional := some (splitOptional note.typeText).2 }

/-- The type that was read is that of the note if only the mark was taken off it. -/
theorem ParamNote.typedDoc_eq {note : ParamNote} (hne : note.type ≠ [])
    (hsplit : splitOptional note.typeText = (some note.type, note.optional)) :
    note.typedDoc = note.doc := by
  unfold typedDoc
  rw [hsplit]
  simp [untyped, doc, hne]

theorem apply_typed (note : ParamNote) {docs : Docs} {before : List InputDoc}
    (hinputs : docs.inputs = before ++ [note.untyped])
    (hnew : ∀ doc ∈ before, doc.name ≠ String.ofList note.name) (line : Nat) :
    (note.typed line).apply docs = .ok { docs with inputs := before ++ [note.typedDoc] } := by
  have htype : applyType (note.typed line) docs.inputs = some (before ++ [note.typedDoc]) := by
    unfold applyType ParamNote.typed
    simp only [String.toList_ofList, hinputs]
    rw [modifyFirst?_append]
    · rfl
    · exact fun doc hdoc => decide_eq_false (hnew doc hdoc)
    · exact decide_eq_true rfl
  have hkind : FieldKind.ofTag? (note.typed line).tag = some .type := rfl
  simp only [Field.apply, hkind, htype]

/-- The two fields of a note add what it says, if nothing was said about its parameter before. -/
theorem applyFields_note (note : ParamNote) {docs : Docs}
    (hnew : ∀ doc ∈ docs.inputs, doc.name ≠ String.ofList note.name) (line stop : Nat)
    (rest : List Field) :
    applyFields docs (note.described line :: note.typed stop :: rest) =
      applyFields { docs with inputs := docs.inputs ++ [note.typedDoc] } rest := by
  rw [applyFields_cons (apply_described note docs line),
    applyFields_cons (apply_typed note rfl hnew stop)]

theorem applyFields_notes {notes : List ParamNote} {fields : List Field}
    (hfields : FieldsOf notes fields) (hplain : ∀ note ∈ notes, note.IsPlain)
    (hnames : (notes.map ParamNote.name).Nodup) (docs : Docs)
    (hnew : ∀ note ∈ notes, ∀ doc ∈ docs.inputs, doc.name ≠ String.ofList note.name) :
    applyFields docs fields =
      .ok { docs with inputs := docs.inputs ++ notes.map ParamNote.doc } := by
  induction hfields generalizing docs with
  | nil => rw [applyFields, List.map_nil, List.append_nil]
  | @cons note notes fields line stop _ ih =>
    obtain ⟨hnote, hplain⟩ := List.forall_mem_cons.mp hplain
    obtain ⟨hfirst, hrest⟩ := List.forall_mem_cons.mp hnew
    obtain ⟨hother, hnames⟩ := List.nodup_cons.mp hnames
    have hadded : ∀ other ∈ notes, ∀ doc ∈ docs.inputs ++ [note.doc],
        doc.name ≠ String.ofList other.name := by
      intro other hmem
      refine List.forall_mem_append.mpr ⟨hrest other hmem, List.forall_mem_singleton.mpr ?_⟩
      intro heq
      have hsame : note.name = other.name := String.ofList_injective heq
      exact hother (hsame ▸ List.mem_map_of_mem hmem)
    have hdoc := ParamNote.typedDoc_eq hnote.isLegible.type.ne_nil hnote.splitOptional_typeText
    rw [applyFields_note note hfirst, hdoc, ih hplain hnames _ hadded]
    simp

/-- The docstring has the notes in a section under `Args:`. -/
def HasSection (notes : List ParamNote) (docstring : String) : Prop :=
  ∃ raws, docstring = joined ("Args:".toList :: raws) ∧
    List.Forall₂ (LaidOut 1) raws (notes.flatMap ParamNote.sectionLines)

/-- The docstring has the notes in a field list. -/
def HasFields (notes : List ParamNote) (docstring : String) : Prop :=
  ∃ raws, docstring = joined raws ∧
    List.Forall₂ (LaidOut 0) raws (notes.flatMap ParamNote.fieldLines)

theorem standard_args : SectionSet.standard.get? "Args" = some .params := by
  simp [SectionSet.standard, Table.ofList, Table.get?_put]

/-- Texts in a section on parameters are read as its lines. -/
theorem exists_readSectioned {sections : SectionSet}
    (hargs : sections.get? "Args" = some .params) {raws texts : List (List Char)}
    (hraws : List.Forall₂ (LaidOut 1) raws texts) (htexts : ∀ text ∈ texts, IsLineText text) :
    ∃ lines, lines.map Prod.snd = texts ∧
      (readSectioned sections (joined ("Args:".toList :: raws))).outcome =
        (paramDocs "Args" [] lines).map fun inputs =>
          { text := some (joined ("Args:".toList :: raws)), inputs } := by
  have hheader : IsLineText "Args:".toList := ⟨by decide, by decide, by decide⟩
  obtain ⟨first, lines, hlines, hfirst, hindent, hshows⟩ :=
    exists_textLines_under hraws htexts hheader
  have hopens : header? first.text = some "Args".toList := by
    rw [hfirst]
    decide +kernel
  have hdeep : ∀ line ∈ lines, first.indent < line.indent := by
    rw [hindent]
    exact indent_of_shows hshows
  have hscan := scan_params hargs hlines hopens hdeep
  have hnumbered : (numbered lines).map Prod.snd = texts := by
    rw [← map_text_of_shows hshows, numbered, List.map_map]
    rfl
  refine ⟨numbered lines, hnumbered, ?_⟩
  unfold readSectioned
  rw [Logged.outcome_bind, hscan]
  change (Logged.ofExcept (allParamDocs _) >>= _).outcome = _
  rw [Logged.outcome_bind, Logged.outcome_ofExcept, allParamDocs, if_pos rfl]
  cases paramDocs "Args" [] (numbered lines) with
  | error e => rfl
  | ok inputs =>
    change Except.ok _ = Except.ok _
    rw [List.append_nil]
    rfl

theorem readSectioned_notes {sections : SectionSet} (hargs : sections.get? "Args" = some .params)
    {notes : List ParamNote} (hplain : ∀ note ∈ notes, note.IsPlain) {docstring : String}
    (h : HasSection notes docstring) :
    ∃ docs, (readSectioned sections docstring).outcome = .ok docs ∧
      docs.inputs = notes.map ParamNote.doc := by
  obtain ⟨raws, rfl, hraws⟩ := h
  have htexts : ∀ text ∈ notes.flatMap ParamNote.sectionLines, IsLineText text :=
    List.forall_mem_flatMap.mpr fun note hnote =>
      (hplain note hnote).isLegible.isLineText_sectionLines
  obtain ⟨lines, hlines, hread⟩ := exists_readSectioned hargs hraws htexts
  rw [paramDocs_notes "Args" hplain hlines] at hread
  exact ⟨_, hread, rfl⟩

theorem readFieldList_notes {notes : List ParamNote} (hplain : ∀ note ∈ notes, note.IsPlain)
    (hnames : (notes.map ParamNote.name).Nodup) {docstring : String}
    (h : HasFields notes docstring) :
    ∃ docs, readFieldList docstring = .ok docs ∧ docs.inputs = notes.map ParamNote.doc := by
  obtain ⟨raws, rfl, hraws⟩ := h
  have htexts : ∀ text ∈ notes.flatMap ParamNote.fieldLines, IsLineText text :=
    List.forall_mem_flatMap.mpr fun note hnote => (hplain note hnote).isLegible.isLineText_fieldLines
  have hlines := map_text_of_shows (shows_textLines hraws htexts)
  obtain ⟨fields, hfields, hfold⟩ := exists_fields hplain hlines [] []
  have happlied := applyFields_notes hfields hplain hnames
    { text := some (joined raws) } (fun _ _ => List.forall_mem_nil _)
  refine ⟨{ text := some (joined raws), inputs := notes.map ParamNote.doc }, ?_, rfl⟩
  unfold readFieldList
  rw [hfold, List.append_nil]
  simp only [List.reverse_reverse]
  exact happlied

/-- Notes on parameters of different names are read alike in both dialects: in their order, with their
types and marks, and with the lines of each description joined. -/
theorem dialects_agree (sections : SectionSet) (hargs : sections.get? "Args" = some .params)
    (notes : List ParamNote) (hplain : ∀ note ∈ notes, note.IsPlain)
    (hnames : (notes.map ParamNote.name).Nodup) (sectioned fields : String)
    (hsectioned : HasSection notes sectioned) (hfields : HasFields notes fields) :
    ∃ docs docs', ((Reader.sectioned sections).read sectioned).outcome = .ok docs ∧
      (Reader.fieldList.read fields).outcome = .ok docs' ∧
      docs.inputs = notes.map ParamNote.doc ∧ docs'.inputs = notes.map ParamNote.doc := by
  obtain ⟨docs, hread, hinputs⟩ := readSectioned_notes hargs hplain hsectioned
  obtain ⟨docs', hread', hinputs'⟩ := readFieldList_notes hplain hnames hfields
  exact ⟨docs, docs', hread, hread', hinputs, hinputs'⟩

/-- A parameter that may be left out, with a line that looks like a header. -/
def rowsNote : ParamNote where
  name := "rows".toList
  type := "Cell | None".toList
  optional := true
  first := "the rows: all of them".toList
  more := ["Returns:".toList]

/-- A description that holds the marks between which a type stands. -/
def widthNote : ParamNote where
  name := "width_2".toList
  type := "(int, str)".toList
  optional := false
  first := "of (one): cell".toList
  more := []

theorem isPlain_rowsNote : rowsNote.IsPlain where
  name := ⟨'r', "ows".toList, rfl, by decide, List.all_eq_true.mp (by decide)⟩
  trimmed := by decide +kernel
  type := by decide +kernel
  unmarked := by decide +kernel
  commaless := by decide
  first := ⟨by decide, by decide +kernel, by decide⟩
  more := by
    refine List.forall_mem_singleton.mpr ⟨⟨by decide, by decide +kernel, by decide⟩, rfl, ?_⟩
    intro line hline
    unfold fieldLine?
    rw [hline]
    rfl

theorem isPlain_widthNote : widthNote.IsPlain where
  name := ⟨'w', "idth_2".toList, rfl, by decide, List.all_eq_true.mp (by decide)⟩
  trimmed := by decide +kernel
  type := by decide +kernel
  unmarked := by decide +kernel
  commaless := by decide
  first := ⟨by decide, by decide +kernel, by decide⟩
  more := List.forall_mem_nil _

def sectionedRows : String :=
  "Args:\n    rows (Cell | None, optional): the rows: all of them\n        Returns:\n" ++
    "    width_2 ((int, str)): of (one): cell"

def listedRows : String :=
  ":param rows: the rows: all of them\n    Returns:\n:type rows: Cell | None, optional\n" ++
    ":param width_2: of (one): cell\n:type width_2: (int, str)"

theorem dialects_agree_rows :
    SectionSet.standard.get? "Args" = some .params ∧
      (∀ note ∈ [rowsNote, widthNote], note.IsPlain) ∧
      ([rowsNote, widthNote].map ParamNote.name).Nodup ∧
      HasSection [rowsNote, widthNote] sectionedRows ∧
      HasFields [rowsNote, widthNote] listedRows ∧
      ∃ docs docs',
        ((Reader.sectioned SectionSet.standard).read sectionedRows).outcome = .ok docs ∧
        (Reader.fieldList.read listedRows).outcome = .ok docs' ∧
        docs.inputs = [rowsNote.doc, widthNote.doc] ∧
        docs'.inputs = [rowsNote.doc, widthNote.doc] := by
  have hplain : ∀ note ∈ [rowsNote, widthNote], note.IsPlain :=
    List.forall_mem_cons.mpr ⟨isPlain_rowsNote, List.forall_mem_singleton.mpr isPlain_widthNote⟩
  have hnames : ([rowsNote, widthNote].map ParamNote.name).Nodup := by decide
  have hsectioned : HasSection [rowsNote, widthNote] sectionedRows := by
    refine ⟨[List.replicate 4 ' ' ++ rowsNote.entry, List.replicate 8 ' ' ++ "Returns:".toList,
      List.replicate 4 ' ' ++ widthNote.entry], by decide +kernel, ?_⟩
    refine .cons (laidOut_spaces (by decide) _) ?_
    refine .cons (laidOut_spaces (by decide) _) ?_
    exact .cons (laidOut_spaces (by decide) _) .nil
  have hfields : HasFields [rowsNote, widthNote] listedRows := by
    refine ⟨[ParamNote.field "param" rowsNote.name rowsNote.first,
      List.replicate 4 ' ' ++ "Returns:".toList,
      ParamNote.field "type" rowsNote.name rowsNote.typeText,
      ParamNote.field "param" widthNote.name widthNote.first,
      ParamNote.field "type" widthNote.name widthNote.typeText], by decide +kernel, ?_⟩
    refine .cons (laidOut_self _) (.cons (laidOut_spaces (Nat.zero_le 4) _) ?_)
    exact .cons (laidOut_self _) (.cons (laidOut_self _) (.cons (laidOut_self _) .nil))
  exact ⟨standard_args, hplain, hnames, hsectioned, hfields,
    dialects_agree SectionSet.standard standard_args
    [rowsNote, widthNote] hplain hnames sectionedRows listedRows hsectioned hfields⟩

end Callable.Docs
