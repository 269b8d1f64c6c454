import Callable.Proofs.Docs.Dialects
import Callable.Proofs.Docs.Normal

/-!
The order of the fields of a docstring. Fields on results change the results and nothing else, and no other
field looks at them; so a field on the type of the result can be moved among the others as one likes. What
it adds only depends on whether the result was described before: a type is given to a described result, but
a description never goes to a result that has only a type.
-/
namespace Callable.Docs

/-- The field that a text begins, wherever it stands. -/
def fieldOf? (text : List Char) : Option Field := fieldLine? ⟨0, 0, text⟩

/-- The field without its place. -/
def Field.unplaced (field : Field) : Field := { field with line := 0 }

theorem fieldOf?_text (line : Line) : fieldOf? line.text = (fieldLine? line).map Field.unplaced := by
  unfold fieldOf? fieldLine?
  dsimp only
  split
  · cases Text.cut? [':'] _ with
    | none => rfl
    | some parts =>
      dsimp only
      cases Text.words parts.1 with
      | nil => rfl
      | cons tag arguments =>
        dsimp only
        split <;> rfl
  · rfl

/-- A field as it is written: the line that begins it and the lines that continue it. -/
structure FieldBlock where
  first : List Char
  more : List (List Char)
  field : Field
  begins : fieldOf? first = some field
  continues : ∀ text ∈ more, fieldOf? text = none

namespace FieldBlock

def lines (block : FieldBlock) : List (List Char) := block.first :: block.more

/-- The field with the lines that continue it. -/
def whole (block : FieldBlock) : Field :=
  { block.field with body := extendAll block.field.body block.more }

def kind? (block : FieldBlock) : Option FieldKind := FieldKind.ofTag? block.field.tag

end FieldBlock

/-- A docstring that consists of some lines of a summary and of some fields, blank lines and blank space
apart. -/
structure IsListing (docstring : String) (summary : List (List Char)) (blocks : List FieldBlock) :
    Prop where
  texts : (textLines docstring).map Line.text = summary ++ blocks.flatMap FieldBlock.lines
  summary : ∀ text ∈ summary, fieldOf? text = none

theorem exists_blocks (texts : List (List Char)) : ∃ (summary : List (List Char))
    (blocks : List FieldBlock), texts = summary ++ blocks.flatMap FieldBlock.lines ∧
      ∀ text ∈ summary, fieldOf? text = none := by
  induction texts with
  | nil => exact ⟨[], [], rfl, List.forall_mem_nil _⟩
  | cons text rest ih =>
    obtain ⟨more, blocks, rfl, hmore⟩ := ih
    cases hfield : fieldOf? text with
    | none => exact ⟨text :: more, blocks, rfl, List.forall_mem_cons.mpr ⟨hfield, hmore⟩⟩
    | some field =>
      exact ⟨[], ⟨text, more, field, hfield, hmore⟩ :: blocks, rfl, List.forall_mem_nil _⟩

/-- Every docstring is a listing. -/
theorem exists_listing (docstring : String) : ∃ summary blocks, IsListing docstring summary blocks := by
  obtain ⟨summary, blocks, htexts, hsummary⟩ := exists_blocks ((textLines docstring).map Line.text)
  exact ⟨summary, blocks, htexts, hsummary⟩

section Reading

variable {lines : List Line}

theorem fieldLine?_eq_none {line : Line} (h : fieldOf? line.text = none) : fieldLine? line = none := by
  rw [fieldOf?_text] at h
  exact Option.map_eq_none_iff.mp h

theorem foldl_addFieldLine_summary {texts : List (List Char)} (hlines : lines.map Line.text = texts)
    (h : ∀ text ∈ texts, fieldOf? text = none) (done : List (List Char)) :
    lines.foldl addFieldLine (done, []) = (texts.reverse ++ done, []) := by
  induction lines generalizing texts done with
  | nil =>
    subst hlines
    rfl
  | cons line rest ih =>
    subst hlines
    obtain ⟨hline, hrest⟩ := List.forall_mem_cons.mp h
    have hadd : addFieldLine (done, []) line = (line.text :: done, []) := by
      simp only [addFieldLine, fieldLine?_eq_none hline]
    rw [List.foldl_cons, hadd, ih rfl hrest]
    simp

/-- The fields found in the lines of blocks, up to their places. -/
theorem exists_fields_blocks {blocks : List FieldBlock}
    (hlines : lines.map Line.text = blocks.flatMap FieldBlock.lines) (summary : List (List Char))
    (done : List Field) :
    ∃ fields : List Field, fields.map Field.unplaced = blocks.map FieldBlock.whole ∧
      lines.foldl addFieldLine (summary, done) = (summary, fields.reverse ++ done) := by
  induction blocks generalizing lines done with
  | nil =>
    obtain rfl := List.map_eq_nil_iff.mp hlines
    exact ⟨[], rfl, rfl⟩
  | cons block rest ih =>
    rw [List.flatMap_cons] at hlines
    obtain ⟨here, below, rfl, hhere, hbelow⟩ := List.map_eq_append_iff.mp hlines
    obtain ⟨top, more, rfl, htop, hmore⟩ := List.map_eq_cons_iff.mp hhere
    have hbegins := block.begins
    rw [← htop, fieldOf?_text] at hbegins
    obtain ⟨field, hfield, hunplaced⟩ := Option.map_eq_some_iff.mp hbegins
    have hcontinues : ∀ line ∈ more, fieldLine? line = none := by
      intro line hline
      have htext : line.text ∈ block.more := hmore ▸ List.mem_map_of_mem hline
      exact fieldLine?_eq_none (block.continues _ htext)
    obtain ⟨fields, hfields, hall⟩ :=
      ih hbelow ({ field with body := extendAll field.body block.more } :: done)
    refine ⟨{ field with body := extendAll field.body block.more } :: fields, ?_, ?_⟩
    · rw [List.map_cons, List.map_cons, hfields]
      unfold FieldBlock.whole
      rw [← hunplaced]
      rfl
    · rw [List.foldl_append, List.foldl_cons, addFieldLine_of_field hfield,
        foldl_addFieldLine hcontinues, hmore, hall]
      simp

theorem apply_unplaced_eq_ok_iff (docs : Docs) (field : Field) {docs' : Docs} :
    field.unplaced.apply docs = .ok docs' ↔ field.apply docs = .ok docs' := by
  have happly : applyType field.unplaced docs.inputs = applyType field docs.inputs := rfl
  unfold Field.apply
  rw [happly]
  unfold Field.unplaced
  dsimp only
  split
  · simp
  · split <;> simp
  · split <;> simp
  · split <;> simp
  · rfl
  · split <;> simp

/-- Only errors tell where a field stands. -/
theorem applyFields_unplaced_eq_ok_iff (docs : Docs) (fields : List Field) {docs' : Docs} :
    applyFields docs (fields.map Field.unplaced) = .ok docs' ↔ applyFields docs fields = .ok docs' := by
  induction fields generalizing docs with
  | nil => rfl
  | cons field rest ih =>
    constructor
    · intro h
      obtain ⟨next, hnext, hrest⟩ := Reference.exists_of_bind_eq_ok h
      rw [applyFields_cons ((apply_unplaced_eq_ok_iff docs field).mp hnext)]
      exact (ih next).mp hrest
    · intro h
      obtain ⟨next, hnext, hrest⟩ := Reference.exists_of_bind_eq_ok h
      rw [List.map_cons, applyFields_cons ((apply_unplaced_eq_ok_iff docs field).mpr hnext)]
      exact (ih next).mpr hrest

end Reading

/-- What a summary tells. -/
def summarized (summary : List (List Char)) : Docs where
  summary := if summary = [] then none else some (String.ofList (Text.joinLines summary))

/-- A listing is read as its fields are applied. -/
theorem readFieldList_eq_ok_iff_applyFields {docstring : String} {docs : Docs}
    {summary : List (List Char)} {blocks : List FieldBlock} (h : IsListing docstring summary blocks) :
    readFieldList docstring = .ok docs ↔
      applyFields { summarized summary with text := some docstring } (blocks.map FieldBlock.whole) =
        .ok docs := by
  obtain ⟨front, rest, hlines, hfront, hrest⟩ := List.map_eq_append_iff.mp h.texts
  obtain ⟨fields, hfields, hfold⟩ := exists_fields_blocks hrest summary.reverse []
  have hsummary := foldl_addFieldLine_summary hfront h.summary []
  rw [List.append_nil] at hsummary hfold
  rw [← hfields, applyFields_unplaced_eq_ok_iff]
  unfold readFieldList summarized
  rw [hlines, List.foldl_append, hsummary, hfold]
  simp

/-- Whether a field tells something about results. -/
def Field.onResults (field : Field) : Bool :=
  match FieldKind.ofTag? field.tag with
  | some .returns | some .returnType => true
  | _ => false

/-- The results after a field. -/
def Field.addResult (outputs : List OutputDoc) (field : Field) : List OutputDoc :=
  match FieldKind.ofTag? field.tag with
  | some .returns => outputs ++ [{ description := some field.body }]
  | some .returnType => applyReturnType field.body outputs
  | _ => outputs

/-- A field on a type has one. -/
def Field.TellsType (field : Field) : Prop :=
  FieldKind.ofTag? field.tag = some .returnType → field.body ≠ ""

theorem Field.addResult_of_other {field : Field} (h : field.onResults = false)
    (outputs : List OutputDoc) : field.addResult outputs = outputs := by
  unfold Field.onResults at h
  unfold Field.addResult
  split at h
  · cases h
  · cases h
  · rfl

theorem apply_onResults {field : Field} (h : field.onResults = true) (htype : field.TellsType)
    (docs : Docs) :
    field.apply docs = .ok { docs with outputs := field.addResult docs.outputs } := by
  unfold Field.onResults at h
  split at h
  · rename_i hkind
    simp only [Field.apply, Field.addResult, hkind]
  · rename_i hkind
    simp only [Field.apply, Field.addResult, hkind, if_neg (htype hkind)]
  · cases h

/-- Other fields neither look at the docstring and the results nor change them. -/
theorem apply_other {field : Field} (h : field.onResults = false) (docs : Docs)
    (text : Option String) (outputs : List OutputDoc) :
    field.apply { docs with text, outputs } =
      (field.apply docs).map ({ · with text, outputs }) := by
  unfold Field.onResults at h
  unfold Field.apply
  split
  · rfl
  · dsimp only
    split <;> rfl
  · dsimp only
    split <;> rfl
  · split <;> rfl
  · rename_i hkind
    simp [hkind] at h
  · rename_i hkind
    simp [hkind] at h

theorem tellsType_of_apply {docs docs' : Docs} {field : Field} (h : field.apply docs = .ok docs') :
    field.TellsType := by
  intro hkind
  cases Field.adds_of_apply h with
  | param _ _ hother | type hother _ | raises _ hother | returns hother =>
    cases hother.symm.trans hkind
  | returnType _ hbody => exact hbody

theorem tellsType_of_applyFields {docs docs' : Docs} {fields : List Field}
    (h : applyFields docs fields = .ok docs') : ∀ field ∈ fields, field.TellsType := by
  induction fields generalizing docs with
  | nil => exact List.forall_mem_nil _
  | cons field rest ih =>
    obtain ⟨next, hnext, hrest⟩ := Reference.exists_of_bind_eq_ok h
    exact List.forall_mem_cons.mpr ⟨tellsType_of_apply hnext, ih hrest⟩

/-- Fields on results and other fields are applied apart from each other. -/
theorem applyFields_apart {fields : List Field} (h : ∀ field ∈ fields, field.TellsType) (docs : Docs)
    (text : Option String) (outputs : List OutputDoc) :
    applyFields { docs with text, outputs } fields =
      (applyFields docs (fields.filter (!·.onResults))).map
        ({ · with text, outputs := fields.foldl Field.addResult outputs }) := by
  induction fields generalizing docs outputs with
  | nil => rfl
  | cons field rest ih =>
    obtain ⟨hfield, hrest⟩ := List.forall_mem_cons.mp h
    cases hkind : field.onResults with
    | true =>
      rw [applyFields_cons (apply_onResults hkind hfield _),
        List.filter_cons_of_neg (by simp [hkind])]
      exact ih hrest docs (field.addResult outputs)
    | false =>
      rw [List.filter_cons_of_pos (by simp [hkind]), List.foldl_cons,
        Field.addResult_of_other hkind]
      unfold applyFields
      rw [apply_other hkind]
      cases field.apply docs with
      | error e => rfl
      | ok next => exact ih hrest next outputs

theorem foldl_addResult_filter (fields : List Field) (outputs : List OutputDoc) :
    (fields.filter Field.onResults).foldl Field.addResult outputs =
      fields.foldl Field.addResult outputs := by
  induction fields generalizing outputs with
  | nil => rfl
  | cons field rest ih =>
    cases hkind : field.onResults with
    | true => rw [List.filter_cons_of_pos hkind, List.foldl_cons, List.foldl_cons, ih]
    | false =>
      rw [List.filter_cons_of_neg (by simp [hkind]), List.foldl_cons,
        Field.addResult_of_other hkind, ih]

namespace FieldBlock

def onResults (block : FieldBlock) : Bool := block.field.onResults

/-- The results that some fields tell. -/
def results (blocks : List FieldBlock) : List OutputDoc :=
  (blocks.map whole).foldl Field.addResult []

theorem filter_whole (blocks : List FieldBlock) (p : Bool → Bool) :
    (blocks.map whole).filter (fun field => p field.onResults) =
      (blocks.filter fun block => p block.onResults).map whole := by
  rw [List.filter_map]
  rfl

theorem results_eq_filter (blocks : List FieldBlock) :
    results (blocks.filter onResults) = results blocks := by
  have hfilter := filter_whole blocks id
  unfold results
  rw [← foldl_addResult_filter (blocks.map whole)]
  exact congrArg _ hfilter.symm

end FieldBlock

/-- What a description and a type tell: one result if the description came first, and else two. -/
def toldResults (described : Bool) (description type : String) : List OutputDoc :=
  if described then [{ type := some type, description := some description }]
  else [{ type := some type }, { description := some description }]

section Moving

variable {docstring : String} {docs : Docs} {summary : List (List Char)}
  {front back : List FieldBlock} {result type : FieldBlock}

theorem onResults_of_returnType (h : type.kind? = some .returnType) : type.onResults = true := by
  have hkind : FieldKind.ofTag? type.field.tag = some .returnType := h
  simp only [FieldBlock.onResults, Field.onResults, hkind]

theorem others_split (h : type.kind? = some .returnType) (front back : List FieldBlock) :
    (front ++ type :: back).filter (!·.onResults) = (front ++ back).filter (!·.onResults) := by
  rw [List.filter_append, List.filter_append,
    List.filter_cons_of_neg (by simp [onResults_of_returnType h])]

theorem results_pair (htype : type.kind? = some .returnType)
    (hresult : result.kind? = some .returns) :
    FieldBlock.results [result, type] = toldResults true result.whole.body type.whole.body ∧
      FieldBlock.results [type, result] = toldResults false result.whole.body type.whole.body := by
  have htypeKind : FieldKind.ofTag? type.whole.tag = some .returnType := htype
  have hresultKind : FieldKind.ofTag? result.whole.tag = some .returns := hresult
  constructor <;>
    simp [FieldBlock.results, Field.addResult, htypeKind, hresultKind, applyReturnType, modifyFirst?,
      toldResults]

/-- Where there is one description and one type, it only matters which of them comes first. -/
theorem results_split (htype : type.kind? = some .returnType) (hresult : result.kind? = some .returns)
    (honly : (front ++ back).filter FieldBlock.onResults = [result]) :
    FieldBlock.results (front ++ type :: back) =
      toldResults (front.any FieldBlock.onResults) result.whole.body type.whole.body := by
  obtain ⟨hlate, hearly⟩ := results_pair htype hresult
  have hon := onResults_of_returnType htype
  rw [← FieldBlock.results_eq_filter, List.filter_append, List.filter_cons_of_pos hon]
  rw [List.filter_append] at honly
  rcases List.append_eq_singleton_iff.mp honly with ⟨hfront, hback⟩ | ⟨hfront, hback⟩
  · have hnone : front.any FieldBlock.onResults = false := by
      simpa [List.filter_eq_nil_iff] using hfront
    rw [hfront, hback, hnone]
    exact hearly
  · have hsome : front.any FieldBlock.onResults = true := by
      have hmem : result ∈ front.filter FieldBlock.onResults := by simp [hfront]
      obtain ⟨hmem, hresult⟩ := List.mem_filter.mp hmem
      exact List.any_eq_true.mpr ⟨result, hmem, hresult⟩
    rw [hfront, hback, hsome]
    exact hlate

/-- Of a listing the results are those of its fields, and all else is what the other fields tell. -/
theorem readFieldList_eq_ok_iff {blocks : List FieldBlock} (h : IsListing docstring summary blocks) :
    readFieldList docstring = .ok docs ↔
      (∀ block ∈ blocks, block.whole.TellsType) ∧
      ∃ other, applyFields (summarized summary)
        ((blocks.filter (!·.onResults)).map FieldBlock.whole) = .ok other ∧
        docs = { other with text := some docstring, outputs := FieldBlock.results blocks } := by
  have hapart (htells : ∀ field ∈ blocks.map FieldBlock.whole, field.TellsType) :=
    applyFields_apart htells (summarized summary) (some docstring) []
  rw [readFieldList_eq_ok_iff_applyFields h]
  constructor
  · intro happly
    have htells := tellsType_of_applyFields happly
    refine ⟨List.forall_mem_map.mp htells, ?_⟩
    have hall := (hapart htells).symm.trans happly
    rw [FieldBlock.filter_whole blocks (!·)] at hall
    cases hother : applyFields (summarized summary)
        ((blocks.filter (!·.onResults)).map FieldBlock.whole) with
    | error e =>
      rw [hother] at hall
      cases hall
    | ok other =>
      rw [hother] at hall
      cases hall
      exact ⟨other, rfl, rfl⟩
  · rintro ⟨htells, other, hother, rfl⟩
    have hall := hapart (List.forall_mem_map.mpr htells)
    rw [FieldBlock.filter_whole blocks (!·), hother] at hall
    exact hall

/-- A docstring that describes its result in one field and tells the type of it in another one. Wherever the
field on the type is moved to, with the lines that continue it, everything but the results stays as it is;
and the results are one with both if the description comes before the type, and two if the type comes first. -/
theorem readFieldList_move (h : readFieldList docstring = .ok docs) :
    (∃ summary blocks, IsListing docstring summary blocks) ∧
      ∀ summary front type back result, IsListing docstring summary (front ++ type :: back) →
        type.kind? = some .returnType → result.kind? = some .returns →
        (front ++ back).filter FieldBlock.onResults = [result] →
        docs.outputs =
            toldResults (front.any FieldBlock.onResults) result.whole.body type.whole.body ∧
          ∀ moved front' back', front' ++ back' = front ++ back →
            IsListing moved summary (front' ++ type :: back') →
            readFieldList moved = .ok { docs with
              text := some moved
              outputs := toldResults (front'.any FieldBlock.onResults) result.whole.body
                type.whole.body } := by
  refine ⟨exists_listing docstring, fun summary front type back result hlisting htype hresult honly => ?_⟩
  obtain ⟨htells, other, hother, rfl⟩ := (readFieldList_eq_ok_iff hlisting).mp h
  refine ⟨results_split htype hresult honly, fun moved front' back' hmoved hlisting' => ?_⟩
  have hsame : (front' ++ type :: back').Perm (front ++ type :: back) := by
    refine List.perm_middle.trans (List.Perm.trans ?_ List.perm_middle.symm)
    rw [hmoved]
  have hothers : (front' ++ type :: back').filter (!·.onResults) =
      (front ++ type :: back).filter (!·.onResults) := by
    rw [others_split htype, others_split htype, hmoved]
  rw [readFieldList_eq_ok_iff hlisting']
  refine ⟨fun block hblock => htells block (hsame.mem_iff.mp hblock), other, hothers ▸ hother, ?_⟩
  have honly' : (front' ++ back').filter FieldBlock.onResults = [result] := by rw [hmoved, honly]
  rw [← results_split htype hresult honly']

end Moving

/-- The description of a result, on two lines. -/
def tablesBlock : FieldBlock where
  first := ":return: Rows of all".toList
  more := ["tables.".toList]
  field := ⟨0, "return", [], "Rows of all"⟩
  begins := by decide +kernel
  continues := by decide +kernel

def rtypeBlock : FieldBlock where
  first := ":rtype: int".toList
  more := []
  field := ⟨0, "rtype", [], "int"⟩
  begins := by decide +kernel
  continues := List.forall_mem_nil _

def rowsBlock : FieldBlock where
  first := ":param x: Rows.".toList
  more := []
  field := ⟨0, "param", ["x"], "Rows."⟩
  begins := by decide +kernel
  continues := List.forall_mem_nil _

def raisesBlock : FieldBlock where
  first := ":raises ValueError: Never.".toList
  more := []
  field := ⟨0, "raises", ["ValueError"], "Never."⟩
  begins := by decide +kernel
  continues := List.forall_mem_nil _

def tablesText : String :=
  "Totals.\n:param x: Rows.\n:return: Rows of all\n    tables.\n:raises ValueError: Never.\n:rtype: int"

def tablesDocs : Docs where
  text := some tablesText
  inputs := [{ name := "x", description := some "Rows." }]
  outputs := [{ type := some "int", description := some "Rows of all tables." }]
  summary := some "Totals."
  exceptions := Table.ofList [("ValueError", "Never.")]

/-- The type stands first. -/
def earlyText : String :=
  "Totals.\n:rtype: int\n:param x: Rows.\n\n:return: Rows of all\n  tables.\n:raises ValueError: Never."

theorem isListing_tablesText :
    IsListing tablesText ["Totals.".toList] [rowsBlock, tablesBlock, raisesBlock, rtypeBlock] where
  texts := by decide +kernel
  summary := by decide +kernel

theorem isListing_earlyText :
    IsListing earlyText ["Totals.".toList] [rtypeBlock, rowsBlock, tablesBlock, raisesBlock] where
  texts := by decide +kernel
  summary := by decide +kernel

theorem readFieldList_tablesText : readFieldList tablesText = .ok tablesDocs := by decide +kernel

theorem readFieldList_move_tables :
    readFieldList tablesText = .ok tablesDocs ∧
      IsListing tablesText ["Totals.".toList]
        ([rowsBlock, tablesBlock, raisesBlock] ++ rtypeBlock :: []) ∧
      IsListing earlyText ["Totals.".toList]
        ([] ++ rtypeBlock :: [rowsBlock, tablesBlock, raisesBlock]) ∧
      readFieldList earlyText = .ok { tablesDocs with
        text := some earlyText
        outputs := [{ type := some "int" }, { description := some "Rows of all tables." }] } := by
  obtain ⟨-, hmove⟩ := readFieldList_move readFieldList_tablesText
  obtain ⟨-, hmoved⟩ := hmove ["Totals.".toList] [rowsBlock, tablesBlock, raisesBlock] rtypeBlock []
    tablesBlock isListing_tablesText rfl rfl rfl
  exact ⟨readFieldList_tablesText, isListing_tablesText, isListing_earlyText,
    hmoved earlyText [] [rowsBlock, tablesBlock, raisesBlock] rfl isListing_earlyText⟩

def lateBlock : FieldBlock where
  first := ":return: late".toList
  more := []
  field := ⟨0, "return", [], "late"⟩
  begins := by decide +kernel
  continues := List.forall_mem_nil _

/-- A type that comes before the description is not of the same result. -/
theorem not_results_moved :
    ¬ ∀ (docstring moved : String) (docs : Docs) (summary : List (List Char))
      (front back front' back' : List FieldBlock) (type result : FieldBlock),
      readFieldList docstring = .ok docs → IsListing docstring summary (front ++ type :: back) →
      type.kind? = some .returnType → result.kind? = some .returns →
      (front ++ back).filter FieldBlock.onResults = [result] →
      front' ++ back' = front ++ back → IsListing moved summary (front' ++ type :: back') →
      ∃ docs', readFieldList moved = .ok docs' ∧ docs'.outputs = docs.outputs := by
  intro hall
  have hread : readFieldList ":return: late\n:rtype: int" = .ok {
      text := some ":return: late\n:rtype: int"
      outputs := [{ type := some "int", description := some "late" }] } := by
    decide +kernel
  have hmoved : readFieldList ":rtype: int\n:return: late" = .ok {
      text := some ":rtype: int\n:return: late"
      outputs := [{ type := some "int" }, { description := some "late" }] } := by
    decide +kernel
  have hlisting : IsListing ":return: late\n:rtype: int" [] ([lateBlock] ++ rtypeBlock :: []) :=
    ⟨by decide +kernel, List.forall_mem_nil _⟩
  have hlisting' : IsListing ":rtype: int\n:return: late" [] ([] ++ rtypeBlock :: [lateBlock]) :=
    ⟨by decide +kernel, List.forall_mem_nil _⟩
  obtain ⟨docs', hdocs, houtputs⟩ :=
    hall _ _ _ [] [lateBlock] [] [] [lateBlock] rtypeBlock lateBlock hread hlisting rfl rfl rfl rfl
      hlisting'
  rw [hmoved] at hdocs
  cases hdocs
  exact absurd houtputs (by decide)

end Callable.Docs
