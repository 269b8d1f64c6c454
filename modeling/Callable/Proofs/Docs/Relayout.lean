import Callable.Docs.Style
import Callable.Proofs.Docs.Layout

/-!
Docstrings laid out anew. The lines are put behind the same padding of spaces and tabs, and each may end
in either way. Then all lines with text are indented deeper by as much, and are otherwise what they were.
A scan compares the indentation of two lines and keeps no other use of it, so it takes the same steps; the
fields of a field list and the style are found by the texts alone. So the same documentation is read, or
the same error comes.
-/
namespace Callable

namespace Text

/-- Spaces and tabs. -/
def IsPadding (pad : List Char) : Prop := ∀ c ∈ pad, c = ' ' ∨ c = '\t'

/-- The second text has the lines of the first behind a padding, each with a line end of either kind.
There may be padding alone where a last line could stand. -/
inductive Relaid (pad : List Char) : List Char → List Char → Prop
  | done : Relaid pad [] []
  | last {line : List Char} : '\n' ∉ line → Relaid pad line (pad ++ line)
  | line {line feed rest rest' : List Char} : '\n' ∉ line → feed = ['\n'] ∨ feed = ['\r', '\n'] →
      Relaid pad rest rest' → Relaid pad (line ++ '\n' :: rest) (pad ++ line ++ feed ++ rest')

/-- A text with padding before every line, its line feeds replaced by line ends of one kind. -/
def relay (pad feed text : List Char) : List Char :=
  pad ++ text.flatMap fun c => if c = '\n' then feed ++ pad else [c]

/-- The characters before the next line feed are put into `line` one by one. -/
theorem relaid_relay_append (pad : List Char) {feed : List Char}
    (hfeed : feed = ['\n'] ∨ feed = ['\r', '\n']) {line : List Char} (hline : '\n' ∉ line)
    (text : List Char) :
    Relaid pad (line ++ text)
      (pad ++ line ++ text.flatMap fun c => if c = '\n' then feed ++ pad else [c]) := by
  induction text generalizing line with
  | nil =>
    rw [List.flatMap_nil, List.append_nil, List.append_nil]
    exact Relaid.last hline
  | cons c rest ih =>
    by_cases hc : c = '\n'
    · subst hc
      have hrest := ih (List.not_mem_nil (a := '\n'))
      rw [List.nil_append, List.append_nil] at hrest
      have hnext := Relaid.line hline hfeed hrest
      rwa [List.flatMap_cons, if_pos rfl, List.append_assoc feed, ← List.append_assoc]
    · have hlonger : '\n' ∉ line ++ [c] := by
        rw [List.mem_append, List.mem_singleton, not_or]
        exact ⟨hline, Ne.symm hc⟩
      have hnext := ih hlonger
      rwa [List.flatMap_cons, if_neg hc, List.append_cons line c rest, ← List.append_assoc,
        List.append_assoc pad]

theorem relaid_relay {pad feed : List Char} (hfeed : feed = ['\n'] ∨ feed = ['\r', '\n'])
    (text : List Char) : Relaid pad text (relay pad feed text) := by
  have h := relaid_relay_append pad hfeed (List.not_mem_nil (a := '\n')) text
  rwa [List.nil_append, List.append_nil] at h

/-- A carriage return before the line feed belongs to the line end. -/
theorem lines_append_return {line : List Char} (hfeed : '\n' ∉ line) (rest : List Char) :
    lines (line ++ '\r' :: '\n' :: rest) = line :: lines rest := by
  induction line with
  | nil => rw [List.nil_append, lines]
  | cons c tail ih =>
    have hc : '\n' ≠ c := List.ne_of_not_mem_cons hfeed
    have htail : '\n' ∉ tail := List.not_mem_of_not_mem_cons hfeed
    refine lines_cons hc.symm ?_ (ih htail)
    rintro after ⟨-, hbegins⟩
    cases tail with
    | nil => exact absurd (List.cons.inj hbegins).1 (by decide)
    | cons d tail => exact htail ((List.cons.inj hbegins).1 ▸ List.mem_cons_self)

section Relaid

variable {pad : List Char} (hpad : IsPadding pad)

include hpad

theorem IsPadding.isBlank {c : Char} (hc : c ∈ pad) : isBlank c = true := by
  rcases hpad c hc with rfl | rfl <;> decide

theorem IsPadding.not_mem_append {line : List Char} (hline : '\n' ∉ line) :
    '\n' ∉ pad ++ line := by
  intro hmem
  rcases List.mem_append.mp hmem with hin | hin
  · rcases hpad _ hin with h | h <;> exact absurd h (by decide)
  · exact hline hin

theorem IsPadding.getLast?_append {line : List Char} (hline : line.getLast? ≠ some '\r') :
    (pad ++ line).getLast? ≠ some '\r' := by
  cases line with
  | nil =>
    rw [List.append_nil]
    intro hlast
    rcases hpad _ (List.mem_of_getLast? hlast) with h | h <;> exact absurd h (by decide)
  | cons c rest =>
    rwa [List.getLast?_append_of_ne_nil _ (List.cons_ne_nil c rest)]

/-- The first line of a text laid out anew. -/
theorem exists_lines_line {line feed : List Char} (hline : '\n' ∉ line)
    (hfeed : feed = ['\n'] ∨ feed = ['\r', '\n']) (rest rest' : List Char) :
    ∃ raw raw', lines (line ++ '\n' :: rest) = raw :: lines rest ∧
      lines (pad ++ line ++ feed ++ rest') = raw' :: lines rest' ∧ SameLine (pad ++ raw) raw' := by
  by_cases hreturn : line.getLast? = some '\r'
  · obtain ⟨body, rfl⟩ := List.getLast?_eq_some_iff.mp hreturn
    have hbody : '\n' ∉ body := fun hmem => hline (List.mem_append_left _ hmem)
    have hsource : lines (body ++ ['\r'] ++ '\n' :: rest) = body :: lines rest := by
      rw [← List.append_cons]
      exact lines_append_return hbody rest
    rcases hfeed with rfl | rfl
    · refine ⟨body, pad ++ body, hsource, ?_, Or.inl rfl⟩
      have htarget := lines_append_return (hpad.not_mem_append hbody) rest'
      simpa using htarget
    · refine ⟨body, pad ++ body ++ ['\r'], hsource, ?_, Or.inr rfl⟩
      have htarget := lines_append_return (hpad.not_mem_append hline) rest'
      simpa using htarget
  · have hsource := lines_append_feed hline hreturn rest
    rcases hfeed with rfl | rfl
    · refine ⟨line, pad ++ line, hsource, ?_, Or.inl rfl⟩
      have htarget := lines_append_feed (hpad.not_mem_append hline)
        (hpad.getLast?_append hreturn) rest'
      simpa using htarget
    · refine ⟨line, pad ++ line, hsource, ?_, Or.inl rfl⟩
      have htarget := lines_append_return (hpad.not_mem_append hline) rest'
      simpa using htarget

/-- The lines of a text laid out anew, with padding alone at most after them. -/
theorem exists_lines_relaid {text text' : List Char} (h : Relaid pad text text') :
    ∃ front extra, lines text' = front ++ extra ∧
      List.Forall₂ (fun raw raw' => SameLine (pad ++ raw) raw') (lines text) front ∧
      ∀ raw ∈ extra, raw = pad := by
  induction h with
  | done => exact ⟨[], [], rfl, List.Forall₂.nil, List.forall_mem_nil _⟩
  | @last line hline =>
    by_cases hempty : line = []
    · subst hempty
      refine ⟨[], lines (pad ++ []), rfl, List.Forall₂.nil, ?_⟩
      rw [List.append_nil]
      by_cases hnone : pad = []
      · subst hnone
        exact List.forall_mem_nil _
      · have hfeed := hpad.not_mem_append (List.not_mem_nil (a := '\n'))
        rw [List.append_nil] at hfeed
        rw [lines_line hnone hfeed]
        exact List.forall_mem_singleton.mpr rfl
    · refine ⟨[pad ++ line], [], ?_, ?_, List.forall_mem_nil _⟩
      · rw [lines_line (List.append_ne_nil_of_right_ne_nil pad hempty) (hpad.not_mem_append hline)]
        rfl
      · rw [lines_line hempty hline]
        exact List.Forall₂.cons (Or.inl rfl) List.Forall₂.nil
  | @line line feed rest rest' hline hfeed _ ih =>
    obtain ⟨front, extra, heq, hsame, hextra⟩ := ih
    obtain ⟨raw, raw', hsource, htarget, hraw⟩ := exists_lines_line hpad hline hfeed rest rest'
    refine ⟨raw' :: front, extra, ?_, ?_, hextra⟩
    · rw [htarget, heq, List.cons_append]
    · rw [hsource]
      exact List.Forall₂.cons hraw hsame

end Relaid

theorem trimStart_append_return (text : List Char) :
    trimStart (text ++ ['\r']) = trimStart text ++ ['\r'] ∨
      trimStart text = [] ∧ trimStart (text ++ ['\r']) = [] := by
  unfold trimStart
  rw [List.dropWhile_append]
  by_cases hblank : (text.dropWhile isBlank).isEmpty = true
  · rw [if_pos hblank]
    exact Or.inr ⟨List.isEmpty_iff.mp hblank, rfl⟩
  · rw [if_neg hblank]
    exact Or.inl rfl

/-- A text that begins with a mark does so behind padding and before a carriage return. -/
theorem isPrefixOf_trimStart_of_sameLine {pad : List Char} (hpad : IsPadding pad)
    {raw raw' mark : List Char} (h : SameLine (pad ++ raw) raw') (hmark : '\r' ∉ mark) :
    mark.isPrefixOf (trimStart raw') = mark.isPrefixOf (trimStart raw) := by
  have hstart : trimStart (pad ++ raw) = trimStart raw :=
    List.dropWhile_append_of_pos fun c hc => hpad.isBlank hc
  rcases h with rfl | rfl
  · rw [hstart]
  · rcases trimStart_append_return (pad ++ raw) with hreturn | ⟨hnone, hreturn⟩
    · rw [hreturn, hstart, Bool.eq_iff_iff, List.isPrefixOf_iff_prefix,
        List.isPrefixOf_iff_prefix, List.prefix_concat_iff]
      refine or_iff_right ?_
      rintro rfl
      exact hmark (List.mem_append_right _ (List.mem_singleton_self _))
    · rw [hreturn, ← hstart, hnone]

end Text

namespace Docs

/-- The documentation, whatever the docstring was. -/
def content (docs : Docs) : Docs := { docs with text := none }

/-- The line as it is when all lines are indented deeper. -/
def Line.shift (depth : Nat) (line : Line) : Line := { line with indent := line.indent + depth }

section Lines

variable {pad : List Char} (hpad : Text.IsPadding pad)

include hpad

theorem linesFrom_of_padding {raws : List (List Char)} (h : ∀ raw ∈ raws, raw = pad)
    (number : Nat) : linesFrom number raws = [] := by
  have hblank : Text.trim pad = [] := by
    have htrim := Text.trim_append_of_blank (fun c hc => hpad.isBlank hc) []
    rwa [List.append_nil] at htrim
  induction raws generalizing number with
  | nil => rfl
  | cons raw rest ih =>
    obtain ⟨rfl, hrest⟩ := List.forall_mem_cons.mp h
    rw [linesFrom, hblank]
    exact ih hrest (number + 1)

theorem linesFrom_shift {raws raws' : List (List Char)}
    (h : List.Forall₂ (fun raw raw' => Text.SameLine (pad ++ raw) raw') raws raws') (number : Nat) :
    linesFrom number raws' = (linesFrom number raws).map (Line.shift (Text.byteLength pad)) := by
  have hblank : ∀ c ∈ pad, Text.isBlank c = true := fun c hc => hpad.isBlank hc
  induction h generalizing number with
  | nil => rfl
  | @cons raw raw' rest rest' hraw _ ih =>
    have htrim : Text.trim raw' = Text.trim raw := by
      rw [hraw.trim_eq, Text.trim_append_of_blank hblank]
    rw [linesFrom, linesFrom, htrim, ih (number + 1)]
    by_cases hempty : Text.trim raw = []
    · simp only [hempty, if_true]
    · have hpadded : Text.trim (pad ++ raw) ≠ [] := by
        rwa [Text.trim_append_of_blank hblank]
      have hindent : Text.byteLength (raw'.takeWhile Text.isBlank) =
          Text.byteLength (raw.takeWhile Text.isBlank) + Text.byteLength pad := by
        rw [hraw.takeWhile_eq hpadded, List.takeWhile_append_of_pos hblank, Text.byteLength_append,
          Nat.add_comm]
      simp only [hempty, if_false, List.map_cons, Line.shift, hindent]

variable {docstring docstring' : String} (h : Text.Relaid pad docstring.toList docstring'.toList)

include h

theorem textLines_relaid :
    textLines docstring' = (textLines docstring).map (Line.shift (Text.byteLength pad)) := by
  obtain ⟨front, extra, heq, hsame, hextra⟩ := Text.exists_lines_relaid hpad h
  unfold textLines
  rw [heq, linesFrom_append, linesFrom_shift hpad hsame, linesFrom_of_padding hpad hextra,
    List.append_nil]

end Lines

section Scan

variable (sections : SectionSet) (depth : Nat)

def Zone.shift : Zone → Zone
  | preamble => preamble
  | summary indent => summary (indent + depth)
  | body indent => body (indent + depth)
  | raises indent entry => raises (indent + depth) entry

/-- The progress as it is when all lines are indented deeper. -/
def Progress.shift (p : Progress) : Progress := { p with zone := p.zone.shift depth }

theorem Zone.admits_shift (zone : Zone) (indent : Nat) :
    (zone.shift depth).admits (indent + depth) = zone.admits indent := by
  cases zone with
  | preamble => rfl
  | summary header | body header | raises header => simp [Zone.shift, Zone.admits]

theorem Progress.open_shift (p : Progress) (line : Line) (header : String) (kind : SectionKind) :
    (p.shift depth).open (line.shift depth) header kind =
      (p.open line header kind).shift depth := by
  cases kind <;> rfl

theorem Progress.add_shift (p : Progress) (line : Line) :
    (p.shift depth).add (line.shift depth) = (p.add line).map (Progress.shift depth) := by
  obtain ⟨zone, summary, sections, exceptions⟩ := p
  cases zone with
  | preamble | summary | body => rfl
  | raises header entry =>
    simp only [Progress.add, Progress.shift, Zone.shift, Line.shift]
    cases exceptionEntry? line.text with
    | some found => rfl
    | none =>
      dsimp only
      cases entry.bind fun name => (exceptions.get? name).map (name, ·) with
      | some found => rfl
      | none => rfl

theorem Progress.step_shift (p : Progress) (line : Line) :
    ((p.shift depth).step sections (line.shift depth)).outcome =
      (p.step sections line).outcome.map (Progress.shift depth) := by
  have hadd := p.add_shift depth line
  have htext : (line.shift depth).text = line.text := rfl
  have hadmits : (p.shift depth).zone.admits (line.shift depth).indent =
      p.zone.admits line.indent := p.zone.admits_shift depth line.indent
  unfold Progress.step
  rw [htext]
  cases header? line.text with
  | none => exact hadd
  | some words =>
    dsimp only
    rw [hadmits]
    by_cases hdeep : p.zone.admits line.indent = true
    · rw [if_pos hdeep, if_pos hdeep]
      cases sections.get? (String.ofList words) with
      | none => rfl
      | some kind => exact congrArg Except.ok (p.open_shift depth line _ kind)
    · rw [if_neg hdeep, if_neg hdeep]
      exact hadd

theorem Progress.run_shift (p : Progress) (lines : List Line) :
    ((p.shift depth).run sections (lines.map (Line.shift depth))).outcome =
      (p.run sections lines).outcome.map (Progress.shift depth) := by
  induction lines generalizing p with
  | nil => rfl
  | cons line rest ih =>
    rw [List.map_cons, Progress.run, Progress.run, Logged.outcome_bind, Logged.outcome_bind,
      Progress.step_shift]
    cases (p.step sections line).outcome with
    | error e => rfl
    | ok next => exact ih next

end Scan

theorem content_apply (docs : Docs) (field : Field) :
    (field.apply docs).map content = field.apply (content docs) := by
  unfold Field.apply content
  split
  · rfl
  · dsimp only
    split <;> rfl
  · dsimp only
    split <;> rfl
  · split <;> rfl
  · rfl
  · split <;> rfl

/-- Fields add to documentation whatever the docstring was. -/
theorem content_applyFields (docs : Docs) (fields : List Field) :
    (applyFields docs fields).map content = applyFields (content docs) fields := by
  induction fields generalizing docs with
  | nil => rfl
  | cons field rest ih =>
    unfold applyFields
    rw [← content_apply]
    cases field.apply docs with
    | error e => rfl
    | ok next => exact ih next

/-- The line begins with a field that tells a field list. -/
def isMarked (raw : List Char) : Bool := fieldMarkers.any (·.isPrefixOf (Text.trimStart raw))

theorem detectStyle_eq (docstring : String) : detectStyle docstring =
    if (Text.lines docstring.toList).any isMarked then .fieldList else .sectioned := rfl

theorem any_eq_of_forall₂ {α β : Type} {R : α → β → Prop} {as : List α} {bs : List β}
    (h : List.Forall₂ R as bs) {p : α → Bool} {q : β → Bool} (hpq : ∀ a b, R a b → q b = p a) :
    bs.any q = as.any p := by
  induction h with
  | nil => rfl
  | cons hab _ ih => rw [List.any_cons, List.any_cons, hpq _ _ hab, ih]

theorem not_mem_fieldMarkers {mark : List Char} (hmark : mark ∈ fieldMarkers) : '\r' ∉ mark := by
  simp only [fieldMarkers, List.mem_cons, List.not_mem_nil, or_false] at hmark
  rcases hmark with rfl | rfl | rfl <;> decide

theorem isMarked_of_sameLine {pad : List Char} (hpad : Text.IsPadding pad) {raw raw' : List Char}
    (h : Text.SameLine (pad ++ raw) raw') : isMarked raw' = isMarked raw := by
  have hmarks : List.Forall₂ (fun mark mark' => mark = mark' ∧ '\r' ∉ mark) fieldMarkers
      fieldMarkers :=
    List.forall₂_same.mpr fun mark hmark => ⟨rfl, not_mem_fieldMarkers hmark⟩
  refine any_eq_of_forall₂ hmarks fun mark mark' hmark => ?_
  obtain ⟨rfl, hreturn⟩ := hmark
  exact Text.isPrefixOf_trimStart_of_sameLine hpad h hreturn

theorem isMarked_of_blank {raw : List Char} (h : Text.trimStart raw = []) :
    isMarked raw = false := by
  unfold isMarked
  rw [h]
  rfl

section Readers

variable {pad : List Char} {docstring docstring' : String} (hpad : Text.IsPadding pad)
  (h : Text.Relaid pad docstring.toList docstring'.toList)

include hpad h

theorem scan_relaid (sections : SectionSet) :
    (scan sections docstring').outcome = (scan sections docstring).outcome := by
  have hrun := Progress.run_shift sections (Text.byteLength pad) {} (textLines docstring)
  have hstart : ({} : Progress).shift (Text.byteLength pad) = {} := rfl
  unfold scan
  rw [textLines_relaid hpad h, Logged.outcome_bind, Logged.outcome_bind]
  rw [hstart] at hrun
  rw [hrun]
  cases (Progress.run sections {} (textLines docstring)).outcome with
  | error e => rfl
  | ok p => rfl

theorem readSectioned_relaid (sections : SectionSet) :
    (readSectioned sections docstring').outcome.map content =
      (readSectioned sections docstring).outcome.map content := by
  unfold readSectioned
  simp only [Logged.outcome_bind, Logged.outcome_ofExcept, Logged.outcome_pure,
    scan_relaid hpad h]
  cases (scan sections docstring).outcome with
  | error e => rfl
  | ok found =>
    change Except.map content (Except.bind (allParamDocs found.sections) _) =
      Except.map content (Except.bind (allParamDocs found.sections) _)
    cases allParamDocs found.sections with
    | error e => rfl
    | ok inputs => rfl

theorem readFieldList_relaid :
    (readFieldList docstring').map content = (readFieldList docstring).map content := by
  have hlines : (textLines docstring').foldl addFieldLine ([], []) =
      (textLines docstring).foldl addFieldLine ([], []) := by
    rw [textLines_relaid hpad h, List.foldl_map]
    rfl
  unfold readFieldList
  rw [hlines]
  dsimp only
  rw [content_applyFields, content_applyFields]
  rfl

/-- Whether a line tells a field list is not changed by what is put around it. -/
theorem detectStyle_relaid : detectStyle docstring' = detectStyle docstring := by
  obtain ⟨front, extra, heq, hsame, hextra⟩ := Text.exists_lines_relaid hpad h
  have hfront : front.any isMarked = (Text.lines docstring.toList).any isMarked :=
    any_eq_of_forall₂ hsame fun raw raw' hraw => isMarked_of_sameLine hpad hraw
  have hnone : extra.any isMarked = false := by
    rw [List.any_eq_false]
    intro raw hraw
    obtain rfl := hextra raw hraw
    have hblank : Text.trimStart raw = [] :=
      List.dropWhile_eq_nil_iff.mpr fun c hc => hpad.isBlank hc
    rw [isMarked_of_blank hblank]
    exact Bool.false_ne_true
  have hall : (Text.lines docstring'.toList).any isMarked =
      (Text.lines docstring.toList).any isMarked := by
    rw [heq, List.any_append, hfront, hnone, Bool.or_false]
  rw [detectStyle_eq, detectStyle_eq, hall]

/-- A docstring laid out anew is read to the same documentation or refused for the same reason. -/
theorem read_relaid (reader : Reader) :
    (reader.read docstring').outcome.map content = (reader.read docstring).outcome.map content := by
  cases reader with
  | sectioned sections => exact readSectioned_relaid hpad h sections
  | fieldList => exact readFieldList_relaid hpad h
  | styled choice sections =>
    simp only [Reader.read, Logged.outcome_bind, detectStyle_relaid hpad h]
    cases choice.getD (detectStyle docstring) with
    | sectioned => exact readSectioned_relaid hpad h sections
    | fieldList => exact readFieldList_relaid hpad h
  | given docs => rfl

end Readers

def flushText : String := "Args:\n  x: Count,\n    or more.\n"

/-- The same lines behind a tab and a blank, ended by carriage returns and line feeds. -/
def deepText : String := "\t Args:\r\n\t   x: Count,\r\n\t     or more.\r\n\t "

theorem read_relaid_count :
    Text.IsPadding ['\t', ' '] ∧ Text.Relaid ['\t', ' '] flushText.toList deepText.toList ∧
      ((Reader.styled none .standard).read deepText).outcome.map content =
        .ok { inputs := [{
          name := "x", description := some "Count, or more.", optional := some false }] } := by
  have hpad : Text.IsPadding ['\t', ' '] := by simp [Text.IsPadding]
  have hrelay : deepText.toList = Text.relay ['\t', ' '] ['\r', '\n'] flushText.toList := by
    decide +kernel
  have h : Text.Relaid ['\t', ' '] flushText.toList deepText.toList := by
    rw [hrelay]
    exact Text.relaid_relay (Or.inr rfl) flushText.toList
  refine ⟨hpad, h, ?_⟩
  rw [read_relaid hpad h]
  decide +kernel

end Docs
end Callable
