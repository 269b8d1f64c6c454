import Callable.Proofs.Docs.Dialects
import Callable.Proofs.Docs.Outline
import Callable.Proofs.Json.Tidy

/-!
What a scan gathers. A scan goes through a docstring block by block: under a header all lines are of
one kind, so each block adds lines to the summary, or one section, or entries on exceptions, and
leaves the rest as it was. What has been gathered at the end is what the outline holds, in its order.
-/
namespace Callable

namespace Table

variable {α : Type}

theorem put_put (name : String) (value value' : α) (table : Table α) :
    (table.put name value).put name value' = table.put name value' := by
  induction table with
  | nil => simp [put]
  | cons first rest ih =>
    by_cases hlt : name < first.1
    · simp [put, hlt]
    · by_cases heq : name = first.1
      · simp [put, heq]
      · simp [put, hlt, heq, ih]

/-- Of the entries of a name the last one counts. -/
theorem get?_putAll (entries : List (String × α)) (table : Table α) (name : String) :
    (putAll entries table).get? name = (entries.reverse.lookup name).or (table.get? name) := by
  induction entries generalizing table with
  | nil => rfl
  | cons first rest ih =>
    change (putAll rest (table.put first.1 first.2)).get? name = _
    rw [ih, get?_put, List.reverse_cons, List.lookup_append, Option.or_assoc, lookup_cons_eq_ite]
    by_cases hname : name = first.1 <;> simp [hname]

end Table

namespace Docs

/-- Texts with single blanks between them, without those that are empty. -/
def paragraph (texts : List (List Char)) : String :=
  String.ofList (Text.joinLines (texts.filter (· ≠ [])))

/-- The lines are these entries: some of the lines begin an entry, with a name and the first text, and
the others go on with the text of the entry before them. -/
inductive AreEntries : List Line → List (String × String) → Prop
  | nil : AreEntries [] []
  | cons {line : Line} {more rest : List Line} {name text : List Char}
      {entries : List (String × String)} : exceptionEntry? line.text = some (name, text) →
      (∀ next ∈ more, exceptionEntry? next.text = none) → AreEntries rest entries →
      AreEntries (line :: (more ++ rest))
        ((String.ofList name, paragraph (text :: more.map Line.text)) :: entries)

theorem extendAll_eq_paragraph (text : List Char) {more : List (List Char)}
    (hmore : ∀ next ∈ more, next ≠ []) :
    extendAll (String.ofList text) more = paragraph (text :: more) := by
  have hkept : more.filter (· ≠ []) = more := List.filter_eq_self.mpr (by simpa using hmore)
  unfold paragraph
  by_cases hempty : text = []
  · subst hempty
    rw [List.filter_cons_of_neg (by simp), hkept]
    cases more with
    | nil => rfl
    | cons next rest =>
      exact extendAll_eq_joinLines (hmore next List.mem_cons_self) rest
  · rw [List.filter_cons_of_pos (by simpa using hempty), hkept]
    exact extendAll_eq_joinLines hempty more

/-- A line that begins an entry, the lines that go on with it, and further entries. -/
theorem AreEntries.exists_cons {line : Line} {more rest : List Line} {name text : List Char}
    {entries : List (String × String)} (h : AreEntries rest entries)
    (hentry : exceptionEntry? line.text = some (name, text))
    (hmore : ∀ next ∈ more, exceptionEntry? next.text = none)
    (htext : ∀ next ∈ more, next.text ≠ []) :
    ∃ all, AreEntries (line :: (more ++ rest)) all ∧
      ∀ table, Table.putAll all table = Table.putAll entries (table.put (String.ofList name)
        (extendAll (String.ofList text) (more.map Line.text))) := by
  refine ⟨_, .cons hentry hmore h, fun table => ?_⟩
  rw [extendAll_eq_paragraph text (List.forall_mem_map.mpr htext)]
  rfl

section Entries

variable {p p' : Progress} {line : Line} {lines : List Line} {indent : Nat}

theorem Progress.add_entry {entry : Option String} {name text : List Char}
    (hzone : p.zone = .raises indent entry)
    (hentry : exceptionEntry? line.text = some (name, text)) :
    p.add line = .ok { p with
      zone := .raises indent (some (String.ofList name))
      exceptions := p.exceptions.put (String.ofList name) (String.ofList text) } := by
  unfold Progress.add
  simp only [hzone, hentry]

theorem Progress.add_continuation {base : Table String} {name description : String}
    (hzone : p.zone = .raises indent (some name)) (hopen : p.exceptions = base.put name description)
    (hline : exceptionEntry? line.text = none) :
    p.add line = .ok { p with
      exceptions := base.put name (extend description (String.ofList line.text)) } := by
  have hget : p.exceptions.get? name = some description := by
    rw [hopen, Table.get?_put, if_pos rfl]
  unfold Progress.add
  simp only [hzone, hline, Option.bind_some, hget, Option.map_some]
  rw [hopen, Table.put_put]

/-- Under an entry, some lines go on with it and the others are further entries. -/
theorem Progress.exists_entries_of_open {base : Table String} {name description : String}
    (hzone : p.zone = .raises indent (some name)) (hopen : p.exceptions = base.put name description)
    (htext : ∀ line ∈ lines, line.text ≠ []) (h : lines.foldlM Progress.add p = .ok p') :
    ∃ more rest entries zone, lines = more ++ rest ∧
      (∀ next ∈ more, exceptionEntry? next.text = none) ∧ AreEntries rest entries ∧
      p' = { p with
        zone
        exceptions := Table.putAll entries
          (base.put name (extendAll description (more.map Line.text))) } := by
  -- The open entry is kept as the last one put, so that a line that goes on with it replaces it.
  induction lines generalizing p base name description with
  | nil =>
    cases h
    exact ⟨[], [], [], _, rfl, by simp, .nil, congrArg (Progress.mk _ _ _) hopen⟩
  | cons line rest ih =>
    obtain ⟨-, hrest⟩ := List.forall_mem_cons.mp htext
    rw [List.foldlM_cons] at h
    obtain ⟨next, hadd, hnext⟩ := Reference.exists_of_bind_eq_ok h
    cases hentry : exceptionEntry? line.text with
    | none =>
      cases hadd.symm.trans (Progress.add_continuation hzone hopen hentry)
      have hlonger := ih (p := { p with
        exceptions := base.put name (extend description (String.ofList line.text)) }) hzone rfl
      obtain ⟨more, later, entries, zone, rfl, hmore, hentries, rfl⟩ := hlonger hrest hnext
      exact ⟨line :: more, later, entries, zone, rfl, List.forall_mem_cons.mpr ⟨hentry, hmore⟩,
        hentries, rfl⟩
    | some found =>
      obtain ⟨name', text⟩ := found
      cases hadd.symm.trans (Progress.add_entry hzone hentry)
      obtain ⟨more, later, entries, zone, rfl, hmore, hentries, rfl⟩ := ih rfl rfl hrest hnext
      obtain ⟨all, hall, hput⟩ := hentries.exists_cons hentry hmore
        (List.forall_mem_append.mp hrest).1
      exact ⟨[], _, all, zone, rfl, by simp, hall, by rw [hput, hopen]; rfl⟩

/-- Lines under a header on exceptions are entries from the first one on. -/
theorem Progress.exists_entries (hzone : p.zone = .raises indent none)
    (htext : ∀ line ∈ lines, line.text ≠ []) (h : lines.foldlM Progress.add p = .ok p') :
    ∃ entries zone, AreEntries lines entries ∧
      p' = { p with zone, exceptions := Table.putAll entries p.exceptions } := by
  cases lines with
  | nil =>
    cases h
    exact ⟨[], _, .nil, rfl⟩
  | cons line rest =>
    obtain ⟨-, hrest⟩ := List.forall_mem_cons.mp htext
    rw [List.foldlM_cons] at h
    obtain ⟨next, hadd, hnext⟩ := Reference.exists_of_bind_eq_ok h
    cases hentry : exceptionEntry? line.text with
    | none =>
      unfold Progress.add at hadd
      simp only [hzone, hentry] at hadd
      cases hadd
    | some found =>
      obtain ⟨name, text⟩ := found
      cases hadd.symm.trans (Progress.add_entry hzone hentry)
      obtain ⟨more, later, entries, zone, rfl, hmore, hentries, rfl⟩ :=
        Progress.exists_entries_of_open rfl rfl hrest hnext
      obtain ⟨all, hall, hput⟩ := hentries.exists_cons hentry hmore
        (List.forall_mem_append.mp hrest).1
      exact ⟨all, zone, hall, by rw [hput]⟩

end Entries

/-- The section that a block on parameters or results is. -/
def Block.section? (sections : SectionSet) (block : Block) : Option Section :=
  (header? block.header.text).bind fun words =>
    ((sections.get? (String.ofList words)).filter fun kind => kind = .params ∨ kind = .returns).map
      fun kind => ⟨kind, String.ofList words, block.header.number, numbered block.body⟩

/-- Progress over some blocks: what they hold is added, each part in its order. -/
structure Gathers (sections : SectionSet) (blocks : List Block) (p p' : Progress) : Prop where
  summary_eq : p'.summary.reverse = p.summary.reverse ++
    (blocks.flatMap (Block.under sections .summary)).map Line.text
  sections_eq : p'.scan.sections = p.scan.sections ++ blocks.filterMap (Block.section? sections)
  exists_entries : ∃ entries,
    List.Forall₂ AreEntries (blocks.map (Block.under sections .raises)) entries ∧
    p'.exceptions = Table.putAll entries.flatten p.exceptions

/-- The zone admits the headers that are live under a header. -/
def Zone.IsUnder (zone : Zone) (above : Option Line) : Prop :=
  ∀ indent, zone.admits indent = true ↔ ∀ header ∈ above, indent ≤ header.indent

section Blocks

variable {sections : SectionSet} {p p' p'' : Progress} {above : Option Line} {block : Block}

theorem Gathers.refl (p : Progress) : Gathers sections [] p p where
  summary_eq := by simp
  sections_eq := by simp
  exists_entries := ⟨[], .nil, rfl⟩

theorem Gathers.trans {blocks more : List Block} (h : Gathers sections blocks p p')
    (h' : Gathers sections more p' p'') : Gathers sections (blocks ++ more) p p'' where
  summary_eq := by simp [h'.summary_eq, h.summary_eq]
  sections_eq := by rw [h'.sections_eq, h.sections_eq, List.filterMap_append, List.append_assoc]
  exists_entries := by
    obtain ⟨entries, hentries, hput⟩ := h.exists_entries
    obtain ⟨entries', hentries', hput'⟩ := h'.exists_entries
    refine ⟨entries ++ entries', ?_, ?_⟩
    · rw [List.map_append]
      exact List.rel_append hentries hentries'
    · rw [hput', hput, List.flatten_append]
      exact (List.foldl_append).symm

theorem Zone.isUnder_some {zone : Zone} {header : Line}
    (h : ∀ indent, zone.admits indent = decide (indent ≤ header.indent)) :
    zone.IsUnder (some header) := by
  intro indent
  simp [h indent]

theorem Zone.IsUnder.quiet {zone : Zone} {lines : List Line} (h : zone.IsUnder above)
    (hlines : ∀ line ∈ lines, ¬ (Place.mk above []).IsLiveHeader line) :
    ∀ line ∈ lines, header? line.text = none ∨ zone.admits line.indent = false := by
  intro line hline
  cases hwords : header? line.text with
  | none => exact Or.inl rfl
  | some words =>
    refine Or.inr (Bool.eq_false_iff.mpr fun hadmits => hlines line hline ⟨?_, ?_⟩)
    · rw [hwords]
      rfl
    · exact (h line.indent).mp hadmits

/-- A live header opens its section, and is known. -/
theorem Progress.exists_open_of_step {header : Line} (hunder : p.zone.IsUnder above)
    (hlive : (Place.mk above []).IsLiveHeader header)
    (h : (p.step sections header).outcome = .ok p') :
    ∃ words kind, header? header.text = some words ∧
      sections.get? (String.ofList words) = some kind ∧
      p' = p.open header (String.ofList words) kind := by
  obtain ⟨words, hwords⟩ := Option.isSome_iff_exists.mp hlive.1
  have hadmits : p.zone.admits header.indent = true := (hunder header.indent).mpr hlive.2
  unfold Progress.step at h
  simp only [hwords, hadmits, if_true] at h
  cases hkind : sections.get? (String.ofList words) with
  | none =>
    simp only [hkind] at h
    cases h
  | some kind =>
    simp only [hkind] at h
    cases h
    exact ⟨words, kind, hwords, hkind, rfl⟩

theorem Zone.isUnder_open (p : Progress) (line : Line) (header : String) (kind : SectionKind) :
    (p.open line header kind).zone.IsUnder (some line) := by
  cases kind <;> exact Zone.isUnder_some fun _ => rfl

/-- What a block adds once its header is open. -/
theorem gathers_body {words : List Char} {kind : SectionKind}
    (hwords : header? block.header.text = some words)
    (hkind : sections.get? (String.ofList words) = some kind)
    (htext : ∀ line ∈ block.body, line.text ≠ [])
    (h : block.body.foldlM Progress.add (p.open block.header (String.ofList words) kind) = .ok p') :
    Gathers sections [block] p p' := by
  have hkind? : block.header.kind? sections = some kind := by
    rw [Line.kind?, hwords, Option.bind_some, hkind]
  cases kind with
  | summary =>
    cases h.symm.trans (Progress.foldlM_add_summary (Or.inr ⟨_, rfl⟩))
    exact ⟨by simp [Block.under, hkind?, Progress.open],
      by simp [Block.section?, hwords, hkind, Progress.scan, Progress.open],
      [[]], by simp [Block.under, hkind?, AreEntries.nil], rfl⟩
  | params | returns =>
    cases h.symm.trans (Progress.foldlM_add_body rfl rfl)
    exact ⟨by simp [Block.under, hkind?, Progress.open],
      by simp [Block.section?, hwords, hkind, Progress.scan],
      [[]], by simp [Block.under, hkind?, AreEntries.nil], rfl⟩
  | raises =>
    obtain ⟨entries, zone, hentries, rfl⟩ := Progress.exists_entries rfl htext h
    exact ⟨by simp [Block.under, hkind?, Progress.open],
      by simp [Block.section?, hwords, hkind, Progress.scan, Progress.open],
      [entries], by simp [Block.under, hkind?, hentries], by simp [Progress.open]⟩

/-- A run over a block gathers the block and comes to stand under its header, which is known. -/
theorem gathers_block (hunder : p.zone.IsUnder above)
    (hlive : (Place.mk above []).IsLiveHeader block.header)
    (hbody : ∀ line ∈ block.body, ¬ (Place.mk (some block.header) []).IsLiveHeader line)
    (htext : ∀ line ∈ block.body, line.text ≠ [])
    (h : (p.run sections block.lines).outcome = .ok p') :
    Gathers sections [block] p p' ∧ (block.header.kind? sections).isSome = true ∧
      p'.zone.IsUnder (some block.header) := by
  rw [Block.lines, Progress.run, Logged.bind_eq_ok_iff] at h
  obtain ⟨opened, hstep, hrun⟩ := h
  obtain ⟨words, kind, hwords, hkind, rfl⟩ := Progress.exists_open_of_step hunder hlive hstep
  have hzone := Zone.isUnder_open p block.header (String.ofList words) kind
  rw [Progress.run_of_quiet (hzone.quiet hbody)] at hrun
  refine ⟨gathers_body hwords hkind htext hrun, ?_, ?_⟩
  · rw [Line.kind?, hwords, Option.bind_some, hkind]
    rfl
  · intro indent
    rw [Progress.admits_foldlM hrun]
    exact hzone indent

theorem gathers_blocks {blocks : List Block} (hunder : p.zone.IsUnder above)
    (hblocks : AreBlocks above blocks)
    (htext : ∀ line ∈ blocks.flatMap Block.lines, line.text ≠ [])
    (h : (p.run sections (blocks.flatMap Block.lines)).outcome = .ok p') :
    Gathers sections blocks p p' ∧
      ∀ block ∈ blocks, (block.header.kind? sections).isSome = true := by
  induction hblocks generalizing p with
  | nil =>
    cases h
    exact ⟨.refl _, by simp⟩
  | @cons above block rest hlive hbody _ ih =>
    rw [List.flatMap_cons] at htext h
    rw [Progress.run_append] at h
    obtain ⟨next, hblock, hrest⟩ := Reference.exists_of_bind_eq_ok h
    obtain ⟨hfirst, hlater⟩ := List.forall_mem_append.mp htext
    obtain ⟨hgathers, hknown, hnext⟩ :=
      gathers_block hunder hlive hbody (List.forall_mem_cons.mp hfirst).2 hblock
    obtain ⟨hgathers', hknown'⟩ := ih hnext hlater hrest
    exact ⟨hgathers.trans hgathers', List.forall_mem_cons.mpr ⟨hknown, hknown'⟩⟩

end Blocks

/-- The outline holds what was found: the summary, the sections, and the entries on exceptions,
where a name has the text of its last entry. -/
structure Outline.Holds (sections : SectionSet) (o : Outline) (found : Scan) : Prop where
  summary_eq : found.summary = if o.summaryLines sections = [] then none
    else some (String.ofList (Text.joinLines ((o.summaryLines sections).map Line.text)))
  sections_eq : found.sections = o.blocks.filterMap (Block.section? sections)
  exists_entries : ∃ entries,
    List.Forall₂ AreEntries (o.blocks.map (Block.under sections .raises)) entries ∧
    found.exceptions.IsSorted ∧
    ∀ name, found.exceptions.get? name = entries.flatten.reverse.lookup name

theorem Gathers.holds {sections : SectionSet} {o : Outline} {p : Progress}
    (h : Gathers sections o.blocks { summary := (o.preamble.map Line.text).reverse } p) :
    o.Holds sections p.scan where
  summary_eq := by
    have hsummary : p.summary.reverse = (o.summaryLines sections).map Line.text := by
      rw [h.summary_eq, List.reverse_reverse, Outline.summaryLines, List.map_append]
    have hempty : p.summary.isEmpty = true ↔ o.summaryLines sections = [] := by
      rw [List.isEmpty_iff, ← List.reverse_eq_nil_iff, hsummary, List.map_eq_nil_iff]
    simp only [Progress.scan, hsummary, hempty]
  sections_eq := h.sections_eq
  exists_entries := by
    obtain ⟨entries, hentries, hput⟩ := h.exists_entries
    refine ⟨entries, hentries, ?_, ?_⟩
    · change p.exceptions.IsSorted
      rw [hput]
      exact Table.isSorted_ofList entries.flatten
    · intro name
      change p.exceptions.get? name = _
      rw [hput, Table.get?_putAll]
      exact Option.or_none

theorem text_ne_nil_of_mem_textLines {docstring : String} {line : Line}
    (h : line ∈ textLines docstring) : line.text ≠ [] := by
  obtain ⟨index, raw, -, hne, rfl⟩ := mem_textLines_iff.mp h
  exact hne

/-- A scan gathers all lines of a docstring, each in one place. The lines that hold text are divided
at the live headers, in the only way there is; each is a header, a line of the summary, of a section
on parameters or results, or on exceptions; and the summary, the sections and the exceptions that
are found are those lines in order. -/
theorem scan_outline {sections : SectionSet} {docstring : String} {found : Scan}
    (h : (scan sections docstring).outcome = .ok found) :
    (∀ line, line ∈ textLines docstring ↔ ∃ index raw,
      (Text.lines docstring.toList)[index]? = some raw ∧ Text.trim raw ≠ [] ∧
      line = ⟨index + 1, Text.byteLength (raw.takeWhile Text.isBlank), Text.trim raw⟩) ∧
    (textLines docstring).Pairwise (fun line later => line.number < later.number) ∧
    ∃ o : Outline, o.Divides none (textLines docstring) ∧
      (∀ other : Outline, other.Divides none (textLines docstring) → other = o) ∧
      (o.headers ++ o.summaryLines sections ++ o.sectionLines sections ++
        o.raisesLines sections).Perm (textLines docstring) ∧
      o.Holds sections found := by
  obtain ⟨o, hdivides, hunique⟩ := Outline.existsUnique_divides none (textLines docstring)
  have htext : ∀ line ∈ o.preamble ++ o.blocks.flatMap Block.lines, line.text ≠ [] := by
    rw [hdivides.lines_eq]
    exact fun line => text_ne_nil_of_mem_textLines
  obtain ⟨p, hrun, hfound⟩ := (Logged.bind_eq_ok_iff _ _ _).mp h
  cases hfound
  have hstart : Zone.preamble.IsUnder none := by
    intro indent
    simp [Zone.admits]
  rw [← hdivides.lines_eq, Progress.run_append,
    Progress.run_of_quiet (Zone.IsUnder.quiet hstart hdivides.preamble),
    Progress.foldlM_add_summary (Or.inl rfl)] at hrun
  obtain ⟨hgathers, hknown⟩ := gathers_blocks (p := { summary := _ }) hstart hdivides.blocks
    (List.forall_mem_append.mp htext).2 hrun
  rw [List.append_nil] at hgathers
  exact ⟨fun line => mem_textLines_iff, pairwise_linesFrom 1 _, o, hdivides, hunique,
    hdivides.perm hknown, hgathers.holds⟩

/-- Two sections on exceptions with one name in both, and a deeper line in the form of a header. -/
def ratioText : String :=
  "Divides.\nArgs:\n  x: Count.\n    Note:\nRaises:\n  Bad: No\n    value.\n\n" ++
    "Summary:\n  Twice.\nRaises:\n  Worse:\n    Off.\n  Bad: Again."

def ratioScan : Scan where
  summary := some "Divides. Twice."
  sections := [⟨.params, "Args", 2, [(3, "x: Count.".toList), (4, "Note:".toList)]⟩]
  exceptions := [("Bad", "Again."), ("Worse", "Off.")]

theorem scan_outline_ratio : (scan .standard ratioText).outcome = .ok ratioScan ∧
    ∃ o : Outline, o.Divides none (textLines ratioText) ∧
      (o.headers ++ o.summaryLines .standard ++ o.sectionLines .standard ++
        o.raisesLines .standard).Perm (textLines ratioText) ∧
      o.Holds .standard ratioScan := by
  have hscan : (scan .standard ratioText).outcome = .ok ratioScan := by decide +kernel
  obtain ⟨-, -, o, hdivides, -, hperm, hholds⟩ := scan_outline hscan
  exact ⟨hscan, o, hdivides, hperm, hholds⟩

end Docs
end Callable
