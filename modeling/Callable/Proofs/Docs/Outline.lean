import Callable.Proofs.Docs.Scan
import Callable.Reference.Lexeme

/-!
Docstrings in blocks. The live headers divide the lines of a docstring into a preamble and blocks, a
block being a header with the lines down to the next live header. Whether a line is a live header is
decided by the header above it, so lines are divided in one way only. The lines themselves are the
lines of the docstring that hold text, each with the number it has there. A run over lines that are no
live headers does no more than add them, one after the other.
-/
namespace Callable.Docs

/-- A header with the lines under it. -/
structure Block where
  header : Line
  body : List Line

def Block.lines (block : Block) : List Line := block.header :: block.body

structure Outline where
  /-- The lines before the first header. -/
  preamble : List Line
  blocks : List Block

/-- Each header is live under the header before it, the first one under `above`, and no line of a
block is live under the header of the block. -/
inductive AreBlocks : Option Line → List Block → Prop
  | nil {above : Option Line} : AreBlocks above []
  | cons {above : Option Line} {block : Block} {rest : List Block} :
      (Place.mk above []).IsLiveHeader block.header →
      (∀ line ∈ block.body, ¬ (Place.mk (some block.header) []).IsLiveHeader line) →
      AreBlocks (some block.header) rest → AreBlocks above (block :: rest)

namespace Outline

/-- The outline of some lines that stand under a header, if there is one above. -/
structure Divides (o : Outline) (above : Option Line) (lines : List Line) : Prop where
  lines_eq : o.preamble ++ o.blocks.flatMap Block.lines = lines
  preamble : ∀ line ∈ o.preamble, ¬ (Place.mk above []).IsLiveHeader line
  blocks : AreBlocks above o.blocks

variable {o : Outline} {above : Option Line} {line : Line} {rest : List Line}

theorem divides_nil_iff : o.Divides above [] ↔ o = ⟨[], []⟩ := by
  constructor
  · intro h
    obtain ⟨preamble, blocks⟩ := o
    obtain ⟨rfl, hblocks⟩ := List.append_eq_nil_iff.mp h.lines_eq
    cases blocks with
    | nil => rfl
    | cons block blocks => cases hblocks
  · rintro rfl
    exact ⟨rfl, by simp, .nil⟩

/-- A live header closes the preamble; what would be the preamble under it is its block. -/
theorem divides_cons_iff_of_live (hlive : (Place.mk above []).IsLiveHeader line) :
    o.Divides above (line :: rest) ↔ ∃ under : Outline,
      o = ⟨[], ⟨line, under.preamble⟩ :: under.blocks⟩ ∧ under.Divides (some line) rest := by
  constructor
  · intro h
    obtain ⟨preamble, blocks⟩ := o
    cases preamble with
    | cons first preamble =>
      obtain ⟨rfl, -⟩ := List.cons.inj h.lines_eq
      exact absurd hlive (h.preamble first List.mem_cons_self)
    | nil =>
      cases h.blocks with
      | nil => cases h.lines_eq
      | @cons _ block blocks _ hbody hblocks =>
        obtain ⟨header, body⟩ := block
        obtain ⟨rfl, htail⟩ := List.cons.inj h.lines_eq
        exact ⟨⟨body, blocks⟩, rfl, htail, hbody, hblocks⟩
  · rintro ⟨under, rfl, hunder⟩
    exact ⟨congrArg (List.cons line) hunder.lines_eq, by simp,
      .cons hlive hunder.preamble hunder.blocks⟩

theorem divides_cons_iff_of_not_live (hline : ¬ (Place.mk above []).IsLiveHeader line) :
    o.Divides above (line :: rest) ↔ ∃ later : Outline,
      o = ⟨line :: later.preamble, later.blocks⟩ ∧ later.Divides above rest := by
  constructor
  · intro h
    obtain ⟨preamble, blocks⟩ := o
    cases preamble with
    | cons first preamble =>
      obtain ⟨rfl, htail⟩ := List.cons.inj h.lines_eq
      exact ⟨⟨preamble, blocks⟩, rfl, htail, (List.forall_mem_cons.mp h.preamble).2, h.blocks⟩
    | nil =>
      cases h.blocks with
      | nil => cases h.lines_eq
      | cons hlive =>
        obtain ⟨rfl, -⟩ := List.cons.inj h.lines_eq
        exact absurd hlive hline
  · rintro ⟨later, rfl, hlater⟩
    exact ⟨congrArg (List.cons line) hlater.lines_eq,
      List.forall_mem_cons.mpr ⟨hline, hlater.preamble⟩, hlater.blocks⟩

/-- Lines have one outline. -/
theorem existsUnique_divides (above : Option Line) (lines : List Line) :
    ∃! o : Outline, o.Divides above lines := by
  -- Only a live header changes what the lines after it stand under.
  induction lines generalizing above with
  | nil => exact ⟨⟨[], []⟩, divides_nil_iff.mpr rfl, fun other => divides_nil_iff.mp⟩
  | cons line rest ih =>
    by_cases hlive : (Place.mk above []).IsLiveHeader line
    · obtain ⟨under, hunder, hunique⟩ := ih (some line)
      refine ⟨_, (divides_cons_iff_of_live hlive).mpr ⟨under, rfl, hunder⟩, ?_⟩
      intro other hother
      obtain ⟨under', rfl, hunder'⟩ := (divides_cons_iff_of_live hlive).mp hother
      rw [hunique under' hunder']
    · obtain ⟨later, hlater, hunique⟩ := ih above
      refine ⟨_, (divides_cons_iff_of_not_live hlive).mpr ⟨later, rfl, hlater⟩, ?_⟩
      intro other hother
      obtain ⟨later', rfl, hlater'⟩ := (divides_cons_iff_of_not_live hlive).mp hother
      rw [hunique later' hlater']

def headers (o : Outline) : List Line := o.blocks.map Block.header

end Outline

/-- The lines under a header of some kind. -/
def Block.under (sections : SectionSet) (kind : SectionKind) (block : Block) : List Line :=
  if block.header.kind? sections = some kind then block.body else []

namespace Outline

variable (sections : SectionSet)

def summaryLines (o : Outline) : List Line :=
  o.preamble ++ o.blocks.flatMap (Block.under sections .summary)

/-- The lines on parameters and results. -/
def sectionLines (o : Outline) : List Line :=
  o.blocks.flatMap fun block => block.under sections .params ++ block.under sections .returns

def raisesLines (o : Outline) : List Line := o.blocks.flatMap (Block.under sections .raises)

variable {sections} {o : Outline} {above : Option Line} {lines : List Line}

theorem count_block {block : Block} {kind : SectionKind}
    (hkind : block.header.kind? sections = some kind) (line : Line) :
    block.lines.count line = [block.header].count line +
      (block.under sections .summary).count line +
      (block.under sections .params ++ block.under sections .returns).count line +
      (block.under sections .raises).count line := by
  cases kind <;> simp [Block.lines, Block.under, hkind, List.count_cons] <;> omega

theorem count_blocks {blocks : List Block}
    (hknown : ∀ block ∈ blocks, (block.header.kind? sections).isSome = true) (line : Line) :
    (blocks.flatMap Block.lines).count line = (blocks.map Block.header).count line +
      (blocks.flatMap (Block.under sections .summary)).count line +
      (blocks.flatMap fun block =>
        block.under sections .params ++ block.under sections .returns).count line +
      (blocks.flatMap (Block.under sections .raises)).count line := by
  induction blocks with
  | nil => rfl
  | cons block rest ih =>
    obtain ⟨hfirst, hrest⟩ := List.forall_mem_cons.mp hknown
    obtain ⟨kind, hkind⟩ := Option.isSome_iff_exists.mp hfirst
    have hblock := count_block hkind line
    have hlater := ih hrest
    rw [List.count_singleton] at hblock
    simp only [List.flatMap_cons, List.map_cons, List.count_append,
      List.count_cons] at hblock hlater ⊢
    omega

/-- If all headers are known, each line is a header or stands in one kind of section. -/
theorem Divides.perm (h : o.Divides above lines)
    (hknown : ∀ block ∈ o.blocks, (block.header.kind? sections).isSome = true) :
    (o.headers ++ o.summaryLines sections ++ o.sectionLines sections ++
      o.raisesLines sections).Perm lines := by
  rw [← h.lines_eq, List.perm_iff_count]
  intro line
  have hblocks := count_blocks hknown line
  simp only [headers, summaryLines, sectionLines, raisesLines, List.count_append]
  omega

end Outline

theorem mem_linesFrom_iff {number : Nat} {raws : List (List Char)} {line : Line} :
    line ∈ linesFrom number raws ↔ ∃ index raw, raws[index]? = some raw ∧ Text.trim raw ≠ [] ∧
      line = ⟨number + index, Text.byteLength (raw.takeWhile Text.isBlank), Text.trim raw⟩ := by
  induction raws generalizing number with
  | nil => simp [linesFrom]
  | cons raw rest ih =>
    have hrest : line ∈ linesFrom (number + 1) rest ↔ ∃ index later,
        (raw :: rest)[index + 1]? = some later ∧ Text.trim later ≠ [] ∧
        line = ⟨number + (index + 1), Text.byteLength (later.takeWhile Text.isBlank),
          Text.trim later⟩ := by
      simp only [ih, List.getElem?_cons_succ, Nat.add_assoc, Nat.add_comm 1]
    constructor
    · intro hmem
      unfold linesFrom at hmem
      by_cases hblank : Text.trim raw = []
      · rw [if_pos hblank, hrest] at hmem
        obtain ⟨index, later, hlater⟩ := hmem
        exact ⟨index + 1, later, hlater⟩
      · rw [if_neg hblank, List.mem_cons, hrest] at hmem
        rcases hmem with rfl | ⟨index, later, hlater⟩
        · exact ⟨0, raw, rfl, hblank, rfl⟩
        · exact ⟨index + 1, later, hlater⟩
    · rintro ⟨index, later, hlater⟩
      unfold linesFrom
      cases index with
      | zero =>
        obtain ⟨hraw, hne, rfl⟩ := hlater
        cases hraw
        rw [if_neg hne]
        exact List.mem_cons_self
      | succ index =>
        have hmem := hrest.mpr ⟨index, later, hlater⟩
        by_cases hblank : Text.trim raw = []
        · rwa [if_pos hblank]
        · rw [if_neg hblank]
          exact List.mem_cons_of_mem _ hmem

/-- The lines are the lines of the docstring that are not blank, trimmed, with their numbers. -/
theorem mem_textLines_iff {docstring : String} {line : Line} :
    line ∈ textLines docstring ↔ ∃ index raw, (Text.lines docstring.toList)[index]? = some raw ∧
      Text.trim raw ≠ [] ∧
      line = ⟨index + 1, Text.byteLength (raw.takeWhile Text.isBlank), Text.trim raw⟩ := by
  unfold textLines
  simp only [mem_linesFrom_iff, Nat.add_comm 1]

theorem pairwise_linesFrom (number : Nat) (raws : List (List Char)) :
    (linesFrom number raws).Pairwise fun line later => line.number < later.number := by
  induction raws generalizing number with
  | nil => exact List.Pairwise.nil
  | cons raw rest ih =>
    unfold linesFrom
    by_cases hblank : Text.trim raw = []
    · simpa only [hblank, if_true] using ih (number + 1)
    · simp only [hblank, if_false]
      refine List.pairwise_cons.mpr ⟨?_, ih (number + 1)⟩
      intro later hlater
      obtain ⟨index, -, -, -, rfl⟩ := mem_linesFrom_iff.mp hlater
      change number < number + 1 + index
      omega

section Lines

variable {sections : SectionSet} {p p' : Progress} {line : Line} {lines : List Line} {indent : Nat}

theorem Progress.admits_add (h : p.add line = .ok p') (indent : Nat) :
    p'.zone.admits indent = p.zone.admits indent := by
  unfold Progress.add at h
  cases hzone : p.zone with
  | preamble | summary | body =>
    simp only [hzone] at h
    cases h
    rw [← hzone]
  | raises header entry =>
    simp only [hzone] at h
    split at h
    · cases h
      rfl
    · split at h <;> cases h
      rfl

theorem Progress.admits_foldlM {lines : List Line} (h : lines.foldlM Progress.add p = .ok p')
    (indent : Nat) : p'.zone.admits indent = p.zone.admits indent := by
  induction lines generalizing p with
  | nil =>
    cases h
    rfl
  | cons line rest ih =>
    rw [List.foldlM_cons] at h
    obtain ⟨next, hadd, hnext⟩ := Reference.exists_of_bind_eq_ok h
    rw [ih hnext, Progress.admits_add hadd]

/-- A run over lines that are no live headers adds one after the other. -/
theorem Progress.run_of_quiet (hquiet : ∀ line ∈ lines,
      header? line.text = none ∨ p.zone.admits line.indent = false) :
    (p.run sections lines).outcome = lines.foldlM Progress.add p := by
  induction lines generalizing p with
  | nil => rfl
  | cons line rest ih =>
    obtain ⟨hline, hrest⟩ := List.forall_mem_cons.mp hquiet
    have hstep : (p.step sections line).outcome = p.add line := by
      unfold Progress.step
      cases hwords : header? line.text with
      | none => rfl
      | some words =>
        have hdeep : p.zone.admits line.indent = false := hline.resolve_left (by simp [hwords])
        simp only [hdeep, Bool.false_eq_true, if_false]
        rfl
    rw [Progress.run, Logged.outcome_bind, hstep, List.foldlM_cons]
    cases hadd : p.add line with
    | error e => rfl
    | ok next =>
      refine ih fun later hlater => ?_
      rw [Progress.admits_add hadd]
      exact hrest later hlater

theorem Progress.foldlM_add_summary
    (hzone : p.zone = .preamble ∨ ∃ indent, p.zone = .summary indent) :
    lines.foldlM Progress.add p =
      .ok { p with summary := (lines.map Line.text).reverse ++ p.summary } := by
  induction lines generalizing p with
  | nil => rfl
  | cons line rest ih =>
    have hadd : p.add line = .ok { p with summary := line.text :: p.summary } := by
      unfold Progress.add
      rcases hzone with hzone | ⟨indent, hzone⟩ <;> rw [hzone]
    rw [List.foldlM_cons, hadd]
    refine (ih (p := { p with summary := line.text :: p.summary }) hzone).trans ?_
    simp

/-- Lines as a section keeps them. -/
def numbered (lines : List Line) : List (Nat × List Char) :=
  lines.map fun line => (line.number, line.text)

theorem Progress.foldlM_add_body {s : Section} {before : List Section}
    (hzone : p.zone = .body indent) (hsections : p.sections = s :: before) :
    lines.foldlM Progress.add p = .ok { p with
      sections := { s with lines := (numbered lines).reverse ++ s.lines } :: before } := by
  induction lines generalizing p s with
  | nil =>
    change Except.ok p = Except.ok { p with sections := s :: before }
    rw [← hsections]
  | cons line rest ih =>
    have hadd : p.add line = .ok { p with
        sections := { s with lines := (line.number, line.text) :: s.lines } :: before } := by
      unfold Progress.add
      rw [hzone, hsections]
      rfl
    rw [List.foldlM_cons, hadd]
    refine (ih (p := { p with sections := _ :: before }) hzone rfl).trans ?_
    simp [numbered]

end Lines

end Callable.Docs
