import Callable.Proofs.Docs.Dialects
import Callable.Proofs.Text.Pieces

/-!
Titles, and the lines on which they are headers. A title begins and ends with a letter and is neither
broken nor shortened by what a line loses, so a title and a colon on a line of their own are read as
that header, whatever blank space is around them. And nothing else is ever a header.
-/
namespace Callable.Docs

section Title

variable {text word : List Char}

theorem isTitle_word (h : ' ' ∉ word) : isTitle word = isTitleWord word := by
  rw [isTitle, Text.splitAt_of_not_mem h, List.all_cons, List.all_nil, Bool.and_true]

theorem isTitle_append (h : ' ' ∉ word) (rest : List Char) :
    isTitle (word ++ ' ' :: rest) = (isTitleWord word && isTitle rest) := by
  rw [isTitle, Text.splitAt_append_separator h, List.all_cons]
  rfl

theorem exists_of_isTitleWord (h : isTitleWord word = true) :
    ∃ c rest, word = c :: rest ∧ ∀ d ∈ c :: rest, Text.isLetter d = true := by
  cases word with
  | nil => cases h
  | cons c rest => exact ⟨c, rest, rfl, List.all_eq_true.mp (Bool.and_eq_true_iff.mp h).2⟩

/-- A title begins and ends with letters, and what is not a letter is a blank between its words. -/
structure Lettered (text : List Char) : Prop where
  ne_nil : text ≠ []
  chars : ∀ c ∈ text, c = ' ' ∨ Text.isLetter c = true
  head : ∀ c ∈ text.head?, Text.isLetter c = true
  last : ∀ c ∈ text.getLast?, Text.isLetter c = true

theorem lettered_of_isTitleWord (h : isTitleWord word = true) : Lettered word := by
  obtain ⟨c, rest, rfl, hall⟩ := exists_of_isTitleWord h
  exact ⟨List.cons_ne_nil c rest, fun d hd => Or.inr (hall d hd),
    fun d hd => hall d (List.mem_of_mem_head? hd), fun d hd => hall d (List.mem_of_mem_getLast? hd)⟩

theorem Lettered.append {rest : List Char} (hword : Lettered word) (hrest : Lettered rest) :
    Lettered (word ++ ' ' :: rest) where
  ne_nil := List.append_ne_nil_of_left_ne_nil hword.ne_nil _
  chars := List.forall_mem_append.mpr
    ⟨hword.chars, List.forall_mem_cons.mpr ⟨Or.inl rfl, hrest.chars⟩⟩
  head := by
    rw [List.head?_append_of_ne_nil _ hword.ne_nil]
    exact hword.head
  last := by
    obtain ⟨c, tail, rfl⟩ := List.exists_cons_of_ne_nil hrest.ne_nil
    rw [List.getLast?_append_of_ne_nil _ (List.cons_ne_nil ' ' _), List.getLast?_cons_cons]
    exact hrest.last

theorem lettered_of_isTitle (h : isTitle text = true) : Lettered text := by
  induction text using Text.induct_pieces ' ' with
  | last word hblank =>
    rw [isTitle_word hblank] at h
    exact lettered_of_isTitleWord h
  | more word rest hblank ih =>
    rw [isTitle_append hblank, Bool.and_eq_true] at h
    exact (lettered_of_isTitleWord h.1).append (ih h.2)

theorem not_isBlank_of_isLetter {c : Char} (h : Text.isLetter c = true) : Text.isBlank c = false :=
  Text.isBlank_of_isLetterOrDigit (Text.isLetterOrDigit_of_isLetter h)

/-- A title with a colon is the text of a line. -/
theorem isLineText_of_isTitle (h : isTitle text = true) : IsLineText (text ++ [':']) := by
  have hletters := lettered_of_isTitle h
  obtain ⟨c, rest, rfl⟩ := List.exists_cons_of_ne_nil hletters.ne_nil
  have hcolon : IsLineText [':'] := ⟨by decide, by decide, by decide⟩
  refine hcolon.append (not_isBlank_of_isLetter (hletters.head c rfl)) fun hfeed => ?_
  rcases hletters.chars _ hfeed with heq | hletter
  · exact absurd heq (by decide)
  · exact absurd hletter (by decide)

/-- A header is a title before a colon. -/
theorem header?_eq_some_iff (text head : List Char) :
    header? text = some head ↔ text = head ++ [':'] ∧ isTitle head = true := by
  constructor
  · intro h
    unfold header? at h
    split at h
    · cases h
    · rename_i hdrop
      split at h
      · cases h
      · split at h
        · rename_i htitle
          cases h
          exact ⟨Text.eq_append_of_dropSuffix? hdrop, htitle⟩
        · cases h
  · intro h
    obtain ⟨rfl, htitle⟩ := h
    have hlast := (lettered_of_isTitle htitle).last
    have hguard : ¬ (head.getLast? = some ':' ∨ head.getLast? = some ' ') := by
      rintro (hcolon | hblank)
      · exact absurd (hlast _ hcolon) (by decide)
      · exact absurd (hlast _ hblank) (by decide)
    unfold header?
    rw [Text.dropSuffix?_append]
    simp only [if_neg hguard, if_pos htitle]

end Title

section OneLine

variable {text before after : List Char}
  (hbefore : ∀ c ∈ before, Text.isBlank c = true ∧ c ≠ '\n')
  (hafter : ∀ c ∈ after, Text.isBlank c = true ∧ c ≠ '\n')

include hbefore hafter

/-- Blank space around a text is no part of its line. -/
theorem exists_textLines_padded (h : IsLineText text) :
    ∃ indent, textLines (String.ofList (before ++ (text ++ after))) = [⟨1, indent, text⟩] := by
  have hne : before ++ (text ++ after) ≠ [] :=
    List.append_ne_nil_of_right_ne_nil before (List.append_ne_nil_of_left_ne_nil h.ne_nil after)
  have hfeed : '\n' ∉ before ++ (text ++ after) := by
    rw [List.mem_append, List.mem_append]
    rintro (hin | hin | hin)
    · exact (hbefore _ hin).2 rfl
    · exact h.feed hin
    · exact (hafter _ hin).2 rfl
  have htrim : Text.trim (before ++ (text ++ after)) = text := by
    rw [Text.trim_append_of_blank fun c hc => (hbefore c hc).1,
      Text.trim_append_blanks text fun c hc => (hafter c hc).1, h.trimmed]
  refine ⟨Text.byteLength ((before ++ (text ++ after)).takeWhile Text.isBlank), ?_⟩
  unfold textLines
  rw [String.toList_ofList, Text.lines_line hne hfeed, linesFrom, htrim]
  simp only [if_neg h.ne_nil]
  rfl

/-- A header and a colon on one line, with blank space around them. -/
def headerLine (before : List Char) (header : String) (after : List Char) : String :=
  String.ofList (before ++ (header.toList ++ [':'] ++ after))

/-- A title and a colon alone open a section with nothing in it. -/
theorem scan_title {sections : SectionSet} {header : String}
    (hparams : sections.get? header = some .params) (h : isTitle header.toList = true) :
    (scan sections (headerLine before header after)).outcome =
      .ok ⟨none, [⟨.params, header, 1, []⟩], []⟩ := by
  obtain ⟨indent, hlines⟩ := exists_textLines_padded hbefore hafter (isLineText_of_isTitle h)
  have hheader := (header?_eq_some_iff (header.toList ++ [':']) header.toList).mpr ⟨rfl, h⟩
  exact scan_params hparams hlines hheader (List.forall_mem_nil _)

end OneLine

/-- The headers of the sections so far are titles. -/
def Progress.Titled (p : Progress) : Prop := ∀ s ∈ p.sections, isTitle s.header.toList = true

theorem Progress.Titled.open {p : Progress} (h : p.Titled) (line : Line) {header : String}
    (hheader : isTitle header.toList = true) (kind : SectionKind) :
    (p.open line header kind).Titled := by
  cases kind with
  | summary | raises => exact h
  | params | returns => exact List.forall_mem_cons.mpr ⟨hheader, h⟩

theorem Progress.Titled.add {p p' : Progress} (h : p.Titled) {line : Line}
    (hadd : p.add line = .ok p') : p'.Titled := by
  unfold Progress.add at hadd
  split at hadd
  · cases hadd
    exact h
  · cases hadd
    exact h
  · cases hadd
    change ∀ s ∈ p.sections.modifyHead _, isTitle s.header.toList = true
    change ∀ s ∈ p.sections, isTitle s.header.toList = true at h
    revert h
    cases p.sections with
    | nil => exact id
    | cons s rest =>
      intro h
      obtain ⟨hs, hrest⟩ := List.forall_mem_cons.mp h
      exact List.forall_mem_cons.mpr ⟨hs, hrest⟩
  · split at hadd
    · cases hadd
      exact h
    · dsimp only at hadd
      split at hadd
      · cases hadd
        exact h
      · cases hadd

theorem Progress.Titled.step {sections : SectionSet} {p p' : Progress} (h : p.Titled) {line : Line}
    (hstep : (p.step sections line).outcome = .ok p') : p'.Titled := by
  unfold Progress.step at hstep
  split at hstep
  · exact h.add hstep
  · rename_i header hheader
    split at hstep
    · dsimp only at hstep
      split at hstep
      · cases hstep
      · rename_i kind _
        cases hstep
        have htitle := ((header?_eq_some_iff line.text header).mp hheader).2
        have hsame : (String.ofList header).toList = header := String.toList_ofList
        exact h.open line (hsame.symm ▸ htitle) kind
    · exact h.add hstep

theorem Progress.Titled.run {sections : SectionSet} {p p' : Progress} (h : p.Titled)
    {lines : List Line} (hrun : (p.run sections lines).outcome = .ok p') : p'.Titled := by
  induction lines generalizing p with
  | nil =>
    cases hrun
    exact h
  | cons line rest ih =>
    rw [Progress.run, Logged.bind_eq_ok_iff] at hrun
    obtain ⟨next, hstep, hrest⟩ := hrun
    exact ih (h.step hstep) hrest

/-- The headers of sections are titles. -/
theorem isTitle_of_scan {sections : SectionSet} {docstring : String} {found : Scan}
    (h : (scan sections docstring).outcome = .ok found) :
    ∀ s ∈ found.sections, isTitle s.header.toList = true := by
  unfold scan at h
  rw [Logged.bind_eq_ok_iff] at h
  obtain ⟨p, hrun, hscan⟩ := h
  cases hscan
  have hstart : Progress.Titled {} := List.forall_mem_nil _
  have htitled := hstart.run hrun
  intro s hs
  obtain ⟨original, horiginal, rfl⟩ := List.mem_map.mp (List.mem_reverse.mp hs)
  exact htitled original horiginal

end Callable.Docs
