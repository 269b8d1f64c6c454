import Callable.Docs.Line
import Mathlib.Data.List.Forall2

/-!
The lines of a docstring to which a line feed and more text are added. The lines with text stay what
they were, with their numbers and indentation, and others may follow. Only the last line can change
in its characters: a carriage return at its end now belongs to the line end. Being blank, it was
trimmed before.
-/
namespace Callable

namespace Text

/-- The lines are the same up to a carriage return at the end of the second. -/
def SameLine (line line' : List Char) : Prop := line' = line ∨ line' = line ++ ['\r']

theorem SameLine.cons {line line' : List Char} (h : SameLine line line') (c : Char) :
    SameLine (c :: line) (c :: line') := by
  rcases h with rfl | rfl
  · exact Or.inl rfl
  · exact Or.inr rfl

theorem lines_ne_nil {text : List Char} (h : text ≠ []) : lines text ≠ [] := by
  fun_cases lines text with
  | case1 => exact absurd rfl h
  | _ => exact List.cons_ne_nil _ _

/-- A character that ends no line goes on the first line of what follows. -/
theorem lines_cons {c : Char} {rest first : List Char} {others : List (List Char)}
    (hfeed : c ≠ '\n') (hreturn : ∀ after, ¬ (c = '\r' ∧ rest = '\n' :: after))
    (h : lines rest = first :: others) : lines (c :: rest) = (c :: first) :: others := by
  rw [lines, h]
  · exact hfeed
  · exact fun after hc hrest => hreturn after ⟨hc, hrest⟩

theorem lines_append_newline (text more : List Char) :
    ∃ front tail, lines (text ++ '\n' :: more) = front ++ tail ∧
      List.Forall₂ SameLine front (lines text) := by
  fun_induction lines text with
  | case1 => exact ⟨[], _, rfl, List.Forall₂.nil⟩
  | case2 rest ih =>
    obtain ⟨front, tail, heq, hsame⟩ := ih
    refine ⟨[] :: front, tail, ?_, List.Forall₂.cons (Or.inl rfl) hsame⟩
    rw [List.cons_append, lines, heq, List.cons_append]
  | case3 rest ih =>
    obtain ⟨front, tail, heq, hsame⟩ := ih
    refine ⟨[] :: front, tail, ?_, List.Forall₂.cons (Or.inl rfl) hsame⟩
    rw [List.cons_append, List.cons_append, lines, heq, List.cons_append]
  | case4 c rest hfeed hreturn hrest ih =>
    cases rest with
    | cons d rest => exact absurd hrest (lines_ne_nil (List.cons_ne_nil d rest))
    | nil =>
      have hmore : lines ('\n' :: more) = [] :: lines more := by rw [lines]
      by_cases hc : c = '\r'
      · subst hc
        exact ⟨[[]], lines more, by rw [List.cons_append, List.nil_append, lines]; rfl,
          List.Forall₂.cons (Or.inr rfl) List.Forall₂.nil⟩
      · refine ⟨[[c]], lines more, ?_, List.Forall₂.cons (Or.inl rfl) List.Forall₂.nil⟩
        exact lines_cons hfeed (fun after h => hc h.1) hmore
  | case5 c rest hfeed hreturn first others hrest ih =>
    obtain ⟨front, tail, heq, hsame⟩ := ih
    rw [hrest] at hsame
    cases hsame with
    | @cons first' _ others' _ hfirst hothers =>
      refine ⟨(c :: first') :: others', tail, ?_, List.Forall₂.cons (hfirst.cons c) hothers⟩
      refine lines_cons hfeed ?_ heq
      rintro after ⟨hc, happend⟩
      cases rest with
      | nil => cases hrest
      | cons d rest =>
        have hd : d = '\n' := (List.cons.inj happend).1
        exact hreturn rest hc (by rw [hd])

theorem trim_append_blank (text : List Char) {c : Char} (hc : isBlank c = true) :
    trim (text ++ [c]) = trim text := by
  unfold trim trimStart
  rw [List.dropWhile_append]
  split
  · rename_i hblank
    rw [List.isEmpty_iff] at hblank
    rw [hblank, List.dropWhile_cons_of_pos hc]
    rfl
  · unfold trimEnd
    rw [List.reverse_append, List.reverse_singleton, List.singleton_append,
      List.dropWhile_cons_of_pos hc]

theorem trim_append_blanks (text : List Char) {space : List Char}
    (hspace : ∀ c ∈ space, isBlank c = true) : trim (text ++ space) = trim text := by
  induction space generalizing text with
  | nil => rw [List.append_nil]
  | cons c rest ih =>
    obtain ⟨hc, hrest⟩ := List.forall_mem_cons.mp hspace
    rw [List.append_cons, ih (text ++ [c]) hrest, trim_append_blank text hc]

theorem trim_eq_nil_of_takeWhile {text : List Char} (h : text.takeWhile isBlank = text) :
    trim text = [] := by
  have hdrop : text.dropWhile isBlank = [] := by
    have hall := List.takeWhile_append_dropWhile (p := isBlank) (l := text)
    rw [h] at hall
    exact List.append_cancel_left (hall.trans (List.append_nil text).symm)
  unfold trim trimStart
  rw [hdrop]
  rfl

theorem SameLine.trim_eq {line line' : List Char} (h : SameLine line line') :
    trim line' = trim line := by
  rcases h with rfl | rfl
  · rfl
  · exact trim_append_blank line (by decide)

/-- The blank space before the text of a line. -/
theorem SameLine.takeWhile_eq {line line' : List Char} (h : SameLine line line')
    (htext : trim line ≠ []) : line'.takeWhile isBlank = line.takeWhile isBlank := by
  rcases h with rfl | rfl
  · rfl
  · rw [List.takeWhile_append]
    split
    · rename_i hlength
      have hall : line.takeWhile isBlank = line :=
        (List.takeWhile_prefix isBlank).eq_of_length hlength
      exact absurd (trim_eq_nil_of_takeWhile hall) htext
    · rfl

end Text

namespace Docs

theorem linesFrom_append (number : Nat) (lines more : List (List Char)) :
    linesFrom number (lines ++ more) =
      linesFrom number lines ++ linesFrom (number + lines.length) more := by
  induction lines generalizing number with
  | nil => rfl
  | cons raw rest ih =>
    have hnumber : number + 1 + rest.length = number + (raw :: rest).length := by
      simp only [List.length_cons]
      omega
    rw [List.cons_append, linesFrom, linesFrom, ih (number + 1), hnumber]
    by_cases hblank : Text.trim raw = []
    · simp only [hblank, if_true]
    · simp only [hblank, if_false, List.cons_append]

theorem linesFrom_eq_of_sameLines {lines lines' : List (List Char)}
    (h : List.Forall₂ Text.SameLine lines lines') (number : Nat) :
    linesFrom number lines' = linesFrom number lines := by
  induction h generalizing number with
  | nil => rfl
  | @cons line line' rest rest' hline _ ih =>
    rw [linesFrom, linesFrom, ih, hline.trim_eq]
    by_cases hblank : Text.trim line = []
    · simp only [hblank, if_true]
    · simp only [hblank, if_false, hline.takeWhile_eq hblank]

/-- What follows a line feed adds lines with text and changes none. -/
theorem textLines_append_newline (docstring more : String) :
    ∃ tail, textLines (docstring ++ "\n" ++ more) = textLines docstring ++ tail := by
  obtain ⟨front, tail, heq, hsame⟩ :=
    Text.lines_append_newline docstring.toList more.toList
  have hchars : (docstring ++ "\n" ++ more).toList = docstring.toList ++ '\n' :: more.toList := by
    rw [String.toList_append, String.toList_append, List.append_assoc]
    rfl
  refine ⟨linesFrom (1 + front.length) tail, ?_⟩
  unfold textLines
  rw [hchars, heq, linesFrom_append, linesFrom_eq_of_sameLines hsame]

end Docs
end Callable
