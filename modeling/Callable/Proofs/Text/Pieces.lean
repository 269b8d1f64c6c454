import Callable.Text.Split

/-!
The pieces between separators. What is split at a separator is its first piece, or the first piece, the
separator and a rest that is split likewise; so what holds of pieces and passes on holds of all texts.
-/
namespace Callable.Text

variable {α : Type} [DecidableEq α] {separator : α}

theorem splitAt_of_not_mem {piece : List α} (h : separator ∉ piece) :
    splitAt separator piece = [piece] := by
  induction piece with
  | nil => rfl
  | cons c rest ih =>
    rw [List.mem_cons, not_or] at h
    rw [splitAt, if_neg (Ne.symm h.1), ih h.2]

theorem splitAt_append_separator {piece : List α} (h : separator ∉ piece) (rest : List α) :
    splitAt separator (piece ++ separator :: rest) = piece :: splitAt separator rest := by
  induction piece with
  | nil => rw [List.nil_append, splitAt, if_pos rfl]
  | cons c piece ih =>
    rw [List.mem_cons, not_or] at h
    rw [List.cons_append, splitAt, if_neg (Ne.symm h.1), ih h.2]

/-- What holds of pieces, and of a piece before what it holds of, holds of all texts. -/
theorem induct_pieces (separator : α) {motive : List α → Prop}
    (last : ∀ piece, separator ∉ piece → motive piece)
    (more : ∀ piece rest, separator ∉ piece → motive rest → motive (piece ++ separator :: rest))
    (text : List α) : motive text := by
  induction hn : text.length using Nat.strongRecOn generalizing text with
  | ind n ih =>
    by_cases hmem : separator ∈ text
    · obtain ⟨piece, rest, rfl, hpiece⟩ := List.eq_append_cons_of_mem hmem
      rw [List.length_append, List.length_cons] at hn
      exact more piece rest hpiece (ih rest.length (by omega) rest rfl)
    · exact last text hmem

end Callable.Text
