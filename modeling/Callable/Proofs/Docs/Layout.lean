import Callable.Proofs.Text.Bytes
import Callable.Proofs.Text.Split

/-!
Docstrings laid out in lines. Texts are put behind blank space and joined by line feeds; reading the lines
gives the texts back, numbered and indented as far as they were put.
-/
namespace Callable.Docs

/-- The text of one line, with no blank space at its ends. -/
structure IsLineText (text : List Char) : Prop where
  ne_nil : text ≠ []
  trimmed : Text.trim text = text
  feed : '\n' ∉ text

/-- The raw line is the text behind blank space of so many bytes at least. -/
def LaidOut (least : Nat) (raw text : List Char) : Prop :=
  ∃ space, raw = space ++ text ∧ least ≤ Text.byteLength space ∧
    ∀ c ∈ space, Text.isBlank c = true ∧ c ≠ '\n'

def joined (raws : List (List Char)) : String := String.ofList (['\n'].intercalate raws)

/-- The line was read from a raw line that is laid out so. -/
structure Shows (least : Nat) (line : Line) (text : List Char) : Prop where
  text : line.text = text
  indent : least ≤ line.indent

theorem byteLength_spaces (n : Nat) : Text.byteLength (List.replicate n ' ') = n := by
  induction n with
  | zero => rfl
  | succ n ih =>
    have hspace : ' '.utf8Size = 1 := rfl
    rw [List.replicate_succ, Text.byteLength, ih, hspace, Nat.add_comm]

/-- A text behind spaces. -/
theorem laidOut_spaces {least n : Nat} (h : least ≤ n) (text : List Char) :
    LaidOut least (List.replicate n ' ' ++ text) text := by
  refine ⟨List.replicate n ' ', rfl, ?_, ?_⟩
  · rwa [byteLength_spaces]
  · intro c hc
    obtain rfl := List.eq_of_mem_replicate hc
    exact ⟨by decide, by decide⟩

theorem laidOut_self (text : List Char) : LaidOut 0 text text := laidOut_spaces (Nat.le_refl 0) text

theorem map_text_of_shows {least : Nat} {lines : List Line} {texts : List (List Char)}
    (h : List.Forall₂ (Shows least) lines texts) : lines.map Line.text = texts := by
  induction h with
  | nil => rfl
  | cons hline _ ih => rw [List.map_cons, hline.text, ih]

theorem indent_of_shows {least : Nat} {lines : List Line} {texts : List (List Char)}
    (h : List.Forall₂ (Shows least) lines texts) : ∀ line ∈ lines, least ≤ line.indent := by
  induction h with
  | nil => exact List.forall_mem_nil _
  | cons hline _ ih => exact List.forall_mem_cons.mpr ⟨hline.indent, ih⟩

section LineText

variable {text : List Char} (h : IsLineText text)

include h

theorem IsLineText.head {c : Char} (hc : c ∈ text.head?) : Text.isBlank c = false :=
  (Text.trimStart_eq_self_iff text).mp ((Text.trim_eq_self_iff text).mp h.trimmed).1 c hc

theorem IsLineText.last {c : Char} (hc : c ∈ text.getLast?) : Text.isBlank c = false :=
  (Text.trimEnd_eq_self_iff text).mp ((Text.trim_eq_self_iff text).mp h.trimmed).2 c hc

/-- A text behind more text that begins with no blank. -/
theorem IsLineText.append {c : Char} {front : List Char} (hc : Text.isBlank c = false)
    (hfeed : '\n' ∉ c :: front) : IsLineText (c :: front ++ text) where
  ne_nil := List.cons_ne_nil c _
  trimmed := by
    rw [Text.trim_eq_self_iff, Text.trimStart_eq_self_iff, Text.trimEnd_eq_self_iff]
    constructor
    · rintro _ ⟨⟩
      exact hc
    · intro last hlast
      rw [List.getLast?_append_of_ne_nil _ h.ne_nil] at hlast
      exact h.last hlast
  feed := by
    rw [List.mem_append]
    rintro (hfront | htext)
    · exact hfeed hfront
    · exact h.feed htext

theorem LaidOut.isLine {least : Nat} {raw : List Char} (hraw : LaidOut least raw text) :
    Text.IsLine raw := by
  obtain ⟨space, rfl, -, hspace⟩ := hraw
  refine ⟨List.append_ne_nil_of_right_ne_nil space h.ne_nil, ?_, ?_⟩
  · rw [List.mem_append]
    rintro (hfeed | hfeed)
    · exact (hspace _ hfeed).2 rfl
    · exact h.feed hfeed
  · rw [List.getLast?_append_of_ne_nil _ h.ne_nil]
    intro hlast
    have hblank : Text.isBlank '\r' = false := h.last hlast
    exact absurd hblank (by decide)

/-- A raw line is read as its text, whatever comes after it. -/
theorem LaidOut.exists_line {least : Nat} {raw : List Char} (hraw : LaidOut least raw text)
    (number : Nat) (rest : List (List Char)) :
    ∃ line, linesFrom number (raw :: rest) = line :: linesFrom (number + 1) rest ∧
      Shows least line text := by
  obtain ⟨space, rfl, hleast, hspace⟩ := hraw
  have hblank : ∀ c ∈ space, Text.isBlank c = true := fun c hc => (hspace c hc).1
  have htrim : Text.trim (space ++ text) = text := by
    rw [Text.trim_append_of_blank hblank, h.trimmed]
  refine ⟨⟨number, Text.byteLength ((space ++ text).takeWhile Text.isBlank), text⟩, ?_, rfl, ?_⟩
  · rw [linesFrom, htrim]
    exact if_neg h.ne_nil
  · change least ≤ Text.byteLength ((space ++ text).takeWhile Text.isBlank)
    rw [List.takeWhile_append_of_pos hblank, Text.byteLength_append]
    exact Nat.le_add_right_of_le hleast

end LineText

section Joined

variable {least : Nat} {raws texts : List (List Char)}
  (h : List.Forall₂ (LaidOut least) raws texts) (htexts : ∀ text ∈ texts, IsLineText text)

include h htexts

theorem isLine_of_laidOut : ∀ raw ∈ raws, Text.IsLine raw := by
  induction h with
  | nil => exact List.forall_mem_nil _
  | cons hraw _ ih =>
    obtain ⟨htext, hrest⟩ := List.forall_mem_cons.mp htexts
    exact List.forall_mem_cons.mpr ⟨LaidOut.isLine htext hraw, ih hrest⟩

theorem shows_linesFrom (number : Nat) :
    List.Forall₂ (Shows least) (linesFrom number raws) texts := by
  induction h generalizing number with
  | nil => exact List.Forall₂.nil
  | cons hraw _ ih =>
    obtain ⟨htext, hrest⟩ := List.forall_mem_cons.mp htexts
    obtain ⟨line, hline, hshows⟩ := LaidOut.exists_line htext hraw number _
    rw [hline]
    exact List.Forall₂.cons hshows (ih hrest (number + 1))

theorem shows_textLines : List.Forall₂ (Shows least) (textLines (joined raws)) texts := by
  have hlines : Text.lines (joined raws).toList = raws := by
    rw [joined, String.toList_ofList]
    exact Text.lines_intercalate (isLine_of_laidOut h htexts)
  rw [textLines, hlines]
  exact shows_linesFrom h htexts 1

/-- Texts under a text that is not indented. -/
theorem exists_textLines_under {header : List Char} (hheader : IsLineText header) :
    ∃ first lines, textLines (joined (header :: raws)) = first :: lines ∧
      first.text = header ∧ first.indent = 0 ∧ List.Forall₂ (Shows least) lines texts := by
  have hraw : LaidOut 0 header header := ⟨[], rfl, Nat.le_refl 0, List.forall_mem_nil _⟩
  have hall : ∀ raw ∈ header :: raws, Text.IsLine raw :=
    List.forall_mem_cons.mpr ⟨LaidOut.isLine hheader hraw, isLine_of_laidOut h htexts⟩
  have hlines : Text.lines (joined (header :: raws)).toList = header :: raws := by
    rw [joined, String.toList_ofList]
    exact Text.lines_intercalate hall
  have hnone : header.takeWhile Text.isBlank = [] := by
    obtain ⟨c, rest, rfl⟩ := List.exists_cons_of_ne_nil hheader.ne_nil
    have hc : Text.isBlank c = false := hheader.head rfl
    rw [List.takeWhile_cons_of_neg (by simp [hc])]
  refine ⟨⟨1, 0, header⟩, linesFrom 2 raws, ?_, rfl, rfl, shows_linesFrom h htexts 2⟩
  rw [textLines, hlines, linesFrom, hheader.trimmed, hnone]
  exact if_neg hheader.ne_nil

end Joined
end Callable.Docs
