import Callable.Docs.FieldList
import Callable.Proofs.Docs.Layout

/-!
Notes on parameters, and their lines in the two dialects. In sections a note is one entry
`name (type): text`; in a field list it is a field on the parameter and a field on its type. Each line is
read as what it was written for: the colon and the bracket after a type are the first ones in their lines,
since names and types hold no colon.
-/
namespace Callable.Docs

/-- What is said about one parameter, in whatever dialect. The description is given line by line. -/
structure ParamNote where
  name : List Char
  type : List Char
  optional : Bool
  first : List Char
  more : List (List Char)

namespace ParamNote

/-- The type, with a mark on it if the parameter may be left out. -/
def typeText (note : ParamNote) : List Char :=
  if note.optional then note.type ++ ", optional".toList else note.type

/-- The line that begins the note in a section. -/
def entry (note : ParamNote) : List Char :=
  note.name ++ " (".toList ++ note.typeText ++ "): ".toList ++ note.first

/-- The lines of the note in a section. -/
def sectionLines (note : ParamNote) : List (List Char) := note.entry :: note.more

/-- A line that begins a field. -/
def field (tag : String) (name body : List Char) : List Char :=
  ':' :: (tag.toList ++ " ".toList ++ name ++ ": ".toList ++ body)

/-- The lines of the note in a field list. -/
def fieldLines (note : ParamNote) : List (List Char) :=
  field "param" note.name note.first :: (note.more ++ [field "type" note.name note.typeText])

def description (note : ParamNote) : String :=
  String.ofList (Text.joinLines (note.first :: note.more))

/-- What the note says. -/
def doc (note : ParamNote) : InputDoc where
  name := String.ofList note.name
  description := some note.description
  type := some (String.ofList note.type)
  optional := some note.optional

end ParamNote

/-- A letter, a digit or an underscore. -/
abbrev isNameChar (c : Char) : Bool := Text.isLetterOrDigit c || c == '_'

/-- A line that continues the description before it in either dialect. -/
structure Continues (text : List Char) : Prop where
  line : IsLineText text
  no_entry : paramEntry? text = none
  no_field : ∀ line : Line, line.text = text → fieldLine? line = none

structure IsNoteName (name : List Char) : Prop where
  ne_nil : name ≠ []
  chars : ∀ c ∈ name, isNameChar c = true

/-- A note whose lines can be told from each other, whatever its type is. -/
structure ParamNote.IsLegible (note : ParamNote) : Prop where
  name : IsNoteName note.name
  type : IsLineText note.type
  first : IsLineText note.first
  more : ∀ text ∈ note.more, Continues text

/-- A note that can be written in either dialect. -/
structure ParamNote.IsPlain (note : ParamNote) : Prop where
  name : ∃ initial rest, note.name = initial :: rest ∧ Text.isLetter initial = true ∧
    ∀ c ∈ rest, isNameChar c = true
  trimmed : Text.trim note.type = note.type
  type : isTypeText note.type = true
  unmarked : ¬ "optional".toList <:+ note.type
  commaless : note.type.getLast? ≠ some ','
  first : IsLineText note.first
  more : ∀ text ∈ note.more, Continues text

theorem isBlank_of_isNameChar {c : Char} (h : isNameChar c = true) : Text.isBlank c = false := by
  rcases Bool.or_eq_true_iff.mp h with hletter | hmark
  · exact Text.isBlank_of_isLetterOrDigit hletter
  · obtain rfl := beq_iff_eq.mp hmark
    decide

section Name

variable {name : List Char} (h : IsNoteName name)

include h

theorem IsNoteName.blank : ∀ c ∈ name, Text.isBlank c = false :=
  fun c hc => isBlank_of_isNameChar (h.chars c hc)

theorem IsNoteName.feed : '\n' ∉ name := fun hc => absurd (h.blank _ hc) (by decide)

theorem IsNoteName.colon : ':' ∉ name := fun hc => absurd (h.chars _ hc) (by decide +kernel)

end Name

/-- What may stand in a type text, blanks apart. -/
abbrev isTypeChar (c : Char) : Bool := "[],.()_|".toList.contains c || Text.isLetterOrDigit c

theorem isTypeChar_of_mem {text : List Char} {previous : Option Char}
    (h : isTypeTextAfter previous text = true) {c : Char} (hc : c ∈ text) :
    c = ' ' ∨ isTypeChar c = true := by
  induction text generalizing previous with
  | nil => cases hc
  | cons d rest ih =>
    rw [isTypeTextAfter, Bool.and_eq_true] at h
    rcases List.mem_cons.mp hc with rfl | hrest
    · by_cases hspace : c = ' '
      · exact Or.inl hspace
      · rw [if_neg hspace] at h
        exact Or.inr h.1
    · exact ih h.2 hrest

theorem isTypeTextAfter_chars {text : List Char} {previous : Option Char}
    (h : isTypeTextAfter previous text = true) : ':' ∉ text ∧ '\n' ∉ text := by
  constructor
  · intro hc
    exact absurd (isTypeChar_of_mem h hc) (by decide +kernel)
  · intro hc
    exact absurd (isTypeChar_of_mem h hc) (by decide +kernel)

theorem isTypeText_chars {text : List Char} (h : isTypeText text = true) :
    text ≠ [] ∧ ':' ∉ text ∧ '\n' ∉ text := by
  obtain ⟨hne, hafter⟩ := Bool.and_eq_true_iff.mp h
  exact ⟨by simpa using hne, isTypeTextAfter_chars hafter⟩

theorem splitOptional_of_not_suffix {type : List Char} (h : ¬ "optional".toList <:+ type) :
    splitOptional type = (some type, false) := by
  unfold splitOptional
  rw [Text.dropSuffix?_eq_none h]

/-- The mark is taken off again, and nothing of the type with it. -/
theorem splitOptional_append_mark {type : List Char} (h : IsLineText type)
    (hcomma : type.getLast? ≠ some ',') :
    splitOptional (type ++ ", optional".toList) = (some type, true) := by
  have hhead : type ++ ", optional".toList = type ++ [','] ++ [' '] ++ "optional".toList := by
    simp
  have htrimmed : Text.trimEnd (type ++ [','] ++ [' ']) = type ++ [','] := by
    change List.rdropWhile Text.isBlank (type ++ [','] ++ [' ']) = _
    rw [List.rdropWhile_concat_pos _ _ _ (by decide), List.rdropWhile_concat_neg _ _ _ (by decide)]
  have hcommas : ((type ++ [',']).reverse.dropWhile (· == ',')).reverse = type := by
    change List.rdropWhile (· == ',') (type ++ [',']) = _
    rw [List.rdropWhile_concat_pos _ _ _ (by decide), List.rdropWhile_eq_self_iff]
    intro hlast hbad
    apply hcomma
    rw [List.getLast?_eq_some_getLast hlast, beq_iff_eq.mp hbad]
  unfold splitOptional
  simp only [hhead, Text.dropSuffix?_append, htrimmed, hcommas, h.trimmed, h.ne_nil, if_false]

theorem ParamNote.splitOptional_typeText {note : ParamNote} (h : IsLineText note.type)
    (hcomma : note.type.getLast? ≠ some ',')
    (hmark : note.optional = true ∨ ¬ "optional".toList <:+ note.type) :
    splitOptional note.typeText = (some note.type, note.optional) := by
  unfold typeText
  cases hoptional : note.optional with
  | false =>
    have hnone : ¬ "optional".toList <:+ note.type := by simpa [hoptional] using hmark
    simp only [Bool.false_eq_true, if_false, splitOptional_of_not_suffix hnone]
  | true => simp only [if_true, splitOptional_append_mark h hcomma]

/-- A line that begins as an entry with a type is one if the type looks like one. -/
theorem paramEntry?_typed {name : List Char} (hname : IsNoteName name) (rest : List Char) :
    paramEntry? (name ++ ' ' :: '(' :: rest) =
      typedEntry? rest >>= fun (inside, description) =>
        if (splitOptional (Text.trim inside)).1.all isTypeText then
          some ⟨name, (splitOptional (Text.trim inside)).1, (splitOptional (Text.trim inside)).2,
            Text.trim description⟩
        else none := by
  have htake : (name ++ ' ' :: '(' :: rest).takeWhile isNameChar = name := by
    rw [List.takeWhile_append_of_pos hname.chars, List.takeWhile_cons_of_neg (by decide +kernel),
      List.append_nil]
  have hdrop : (name ++ ' ' :: '(' :: rest).dropWhile isNameChar = ' ' :: '(' :: rest := by
    rw [List.dropWhile_append_of_pos hname.chars, List.dropWhile_cons_of_neg (by decide +kernel)]
  unfold paramEntry?
  simp only [htake, hdrop, hname.ne_nil, if_false]
  cases typedEntry? rest with
  | none => rfl
  | some found => rfl

theorem isLineText_field {tag : String} (htag : '\n' ∉ tag.toList) {name body : List Char}
    (hname : IsNoteName name) (hbody : IsLineText body) :
    IsLineText (ParamNote.field tag name body) := by
  have hfront : '\n' ∉ ':' :: (tag.toList ++ " ".toList ++ name ++ ": ".toList) := by
    simp [htag, hname.feed]
  have hwhole := hbody.append (by decide) hfront
  simpa [ParamNote.field] using hwhole

/-- A line that begins a field is read as that field. -/
theorem fieldLine?_field {tag : String} (hne : tag.toList ≠ [])
    (htag : tag.toList.all Char.isAlpha = true) {name body : List Char} (hname : IsNoteName name)
    (hbody : IsLineText body) {line : Line} (hline : line.text = ParamNote.field tag name body) :
    fieldLine? line = some ⟨line.number, tag, [String.ofList name], String.ofList body⟩ := by
  have htext : line.text =
      ':' :: ((tag.toList ++ ' ' :: name) ++ ([] ++ ':' :: ' ' :: body)) := by
    rw [hline]
    simp [ParamNote.field]
  have halpha : ∀ c ∈ tag.toList, c.isAlpha = true := List.all_eq_true.mp htag
  have hblank : ∀ c ∈ tag.toList, Text.isBlank c = false := fun c hc =>
    Text.isBlank_of_isLetterOrDigit (Text.isLetterOrDigit_of_isAlpha (halpha c hc))
  have hcolon : ':' ∉ tag.toList ++ ' ' :: name := by
    have hnone : ':' ∉ tag.toList := fun hc => absurd (halpha ':' hc) (by decide)
    simp [hnone, hname.colon]
  have hcut := Text.cut?_append [] List.not_mem_nil hcolon (' ' :: body)
  have hwords : Text.words (tag.toList ++ ' ' :: name) = [tag.toList, name] := by
    rw [Text.words_append_space hblank hne, Text.words_word hname.blank hname.ne_nil]
  have htrim : Text.trim (' ' :: body) = body := by
    have hspace : ∀ c ∈ [' '], Text.isBlank c = true := List.forall_mem_singleton.mpr (by decide)
    exact (Text.trim_append_of_blank hspace body).trans hbody.trimmed
  rw [List.nil_append] at hcut
  unfold fieldLine?
  simp only [htext, hcut, hwords, htag, if_true, htrim, String.ofList_toList, List.map_cons,
    List.map_nil]

namespace ParamNote.IsLegible

variable {note : ParamNote} (h : note.IsLegible)

include h

/-- A type with its mark is a text for a line of its own. -/
theorem isLineText_typeText : IsLineText note.typeText := by
  unfold typeText
  split
  · obtain ⟨c, rest, heq⟩ := List.exists_cons_of_ne_nil h.type.ne_nil
    have hmark : IsLineText "optional".toList := ⟨by decide, by decide, by decide⟩
    have hc : Text.isBlank c = false := h.type.head (by rw [heq]; rfl)
    have hfront : '\n' ∉ c :: (rest ++ ", ".toList) := by
      have hfeed := h.type.feed
      rw [heq] at hfeed
      simpa using hfeed
    have hwhole := hmark.append hc hfront
    rw [heq]
    simpa using hwhole
  · exact h.type

theorem isLineText_entry : IsLineText note.entry := by
  obtain ⟨initial, rest, hname⟩ := List.exists_cons_of_ne_nil h.name.ne_nil
  have hinitial : Text.isBlank initial = false :=
    h.name.blank initial (by rw [hname]; exact List.mem_cons_self)
  have hfront : '\n' ∉ initial :: (rest ++ " (".toList ++ note.typeText ++ "): ".toList) := by
    have hfeed := h.name.feed
    rw [hname] at hfeed
    have htype := h.isLineText_typeText.feed
    simpa [htype] using hfeed
  have hwhole := h.first.append hinitial hfront
  rw [entry, hname]
  simpa using hwhole

theorem isLineText_sectionLines : ∀ text ∈ note.sectionLines, IsLineText text :=
  List.forall_mem_cons.mpr ⟨h.isLineText_entry, fun text htext => (h.more text htext).line⟩

theorem isLineText_fieldLines : ∀ text ∈ note.fieldLines, IsLineText text := by
  refine List.forall_mem_cons.mpr ⟨isLineText_field (by decide) h.name h.first, ?_⟩
  refine List.forall_mem_append.mpr ⟨fun text htext => (h.more text htext).line, ?_⟩
  exact List.forall_mem_singleton.mpr (isLineText_field (by decide) h.name h.isLineText_typeText)

/-- The type of an entry ends at the first bracket with a colon, and there is none in it if it has no
colon. -/
theorem paramEntry?_entry (hcolon : ':' ∉ note.typeText) :
    paramEntry? note.entry =
      if (splitOptional note.typeText).1.all isTypeText then
        some ⟨note.name, (splitOptional note.typeText).1, (splitOptional note.typeText).2, note.first⟩
      else none := by
  have hentry : note.entry =
      note.name ++ ' ' :: '(' :: (note.typeText ++ ([')'] ++ ':' :: ' ' :: note.first)) := by
    simp [entry]
  have hcut : typedEntry? (note.typeText ++ ([')'] ++ ':' :: ' ' :: note.first)) =
      some (note.typeText, note.first) := by
    have hfound := Text.cut?_append [')'] (by decide) hcolon (' ' :: note.first)
    unfold typedEntry?
    exact hfound ▸ rfl
  rw [hentry, paramEntry?_typed h.name, hcut]
  simp only [Option.bind_eq_bind, Option.bind_some, h.isLineText_typeText.trimmed, h.first.trimmed]

end ParamNote.IsLegible

namespace ParamNote.IsPlain

variable {note : ParamNote} (h : note.IsPlain)

include h

theorem isLegible : note.IsLegible where
  name := by
    obtain ⟨initial, rest, hname, hinitial, hrest⟩ := h.name
    rw [hname]
    refine ⟨List.cons_ne_nil initial rest, List.forall_mem_cons.mpr ⟨?_, hrest⟩⟩
    rw [Docs.isNameChar, Text.isLetterOrDigit_of_isLetter hinitial, Bool.true_or]
  type := by
    obtain ⟨hne, -, hfeed⟩ := isTypeText_chars h.type
    exact ⟨hne, h.trimmed, hfeed⟩
  first := h.first
  more := h.more

theorem splitOptional_typeText : splitOptional note.typeText = (some note.type, note.optional) :=
  ParamNote.splitOptional_typeText h.isLegible.type h.commaless (Or.inr h.unmarked)

theorem colon_typeText : ':' ∉ note.typeText := by
  obtain ⟨-, hcolon, -⟩ := isTypeText_chars h.type
  unfold typeText
  split
  · simp [hcolon]
  · exact hcolon

/-- The line that begins a note in a section is read as the note without the lines after it. -/
theorem paramEntry?_entry :
    paramEntry? note.entry = some ⟨note.name, some note.type, note.optional, note.first⟩ := by
  have htype : (some note.type).all isTypeText = true := h.type
  rw [h.isLegible.paramEntry?_entry h.colon_typeText, h.splitOptional_typeText, if_pos htype]

end ParamNote.IsPlain
end Callable.Docs
