import Callable.Proofs.Reference.RoundTrip

/-!
The characters of written references. Up to the first quote the writer puts down characters of names,
minus signs, brackets and parentheses, and commas with a blank after each; behind a quote anything may
stand but a line feed, which it escapes. A reference ends as a name does or with a bracket. So it can
stand in a line with other text, and a colon in it comes after a quote.
-/
namespace Callable.Reference

/-- A character outside quotes, commas and the blanks after them apart. -/
def isPlain (c : Char) : Bool := continuesName c || ['-', '[', ']', '(', ')'].contains c

/-- Characters as references have them up to the first quote, and anything on one line behind it. -/
inductive Inked : List Char → Prop
  | nil : Inked []
  | plain {c : Char} {rest : List Char} : isPlain c = true → Inked rest → Inked (c :: rest)
  | comma {rest : List Char} : Inked rest → Inked (',' :: ' ' :: rest)
  | quote {rest : List Char} : '\n' ∉ rest → Inked ('\'' :: rest)

section Inked

variable {text more : List Char}

theorem Inked.feed (h : Inked text) : '\n' ∉ text := by
  induction h with
  | nil => exact List.not_mem_nil
  | @plain c rest hc _ ih =>
    refine List.not_mem_cons_of_ne_of_not_mem ?_ ih
    rintro rfl
    exact absurd hc (by decide)
  | comma _ ih => simpa using ih
  | quote hrest => simpa using hrest

theorem Inked.append (h : Inked text) (hmore : Inked more) : Inked (text ++ more) := by
  induction h with
  | nil => exact hmore
  | plain hc _ ih => exact Inked.plain hc ih
  | comma _ ih => exact Inked.comma ih
  | @quote rest hrest =>
    have hfeed : '\n' ∉ rest ++ more := by
      rw [List.mem_append, not_or]
      exact ⟨hrest, hmore.feed⟩
    exact Inked.quote hfeed

theorem inked_of_isPlain (h : ∀ c ∈ text, isPlain c = true) : Inked text := by
  induction text with
  | nil => exact Inked.nil
  | cons c rest ih =>
    obtain ⟨hc, hrest⟩ := List.forall_mem_cons.mp h
    exact Inked.plain hc (ih hrest)

theorem inked_of_all (h : text.all isPlain = true) : Inked text :=
  inked_of_isPlain (List.all_eq_true.mp h)

/-- A colon stands behind a quote. -/
theorem Inked.mem_of_colon {before after : List Char} (h : Inked (before ++ ':' :: after)) :
    '\'' ∈ before := by
  -- on the length, since a comma takes the blank behind it along
  induction hlength : before.length using Nat.strongRecOn generalizing before with
  | ind length ih =>
    cases before with
    | nil =>
      cases h with
      | plain hc => exact absurd hc (by decide)
    | cons c rest =>
      rw [List.cons_append] at h
      generalize htail : rest ++ ':' :: after = tail at h
      cases h with
      | plain _ hrest =>
        subst htail
        rw [List.length_cons] at hlength
        exact List.mem_cons_of_mem c (ih rest.length (by omega) hrest rfl)
      | @comma tail hrest =>
        cases rest with
        | nil => exact absurd (List.cons.inj htail).1 (by decide)
        | cons d rest =>
          obtain ⟨rfl, rfl⟩ := List.cons.inj htail
          rw [List.length_cons, List.length_cons] at hlength
          have hmem := ih rest.length (by omega) hrest rfl
          exact List.mem_cons_of_mem _ (List.mem_cons_of_mem _ hmem)
      | quote => exact List.mem_cons_self

/-- Before the first quote there is no colon. -/
theorem Inked.colon_not_mem {before after : List Char} (h : Inked (before ++ after))
    (hbefore : '\'' ∉ before) : ':' ∉ before := by
  intro hmem
  obtain ⟨front, back, rfl⟩ := List.append_of_mem hmem
  rw [List.append_assoc, List.cons_append] at h
  exact hbefore (List.mem_append_left _ h.mem_of_colon)

end Inked

/-- A text in ink that ends as a name or with a bracket. -/
structure Penned (text : List Char) : Prop where
  inked : Inked text
  last : ∃ c, text.getLast? = some c ∧ (continuesName c = true ∨ c = ']')

/-- A text in ink up to a closing bracket. -/
structure Closes (text : List Char) : Prop where
  inked : Inked text
  last : text.getLast? = some ']'

theorem Closes.of_inked {text : List Char} (h : Inked text) : Closes (text ++ [']']) where
  inked := h.append (Inked.plain rfl Inked.nil)
  last := List.getLast?_concat

theorem Closes.append {text more : List Char} (h : Inked text) (hmore : Closes more) :
    Closes (text ++ more) where
  inked := h.append hmore.inked
  last := by
    rw [List.getLast?_append, hmore.last]
    rfl

theorem Closes.penned {text : List Char} (h : Closes text) : Penned text :=
  ⟨h.inked, ']', h.last, Or.inr rfl⟩

theorem isPlain_of_continuesName {c : Char} (h : continuesName c = true) : isPlain c = true := by
  rw [isPlain, h, Bool.true_or]

theorem penned_of_isDotted {name : List Char} (h : IsDotted name) : Penned name := by
  obtain ⟨first, rest, hname, -⟩ := h.starts
  have hne : name ≠ [] := hname ▸ List.cons_ne_nil first rest
  have hlast := h.continues (name.getLast hne) (List.getLast_mem hne)
  exact ⟨inked_of_isPlain fun c hc => isPlain_of_continuesName (h.continues c hc),
    name.getLast hne, List.getLast?_eq_some_getLast hne, Or.inl hlast⟩

theorem inked_of_isNumeral {numeral : List Char} (h : IsNumeral numeral) : Inked numeral := by
  have hdigit : ∀ d : Char, d.isDigit = true → isPlain d = true := by
    intro d hd
    refine isPlain_of_continuesName ?_
    rw [continuesName, Char.isAlphanum, hd, Bool.or_true, Bool.true_or, Bool.true_or]
  cases h with
  | positive _ hdigits => exact inked_of_isPlain fun d hd => hdigit d (hdigits d hd)
  | negative _ hdigits =>
    exact Inked.plain rfl (inked_of_isPlain fun d hd => hdigit d (hdigits d hd))

theorem feed_not_mem_escapeQuoted (c : Char) : '\n' ∉ escapeQuoted c := by
  unfold escapeQuoted
  split
  · decide
  · decide
  · decide
  · decide
  · rename_i _ _ hfeed _
    exact fun hmem => hfeed (List.mem_singleton.mp hmem).symm

theorem inked_spellLiteral (value : Literal) : Inked (spellLiteral value).toList := by
  cases value with
  | int n => exact inked_of_isNumeral (toString_int n.toInt).1
  | bool b =>
    cases b with
    | true => exact (penned_of_isDotted (isDotted_reserved (by decide))).inked
    | false => exact (penned_of_isDotted (isDotted_reserved (by decide))).inked
  | none => exact (penned_of_isDotted (isDotted_reserved (by decide))).inked
  | str s =>
    have hfeed : '\n' ∉ s.toList.flatMap escapeQuoted ++ ['\''] := by
      rw [List.mem_append, not_or]
      refine ⟨fun hmem => ?_, by decide⟩
      obtain ⟨c, -, hc⟩ := List.mem_flatMap.mp hmem
      exact feed_not_mem_escapeQuoted c hc
    rw [spellLiteral, String.toList_ofList]
    exact Inked.quote hfeed

theorem closes_closed {α : Type} {as : List α} {texts : List (List Char)}
    (h : List.Forall₂ (fun _ text => Inked text) as texts) : Closes (closed texts) := by
  induction h with
  | nil => exact Closes.of_inked Inked.nil
  | cons hfirst _ ih => exact Closes.append (Inked.comma hfirst) ih

theorem Penned.of_form {head text more : List Char} (hhead : IsDotted head) (htext : Inked text)
    (hmore : Closes more) : Penned (head ++ '[' :: (text ++ more)) := by
  have hopening : Inked (head ++ ['[']) :=
    (penned_of_isDotted hhead).inked.append (Inked.plain rfl Inked.nil)
  have hclosed := Closes.append (hopening.append htext) hmore
  rw [List.append_assoc, List.append_assoc] at hclosed
  exact hclosed.penned

/-- What is written for a type is penned. -/
theorem hereditary_penned (limits : Limits) (scope : Scope) :
    Hereditary limits scope fun _ _ text => Penned text where
  name hdotted _ := penned_of_isDotted hdotted
  form _ hhead _ hfirst hrest :=
    Penned.of_form hhead hfirst.inked (closes_closed (hrest.imp fun _ _ hpenned => hpenned.inked))
  literal {_ value values} _ := by
    have hvalues : List.Forall₂ (fun _ text => Inked text) values
        (values.map fun v => (spellLiteral v).toList) :=
      List.forall₂_map_right_iff.mpr (List.forall₂_same.mpr fun v _ => inked_spellLiteral v)
    exact Penned.of_form (isDotted_reserved (by decide)) (inked_spellLiteral value)
      (closes_closed hvalues)
  emptyTuple _ := by
    have hclosed : Closes ("Tuple[()".toList ++ [']']) := Closes.of_inked (inked_of_all (by decide))
    exact hclosed.penned

end Callable.Reference
