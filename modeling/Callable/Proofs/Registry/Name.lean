import Callable.Proofs.Text.Pieces
import Callable.Registry

/-!
The names that can be registered: identifiers with dots between them, none of the words of the
grammar and no name of a built-in type. A name is checked segment by segment; the check is shown to
pass exactly these names.
-/
namespace Callable

/-- A letter or an underscore, then letters, digits and underscores. -/
inductive IsIdentifier : List Char → Prop
  | mk (first : Char) (rest : List Char) (hfirst : first.isAlpha = true ∨ first = '_')
      (hrest : ∀ c ∈ rest, c.isAlphanum = true ∨ c = '_') : IsIdentifier (first :: rest)

/-- Identifiers with dots between them. -/
inductive IsPath : List Char → Prop
  | single {segment : List Char} : IsIdentifier segment → IsPath segment
  | dotted {segment rest : List Char} : IsIdentifier segment → IsPath rest →
      IsPath (segment ++ '.' :: rest)

structure IsName (name : String) : Prop where
  path : IsPath name.toList
  not_word : name ∉ reservedWords
  not_builtin : ∀ b : Builtin, b.name ≠ name

theorem Builtin.ofName?_name (b : Builtin) : Builtin.ofName? b.name = some b := by
  cases b <;> rfl

theorem Builtin.name_of_ofName? {name : String} {b : Builtin} (h : Builtin.ofName? name = some b) :
    b.name = name := by
  simpa using List.find?_some h

theorem Builtin.ofName?_eq_none_iff (name : String) :
    Builtin.ofName? name = none ↔ ∀ b : Builtin, b.name ≠ name := by
  constructor
  · intro h b hb
    rw [← hb, Builtin.ofName?_name] at h
    exact Option.some_ne_none b h
  · intro h
    cases hb : Builtin.ofName? name with
    | none => rfl
    | some b => exact absurd (Builtin.name_of_ofName? hb) (h b)

theorem isReserved_eq_false_iff (name : String) :
    isReserved name = false ↔ name ∉ reservedWords ∧ ∀ b : Builtin, b.name ≠ name := by
  rw [isReserved, Bool.or_eq_false_iff, Option.isSome_eq_false_iff, Option.isNone_iff_eq_none,
    Builtin.ofName?_eq_none_iff, List.contains_eq_mem, decide_eq_false_iff_not]

theorem segmentFault?_eq_none_iff (segment : List Char) :
    segmentFault? segment = none ↔ IsIdentifier segment := by
  constructor
  · intro h
    cases segment with
    | nil => simp [segmentFault?] at h
    | cons first rest =>
      rw [segmentFault?] at h
      split at h
      · simp at h
      · rename_i hfirst
        split at h
        · simp at h
        · rename_i hrest
          rw [Bool.not_eq_true, Bool.not_eq_false'] at hfirst hrest
          exact IsIdentifier.mk first rest (by simpa using hfirst) (by simpa using hrest)
  · intro h
    obtain ⟨first, rest, hfirst, hrest⟩ := h
    have hstart : (first.isAlpha || first == '_') = true := by simpa using hfirst
    have hall : (rest.all fun c => c.isAlphanum || c == '_') = true := by simpa using hrest
    simp only [segmentFault?, hstart, hall, Bool.not_true, Bool.false_eq_true, if_false]

theorem IsIdentifier.not_mem_dot {segment : List Char} (h : IsIdentifier segment) :
    '.' ∉ segment := by
  obtain ⟨first, rest, hfirst, hrest⟩ := h
  intro hdot
  rcases List.mem_cons.mp hdot with heq | hmem
  · subst heq
    exact absurd hfirst (by decide)
  · exact absurd (hrest '.' hmem) (by decide)

theorem isPath_iff_splitAt (chars : List Char) :
    IsPath chars ↔ ∀ segment ∈ Text.splitAt '.' chars, IsIdentifier segment := by
  constructor
  · intro h
    induction h with
    | single h =>
      rw [Text.splitAt_of_not_mem h.not_mem_dot]
      exact List.forall_mem_singleton.mpr h
    | dotted h _ ih =>
      rw [Text.splitAt_append_separator h.not_mem_dot]
      exact List.forall_mem_cons.mpr ⟨h, ih⟩
  · intro h
    induction chars using Text.induct_pieces '.' with
    | last segment hdot =>
      rw [Text.splitAt_of_not_mem hdot] at h
      exact IsPath.single (List.forall_mem_singleton.mp h)
    | more segment rest hdot ih =>
      rw [Text.splitAt_append_separator hdot] at h
      obtain ⟨hfirst, hrest⟩ := List.forall_mem_cons.mp h
      exact IsPath.dotted hfirst (ih hrest)

theorem IsPath.ne_nil {chars : List Char} (h : IsPath chars) : chars ≠ [] := by
  cases h with
  | single h => cases h; simp
  | dotted h _ => simp

theorem checkName_eq_ok_iff (name : String) : checkName name = .ok () ↔ IsName name := by
  have hsegments : (Text.splitAt '.' name.toList).findSome? segmentFault? = none ↔
      IsPath name.toList := by
    rw [List.findSome?_eq_none_iff, isPath_iff_splitAt]
    exact forall₂_congr fun segment _ => segmentFault?_eq_none_iff segment
  unfold checkName
  constructor
  · intro h
    split at h
    · simp at h
    · split at h
      · simp at h
      · rename_i hfault
        split at h
        · simp at h
        · rename_i hreserved
          obtain ⟨hword, hbuiltin⟩ := (isReserved_eq_false_iff name).mp (by simpa using hreserved)
          exact ⟨hsegments.mp hfault, hword, hbuiltin⟩
  · intro h
    have hne : name ≠ "" := by
      rintro rfl
      exact h.path.ne_nil rfl
    have hreserved := (isReserved_eq_false_iff name).mpr ⟨h.not_word, h.not_builtin⟩
    rw [if_neg hne, hsegments.mpr h.path]
    simp only [hreserved, Bool.false_eq_true, if_false]

end Callable
