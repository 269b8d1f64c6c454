import Mathlib.Data.List.Forall2
import Callable.Proofs.Reference.Grammar
import Callable.Proofs.Registry.Name
import Callable.Proofs.TypeExpr.Part
import Callable.Reference.Writer

/-!
What passes through the writer. A type is written as a name, as a head with the texts of its parts in
brackets, as a literal, or as the empty tuple. A property of texts that passes from the parts of a type to
each of these forms is one of every reference, so that a proof about what is written has these four cases
and need not go through the writer again. Names come first: what is written as one is read as one token.
-/
namespace Callable.Reference

theorem exists_start_of_isIdentifier {segment : List Char} (h : IsIdentifier segment) :
    ∃ first rest, segment = first :: rest ∧ startsName first = true := by
  obtain ⟨first, rest, hfirst, -⟩ := h
  exact ⟨first, rest, rfl, by simpa [startsName] using hfirst⟩

theorem continuesName_of_isIdentifier {segment : List Char} (h : IsIdentifier segment) :
    ∀ c ∈ segment, continuesName c = true := by
  obtain ⟨first, rest, hfirst, hrest⟩ := h
  refine List.forall_mem_cons.mpr ⟨?_, fun c hc => ?_⟩
  · exact continuesName_of_startsName (by simpa [startsName] using hfirst)
  · rcases hrest c hc with hc | hc <;> simp [continuesName, hc]

theorem hasBadDots_of_not_mem {segment : List Char} (h : '.' ∉ segment) :
    hasBadDots segment = false := by
  rw [← Bool.not_eq_true, hasBadDots_iff]
  intro hbad
  rcases hbad with hdots | hdot
  · exact h (hdots.subset (by simp))
  · exact h (hdot.subset (by simp))

theorem hasBadDots_append_dot {segment : List Char} (h : '.' ∉ segment) {first : Char}
    (hfirst : first ≠ '.') (rest : List Char) :
    hasBadDots (segment ++ '.' :: first :: rest) = hasBadDots (first :: rest) := by
  induction segment with
  | nil =>
    rw [List.nil_append, hasBadDots]
    · simp
    · simpa using hfirst
  | cons c segment ih =>
    rw [List.mem_cons, not_or] at h
    rw [List.cons_append, hasBadDots, ih h.2]
    · intro hc
      exact absurd hc.symm h.1
    · intro _ hc
      exact absurd hc.symm h.1

/-- The paths of registered names are read as one token. -/
theorem isDotted_of_isPath {path : List Char} (h : IsPath path) : IsDotted path := by
  suffices hpath : (∃ first rest, path = first :: rest ∧ startsName first = true) ∧
      (∀ c ∈ path, continuesName c = true) ∧ hasBadDots path = false by
    obtain ⟨⟨first, rest, rfl, hstart⟩, hcontinues, hdots⟩ := hpath
    exact (isDotted_iff first rest).mpr ⟨hstart, hcontinues, hdots⟩
  induction h with
  | single h =>
    exact ⟨exists_start_of_isIdentifier h, continuesName_of_isIdentifier h,
      hasBadDots_of_not_mem h.not_mem_dot⟩
  | @dotted segment rest h _ ih =>
    obtain ⟨⟨first, tail, rfl, hstart⟩, hcontinues, hdots⟩ := ih
    obtain ⟨c, others, rfl, hc⟩ := exists_start_of_isIdentifier h
    refine ⟨⟨c, _, List.cons_append, hc⟩, ?_, ?_⟩
    · rw [List.forall_mem_append]
      exact ⟨continuesName_of_isIdentifier h, List.forall_mem_cons.mpr ⟨rfl, hcontinues⟩⟩
    · have hfirst : first ≠ '.' := by
        rintro rfl
        cases hstart
      rw [hasBadDots_append_dot h.not_mem_dot hfirst, hdots]

theorem isDotted_of_all {first : Char} {rest : List Char}
    (h : (startsName first && (first :: rest).all continuesName &&
      !hasBadDots (first :: rest)) = true) : IsDotted (first :: rest) := by
  rw [Bool.and_eq_true, Bool.and_eq_true, List.all_eq_true, Bool.not_eq_true'] at h
  exact (isDotted_iff first rest).mpr ⟨h.1.1, h.1.2, h.2⟩

theorem isDotted_builtin (b : Builtin) : IsDotted b.name.toList := by
  cases b <;> exact isDotted_of_all (by decide)

theorem isDotted_reserved {word : String} (h : word ∈ reservedWords) : IsDotted word.toList := by
  simp only [reservedWords, List.mem_cons, List.not_mem_nil, or_false] at h
  rcases h with rfl | rfl | rfl | rfl | rfl | rfl | rfl | rfl | rfl | rfl | rfl | rfl <;>
    exact isDotted_of_all (by decide)

/-- Texts after a first one, a comma and a blank before each, up to the closing bracket. -/
def closed : List (List Char) → List Char
  | [] => [']']
  | text :: rest => ',' :: ' ' :: (text ++ closed rest)

/-- The property passes from what is written for the parts of a type to what is written for the type, in
each form that the writer has. The number tells the brackets that are open. -/
structure Hereditary (limits : Limits) (scope : Scope)
    (motive : Nat → TypeExpr → List Char → Prop) : Prop where
  name : ∀ {depth : Nat} {name : String} {type : TypeExpr}, IsDotted name.toList →
    NameDenotes scope name type → motive depth type name.toList
  form : ∀ {depth : Nat} {head : String} {first type : TypeExpr} {rest : List TypeExpr}
    {text : List Char} {texts : List (List Char)}, depth < limits.maxDepth → IsDotted head.toList →
    HeadDenotes head (first :: rest) type → motive (depth + 1) first text →
    List.Forall₂ (motive (depth + 1)) rest texts →
    motive depth type (head.toList ++ '[' :: (text ++ closed texts))
  literal : ∀ {depth : Nat} {value : Literal} {values : List Literal}, depth < limits.maxDepth →
    motive depth (.literal (value :: values)) ("Literal".toList ++ '[' ::
      ((spellLiteral value).toList ++ closed (values.map fun v => (spellLiteral v).toList)))
  emptyTuple : ∀ {depth : Nat}, depth < limits.maxDepth → motive depth (.tuple []) "Tuple[()]".toList

theorem encode_eq_ok {limits : Limits} {scope : Scope} {type : TypeExpr} {text : String}
    (h : encode limits scope type = .ok text) :
    spell limits scope 0 "" type.normalize = .ok text ∧ text.utf8ByteSize ≤ limits.maxBytes := by
  unfold encode at h
  obtain ⟨written, hwritten, hsize⟩ := exists_of_bind_eq_ok h
  split at hsize
  · cases hsize
  · cases hsize
    exact ⟨hwritten, by omega⟩

theorem toList_spellMoreLiterals (out : String) (values : List Literal) :
    (spellMoreLiterals out values).toList =
      out.toList ++ closed (values.map fun v => (spellLiteral v).toList) := by
  induction values generalizing out with
  | nil => exact String.toList_append
  | cons value rest ih =>
    rw [spellMoreLiterals, ih, String.toList_append, String.toList_append, List.append_assoc,
      List.append_assoc]
    rfl

section Spell

variable {limits : Limits} {scope : Scope} {motive : Nat → TypeExpr → List Char → Prop}

/-- What has been added to a text has the property. -/
def Adds (property : List Char → Prop) (out out' : String) : Prop :=
  ∃ text, out'.toList = out.toList ++ text ∧ property text

/-- What is written for the type has the property, whatever the text and depth before it. -/
def Keeps (limits : Limits) (scope : Scope) (motive : Nat → TypeExpr → List Char → Prop)
    (type : TypeExpr) : Prop :=
  ∀ depth out out', spell limits scope depth out type = .ok out' → Adds (motive depth type) out out'

theorem exists_texts_of_spellMore {types : List TypeExpr}
    (htypes : ∀ t ∈ types, Keeps limits scope motive t) {depth : Nat} {out out' : String}
    (h : spellMore limits scope depth out types = .ok out') :
    ∃ texts, List.Forall₂ (motive depth) types texts ∧ out'.toList = out.toList ++ closed texts := by
  induction types generalizing out with
  | nil =>
    rw [spellMore] at h
    cases h
    exact ⟨[], List.Forall₂.nil, String.toList_append⟩
  | cons type rest ih =>
    obtain ⟨htype, hrest⟩ := List.forall_mem_cons.mp htypes
    rw [spellMore] at h
    obtain ⟨middle, hmiddle, hmore⟩ := exists_of_bind_eq_ok h
    obtain ⟨text, htext, hkept⟩ := htype depth _ _ hmiddle
    obtain ⟨texts, hkeep, heq⟩ := ih hrest hmore
    refine ⟨text :: texts, List.Forall₂.cons hkept hkeep, ?_⟩
    rw [heq, htext, String.toList_append, List.append_assoc, List.append_assoc]
    rfl

variable (hscope : ∀ type name, scope.nameOf type = some name →
  IsName name ∧ scope.resolve name = some type)

namespace Hereditary

variable (hmotive : Hereditary limits scope motive) {depth : Nat} {out out' : String}

include hmotive

theorem keeps_word {type : TypeExpr} {name : String} (hdotted : IsDotted name.toList)
    (hdenotes : NameDenotes scope name type) : Adds (motive depth type) out (out ++ name) :=
  ⟨_, String.toList_append, hmotive.name hdotted hdenotes⟩

include hscope

theorem keeps_alias {type : TypeExpr} {name : String} (h : scope.nameOf type = some name) :
    Adds (motive depth type) out (out ++ name) := by
  obtain ⟨hname, hresolve⟩ := hscope type name h
  exact hmotive.keeps_word (isDotted_of_isPath hname.path) (NameDenotes.registered hresolve)

/-- A type of several parts is written by its name, or by its parts inside one more bracket. -/
theorem keeps_parts {type : TypeExpr} {parts : Unit → Except TypeError String}
    (h : spellParts limits scope depth out type parts = .ok out')
    (hparts : depth < limits.maxDepth → parts () = .ok out' → Adds (motive depth type) out out') :
    Adds (motive depth type) out out' := by
  unfold spellParts at h
  split at h
  · rename_i name hname
    cases h
    exact hmotive.keeps_alias hscope hname
  · split at h
    · cases h
    · exact hparts (by omega) h

/-- A form is written as its head, a first part and the others. -/
theorem keeps_form (head opening : String) {type first : TypeExpr} (rest : List TypeExpr)
    {parts : Unit → Except TypeError String} (hopening : opening.toList = head.toList ++ ['['])
    (hhead : IsDotted head.toList) (hdenotes : HeadDenotes head (first :: rest) type)
    (hall : ∀ part ∈ first :: rest, Keeps limits scope motive part)
    (h : spellParts limits scope depth out type parts = .ok out')
    (hparts : parts () = (spell limits scope (depth + 1) (out ++ opening) first >>= fun out =>
      spellMore limits scope (depth + 1) out rest)) : Adds (motive depth type) out out' := by
  refine hmotive.keeps_parts hscope h fun hdepth hok => ?_
  rw [hparts] at hok
  obtain ⟨middle, hmiddle, hmore⟩ := exists_of_bind_eq_ok hok
  obtain ⟨hfirst, hrest⟩ := List.forall_mem_cons.mp hall
  obtain ⟨text, htext, hkept⟩ := hfirst _ _ _ hmiddle
  obtain ⟨texts, hkeep, heq⟩ := exists_texts_of_spellMore hrest hmore
  refine ⟨_, ?_, hmotive.form hdepth hhead hdenotes hkept hkeep⟩
  rw [heq, htext, String.toList_append, hopening]
  simp only [List.append_assoc, List.cons_append, List.nil_append]

theorem keeps (type : TypeExpr) : Keeps limits scope motive type := by
  induction type using TypeExpr.induct_parts with
  | h type ih =>
    intro depth out out' h
    cases type with
    | any =>
      cases h
      exact hmotive.keeps_word (isDotted_reserved (by decide)) NameDenotes.any
    | none =>
      cases h
      exact hmotive.keeps_word (isDotted_reserved (by decide)) NameDenotes.none
    | someClass =>
      cases h
      exact hmotive.keeps_word (isDotted_reserved (by decide)) NameDenotes.someClass
    | builtin b =>
      cases h
      exact hmotive.keeps_word (isDotted_builtin b) (NameDenotes.builtin b)
    | named path =>
      rw [spell] at h
      split at h
      · rename_i name hname
        cases h
        exact hmotive.keeps_alias hscope hname
      · cases h
    | anonymous hint => cases h
    | list item =>
      -- a form of one part or two closes its bracket itself, as is done for no further parts
      rw [spell] at h
      refine hmotive.keeps_form hscope "List" "List[" [] rfl (isDotted_reserved (by decide))
        (HeadDenotes.list (by decide)) ih h ?_
      simp only [spellMore]
      rfl
    | set item =>
      rw [spell] at h
      refine hmotive.keeps_form hscope "Set" "Set[" [] rfl (isDotted_reserved (by decide))
        (HeadDenotes.set (by decide)) ih h ?_
      simp only [spellMore]
      rfl
    | classOf item =>
      rw [spell] at h
      refine hmotive.keeps_form hscope "Type" "Type[" [] rfl (isDotted_reserved (by decide))
        (HeadDenotes.classOf (by decide)) ih h ?_
      simp only [spellMore]
      rfl
    | dict key value =>
      rw [spell] at h
      refine hmotive.keeps_form hscope "Dict" "Dict[" [value] rfl (isDotted_reserved (by decide))
        (HeadDenotes.dict (by decide)) ih h ?_
      simp only [spellMore]
      rfl
    | tuple items =>
      cases items with
      | nil =>
        rw [spell] at h
        refine hmotive.keeps_parts hscope h fun hdepth hok => ?_
        cases hok
        exact ⟨_, String.toList_append, hmotive.emptyTuple hdepth⟩
      | cons item items =>
        rw [spell] at h
        exact hmotive.keeps_form hscope "Tuple" "Tuple[" items rfl (isDotted_reserved (by decide))
          (HeadDenotes.tuple (by decide)) ih h rfl
    | union members =>
      cases members with
      | nil =>
        rw [spell] at h
        refine hmotive.keeps_parts hscope h fun _ hok => ?_
        cases hok
      | cons member members =>
        rw [spell] at h
        exact hmotive.keeps_form hscope "Union" "Union[" members rfl (isDotted_reserved (by decide))
          HeadDenotes.union ih h rfl
    | literal values =>
      cases values with
      | nil =>
        rw [spell] at h
        refine hmotive.keeps_parts hscope h fun _ hok => ?_
        cases hok
      | cons value values =>
        rw [spell] at h
        refine hmotive.keeps_parts hscope h fun hdepth hok => ?_
        cases hok
        refine ⟨_, ?_, hmotive.literal hdepth⟩
        rw [toList_spellMoreLiterals, String.toList_append, String.toList_append]
        simp only [List.append_assoc]
        rfl

/-- A reference has every property that passes from the parts of types to all that is written. -/
theorem of_encode {type : TypeExpr} {text : String} (h : encode limits scope type = .ok text) :
    motive 0 type.normalize text.toList := by
  obtain ⟨chars, hchars, hkept⟩ :=
    hmotive.keeps hscope type.normalize 0 "" text (encode_eq_ok h).1
  have htext : text.toList = chars := hchars
  rw [htext]
  exact hkept

end Hereditary
end Spell
end Callable.Reference
