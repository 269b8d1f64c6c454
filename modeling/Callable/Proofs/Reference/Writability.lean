import Callable.Proofs.Reference.Provenance
import Callable.Reference.Writer

/-!
Which types have references. What is written for a type with no name of its own is written for its
parts, one bracket further in. So writing can fail for two reasons only: too many brackets are open, or
there is a leaf that nothing can be written for.
-/
namespace Callable.Reference

open TypeExpr (IsLeaf isLeaf_self induct_parts)

theorem not_exists_error_eq_ok {ε : Type} (e : ε) (α : Type) :
    ¬ ∃ a : α, Except.error e = .ok a := by
  rintro ⟨_, ⟨⟩⟩

/-- A step that succeeds or fails whatever it is given succeeds after a step exactly if both do. -/
theorem exists_bind_eq_ok_iff {ε α β : Type} {outcome : Except ε α} {next : α → Except ε β}
    {p : Prop} (h : ∀ a, (∃ b, next a = .ok b) ↔ p) :
    (∃ b, (outcome >>= next) = .ok b) ↔ (∃ a, outcome = .ok a) ∧ p := by
  cases outcome with
  | error e =>
    exact iff_of_false (not_exists_error_eq_ok e β) fun hboth => not_exists_error_eq_ok e α hboth.1
  | ok a =>
    constructor
    · exact fun hnext => ⟨⟨a, rfl⟩, (h a).mp hnext⟩
    · exact fun hboth => (h a).mpr hboth.2

/-- What is done after a step that is all that can fail. -/
theorem exists_closed_iff {ε α β : Type} {outcome : Except ε α} {close : α → β} :
    (∃ b, (do let a ← outcome; return close a) = .ok b) ↔ ∃ a, outcome = .ok a := by
  have hclose (a : α) : (∃ b, (pure (close a) : Except ε β) = .ok b) ↔ True :=
    iff_true_intro ⟨close a, rfl⟩
  rw [exists_bind_eq_ok_iff hclose, and_true]

/-- The leaf is common, or a name that the scope can write. -/
def HasSpelling (scope : Scope) (leaf : TypeExpr) : Prop :=
  IsCommon leaf ∨ ∃ path name, leaf = .named path ∧ scope.nameOf leaf = some name

/-- Writing stopped at the bound on brackets. -/
def StopsAtDepth (limits : Limits) (outcome : Except TypeError String) : Prop :=
  ∀ e, outcome = .error e → e.cause = .tooDeep limits.maxDepth

section Written

variable {limits : Limits} {scope : Scope} {depth : Nat} {out : String}

theorem spellParts_eq_ok {type : TypeExpr} {parts : Unit → Except TypeError String} {out' : String}
    (h : spellParts limits scope depth out type parts = .ok out') :
    (∃ name, scope.nameOf type = some name) ∨ parts () = .ok out' := by
  unfold spellParts at h
  split at h
  · rename_i name hname
    exact Or.inl ⟨name, hname⟩
  · split at h
    · cases h
    · exact Or.inr h

/-- Types that are written one after the other are written each. -/
theorem exists_spell_of_mem {types : List TypeExpr} {out' : String}
    (h : spellMore limits scope depth out types = .ok out') :
    ∀ type ∈ types, ∃ before after, spell limits scope depth before type = .ok after := by
  induction types generalizing out with
  | nil => exact List.forall_mem_nil _
  | cons type rest ih =>
    rw [spellMore] at h
    obtain ⟨middle, hmiddle, hrest⟩ := exists_of_bind_eq_ok h
    exact List.forall_mem_cons.mpr ⟨⟨_, middle, hmiddle⟩, ih hrest⟩

/-- A type with a reference has a name of its own, or its parts are written as well. -/
theorem exists_spell_of_part {type part : TypeExpr} {out' : String}
    (h : spell limits scope depth out type = .ok out') (hpart : part ∈ type.parts) :
    (∃ name, scope.nameOf type = some name) ∨
      ∃ before after, spell limits scope (depth + 1) before part = .ok after := by
  cases type with
  | list item | set item | classOf item =>
    rw [spell] at h
    refine (spellParts_eq_ok h).imp_right fun hparts => ?_
    obtain ⟨after, hitem, -⟩ := exists_of_bind_eq_ok hparts
    obtain rfl := List.mem_singleton.mp hpart
    exact ⟨_, after, hitem⟩
  | dict key value =>
    rw [spell] at h
    refine (spellParts_eq_ok h).imp_right fun hparts => ?_
    obtain ⟨middle, hkey, hparts⟩ := exists_of_bind_eq_ok hparts
    obtain ⟨after, hvalue, -⟩ := exists_of_bind_eq_ok hparts
    rcases List.mem_cons.mp hpart with rfl | hpart
    · exact ⟨_, middle, hkey⟩
    · obtain rfl := List.mem_singleton.mp hpart
      exact ⟨_, after, hvalue⟩
  | tuple types | union types =>
    cases types with
    | nil => cases hpart
    | cons first rest =>
      rw [spell] at h
      refine (spellParts_eq_ok h).imp_right fun hparts => ?_
      obtain ⟨middle, hfirst, hrest⟩ := exists_of_bind_eq_ok hparts
      rcases List.mem_cons.mp hpart with rfl | hpart
      · exact ⟨_, middle, hfirst⟩
      · exact exists_spell_of_mem hrest part hpart
  | _ => cases hpart

end Written

section Failure

variable {limits : Limits} {scope : Scope}

theorem not_hasSpelling_anonymous (hint : String) : ¬ HasSpelling scope (.anonymous hint) := by
  rintro (hcommon | ⟨path, name, heq, -⟩)
  · cases hcommon
  · cases heq

theorem not_hasSpelling_named {path : String} (h : scope.nameOf (.named path) = none) :
    ¬ HasSpelling scope (.named path) := by
  rintro (hcommon | ⟨_, name, -, hname⟩)
  · cases hcommon
  · cases h.symm.trans hname

theorem not_hasSpelling_of_isVoid {leaf : TypeExpr} (h : leaf.IsVoid) : ¬ HasSpelling scope leaf := by
  rintro (hcommon | ⟨path, name, rfl, -⟩)
  · rcases h with rfl | rfl
    · cases hcommon
    · cases hcommon with
      | literal hne => exact hne rfl
  · exact TypeExpr.not_isVoid_named path h

theorem StopsAtDepth.ok (limits : Limits) (text : String) : StopsAtDepth limits (.ok text) := by
  intro e h
  cases h

theorem StopsAtDepth.bind {outcome : Except TypeError String}
    {next : String → Except TypeError String} (h : StopsAtDepth limits outcome)
    (hnext : ∀ text, StopsAtDepth limits (next text)) : StopsAtDepth limits (outcome >>= next) := by
  cases outcome with
  | error e => exact fun e' he' => h e' he'
  | ok text => exact hnext text

theorem stopsAtDepth_spellParts {depth : Nat} {out : String} {type : TypeExpr}
    {parts : Unit → Except TypeError String} (h : StopsAtDepth limits (parts ())) :
    StopsAtDepth limits (spellParts limits scope depth out type parts) := by
  unfold spellParts
  split
  · exact StopsAtDepth.ok limits _
  · split
    · rintro _ ⟨⟩
      rfl
    · exact h

theorem stopsAtDepth_spellMore {depth : Nat} {types : List TypeExpr}
    (h : ∀ type ∈ types, ∀ out, StopsAtDepth limits (spell limits scope depth out type))
    (out : String) : StopsAtDepth limits (spellMore limits scope depth out types) := by
  induction types generalizing out with
  | nil => exact StopsAtDepth.ok limits _
  | cons type rest ih =>
    obtain ⟨htype, hrest⟩ := List.forall_mem_cons.mp h
    rw [spellMore]
    exact (htype _).bind fun middle => ih hrest middle

/-- If something can be written for every leaf, nothing but the brackets stops the writer. -/
theorem stopsAtDepth_spell {type : TypeExpr} (h : ∀ leaf, IsLeaf leaf type → HasSpelling scope leaf)
    (depth : Nat) (out : String) : StopsAtDepth limits (spell limits scope depth out type) := by
  induction type using induct_parts generalizing depth out with
  | h type ih =>
    have hparts : ∀ part ∈ type.parts, ∀ depth out,
        StopsAtDepth limits (spell limits scope depth out part) :=
      fun part hpart => ih part hpart fun leaf hleaf => h leaf (hleaf.inside hpart)
    cases type with
    | any | none | builtin | someClass => exact StopsAtDepth.ok limits _
    | named path =>
      rw [spell]
      split
      · exact StopsAtDepth.ok limits _
      · rename_i hnone
        exact absurd (h _ (isLeaf_self rfl)) (not_hasSpelling_named hnone)
    | anonymous hint => exact absurd (h _ (isLeaf_self rfl)) (not_hasSpelling_anonymous hint)
    | list item | set item | classOf item =>
      rw [spell]
      refine stopsAtDepth_spellParts ?_
      exact (hparts item List.mem_cons_self _ _).bind fun _ => StopsAtDepth.ok limits _
    | dict key value =>
      rw [spell]
      refine stopsAtDepth_spellParts ?_
      refine (hparts key List.mem_cons_self _ _).bind fun _ => ?_
      refine (hparts value (List.mem_cons_of_mem _ List.mem_cons_self) _ _).bind fun _ => ?_
      exact StopsAtDepth.ok limits _
    | tuple items =>
      cases items with
      | nil =>
        rw [spell]
        exact stopsAtDepth_spellParts (StopsAtDepth.ok limits _)
      | cons first rest =>
        obtain ⟨hfirst, hrest⟩ := List.forall_mem_cons.mp hparts
        rw [spell]
        refine stopsAtDepth_spellParts ?_
        exact (hfirst _ _).bind (stopsAtDepth_spellMore fun t ht => hrest t ht _)
    | union members =>
      cases members with
      | nil => exact absurd (h _ (isLeaf_self rfl)) (not_hasSpelling_of_isVoid (Or.inl rfl))
      | cons first rest =>
        obtain ⟨hfirst, hrest⟩ := List.forall_mem_cons.mp hparts
        rw [spell]
        refine stopsAtDepth_spellParts ?_
        exact (hfirst _ _).bind (stopsAtDepth_spellMore fun t ht => hrest t ht _)
    | literal values =>
      cases values with
      | nil => exact absurd (h _ (isLeaf_self rfl)) (not_hasSpelling_of_isVoid (Or.inr rfl))
      | cons value values =>
        rw [spell]
        exact stopsAtDepth_spellParts (StopsAtDepth.ok limits _)

/-- A normal type whose leaves can all be written has a reference unless that is too large. -/
theorem encode_cases {type : TypeExpr} (hnormal : type.normalize = type)
    (h : ∀ leaf, IsLeaf leaf type → HasSpelling scope leaf) :
    (∃ text, encode limits scope type = .ok text) ∨
      ∃ e, encode limits scope type = .error e ∧
        (e.cause = .tooLarge limits.maxBytes ∨ e.cause = .tooDeep limits.maxDepth) := by
  unfold encode
  rw [hnormal]
  cases hwritten : spell limits scope 0 "" type with
  | error e => exact Or.inr ⟨e, rfl, Or.inr (stopsAtDepth_spell h 0 "" e hwritten)⟩
  | ok text =>
    change (∃ t, (if limits.maxBytes < text.utf8ByteSize then _ else pure text) = Except.ok t) ∨ _
    by_cases hsize : limits.maxBytes < text.utf8ByteSize
    · exact Or.inr ⟨_, if_pos hsize, Or.inl rfl⟩
    · exact Or.inl ⟨text, if_neg hsize⟩

end Failure
end Callable.Reference
