import Callable.Proofs.Reference.Depth
import Callable.Proofs.Reference.RoundTrip
import Callable.Proofs.TypeExpr.Grouping

/-!
The spellings of a union. References with pipes between them, in the brackets of `Union` or, for one and
nothing, in those of `Optional` denote the union of what they denote on their own. Pipes inside the
references run together with those between them; what comes of it expands to the same types, and so has the
same normal form.
-/
namespace Callable.Reference

open TypeExpr (expanded expanded_union)

theorem DerivesAlternatives.append {scope : Scope} {depth : Nat} {tokens more : List Token}
    {types others : List TypeExpr} (h : DerivesAlternatives scope depth tokens types)
    (hmore : DerivesAlternatives scope depth more others) :
    DerivesAlternatives scope depth (tokens ++ more) (types ++ others) := by
  -- The grammar is mutual, so the induction is on the length of the list.
  induction hlength : tokens.length using Nat.strongRecOn generalizing tokens types with
  | ind length ih =>
    subst hlength
    cases h with
    | last hterm => exact DerivesAlternatives.more hterm hmore
    | more hterm hrest =>
      have hjoined := ih _ (by simp only [List.length_cons, List.length_append]; omega) hrest rfl
      rw [List.cons_append, List.append_assoc]
      exact DerivesAlternatives.more hterm hjoined

section Derivations

variable {scope : Scope} {depth : Nat} {tokens more : List Token} {type : TypeExpr}
  {others : List TypeExpr}

/-- A type after a pipe goes on a list of alternatives. -/
theorem DerivesType.alternatives (h : DerivesType scope depth tokens type) :
    ∃ types, DerivesAlternatives scope depth (.pipe :: tokens) types ∧
      types.flatMap expanded = type.expanded := by
  cases h with
  | term hterm => exact ⟨[type], DerivesAlternatives.last hterm, List.flatMap_singleton _ _⟩
  | union hterm hmore => exact ⟨_, DerivesAlternatives.more hterm hmore, (expanded_union _).symm⟩

theorem DerivesType.append (h : DerivesType scope depth tokens type)
    (hmore : DerivesAlternatives scope depth more others) :
    ∃ joined, DerivesType scope depth (tokens ++ more) joined ∧
      joined.expanded = type.expanded ++ others.flatMap expanded := by
  cases h with
  | term hterm =>
    exact ⟨_, DerivesType.union hterm hmore, by rw [expanded_union, List.flatMap_cons]⟩
  | @union _ tokens rest first types hterm hrest =>
    refine ⟨.union (first :: (types ++ others)), ?_, ?_⟩
    · rw [List.append_assoc]
      exact DerivesType.union hterm (hrest.append hmore)
    · rw [expanded_union, expanded_union, ← List.cons_append, List.flatMap_append]

end Derivations

/-- A text that spells tokens goes on spelling them before all that does not continue a name. -/
theorem writes_of_spells {text : List Char} {tokens : List Token} (h : Spells text tokens) :
    Writes text tokens := by
  intro rest more hstops hrest
  have hstill {p : Char → Bool} {after : List Char} (hafter : Stops p after) (hp : Stops p rest) :
      Stops p (after ++ rest) := by
    cases after with
    | nil => exact hp
    | cons c after => exact hafter
  induction h with
  | nil => exact hrest
  | space hspace _ ih => exact Spells.space hspace ih
  | mark hmark _ ih => exact Spells.mark hmark ih
  | quoted hquote hbody _ ih =>
    rw [List.cons_append, List.append_assoc]
    exact Spells.quoted hquote hbody ih
  | number hnumeral hafter _ ih =>
    rw [List.append_assoc]
    exact Spells.number hnumeral (hstill hafter (isDigit_stops hstops)) ih
  | name hdotted hafter _ ih =>
    rw [List.append_assoc]
    exact Spells.name hdotted (hstill hafter hstops) ih

def piped (refs : List String) : String := " | ".intercalate refs

def bracketed (head : String) (refs : List String) : String :=
  head ++ "[" ++ ", ".intercalate refs ++ "]"

section Denotes

variable {scope : Scope} {depth : Nat} {ref : String} {refs : List String} {type : TypeExpr}
  {types : List TypeExpr}

theorem Denotes.pipe {rest : String} {other : TypeExpr} (h : Denotes scope depth ref type)
    (hrest : Denotes scope depth rest other) :
    ∃ joined, Denotes scope depth (ref ++ " | " ++ rest) joined ∧
      joined.expanded = type.expanded ++ other.expanded := by
  obtain ⟨tokens, hspells, hderives⟩ := h
  obtain ⟨more, hspells', hderives'⟩ := hrest
  obtain ⟨others, halternatives, hexpanded⟩ := hderives'.alternatives
  obtain ⟨joined, hjoined, hall⟩ := hderives.append halternatives
  refine ⟨joined, ⟨tokens ++ .pipe :: more, ?_, hjoined⟩, by rw [hall, hexpanded]⟩
  rw [String.toList_append, String.toList_append, List.append_assoc]
  refine writes_of_spells hspells _ _ ?_ (Spells.space rfl (Spells.mark rfl (Spells.space rfl hspells')))
  rintro _ ⟨⟩
  rfl

/-- Pipes between references make the union of what these denote. -/
theorem exists_denotes_piped (h : Denotes scope depth ref type)
    (hrefs : List.Forall₂ (Denotes scope depth) refs types) :
    ∃ joined, Denotes scope depth (piped (ref :: refs)) joined ∧
      joined.expanded = (TypeExpr.union (type :: types)).expanded := by
  induction hrefs generalizing ref type with
  | nil => exact ⟨type, h, by rw [expanded_union, List.flatMap_singleton]⟩
  | @cons next other refs types hnext _ ih =>
    obtain ⟨rest, hrest, hexpanded⟩ := ih hnext
    obtain ⟨joined, hjoined, hall⟩ := h.pipe hrest
    refine ⟨joined, ?_, ?_⟩
    · rw [piped, String.intercalate_cons_cons]
      exact hjoined
    · rw [hall, hexpanded, expanded_union, expanded_union]
      rfl

theorem toList_intercalate (ref : String) (refs : List String) :
    (", ".intercalate (ref :: refs) ++ "]").toList =
      ref.toList ++ closed (refs.map String.toList) := by
  induction refs generalizing ref with
  | nil => simp [closed]
  | cons next rest ih =>
    have hnext := ih next
    rw [String.toList_append] at hnext
    rw [String.intercalate_cons_cons, String.toList_append, String.toList_append,
      String.toList_append, List.append_assoc, hnext, List.append_assoc]
    rfl

theorem denotes_bracketed {head : String} {made : TypeExpr} (hhead : IsDotted head.toList)
    (hdenotes : HeadDenotes head (type :: types) made) (h : Denotes scope depth ref type)
    (hrefs : List.Forall₂ (Denotes scope depth) refs types) :
    Denotes scope (depth + 1) (bracketed head (ref :: refs)) made := by
  obtain ⟨tokens, hspells, hderives⟩ := h
  have hwritten : List.Forall₂ (fun t text => ∃ tokens, Writes text tokens ∧
      DerivesType scope depth tokens t) types (refs.map String.toList) := by
    refine (List.forall₂_map_left_iff.mpr (hrefs.imp fun next t hnext => ?_)).flip
    obtain ⟨tokens, hspells, hderives⟩ := hnext
    exact ⟨tokens, writes_of_spells hspells, hderives⟩
  obtain ⟨others, hcompletes⟩ := exists_completes hwritten
  have hwrites := writes_form hhead (writes_of_spells hspells) hcompletes
  have hlist := derivesArguments_of_commaList (hcompletes.list hderives)
  refine ⟨_, ?_, DerivesType.term (DerivesTerm.form hlist hdenotes)⟩
  have hchars : (bracketed head (ref :: refs)).toList =
      head.toList ++ '[' :: (ref.toList ++ closed (refs.map String.toList)) := by
    rw [bracketed, String.append_assoc, String.append_assoc, String.toList_append,
      String.toList_append, toList_intercalate]
    rfl
  rw [hchars]
  exact hwrites.spells

theorem denotes_none : Denotes scope depth "None" .none := by
  refine ⟨[.name "None"], (writes_name (isDotted_reserved (by decide))).spells, ?_⟩
  exact DerivesType.term (DerivesTerm.name NameDenotes.none)

end Denotes

section Decoding

variable {scope : Scope} (hnames : ∀ name type, scope.resolve name = some type → IsName name)
  {limits : Limits}

include hnames

/-- References that are decoded denote types of which the values are the normal forms. -/
theorem exists_denotes_all {refs : List String} {values : List TypeExpr}
    (h : List.Forall₂ (fun ref value => decode limits scope ref = .ok value) refs values) :
    ∃ types, List.Forall₂ (Denotes scope limits.maxDepth) refs types ∧
      types.map TypeExpr.normalize = values := by
  induction h with
  | nil => exact ⟨[], List.Forall₂.nil, rfl⟩
  | cons hvalue _ ih =>
    obtain ⟨types, htypes, rfl⟩ := ih
    obtain ⟨type, htype, rfl⟩ := exists_denotes_of_decode hnames hvalue
    exact ⟨type :: types, List.Forall₂.cons htype htypes, rfl⟩

/-- A text that denotes a union of types is decoded to the union of their normal forms. -/
theorem decode_union_iff {depth : Nat} {text : String} {type : TypeExpr} {types : List TypeExpr}
    (h : Denotes scope depth text type) (hexpanded : type.expanded = (TypeExpr.union types).expanded) :
    decode limits scope text = .ok (.unionOf (types.map TypeExpr.normalize)) ↔ limits.Admits text := by
  have hnormal : type.normalize = .unionOf (types.map TypeExpr.normalize) := by
    rw [TypeExpr.normalize_eq_of_expanded hexpanded]
    apply TypeExpr.normalize_union_congr
    rw [List.map_map]
    exact List.map_congr_left fun t _ => (TypeExpr.normalize_normalize t).symm
  rw [← hnormal]
  exact decode_eq_ok_iff_admits hnames h limits

theorem decode_spellings_iff {depth : Nat} {ref : String} {refs : List String} {type : TypeExpr}
    {types : List TypeExpr} (h : Denotes scope depth ref type)
    (hrefs : List.Forall₂ (Denotes scope depth) refs types) {text : String}
    (htext : text ∈ [piped (ref :: refs), bracketed "Union" (ref :: refs)]) :
    decode limits scope text = .ok (.unionOf ((type :: types).map TypeExpr.normalize)) ↔
      limits.Admits text := by
  simp only [List.mem_cons, List.not_mem_nil, or_false] at htext
  rcases htext with rfl | rfl
  · obtain ⟨joined, hjoined, hexpanded⟩ := exists_denotes_piped h hrefs
    exact decode_union_iff hnames hjoined hexpanded
  · have hhead : IsDotted "Union".toList := isDotted_reserved (by decide)
    exact decode_union_iff hnames (denotes_bracketed hhead HeadDenotes.union h hrefs) rfl

end Decoding

/-- In a registry that some run leads to, references with pipes between them and in the brackets of `Union`
are decoded to the union of what they are decoded to on their own, and a reference in the brackets of
`Optional`, or joined to `None` in either way, to that type or nothing: always, unless the text is longer or
deeper than the limits admit. -/
theorem decode_union_spellings (r : Registry) (hr : r.Reached) (limits : Limits)
    (refs : List String) (values : List TypeExpr) (hne : refs ≠ [])
    (h : List.Forall₂ (fun ref value => decode limits r.scope ref = .ok value) refs values) :
    (∀ text ∈ [piped refs, bracketed "Union" refs],
      (decode limits r.scope text = .ok (.unionOf values) ↔ limits.Admits text)) ∧
    ∀ ref value, decode limits r.scope ref = .ok value →
      ∀ text ∈ [bracketed "Optional" [ref], piped [ref, "None"], bracketed "Union" [ref, "None"]],
        (decode limits r.scope text = .ok value.optional ↔ limits.Admits text) := by
  have hnames : ∀ name type, r.scope.resolve name = some type → IsName name := hr.isName
  obtain ⟨types, htypes, rfl⟩ := exists_denotes_all hnames h
  refine ⟨fun text htext => ?_, fun ref value hvalue text htext => ?_⟩
  · cases htypes with
    | nil => exact absurd rfl hne
    | cons htype hrest => exact decode_spellings_iff hnames htype hrest htext
  · obtain ⟨type, htype, rfl⟩ := exists_denotes_of_decode hnames hvalue
    have hnone : List.Forall₂ (Denotes r.scope limits.maxDepth) ["None"] [.none] :=
      List.Forall₂.cons denotes_none List.Forall₂.nil
    rcases List.mem_cons.mp htext with rfl | htext
    · have hhead : IsDotted "Optional".toList := isDotted_reserved (by decide)
      have hoptional := denotes_bracketed hhead HeadDenotes.optional htype List.Forall₂.nil
      have hdecode : decode limits r.scope (bracketed "Optional" [ref]) =
          .ok (.unionOf ([type, .none].map TypeExpr.normalize)) ↔ _ :=
        decode_union_iff hnames hoptional rfl
      exact hdecode
    · exact decode_spellings_iff hnames htype hnone htext

def keys : Registry :=
  (Registry.new "tables").afterAll [.register "db.Key" (.union [.builtin .int, .builtin .str])]

/-- References with a pipe, with marks in a string, and to the alias. -/
def keyRefs : List String := ["db.Key | None", "Union[float, Literal['a|b, c']]", "db.Key"]

def keyTypes : List TypeExpr :=
  [.union [.builtin .int, .builtin .str, .none],
    .union [.builtin .float, .literal [.str "a|b, c"]], .union [.builtin .int, .builtin .str]]

theorem decode_union_spellings_keys :
    keys.Reached ∧
      List.Forall₂ (fun ref value => decode ⟨100, 3⟩ keys.scope ref = .ok value) keyRefs keyTypes ∧
      TypeExpr.unionOf keyTypes = .union [.builtin .int, .builtin .str, .none, .builtin .float,
        .literal [.str "a|b, c"]] ∧
      decode ⟨100, 3⟩ keys.scope "db.Key | None | Union[float, Literal['a|b, c']] | db.Key" =
        .ok (.unionOf keyTypes) ∧
      decode ⟨100, 3⟩ keys.scope "Union[db.Key | None, Union[float, Literal['a|b, c']], db.Key]" =
        .ok (.unionOf keyTypes) ∧
      decode ⟨100, 3⟩ keys.scope "Optional[db.Key]" =
        .ok (.union [.builtin .int, .builtin .str, .none]) := by
  have hr : keys.Reached := ⟨_, _, rfl⟩
  have hrefs : List.Forall₂ (fun ref value => decode ⟨100, 3⟩ keys.scope ref = .ok value)
      keyRefs keyTypes :=
    List.Forall₂.cons (by decide +kernel) (List.Forall₂.cons (by decide +kernel)
      (List.Forall₂.cons (by decide +kernel) List.Forall₂.nil))
  have hkey : decode ⟨100, 3⟩ keys.scope "db.Key" =
      .ok (.union [.builtin .int, .builtin .str]) := by
    decide +kernel
  obtain ⟨hunion, hoptional⟩ :=
    decode_union_spellings keys hr ⟨100, 3⟩ keyRefs keyTypes (by decide) hrefs
  refine ⟨hr, hrefs, by decide +kernel, ?_, ?_, ?_⟩
  · exact (hunion _ List.mem_cons_self).mpr ⟨by decide +kernel, by decide +kernel⟩
  · exact (hunion _ (List.mem_cons_of_mem _ List.mem_cons_self)).mpr
      ⟨by decide +kernel, by decide +kernel⟩
  · exact (hoptional _ _ hkey _ List.mem_cons_self).mpr ⟨by decide +kernel, by decide +kernel⟩

end Callable.Reference
