import Callable.Proofs.Reference.Canonical
import Callable.Proofs.Reference.Extension
import Callable.Proofs.Reference.Writability
import Callable.Proofs.Registry.Paths
import Callable.Proofs.TypeExpr.Nesting

/-!
The nesting of references, written and read. Where only paths have names, the writer succeeds exactly if
all leaves can be written and the brackets stay within the bound. The reader counts the brackets it meets,
and a union with pipes has none; but it is written with a pair. So what is read fits the writer if pipes
are counted as brackets, and with each bracket of a reference there comes at most one union of that kind.
-/
namespace Callable.Reference

open TypeExpr (IsLeaf isLeaf_self induct_parts)

/-- All leaves of the type can be written, and there is room for its brackets inside `depth` others. -/
abbrev Fits (limits : Limits) (scope : Scope) (depth : Nat) (type : TypeExpr) : Prop :=
  TypeExpr.Fits .brackets (HasSpelling scope) limits.maxDepth depth type

section Written

variable {limits : Limits} {scope : Scope} {depth : Nat}

theorem exists_spellParts_iff {out : String} {type : TypeExpr}
    {parts : Unit → Except TypeError String} (hname : scope.nameOf type = none) :
    (∃ out', spellParts limits scope depth out type parts = .ok out') ↔
      depth < limits.maxDepth ∧ ∃ out', parts () = .ok out' := by
  unfold spellParts
  rw [hname]
  by_cases hdeep : limits.maxDepth < depth + 1
  · simp only [hdeep, if_true]
    exact iff_of_false (not_exists_error_eq_ok _ _) (by omega)
  · simp only [hdeep, if_false]
    exact (and_iff_right (by omega)).symm

theorem exists_spellMore_iff {types : List TypeExpr} {p : TypeExpr → Prop}
    (h : ∀ type ∈ types, ∀ out, (∃ out', spell limits scope depth out type = .ok out') ↔ p type)
    (out : String) :
    (∃ out', spellMore limits scope depth out types = .ok out') ↔ ∀ type ∈ types, p type := by
  induction types generalizing out with
  | nil => exact iff_of_true ⟨_, rfl⟩ (List.forall_mem_nil _)
  | cons type rest ih =>
    obtain ⟨htype, hrest⟩ := List.forall_mem_cons.mp h
    rw [spellMore, List.forall_mem_cons, exists_bind_eq_ok_iff (ih hrest), htype]

/-- A type with parts is written exactly if another bracket may open and its parts are written in it. -/
theorem exists_spell_iff_parts {type : TypeExpr} (hname : scope.nameOf type = none)
    (hparts : type.parts ≠ []) {p : TypeExpr → Prop}
    (h : depth < limits.maxDepth → ∀ part ∈ type.parts, ∀ out,
      (∃ out', spell limits scope (depth + 1) out part = .ok out') ↔ p part) (out : String) :
    (∃ out', spell limits scope depth out type = .ok out') ↔
      depth < limits.maxDepth ∧ ∀ part ∈ type.parts, p part := by
  cases type with
  | list item | set item | classOf item =>
    rw [spell, exists_spellParts_iff hname]
    refine and_congr_right fun hdepth => ?_
    have hitem := h hdepth item (List.mem_singleton_self item)
    rw [exists_closed_iff, hitem]
    exact List.forall_mem_singleton.symm
  | dict key value =>
    rw [spell, exists_spellParts_iff hname]
    refine and_congr_right fun hdepth => ?_
    obtain ⟨hkey, hvalue⟩ := List.forall_mem_cons.mp (h hdepth)
    have hvalue := List.forall_mem_singleton.mp hvalue
    have hrest : ∀ out, (∃ out', (do
        let out ← spell limits scope (depth + 1) (out ++ ", ") value
        return out ++ "]") = .ok out') ↔ p value := by
      intro out
      rw [exists_closed_iff, hvalue]
    rw [exists_bind_eq_ok_iff hrest, hkey]
    exact (List.forall_mem_cons.trans (and_congr_right' List.forall_mem_singleton)).symm
  | tuple types | union types =>
    cases types with
    | nil => exact absurd rfl hparts
    | cons first rest =>
      rw [spell, exists_spellParts_iff hname]
      refine and_congr_right fun hdepth => ?_
      obtain ⟨hfirst, hrest⟩ := List.forall_mem_cons.mp (h hdepth)
      rw [exists_bind_eq_ok_iff (exists_spellMore_iff hrest), hfirst]
      exact List.forall_mem_cons.symm
  | _ => exact absurd rfl hparts

variable (hscope : scope.OfPaths)

include hscope

/-- A type without parts is written exactly if it is a leaf for which something can be written, and if
the empty tuple or a literal, where a bracket may open. -/
theorem exists_spell_iff_of_bare {type : TypeExpr} (hbare : type.parts = [])
    (hdepth : depth ≤ limits.maxDepth) (out : String) :
    (∃ out', spell limits scope depth out type = .ok out') ↔ Fits limits scope depth type := by
  refine Iff.trans ?_ (TypeExpr.fits_iff_of_bare hbare).symm
  cases type with
  | list | set | classOf | dict => cases hbare
  | any => exact iff_of_true ⟨_, rfl⟩ ⟨Or.inl .any, hdepth⟩
  | none => exact iff_of_true ⟨_, rfl⟩ ⟨Or.inl .none, hdepth⟩
  | builtin b => exact iff_of_true ⟨_, rfl⟩ ⟨Or.inl (.builtin b), hdepth⟩
  | someClass => exact iff_of_true ⟨_, rfl⟩ ⟨Or.inl .someClass, hdepth⟩
  | anonymous hint =>
    exact iff_of_false (not_exists_error_eq_ok _ _) fun h => not_hasSpelling_anonymous hint h.1
  | named path =>
    rw [spell]
    cases hname : scope.nameOf (.named path) with
    | some name => exact iff_of_true ⟨_, rfl⟩ ⟨Or.inr ⟨path, name, rfl, hname⟩, hdepth⟩
    | none => exact iff_of_false (not_exists_error_eq_ok _ _) fun h => not_hasSpelling_named hname h.1
  | tuple items =>
    obtain rfl : items = [] := hbare
    have hname : scope.nameOf (.tuple []) = none := hscope.nameOf_eq_none (by rintro _ ⟨⟩)
    rw [spell, exists_spellParts_iff hname]
    constructor
    · exact fun h => ⟨Or.inl .emptyTuple, h.1⟩
    · exact fun h => ⟨h.2, _, rfl⟩
  | union members =>
    obtain rfl : members = [] := hbare
    have hname : scope.nameOf (.union []) = none := hscope.nameOf_eq_none (by rintro _ ⟨⟩)
    rw [spell, exists_spellParts_iff hname]
    refine iff_of_false (fun h => not_exists_error_eq_ok _ _ h.2) fun h => ?_
    exact not_hasSpelling_of_isVoid (Or.inl rfl) h.1
  | literal values =>
    have hname : scope.nameOf (.literal values) = none := hscope.nameOf_eq_none (by rintro _ ⟨⟩)
    cases values with
    | nil =>
      rw [spell, exists_spellParts_iff hname]
      refine iff_of_false (fun h => not_exists_error_eq_ok _ _ h.2) fun h => ?_
      exact not_hasSpelling_of_isVoid (Or.inr rfl) h.1
    | cons value rest =>
      rw [spell, exists_spellParts_iff hname]
      constructor
      · exact fun h => ⟨Or.inl (.literal (List.cons_ne_nil value rest)), h.1⟩
      · exact fun h => ⟨h.2, _, rfl⟩

/-- Where only paths have names, the writer succeeds exactly if the type fits. -/
theorem exists_spell_iff {type : TypeExpr} (hdepth : depth ≤ limits.maxDepth) (out : String) :
    (∃ out', spell limits scope depth out type = .ok out') ↔ Fits limits scope depth type := by
  induction type using induct_parts generalizing depth out with
  | h type ih =>
    by_cases hparts : type.parts = []
    · exact exists_spell_iff_of_bare hscope hparts hdepth out
    · have hname : scope.nameOf type = none := by
        refine hscope.nameOf_eq_none fun path heq => hparts ?_
        rw [heq]
        rfl
      refine Iff.trans ?_ (TypeExpr.fits_iff_parts hparts).symm
      refine exists_spell_iff_parts hname hparts (fun hmore part hpart out => ?_) out
      rw [TypeExpr.fitsIn_iff_fits (TypeExpr.nestingIn_brackets type part), ih part hpart hmore]

/-- What fits is written unless the text is too long. -/
theorem cause_of_fits {type : TypeExpr} (h : Fits limits scope 0 type.normalize) {e : TypeError}
    (herror : encode limits scope type = .error e) : e.cause = .tooLarge limits.maxBytes := by
  obtain ⟨text, hwritten⟩ := (exists_spell_iff hscope (Nat.zero_le _) "").mpr h
  unfold encode at herror
  rw [hwritten] at herror
  change (if limits.maxBytes < text.utf8ByteSize then _ else pure text) = _ at herror
  split at herror
  · cases herror
    rfl
  · cases herror

theorem fits_of_encode {type : TypeExpr} {text : String}
    (h : encode limits scope type = .ok text) : Fits limits scope 0 type.normalize := by
  obtain ⟨out, hwritten, -⟩ := exists_of_bind_eq_ok h
  exact (exists_spell_iff hscope (Nat.zero_le _) "").mp ⟨out, hwritten⟩

/-- A type whose leaves can all be written is refused for its depth exactly if its brackets are too
many. -/
theorem tooDeep_iff {type : TypeExpr}
    (h : ∀ leaf, IsLeaf leaf type.normalize → HasSpelling scope leaf) :
    (∃ e, encode limits scope type = .error e ∧ e.cause = .tooDeep limits.maxDepth) ↔
      limits.maxDepth < type.normalize.nesting .brackets := by
  constructor
  · intro hrefused
    obtain ⟨e, herror, hcause⟩ := hrefused
    by_contra hroom
    have hfits : Fits limits scope 0 type.normalize := ⟨h, by omega⟩
    cases hcause.symm.trans (cause_of_fits hscope hfits herror)
  · intro hdeep
    cases hwritten : spell limits scope 0 "" type.normalize with
    | ok text =>
      have hfits := (exists_spell_iff hscope (Nat.zero_le _) "").mp ⟨text, hwritten⟩
      have hroom := hfits.nesting
      omega
    | error e =>
      refine ⟨e, ?_, stopsAtDepth_spell h 0 "" e hwritten⟩
      unfold encode
      rw [hwritten]
      rfl

end Written

theorem HeadDenotes.nesting_le {head : String} {types : List TypeExpr} {type : TypeExpr}
    (h : HeadDenotes head types type) {n : Nat} (hne : types ≠ [])
    (htypes : ∀ t ∈ types, t.nesting .brackets ≤ n) : type.nesting .brackets ≤ n + 1 := by
  have hall (hparts : type.parts ≠ []) := TypeExpr.nesting_brackets_le_succ_iff hparts n
  cases h with
  | list | set | classOf | dict | tuple | union => exact (hall hne).mpr htypes
  | optional =>
    refine (hall (List.cons_ne_nil _ _)).mpr (List.forall_mem_cons.mpr ⟨?_, ?_⟩)
    · exact htypes _ List.mem_cons_self
    · exact List.forall_mem_singleton.mpr (Nat.zero_le n)

theorem count_pipe_form (head : String) (tokens : List Token) :
    (Token.name head :: .openBracket :: (tokens ++ [.closeBracket])).count .pipe =
      tokens.count .pipe := by
  simp [List.count_append]

theorem DerivesAlternatives.count_pipe_pos {scope : Scope} {depth : Nat} {tokens : List Token}
    {types : List TypeExpr} (h : DerivesAlternatives scope depth tokens types) :
    0 < tokens.count .pipe := by
  cases h with
  | last | more => exact List.count_pos_iff.mpr List.mem_cons_self

theorem NameDenotes.nesting_eq_zero {scope : Scope} (hscope : scope.OfPaths) {name : String}
    {type : TypeExpr} (h : NameDenotes scope name type) : type.nesting .brackets = 0 := by
  cases h with
  | registered hresolve =>
    obtain rfl := hscope.type_of_resolve name type hresolve
    rfl
  | _ => rfl

mutual

/-- A derivation makes as many levels as brackets are open at once, and one more for each pipe, but no
more than one for each bracket and one around them all. -/
theorem DerivesType.nesting_le {scope : Scope} (hscope : scope.OfPaths) {depth : Nat}
    {tokens : List Token} {type : TypeExpr} (h : DerivesType scope depth tokens type) :
    type.nesting .brackets ≤ depth + tokens.count .pipe ∧
      type.nesting .brackets ≤ 2 * depth + 1 := by
  match h with
  | .term hterm =>
    obtain ⟨hpipes, hdouble⟩ := hterm.nesting_le hscope
    exact ⟨hpipes, by omega⟩
  | @DerivesType.union _ _ tokens more type types hterm hmore =>
    obtain ⟨hpipes, hdouble⟩ := hterm.nesting_le hscope
    have hothers := hmore.nesting_le hscope
    have hone : 0 < more.count .pipe := hmore.count_pipe_pos
    have hparts : (TypeExpr.union (type :: types)).parts ≠ [] := List.cons_ne_nil type types
    rw [List.count_append]
    -- The first pipe stands for the level of the union, so the others are left for its members.
    constructor
    · obtain ⟨n, hn⟩ : ∃ n, depth + (tokens.count .pipe + more.count .pipe) = n + 1 :=
        Nat.exists_eq_add_one.mpr (by omega)
      rw [hn, TypeExpr.nesting_brackets_le_succ_iff hparts]
      refine List.forall_mem_cons.mpr ⟨by omega, fun t ht => ?_⟩
      have hother := (hothers t ht).1
      omega
    · rw [TypeExpr.nesting_brackets_le_succ_iff hparts]
      exact List.forall_mem_cons.mpr ⟨hdouble, fun t ht => (hothers t ht).2⟩

theorem DerivesAlternatives.nesting_le {scope : Scope} (hscope : scope.OfPaths) {depth : Nat}
    {tokens : List Token} {types : List TypeExpr}
    (h : DerivesAlternatives scope depth tokens types) :
    ∀ t ∈ types, t.nesting .brackets < depth + tokens.count .pipe ∧
      t.nesting .brackets ≤ 2 * depth := by
  match h with
  | .last hterm =>
    obtain ⟨hpipes, hdouble⟩ := hterm.nesting_le hscope
    rw [List.count_cons_self]
    exact List.forall_mem_singleton.mpr ⟨by omega, hdouble⟩
  | .more hterm hmore =>
    obtain ⟨hpipes, hdouble⟩ := hterm.nesting_le hscope
    rw [List.count_cons_self, List.count_append]
    refine List.forall_mem_cons.mpr ⟨⟨by omega, hdouble⟩, fun t ht => ?_⟩
    have hother := hmore.nesting_le hscope t ht
    exact ⟨by omega, hother.2⟩

theorem DerivesTerm.nesting_le {scope : Scope} (hscope : scope.OfPaths) {depth : Nat}
    {tokens : List Token} {type : TypeExpr} (h : DerivesTerm scope depth tokens type) :
    type.nesting .brackets ≤ depth + tokens.count .pipe ∧ type.nesting .brackets ≤ 2 * depth := by
  match h with
  | .name hname =>
    have hzero := hname.nesting_eq_zero hscope
    omega
  | .form hargs hdenotes =>
    have hall := hargs.nesting_le hscope
    have hne := (commaList_of_derivesArguments hargs).ne_nil
    have hpipes := hdenotes.nesting_le hne fun t ht => (hall t ht).1
    have hdouble := hdenotes.nesting_le hne fun t ht => (hall t ht).2
    rw [count_pipe_form]
    omega
  | .literal _ =>
    rw [TypeExpr.nesting]
    omega
  | .emptyTuple _ =>
    have hone := TypeExpr.nesting_brackets_le_one (rfl : (TypeExpr.tuple []).parts = [])
    omega

theorem DerivesArguments.nesting_le {scope : Scope} (hscope : scope.OfPaths) {depth : Nat}
    {tokens : List Token} {types : List TypeExpr} (h : DerivesArguments scope depth tokens types) :
    ∀ t ∈ types, t.nesting .brackets ≤ depth + tokens.count .pipe ∧
      t.nesting .brackets ≤ 2 * depth + 1 := by
  match h with
  | .last htype => exact List.forall_mem_singleton.mpr (htype.nesting_le hscope)
  | .comma htype =>
    obtain ⟨hpipes, hdouble⟩ := htype.nesting_le hscope
    rw [List.count_append]
    exact List.forall_mem_singleton.mpr ⟨by omega, hdouble⟩
  | .more htype hmore =>
    obtain ⟨hpipes, hdouble⟩ := htype.nesting_le hscope
    rw [List.count_append, List.count_cons]
    refine List.forall_mem_cons.mpr ⟨⟨by omega, hdouble⟩, fun t ht => ?_⟩
    have hother := hmore.nesting_le hscope t ht
    exact ⟨by omega, hother.2⟩

end

section Decoded

variable {scope : Scope} (hnames : ∀ name type, scope.resolve name = some type → IsName name)
  (hscope : scope.OfPaths)

include hnames hscope

/-- What is read nests no deeper than the brackets and pipes of the reference allow. -/
theorem nesting_le_of_decode {limits : Limits} {text : String} {value : TypeExpr}
    (h : decode limits scope text = .ok value) :
    value.nesting .brackets ≤ 2 * limits.maxDepth + 1 ∧
      ∃ found, lexemes text = .ok found ∧
        value.nesting .brackets ≤ limits.maxDepth + (found.map Lexeme.token).count .pipe := by
  obtain ⟨-, tokens, type, hspells, hderives, rfl⟩ := (decode_eq_ok_iff hnames limits text value).mp h
  obtain ⟨first, rest, heq, -⟩ := opens_derivesType _ _ hderives
  have hne : tokens ≠ [] := heq ▸ List.cons_ne_nil first rest
  obtain ⟨found, hfound, rfl⟩ := (lexemes_iff text tokens).mpr ⟨hne, hspells⟩
  obtain ⟨hpipes, hdouble⟩ := hderives.nesting_le hscope
  have hnormal := type.nesting_normalize_le
  exact ⟨by omega, found, hfound, by omega⟩

end Decoded

/-- What is decoded in a registry of paths has leaves that can be written there. -/
theorem hasSpelling_of_decode {r : Registry} (hr : r.ReachedByPaths) {limits : Limits}
    {text : String} {value leaf : TypeExpr} (h : decode limits r.scope text = .ok value)
    (hleaf : IsLeaf leaf value) : HasSpelling r.scope leaf := by
  have hnames : ∀ name type, r.scope.resolve name = some type → IsName name := hr.reached.isName
  rcases isLeaf_of_decode hnames h hleaf with hcommon | ⟨path, source, original, hpath, horiginal, rfl⟩
  · exact Or.inl hcommon
  · obtain rfl := hr.type_of_resolve hpath
    obtain rfl := horiginal.eq_of_parts rfl
    obtain ⟨history, ht⟩ := hr.reached.tracks
    obtain ⟨name, hname⟩ := (ht.exists_nameOf_iff (.named path)).mpr ⟨rfl, path, hpath⟩
    exact Or.inr ⟨path, name, rfl, hname⟩

/-- In a registry of paths, what a reference denotes is refused for its depth exactly where its brackets
are too many. They can be more than the reference has, by the pipes and by at most one for each bracket
and one more; so without pipes a reference that is read is never too deep to be written back. -/
theorem tooDeep_of_decode (r : Registry) (hr : r.ReachedByPaths) (limits : Limits) {text : String}
    {value : TypeExpr} (h : decode limits r.scope text = .ok value) :
    (∀ bounds : Limits,
      (∃ e, encode bounds r.scope value = .error e ∧ e.cause = .tooDeep bounds.maxDepth) ↔
        bounds.maxDepth < value.nesting .brackets) ∧
    value.nesting .brackets ≤ 2 * limits.maxDepth + 1 ∧
    ∃ found, lexemes text = .ok found ∧
      value.nesting .brackets ≤ limits.maxDepth + (found.map Lexeme.token).count .pipe ∧
      (.pipe ∉ found.map Lexeme.token → ∀ e, encode limits r.scope value = .error e →
        ∀ bound, e.cause ≠ .tooDeep bound) := by
  have hnames : ∀ name type, r.scope.resolve name = some type → IsName name := hr.reached.isName
  have hnormal : value.normalize = value := normalize_of_decode h
  have hleaves : ∀ leaf, IsLeaf leaf value.normalize → HasSpelling r.scope leaf := by
    rw [hnormal]
    exact fun leaf hleaf => hasSpelling_of_decode hr h hleaf
  obtain ⟨hdouble, found, hfound, hpipes⟩ := nesting_le_of_decode hnames hr.ofPaths h
  refine ⟨fun bounds => ?_, hdouble, found, hfound, hpipes, fun hnone e herror bound hdeep => ?_⟩
  · rw [tooDeep_iff hr.ofPaths hleaves, hnormal]
  · have hroom : value.normalize.nesting .brackets ≤ limits.maxDepth := by
      rw [hnormal]
      rwa [List.count_eq_zero.mpr hnone, Nat.add_zero] at hpipes
    have hcause := cause_of_fits hr.ofPaths ⟨hleaves, by omega⟩ herror
    cases hdeep.symm.trans hcause

theorem reachedByPaths_cells : cells.ReachedByPaths := ⟨"tables", ["db.Cell"], rfl⟩

/-- One bracket and the pipes inside and outside of it, read at depth one, are written at depth three. -/
theorem tooDeep_of_decode_cells :
    cells.ReachedByPaths ∧
      decode ⟨100, 1⟩ cells.scope "List[db.Cell | None] | int" =
        .ok (.union [.list (.union [.named "db.Cell", .none]), .builtin .int]) ∧
      (∃ e, encode ⟨100, 1⟩ cells.scope
          (.union [.list (.union [.named "db.Cell", .none]), .builtin .int]) = .error e ∧
        e.cause = .tooDeep 1) ∧
      ¬ ∃ e, encode ⟨100, 3⟩ cells.scope
          (.union [.list (.union [.named "db.Cell", .none]), .builtin .int]) = .error e ∧
        e.cause = .tooDeep 3 := by
  have h : decode ⟨100, 1⟩ cells.scope "List[db.Cell | None] | int" =
      .ok (.union [.list (.union [.named "db.Cell", .none]), .builtin .int]) := by
    decide +kernel
  obtain ⟨hdeep, -⟩ := tooDeep_of_decode cells reachedByPaths_cells ⟨100, 1⟩ h
  refine ⟨reachedByPaths_cells, h, (hdeep ⟨100, 1⟩).mpr ?_, fun hrefused => ?_⟩
  · decide +kernel
  · have hmore := (hdeep ⟨100, 3⟩).mp hrefused
    exact absurd hmore (by decide +kernel)

/-- A pipe inside a bracket costs nothing when it is read, but a bracket when it is written. -/
theorem not_decoded_fits :
    ¬ ∀ (r : Registry), r.ReachedByPaths → ∀ (limits : Limits) (text : String) (value : TypeExpr),
      decode limits r.scope text = .ok value →
        ∀ e, encode limits r.scope value = .error e → ∀ bound, e.cause ≠ .tooDeep bound := by
  intro hall
  have hr : (Registry.new "default").ReachedByPaths := ⟨"default", [], rfl⟩
  have hread : decode ⟨4096, 1⟩ (Registry.new "default").scope "List[int | None]" =
      .ok (.list (.union [.builtin .int, .none])) := by
    decide +kernel
  have hwritten : encode ⟨4096, 1⟩ (Registry.new "default").scope
      (.list (.union [.builtin .int, .none])) = .error ⟨"List[", "default", .tooDeep 1⟩ := by
    decide +kernel
  exact hall _ hr ⟨4096, 1⟩ _ _ hread _ hwritten 1 rfl

end Callable.Reference
