import Callable.Proofs.Config.Growth
import Callable.Proofs.Reference.Writability

/-!
A configuration describes a closed registry: all that its references denote can be written again. The
names inside of a registered type are registered for themselves, since a target can only take them from
types that were registered before. This holds of the empty registry and is kept by each step.
-/
namespace Callable

open Reference (decode encode IsCommon HasSpelling isLeaf_of_decode encode_cases normalize_of_decode)
open TypeExpr (IsLeaf isLeaf_self)

/-- Every leaf is common or a name that stands for itself in the scope. -/
def Scope.Covers (scope : Scope) (type : TypeExpr) : Prop :=
  ∀ leaf, IsLeaf leaf type →
    IsCommon leaf ∨ ∃ path, leaf = .named path ∧ scope.resolve path = some (.named path)

theorem Scope.Extends.covers {scope base : Scope} (hext : scope.Extends base) {type : TypeExpr}
    (h : base.Covers type) : scope.Covers type := by
  intro leaf hleaf
  rcases h leaf hleaf with hcommon | ⟨path, rfl, hresolve⟩
  · exact Or.inl hcommon
  · exact Or.inr ⟨path, rfl, hext path (.named path) hresolve⟩

/-- All types of names are covered by the scope itself. -/
def Scope.IsClosed (scope : Scope) : Prop :=
  ∀ name type, scope.resolve name = some type → scope.Covers type

/-- What is read in a closed scope is covered, although the members of a union may be taken apart. -/
theorem Scope.IsClosed.covers_decode {scope : Scope} (hclosed : scope.IsClosed)
    (hnames : ∀ name type, scope.resolve name = some type → IsName name)
    {limits : Reference.Limits} {text : String} {value : TypeExpr}
    (h : decode limits scope text = .ok value) : scope.Covers value := by
  intro leaf hleaf
  rcases isLeaf_of_decode hnames h hleaf with
    hcommon | ⟨name, source, original, hresolve, horiginal, rfl⟩
  · exact Or.inl hcommon
  · rcases hclosed name source hresolve original horiginal with hcommon | ⟨path, rfl, hpath⟩
    · exact Or.inl hcommon.normalize
    · exact Or.inr ⟨path, rfl, hpath⟩

namespace Registry

section Steps

variable {limits : Reference.Limits} {r r' : Registry} {h : History}

theorem isClosed_new (id : String) : (new id).scope.IsClosed := by
  intro name type hresolve
  cases hresolve

theorem Tracks.isClosed_registerLogged (ht : Tracks r h) (hclosed : r.scope.IsClosed)
    {name : String} {type : TypeExpr} (hok : (r.registerLogged name type).outcome = .ok r')
    (htype : r'.scope.Covers type.normalize) : r'.scope.IsClosed := by
  have ht' : Tracks r' (h ++ [(name, type.normalize)]) := ht.registerLogged hok
  intro other source hresolve
  rcases List.mem_append.mp ((ht'.resolve_iff other source).mp hresolve) with hold | hnew
  · have hsource : r.resolve other = some source := (ht.resolve_iff other source).mpr hold
    exact (ht.extends ht').covers (hclosed other source hsource)
  · obtain ⟨rfl, rfl⟩ := Prod.mk.inj (List.mem_singleton.mp hnew)
    exact htype

theorem Tracks.isClosed_registerTypes (ht : Tracks r h) (hclosed : r.scope.IsClosed)
    {paths : List String} (hok : (r.registerTypes paths).outcome = .ok r') :
    r'.scope.IsClosed := by
  induction paths generalizing r h with
  | nil =>
    cases hok
    exact hclosed
  | cons path rest ih =>
    obtain ⟨middle, hstep, hrest⟩ := (registerTypes_cons_eq_ok_iff path rest).mp hok
    have hmiddle : Tracks middle (h ++ [(path, .named path)]) := ht.registerLogged hstep
    have hpath : middle.resolve path = some (.named path) :=
      (hmiddle.resolve_iff _ _).mpr (List.mem_append_right h List.mem_cons_self)
    have hcovers : middle.scope.Covers (.named path) := by
      intro leaf hleaf
      obtain rfl := hleaf.eq_of_parts rfl
      exact Or.inr ⟨path, rfl, hpath⟩
    exact ih hmiddle (ht.isClosed_registerLogged hclosed hstep hcovers) hrest

theorem Tracks.isClosed_registerAliases (ht : Tracks r h) (hclosed : r.scope.IsClosed)
    {aliases : List (String × String)}
    (hok : (r.registerAliases limits aliases).outcome = .ok r') : r'.scope.IsClosed := by
  induction aliases generalizing r h with
  | nil =>
    cases hok
    exact hclosed
  | cons entry rest ih =>
    obtain ⟨name, target⟩ := entry
    obtain ⟨type, middle, hdecode, hstep, hrest⟩ := (registerAliases_cons_eq_ok_iff ..).mp hok
    have hmiddle : Tracks middle (h ++ [(name, type.normalize)]) := ht.registerLogged hstep
    have hcovers : r.scope.Covers type :=
      hclosed.covers_decode ht.isName hdecode
    have hgrown : middle.scope.Covers type.normalize := by
      rw [normalize_of_decode hdecode]
      exact (ht.extends hmiddle).covers hcovers
    exact ih hmiddle (ht.isClosed_registerLogged hclosed hstep hgrown) hrest

end Steps

/-- In a registry that some run leads to, what the scope covers can be written. -/
theorem Tracks.hasSpelling {r : Registry} {h : History} (ht : Tracks r h) {type : TypeExpr}
    (hcovers : r.scope.Covers type) : ∀ leaf, IsLeaf leaf type → HasSpelling r.scope leaf := by
  intro leaf hleaf
  rcases hcovers leaf hleaf with hcommon | ⟨path, rfl, hresolve⟩
  · exact Or.inl hcommon
  · obtain ⟨name, hname⟩ := (ht.exists_nameOf_iff (.named path)).mpr ⟨rfl, path, hresolve⟩
    exact Or.inr ⟨path, name, rfl, hname⟩

end Registry

namespace Config

open Registry

theorem isClosed_registry {c : Config} {r : Registry} (h : c.registry = .ok r) :
    r.scope.IsClosed := by
  obtain ⟨named, htypes, haliases⟩ := registry_eq_ok_iff.mp h
  have ht : Tracks (new c.references.context) [] := tracks_new _
  have hnamed : named.scope.IsClosed := ht.isClosed_registerTypes (isClosed_new _) htypes
  exact (ht.registerTypes htypes).isClosed_registerAliases hnamed haliases

/-- What a reference denotes in the registry of a configuration has a reference there, unless that is too
long or too deep. -/
theorem encode_of_decode (c : Config) (r : Registry) (h : c.registry = .ok r) (text : String)
    (value : TypeExpr) (hdecode : decode c.limits r.scope text = .ok value) :
    (∃ spelling, encode c.limits r.scope value = .ok spelling) ∨
      ∃ e, encode c.limits r.scope value = .error e ∧
        (e.cause = .tooLarge c.limits.maxBytes ∨ e.cause = .tooDeep c.limits.maxDepth) := by
  have hr : r.Reached := reached_registry h
  obtain ⟨history, ht⟩ := hr.tracks
  have hcovers : r.scope.Covers value := (isClosed_registry h).covers_decode hr.isName hdecode
  exact encode_cases (normalize_of_decode hdecode) (ht.hasSpelling hcovers)

/-- A cell or nothing has a name, and is taken apart when it stands in a larger union. -/
def cells : Config :=
  { references :=
      { namedTypes := ["db.Cell"]
        aliases := [("Maybe", "db.Cell | None")] } }

def maybeCell : TypeExpr := .union [.named "db.Cell", .none]

def cellsRegistry : Registry :=
  { entries := [("Maybe", maybeCell), ("db.Cell", .named "db.Cell")]
    spellings := [(maybeCell, "Maybe"), (.named "db.Cell", "db.Cell")] }

theorem encode_of_decode_cells :
    cells.registry = .ok cellsRegistry ∧
      decode cells.limits cellsRegistry.scope "List[Maybe | str]" =
        .ok (.list (.union [.named "db.Cell", .none, .builtin .str])) ∧
      ((∃ spelling, encode cells.limits cellsRegistry.scope
          (.list (.union [.named "db.Cell", .none, .builtin .str])) = .ok spelling) ∨
        ∃ e, encode cells.limits cellsRegistry.scope
            (.list (.union [.named "db.Cell", .none, .builtin .str])) = .error e ∧
          (e.cause = .tooLarge cells.limits.maxBytes ∨
            e.cause = .tooDeep cells.limits.maxDepth)) := by
  have hbuilt : cells.registry = .ok cellsRegistry := by decide +kernel
  have hdecode : decode cells.limits cellsRegistry.scope "List[Maybe | str]" =
      .ok (.list (.union [.named "db.Cell", .none, .builtin .str])) := by
    decide +kernel
  exact ⟨hbuilt, hdecode, encode_of_decode cells cellsRegistry hbuilt _ _ hdecode⟩

end Config
end Callable
