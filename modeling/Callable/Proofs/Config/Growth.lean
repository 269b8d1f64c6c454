import Callable.Config.Context
import Callable.Proofs.Reference.Canonical
import Callable.Proofs.Reference.Extension
import Mathlib.Data.List.Forall2

/-!
How the registry of a configuration grows. Each step adds one pair to the history: the named types with
their own paths, then every alias with the type that its target has at that moment. What a target denotes
once it denotes for good, so the history can be read off the finished registry. An alias in the middle
sees the registry that the configuration without the aliases after it describes.
-/
namespace Callable

open Reference (decode)

namespace Registry

theorem outcome_registerLogged (r : Registry) (name : String) (type : TypeExpr) :
    (r.registerLogged name type).outcome =
      (r.answer (.register name type)).map fun _ => r.after (.register name type) := by
  unfold registerLogged answer after Call.session
  obtain ⟨answered, grown⟩ := (register name type).run r
  cases answered with
  | error e => rfl
  | ok => cases r.contains name <;> rfl

theorem registerLogged_eq_ok_iff (r r' : Registry) (name : String) (type : TypeExpr) :
    (r.registerLogged name type).outcome = .ok r' ↔
      r.answer (.register name type) = .ok () ∧ r.after (.register name type) = r' := by
  rw [outcome_registerLogged]
  cases r.answer (.register name type) with
  | error e => exact iff_of_false nofun nofun
  | ok => simp [Except.map]

section Steps

variable {limits : Reference.Limits} {r r' : Registry} {h : History}

theorem Tracks.registerLogged (ht : Tracks r h) {name : String} {type : TypeExpr}
    (hok : (r.registerLogged name type).outcome = .ok r') :
    Tracks r' (h ++ [(name, type.normalize)]) := by
  obtain ⟨hanswer, rfl⟩ := (registerLogged_eq_ok_iff r r' name type).mp hok
  have hafter := ht.after (.register name type)
  rw [recorded, hanswer] at hafter
  exact hafter

theorem registerTypes_cons_eq_ok_iff (path : String) (rest : List String) :
    (r.registerTypes (path :: rest)).outcome = .ok r' ↔
      ∃ middle, (r.registerLogged path (.named path)).outcome = .ok middle ∧
        (middle.registerTypes rest).outcome = .ok r' := by
  rw [registerTypes, Logged.bind_eq_ok_iff]
  simp only [Logged.mapError_eq_ok_iff]

theorem registerAliases_cons_eq_ok_iff (name target : String) (rest : List (String × String)) :
    (r.registerAliases limits ((name, target) :: rest)).outcome = .ok r' ↔
      ∃ type middle, decode limits r.scope target = .ok type ∧
        (r.registerLogged name type).outcome = .ok middle ∧
        (middle.registerAliases limits rest).outcome = .ok r' := by
  rw [registerAliases]
  simp only [Logged.bind_eq_ok_iff, Logged.mapError_eq_ok_iff, Logged.outcome_ofExcept]
  constructor
  · rintro ⟨type, hdecode, middle, hstep, hrest⟩
    exact ⟨type, middle, hdecode, hstep, hrest⟩
  · rintro ⟨type, middle, hdecode, hstep, hrest⟩
    exact ⟨type, hdecode, middle, hstep, hrest⟩

theorem registerAliases_append_eq_ok_iff (before after : List (String × String)) :
    (r.registerAliases limits (before ++ after)).outcome = .ok r' ↔
      ∃ middle, (r.registerAliases limits before).outcome = .ok middle ∧
        (middle.registerAliases limits after).outcome = .ok r' := by
  induction before generalizing r with
  | nil =>
    constructor
    · exact fun hok => ⟨r, rfl, hok⟩
    · rintro ⟨_, ⟨⟩, hok⟩
      exact hok
  | cons entry rest ih =>
    obtain ⟨name, target⟩ := entry
    simp only [List.cons_append, registerAliases_cons_eq_ok_iff, ih]
    constructor
    · rintro ⟨type, next, hdecode, hstep, middle, hbefore, hafter⟩
      exact ⟨middle, ⟨type, next, hdecode, hstep, hbefore⟩, hafter⟩
    · rintro ⟨middle, ⟨type, next, hdecode, hstep, hbefore⟩, hafter⟩
      exact ⟨type, next, hdecode, hstep, middle, hbefore, hafter⟩

theorem Tracks.isName (ht : Tracks r h) (name : String) (type : TypeExpr)
    (hresolve : r.resolve name = some type) : IsName name :=
  (ht.valid name type hresolve).1

/-- A longer history is that of a registry that knows more. -/
theorem Tracks.extends (ht : Tracks r h) {added : History} (ht' : Tracks r' (h ++ added)) :
    r'.scope.Extends r.scope := by
  intro name type hresolve
  exact (ht'.resolve_iff name type).mpr
    (List.mem_append_left added ((ht.resolve_iff name type).mp hresolve))

theorem Tracks.decode_extend (ht : Tracks r h) {added : History} (ht' : Tracks r' (h ++ added))
    {text : String} {type : TypeExpr} (hdecode : decode limits r.scope text = .ok type) :
    decode limits r'.scope text = .ok type :=
  Reference.decode_extend (ht.extends ht') ht'.isName hdecode

/-- Paths with the types of those paths. -/
def ownNames (paths : List String) : History := paths.map fun path => (path, .named path)

theorem mem_ownNames_iff (paths : List String) (name : String) (type : TypeExpr) :
    (name, type) ∈ ownNames paths ↔ name ∈ paths ∧ type = .named name := by
  constructor
  · intro hmem
    obtain ⟨path, hpath, ⟨⟩⟩ := List.mem_map.mp hmem
    exact ⟨hpath, rfl⟩
  · rintro ⟨hpath, rfl⟩
    exact List.mem_map.mpr ⟨name, hpath, rfl⟩

theorem Tracks.registerTypes (ht : Tracks r h) {paths : List String}
    (hok : (r.registerTypes paths).outcome = .ok r') : Tracks r' (h ++ ownNames paths) := by
  induction paths generalizing r h with
  | nil =>
    cases hok
    rwa [ownNames, List.map_nil, List.append_nil]
  | cons path rest ih =>
    obtain ⟨middle, hstep, hrest⟩ := (registerTypes_cons_eq_ok_iff path rest).mp hok
    have hall := ih (ht.registerLogged hstep) hrest
    rwa [List.append_assoc] at hall

/-- The record is of the alias, with the type that its target has in the scope. -/
structure Records (limits : Reference.Limits) (scope : Scope) (entry : String × String)
    (record : String × TypeExpr) : Prop where
  name : record.1 = entry.1
  type : decode limits scope entry.2 = .ok record.2

theorem Tracks.registerAliases (ht : Tracks r h) {aliases : List (String × String)}
    (hok : (r.registerAliases limits aliases).outcome = .ok r') :
    ∃ added, Tracks r' (h ++ added) ∧ List.Forall₂ (Records limits r'.scope) aliases added := by
  induction aliases generalizing r h with
  | nil =>
    cases hok
    exact ⟨[], by rwa [List.append_nil], List.Forall₂.nil⟩
  | cons entry rest ih =>
    obtain ⟨name, target⟩ := entry
    obtain ⟨type, middle, hdecode, hstep, hrest⟩ := (registerAliases_cons_eq_ok_iff ..).mp hok
    have hmiddle := ht.registerLogged hstep
    rw [Reference.normalize_of_decode hdecode] at hmiddle
    obtain ⟨added, hall, hrecords⟩ := ih hmiddle hrest
    rw [List.append_assoc] at hall
    exact ⟨(name, type) :: added, hall, .cons ⟨rfl, ht.decode_extend hall hdecode⟩ hrecords⟩

theorem Reached.registerLogged (hr : r.Reached) {name : String} {type : TypeExpr}
    (hok : (r.registerLogged name type).outcome = .ok r') : r'.Reached := by
  obtain ⟨-, rfl⟩ := (registerLogged_eq_ok_iff r r' name type).mp hok
  exact hr.afterAll [.register name type]

theorem Reached.registerTypes (hr : r.Reached) {paths : List String}
    (hok : (r.registerTypes paths).outcome = .ok r') : r'.Reached := by
  induction paths generalizing r with
  | nil =>
    cases hok
    exact hr
  | cons path rest ih =>
    obtain ⟨middle, hstep, hrest⟩ := (registerTypes_cons_eq_ok_iff path rest).mp hok
    exact ih (hr.registerLogged hstep) hrest

theorem Reached.registerAliases (hr : r.Reached) {aliases : List (String × String)}
    (hok : (r.registerAliases limits aliases).outcome = .ok r') : r'.Reached := by
  induction aliases generalizing r with
  | nil =>
    cases hok
    exact hr
  | cons entry rest ih =>
    obtain ⟨type, middle, -, hstep, hrest⟩ := (registerAliases_cons_eq_ok_iff ..).mp hok
    exact ih (hr.registerLogged hstep) hrest

end Steps
end Registry

namespace Config

open Registry

/-- The configuration with other aliases. -/
def withAliases (c : Config) (aliases : Table String) : Config :=
  { c with references := { c.references with aliases } }

variable {c : Config} {r : Registry}

theorem registry_eq_ok_iff :
    c.registry = .ok r ↔
      ∃ named, ((Registry.new c.references.context).registerTypes
          c.references.namedTypes).outcome = .ok named ∧
        (named.registerAliases c.limits c.references.aliases).outcome = .ok r := by
  unfold registry registryLogged
  exact Logged.bind_eq_ok_iff _ _ r

/-- A configuration describes a registry that a run leads to, so that all holds of it that holds of
those. -/
theorem reached_registry (h : c.registry = .ok r) : r.Reached := by
  obtain ⟨named, htypes, haliases⟩ := registry_eq_ok_iff.mp h
  have hempty : (Registry.new c.references.context).Reached := ⟨_, [], rfl⟩
  exact (hempty.registerTypes htypes).registerAliases haliases

/-- The history of the registry that a configuration describes. -/
theorem exists_history (h : c.registry = .ok r) :
    ∃ added, Tracks r (ownNames c.references.namedTypes ++ added) ∧
      List.Forall₂ (Records c.limits r.scope) c.references.aliases added := by
  obtain ⟨named, htypes, haliases⟩ := registry_eq_ok_iff.mp h
  exact ((tracks_new _).registerTypes htypes).registerAliases haliases

/-- The target of an alias is read where the named types and the aliases before it are known. -/
theorem exists_registry_before (h : c.registry = .ok r) {before after : Table String}
    {name target : String} (hsplit : c.references.aliases = before ++ (name, target) :: after) :
    ∃ middle type, (c.withAliases before).registry = .ok middle ∧
      decode c.limits middle.scope target = .ok type := by
  obtain ⟨named, htypes, haliases⟩ := registry_eq_ok_iff.mp h
  rw [hsplit, registerAliases_append_eq_ok_iff] at haliases
  obtain ⟨middle, hbefore, hrest⟩ := haliases
  obtain ⟨type, _, hdecode, -, -⟩ := (registerAliases_cons_eq_ok_iff ..).mp hrest
  exact ⟨middle, type, registry_eq_ok_iff.mpr ⟨named, htypes, hbefore⟩, hdecode⟩

end Config
end Callable
