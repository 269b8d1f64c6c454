import Callable.Proofs.Registry.Run

/-!
Registries of paths. A run that registers paths only gives each name the type of that path, and no other
type has a name. So every type of several parts is written part by part, and a path has a written name
exactly if it was registered.
-/
namespace Callable

/-- Names stand for paths only, and a path is read and written by that path. -/
structure Scope.OfPaths (scope : Scope) : Prop where
  type_of_resolve : ∀ name type, scope.resolve name = some type → type = .named name
  type_of_nameOf : ∀ type name, scope.nameOf type = some name → type = .named name

theorem Scope.OfPaths.nameOf_eq_none {scope : Scope} (hscope : scope.OfPaths) {type : TypeExpr}
    (h : ∀ path, type ≠ .named path) : scope.nameOf type = none := by
  cases hname : scope.nameOf type with
  | none => rfl
  | some name => exact absurd (hscope.type_of_nameOf type name hname) (h name)

namespace Registry

/-- A registry that a run of registrations by path leads to. -/
def ReachedByPaths (r : Registry) : Prop :=
  ∃ (id : String) (paths : List String), r = (new id).afterAll (paths.map Call.registerNamed)

theorem ReachedByPaths.reached {r : Registry} (hr : r.ReachedByPaths) : r.Reached := by
  obtain ⟨id, paths, rfl⟩ := hr
  exact ⟨id, _, rfl⟩

/-- A registration by path records the type of that path. -/
theorem named_of_recorded (r : Registry) (path : String) :
    ∀ entry ∈ r.recorded (.registerNamed path), entry.2 = .named entry.1 := by
  intro entry hentry
  unfold recorded at hentry
  cases hanswer : r.answer (.registerNamed path) with
  | error e =>
    rw [hanswer] at hentry
    cases hentry
  | ok =>
    rw [hanswer] at hentry
    have heq : entry = (path, .named path) := List.mem_singleton.mp hentry
    rw [heq]

theorem named_of_history (r : Registry) (paths : List String) :
    ∀ entry ∈ r.history (paths.map Call.registerNamed), entry.2 = .named entry.1 := by
  induction paths generalizing r with
  | nil => exact List.forall_mem_nil _
  | cons path rest ih =>
    have hrest := ih (r.after (.registerNamed path))
    exact List.forall_mem_append.mpr ⟨named_of_recorded r path, hrest⟩

namespace ReachedByPaths

variable {r : Registry} (hr : r.ReachedByPaths)

include hr

theorem type_of_resolve {name : String} {type : TypeExpr} (h : r.resolve name = some type) :
    type = .named name := by
  obtain ⟨id, paths, rfl⟩ := hr
  have ht := tracks_run id (paths.map Call.registerNamed)
  have hmem := (ht.resolve_iff name type).mp h
  exact named_of_history (new id) paths (name, type) hmem

theorem ofPaths : r.scope.OfPaths where
  type_of_resolve _ _ h := hr.type_of_resolve h
  type_of_nameOf type name h := hr.type_of_resolve (hr.reached.resolve_of_nameOf type name h).2

theorem nameOf_eq_none_iff (path : String) :
    r.nameOf (.named path) = none ↔ r.resolve path = none := by
  constructor
  · intro h
    cases hresolve : r.resolve path with
    | none => rfl
    | some type =>
      obtain ⟨history, ht⟩ := hr.reached.tracks
      obtain rfl := hr.type_of_resolve hresolve
      obtain ⟨name, hname⟩ := (ht.exists_nameOf_iff (.named path)).mpr ⟨rfl, path, hresolve⟩
      cases h.symm.trans hname
  · intro h
    cases hname : r.nameOf (.named path) with
    | none => rfl
    | some name =>
      have hresolve := (hr.reached.resolve_of_nameOf _ name hname).2
      obtain rfl : path = name := TypeExpr.named.inj (hr.type_of_resolve hresolve)
      cases h.symm.trans hresolve

end ReachedByPaths
end Registry
end Callable
