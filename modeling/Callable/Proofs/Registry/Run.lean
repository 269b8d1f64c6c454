import Callable.Proofs.Registry.Name
import Callable.Proofs.TypeExpr.NormalForm
import Callable.Proofs.TypeExpr.Part

/-!
Runs of a registry. A call fails, repeats what is registered, or adds a name; only the last changes
the registry. The two maps of a registry are tied to the history of its run: a name resolves to a
type exactly if they were registered together, and the written name of a type is the first one in
the history.
-/
namespace Callable.Registry

/-- A registration as it is asked for. -/
inductive Call where
  | register (name : String) (type : TypeExpr)
  | registerNamed (path : String)

def Call.session : Call → Session Unit
  | register name type => Registry.register name type
  | registerNamed path => Registry.registerNamed path

def Call.name : Call → String
  | register name _ => name
  | registerNamed path => path

/-- The type that a call registers, in normal form. -/
def Call.type : Call → TypeExpr
  | register _ type => type.normalize
  | registerNamed path => .named path

/-- What the registry answers to a call. -/
def answer (r : Registry) (call : Call) : Except RegistryError Unit := (call.session.run r).1

/-- The registry after a call, whether it failed or not. -/
def after (r : Registry) (call : Call) : Registry := (call.session.run r).2

def afterAll (r : Registry) (calls : List Call) : Registry := calls.foldl after r

/-- A registry that some run leads to. -/
def Reached (r : Registry) : Prop := ∃ id calls, r = (new id).afterAll calls

/-- Names with their types, in the order of the calls that succeeded. -/
abbrev History := List (String × TypeExpr)

/-- What a call adds to the history. -/
def recorded (r : Registry) (call : Call) : History :=
  match r.answer call with
  | .ok () => [(call.name, call.type)]
  | .error _ => []

def history (r : Registry) : List Call → History
  | [] => []
  | call :: rest => r.recorded call ++ (r.after call).history rest

/-- The first name in a history that was registered for a type. -/
def History.firstName (h : History) (type : TypeExpr) : Option String :=
  (h.find? fun entry => entry.2 = type).map Prod.fst

theorem resolve_add (r : Registry) (name other : String) (type : TypeExpr) :
    (r.add name type).resolve other = if other = name then some type else r.resolve other :=
  Table.get?_put name type r.entries other

theorem nameOf_add (r : Registry) (name : String) (type other : TypeExpr) :
    (r.add name type).nameOf other =
      if other = type ∧ type.isSelfNamed = false ∧ r.nameOf type = none then some name
      else r.nameOf other := by
  change List.lookup other
    (if (type.isSelfNamed || (r.nameOf type).isSome) = true then r.spellings
    else (type, name) :: r.spellings) = _
  split
  · rename_i hold
    rw [if_neg]
    · rfl
    · intro hneeds
      obtain ⟨-, hself, hnone⟩ := hneeds
      simp [hself, hnone] at hold
  · rename_i hnew
    have hneeds : type.isSelfNamed = false ∧ r.nameOf type = none := by simpa using hnew
    rw [lookup_cons_eq_ite]
    simp only [hneeds, and_true]
    rfl

/-- Whether a call may succeed: its name and type are in order, and the name is not taken by another
type. -/
structure Admits (r : Registry) (call : Call) : Prop where
  name : IsName call.name
  named : call.type.hasAnonymous = false
  free : ∀ existing, r.resolve call.name = some existing → existing = call.type

/-- All that a call can do. -/
inductive Outcome (r : Registry) (call : Call) : Prop
  | failed (e : RegistryError) : ¬ r.Admits call → r.answer call = .error e →
      r.after call = r → Outcome r call
  | repeated : r.Admits call → r.resolve call.name = some call.type → r.answer call = .ok () →
      r.after call = r → Outcome r call
  | added : r.Admits call → r.resolve call.name = none → r.answer call = .ok () →
      r.after call = r.add call.name call.type → Outcome r call

theorem run_register (r : Registry) (name : String) (type : TypeExpr) :
    (register name type).run r =
      match checkName name with
      | .error e => (.error e, r)
      | .ok () =>
        if type.normalize.hasAnonymous then (.error (.anonymous name), r)
        else
          match r.resolve name with
          | some existing =>
            if existing = type.normalize then (.ok (), r) else (.error (.conflict name), r)
          | none => (.ok (), r.add name type.normalize) := by
  unfold register
  cases checkName name with
  | error e => rfl
  | ok =>
    by_cases hanon : type.normalize.hasAnonymous = true
    · simp only [hanon, if_true]
      rfl
    · simp only [hanon]
      change (match r.resolve name with
        | some existing => if existing = type.normalize then pure () else throw (.conflict name)
        | none => modify fun r => r.add name type.normalize : Session Unit).run r = _
      cases r.resolve name with
      | none => rfl
      | some existing => by_cases h : existing = type.normalize <;> simp only [h] <;> rfl

theorem outcome (r : Registry) (call : Call) : Outcome r call := by
  obtain ⟨given, hgiven, hsession⟩ : ∃ given : TypeExpr, given.normalize = call.type ∧
      call.session = register call.name given := by
    cases call with
    | register name type => exact ⟨type, rfl, rfl⟩
    | registerNamed path => exact ⟨.named path, rfl, rfl⟩
  have hrun := run_register r call.name given
  rw [hgiven, ← hsession] at hrun
  cases hname : checkName call.name with
  | error e =>
    rw [hname] at hrun
    refine Outcome.failed e ?_ (congrArg Prod.fst hrun) (congrArg Prod.snd hrun)
    intro hadmits
    rw [(checkName_eq_ok_iff call.name).mpr hadmits.name] at hname
    cases hname
  | ok =>
    have hvalid := (checkName_eq_ok_iff call.name).mp hname
    by_cases hanon : call.type.hasAnonymous = true
    · simp only [hname, hanon, if_true] at hrun
      refine Outcome.failed _ ?_ (congrArg Prod.fst hrun) (congrArg Prod.snd hrun)
      exact fun hadmits => Bool.false_ne_true (hadmits.named.symm.trans hanon)
    · rw [Bool.not_eq_true] at hanon
      simp only [hname, hanon, Bool.false_eq_true, if_false] at hrun
      cases hresolve : r.resolve call.name with
      | none =>
        rw [hresolve] at hrun
        exact Outcome.added ⟨hvalid, hanon, by simp [hresolve]⟩ hresolve
          (congrArg Prod.fst hrun) (congrArg Prod.snd hrun)
      | some existing =>
        by_cases heq : existing = call.type
        · subst heq
          simp only [hresolve, if_true] at hrun
          exact Outcome.repeated ⟨hvalid, hanon, by simp [hresolve]⟩ hresolve
            (congrArg Prod.fst hrun) (congrArg Prod.snd hrun)
        · simp only [hresolve, heq, if_false] at hrun
          refine Outcome.failed _ ?_ (congrArg Prod.fst hrun) (congrArg Prod.snd hrun)
          exact fun hadmits => heq (hadmits.free existing hresolve)

theorem Call.isNormal_type (call : Call) : call.type.IsNormal := by
  cases call with
  | register name type => exact TypeExpr.isNormal_normalize type
  | registerNamed path => trivial

namespace History

theorem firstName_append (h h' : History) (type : TypeExpr) :
    firstName (h ++ h') type = (h.firstName type).or (h'.firstName type) := by
  unfold firstName
  rw [List.find?_append]
  cases h.find? fun entry => entry.2 = type <;> rfl

theorem firstName_singleton (name : String) (type other : TypeExpr) :
    firstName [(name, type)] other = if other = type then some name else none := by
  by_cases heq : other = type
  · simp [firstName, heq]
  · simp [firstName, heq, Ne.symm heq]

theorem mem_of_firstName {h : History} {name : String} {type : TypeExpr}
    (hfirst : h.firstName type = some name) : (name, type) ∈ h := by
  obtain ⟨⟨n, t⟩, hfind, rfl⟩ := Option.map_eq_some_iff.mp hfirst
  have ht : t = type := by simpa using List.find?_some hfind
  exact ht ▸ List.mem_of_find?_eq_some hfind

theorem exists_firstName {h : History} {name : String} {type : TypeExpr}
    (hmem : (name, type) ∈ h) : ∃ first, h.firstName type = some first := by
  cases hfirst : h.firstName type with
  | some first => exact ⟨first, rfl⟩
  | none =>
    rw [firstName, Option.map_eq_none_iff, List.find?_eq_none] at hfirst
    exact absurd (by simp) (hfirst (name, type) hmem)

end History

/-- What ties a registry to the history of its run. -/
structure Tracks (r : Registry) (h : History) : Prop where
  resolve_iff : ∀ name type, r.resolve name = some type ↔ (name, type) ∈ h
  valid : ∀ name type, r.resolve name = some type →
    IsName name ∧ type.IsNormal ∧ type.hasAnonymous = false
  nameOf_eq : ∀ type, r.nameOf type = if type.isSelfNamed then none else h.firstName type

theorem tracks_new (id : String) : Tracks (new id) [] where
  resolve_iff name type := by simp [new, resolve, Table.get?]
  valid name type h := by simp [new, resolve, Table.get?] at h
  nameOf_eq type := by simp [new, nameOf, History.firstName]

theorem Tracks.add {r : Registry} {h : History} (ht : Tracks r h) {name : String}
    {type : TypeExpr} (hnew : r.resolve name = none) (hname : IsName name) (hnormal : type.IsNormal)
    (hanon : type.hasAnonymous = false) : Tracks (r.add name type) (h ++ [(name, type)]) where
  resolve_iff other type' := by
    rw [resolve_add, List.mem_append, List.mem_singleton, Prod.mk.injEq, ← ht.resolve_iff]
    by_cases heq : other = name
    · subst heq
      simp [hnew, eq_comm]
    · simp [heq]
  valid other type' h := by
    rw [resolve_add] at h
    split at h
    · rename_i heq
      cases h
      exact ⟨heq ▸ hname, hnormal, hanon⟩
    · exact ht.valid other type' h
  nameOf_eq other := by
    rw [nameOf_add, History.firstName_append, History.firstName_singleton, ht.nameOf_eq,
      ht.nameOf_eq]
    by_cases hself : other.isSelfNamed = true
    · by_cases heq : other = type
      · subst heq
        simp [hself]
      · simp [hself, heq]
    · by_cases heq : other = type
      · subst heq
        cases hfirst : h.firstName other <;> simp [hself]
      · simp [hself, heq]

/-- A pair that is recorded again changes nothing that the history tells. -/
theorem Tracks.repeat {r : Registry} {h : History} (ht : Tracks r h) {name : String}
    {type : TypeExpr} (hold : r.resolve name = some type) : Tracks r (h ++ [(name, type)]) where
  resolve_iff other type' := by
    rw [List.mem_append, List.mem_singleton, ← ht.resolve_iff, Prod.mk.injEq]
    constructor
    · exact Or.inl
    · intro hmem
      rcases hmem with h | ⟨rfl, rfl⟩
      · exact h
      · exact hold
  valid := ht.valid
  nameOf_eq other := by
    rw [ht.nameOf_eq, History.firstName_append, History.firstName_singleton]
    by_cases heq : other = type
    · subst heq
      obtain ⟨first, hfirst⟩ := History.exists_firstName ((ht.resolve_iff name other).mp hold)
      simp [hfirst]
    · simp [heq]

theorem Tracks.after {r : Registry} {h : History} (ht : Tracks r h) (call : Call) :
    Tracks (r.after call) (h ++ r.recorded call) := by
  unfold recorded
  cases outcome r call with
  | failed e _ hanswer hafter =>
    rw [hanswer, hafter, List.append_nil]
    exact ht
  | repeated _ hold hanswer hafter =>
    rw [hanswer, hafter]
    exact ht.repeat hold
  | added hadmits hnew hanswer hafter =>
    rw [hanswer, hafter]
    exact ht.add hnew hadmits.name call.isNormal_type hadmits.named

theorem Tracks.afterAll {r : Registry} {h : History} (ht : Tracks r h) (calls : List Call) :
    Tracks (r.afterAll calls) (h ++ r.history calls) := by
  induction calls generalizing r h with
  | nil => simpa [Registry.afterAll, history] using ht
  | cons call rest ih =>
    have hrest := ih (ht.after call)
    rw [List.append_assoc] at hrest
    exact hrest

theorem tracks_run (id : String) (calls : List Call) :
    Tracks ((new id).afterAll calls) ((new id).history calls) := by
  simpa only [List.nil_append] using (tracks_new id).afterAll calls

/-- A call keeps the types of all names. -/
theorem resolve_after (r : Registry) (call : Call) {name : String} {type : TypeExpr}
    (h : r.resolve name = some type) : (r.after call).resolve name = some type := by
  cases outcome r call with
  | failed e _ _ hafter => rw [hafter, h]
  | repeated _ _ _ hafter => rw [hafter, h]
  | added _ hnew _ hafter =>
    rw [hafter, resolve_add, if_neg, h]
    rintro rfl
    rw [hnew] at h
    exact Option.some_ne_none type h.symm

theorem resolve_afterAll (r : Registry) (calls : List Call) {name : String} {type : TypeExpr}
    (h : r.resolve name = some type) : (r.afterAll calls).resolve name = some type := by
  induction calls generalizing r with
  | nil => exact h
  | cons call rest ih => exact ih (r.after call) (resolve_after r call h)

theorem after_of_error (r : Registry) (call : Call) {e : RegistryError}
    (h : r.answer call = .error e) : r.after call = r := by
  cases outcome r call with
  | failed _ _ _ hafter => exact hafter
  | repeated _ _ hanswer _ => cases hanswer.symm.trans h
  | added _ _ hanswer _ => cases hanswer.symm.trans h

theorem answer_eq_ok_iff (r : Registry) (call : Call) : r.answer call = .ok () ↔ r.Admits call := by
  cases outcome r call with
  | failed _ hnot hanswer _ =>
    rw [hanswer]
    exact iff_of_false (by rintro ⟨⟩) hnot
  | repeated hadmits _ hanswer _ => exact iff_of_true hanswer hadmits
  | added hadmits _ hanswer _ => exact iff_of_true hanswer hadmits

theorem Tracks.after_of_registered {r : Registry} {h : History} (ht : Tracks r h) (call : Call)
    (hold : r.resolve call.name = some call.type) :
    r.answer call = .ok () ∧ r.after call = r := by
  obtain ⟨hname, -, hanon⟩ := ht.valid call.name call.type hold
  have hadmits : r.Admits call := ⟨hname, hanon, fun _ h => Option.some.inj (h.symm.trans hold)⟩
  cases outcome r call with
  | failed _ hnot _ _ => exact absurd hadmits hnot
  | repeated _ _ hanswer hafter => exact ⟨hanswer, hafter⟩
  | added _ hnew _ _ => cases hnew.symm.trans hold

theorem Tracks.nameOf_iff {r : Registry} {h : History} (ht : Tracks r h) (type : TypeExpr)
    (name : String) :
    r.nameOf type = some name ↔ type.isSelfNamed = false ∧ h.firstName type = some name := by
  rw [ht.nameOf_eq]
  cases type.isSelfNamed <;> simp

theorem isSelfNamed_eq_false_iff (type : TypeExpr) :
    type.isSelfNamed = false ↔ type ≠ .any ∧ type ≠ .none ∧ ∀ b, type ≠ .builtin b := by
  cases type <;> simp [TypeExpr.isSelfNamed]

theorem Tracks.resolve_of_nameOf {r : Registry} {h : History} (ht : Tracks r h) {type : TypeExpr}
    {name : String} (hname : r.nameOf type = some name) : r.resolve name = some type :=
  (ht.resolve_iff name type).mpr
    (History.mem_of_firstName ((ht.nameOf_iff type name).mp hname).2)

theorem Tracks.exists_nameOf_iff {r : Registry} {h : History} (ht : Tracks r h)
    (type : TypeExpr) :
    (∃ name, r.nameOf type = some name) ↔
      type.isSelfNamed = false ∧ ∃ name, r.resolve name = some type := by
  constructor
  · intro hnamed
    obtain ⟨name, hname⟩ := hnamed
    exact ⟨((ht.nameOf_iff type name).mp hname).1, name, ht.resolve_of_nameOf hname⟩
  · intro hregistered
    obtain ⟨hself, name, hold⟩ := hregistered
    obtain ⟨first, hfirst⟩ := History.exists_firstName ((ht.resolve_iff name type).mp hold)
    exact ⟨first, (ht.nameOf_iff type first).mpr ⟨hself, hfirst⟩⟩

theorem Reached.tracks {r : Registry} (hr : r.Reached) : ∃ h, Tracks r h := by
  obtain ⟨id, calls, rfl⟩ := hr
  exact ⟨_, tracks_run id calls⟩

theorem Reached.afterAll {r : Registry} (hr : r.Reached) (calls : List Call) :
    (r.afterAll calls).Reached := by
  obtain ⟨id, before, rfl⟩ := hr
  exact ⟨id, before ++ calls, List.foldl_append.symm⟩

theorem Reached.isName {r : Registry} (hr : r.Reached) (name : String) (type : TypeExpr)
    (h : r.resolve name = some type) : IsName name := by
  obtain ⟨history, ht⟩ := hr.tracks
  exact (ht.valid name type h).1

theorem Reached.resolve_of_nameOf {r : Registry} (hr : r.Reached) (type : TypeExpr)
    (name : String) (h : r.nameOf type = some name) :
    IsName name ∧ r.resolve name = some type := by
  obtain ⟨history, ht⟩ := hr.tracks
  have hresolve := ht.resolve_of_nameOf h
  exact ⟨hr.isName name type hresolve, hresolve⟩

/-- After every run, a name stands for a type exactly if a call that succeeded registered the two
together, and a call succeeds exactly if its name and type are in order and agree with what is there.
Calls that fail or repeat what is registered change nothing, names keep their types for good, and the
written name of a type is the first one that was registered for it, unless the type is written by its
own name. -/
theorem run_invariant (id : String) (calls : List Call) :
    let r := (new id).afterAll calls
    (∀ name type, r.resolve name = some type ↔ (name, type) ∈ (new id).history calls) ∧
    (∀ call, r.answer call = .ok () ↔ r.Admits call) ∧
    (∀ name type, r.resolve name = some type →
      IsName name ∧ type.IsNormal ∧ ∀ hint, ¬ TypeExpr.IsPart (.anonymous hint) type) ∧
    (∀ call e, r.answer call = .error e → r.after call = r) ∧
    (∀ call, r.resolve call.name = some call.type →
      r.answer call = .ok () ∧ r.after call = r) ∧
    (∀ name type more, r.resolve name = some type →
      (r.afterAll more).resolve name = some type) ∧
    (∀ type name, r.nameOf type = some name ↔
      (type ≠ .any ∧ type ≠ .none ∧ ∀ b, type ≠ .builtin b) ∧
        ((new id).history calls).firstName type = some name) ∧
    (∀ type, (∃ name, r.nameOf type = some name) ↔
      (type ≠ .any ∧ type ≠ .none ∧ ∀ b, type ≠ .builtin b) ∧
        ∃ name, r.resolve name = some type) ∧
    (∀ type name, r.nameOf type = some name → r.resolve name = some type) := by
  intro r
  have ht : Tracks r ((new id).history calls) := tracks_run id calls
  simp only [← isSelfNamed_eq_false_iff]
  refine ⟨ht.resolve_iff, answer_eq_ok_iff r, ?_, fun call e => after_of_error r call,
    ht.after_of_registered, fun name type more => resolve_afterAll r more, ht.nameOf_iff,
    ht.exists_nameOf_iff, fun type name => ht.resolve_of_nameOf⟩
  intro name type h
  obtain ⟨hname, hnormal, hanon⟩ := ht.valid name type h
  exact ⟨hname, hnormal, (TypeExpr.hasAnonymous_eq_false_iff type).mp hanon⟩

end Callable.Registry
