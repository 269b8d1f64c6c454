import Callable.Proofs.Reference.RoundTrip

/-!
References outlive the scope that issued them. A scope extends another one if it keeps the type of
every name the other knows; it may know more names and write types under other ones. All that derives
from the grammar in a scope derives in its extensions, so a reference keeps its type there. Every run
extends the scope of the registry it starts from.
-/
namespace Callable

/-- Every name that `base` resolves has the same type in `scope`. -/
def Scope.Extends (scope base : Scope) : Prop :=
  ∀ name type, base.resolve name = some type → scope.resolve name = some type

theorem Registry.extends_afterAll (r : Registry) (calls : List Registry.Call) :
    (r.afterAll calls).scope.Extends r.scope :=
  fun _ _ h => resolve_afterAll r calls h

namespace Reference

section Extends

variable {base scope : Scope}

theorem NameDenotes.extend (hext : scope.Extends base) {name : String} {type : TypeExpr}
    (h : NameDenotes base name type) : NameDenotes scope name type := by
  cases h with
  | registered hresolve => exact NameDenotes.registered (hext name type hresolve)
  | builtin b => exact NameDenotes.builtin b
  | _ => constructor

mutual

theorem DerivesType.extend (hext : scope.Extends base) {depth : Nat} {tokens : List Token}
    {type : TypeExpr} (h : DerivesType base depth tokens type) :
    DerivesType scope depth tokens type := by
  match h with
  | .term hterm => exact DerivesType.term (hterm.extend hext)
  | .union hterm hmore => exact DerivesType.union (hterm.extend hext) (hmore.extend hext)

theorem DerivesAlternatives.extend (hext : scope.Extends base) {depth : Nat}
    {tokens : List Token} {types : List TypeExpr} (h : DerivesAlternatives base depth tokens types) :
    DerivesAlternatives scope depth tokens types := by
  match h with
  | .last hterm => exact DerivesAlternatives.last (hterm.extend hext)
  | .more hterm hmore => exact DerivesAlternatives.more (hterm.extend hext) (hmore.extend hext)

theorem DerivesTerm.extend (hext : scope.Extends base) {depth : Nat} {tokens : List Token}
    {type : TypeExpr} (h : DerivesTerm base depth tokens type) :
    DerivesTerm scope depth tokens type := by
  match h with
  | .name hname => exact DerivesTerm.name (hname.extend hext)
  | .form hargs hdenotes => exact DerivesTerm.form (hargs.extend hext) hdenotes
  | .literal hvalues => exact DerivesTerm.literal hvalues
  | .emptyTuple hhead => exact DerivesTerm.emptyTuple hhead

theorem DerivesArguments.extend (hext : scope.Extends base) {depth : Nat} {tokens : List Token}
    {types : List TypeExpr} (h : DerivesArguments base depth tokens types) :
    DerivesArguments scope depth tokens types := by
  match h with
  | .last htype => exact DerivesArguments.last (htype.extend hext)
  | .comma htype => exact DerivesArguments.comma (htype.extend hext)
  | .more htype hmore => exact DerivesArguments.more (htype.extend hext) (hmore.extend hext)

end

/-- A scope in which only proper names have types decodes all that it extends decodes, alike. -/
theorem decode_extend (hext : scope.Extends base)
    (hnames : ∀ name type, scope.resolve name = some type → IsName name) {limits : Limits}
    {text : String} {value : TypeExpr} (h : decode limits base text = .ok value) :
    decode limits scope text = .ok value := by
  have hbase : ∀ name type, base.resolve name = some type → IsName name :=
    fun name type hresolve => hnames name type (hext name type hresolve)
  obtain ⟨hsize, tokens, type, hspells, hderives, hvalue⟩ :=
    (decode_eq_ok_iff hbase limits text value).mp h
  exact (decode_eq_ok_iff hnames limits text value).mpr
    ⟨hsize, tokens, type, hspells, hderives.extend hext, hvalue⟩

end Extends

/-- However a registry grows, what its references denote stays: each is decoded to the type it was
decoded to before, and the reference of a type to the normal form of that type. A reference that the
grown registry gives the same type, perhaps under a newer name, denotes the same. -/
theorem decode_afterAll (r : Registry) (hr : r.Reached) (limits : Limits)
    (calls : List Registry.Call) :
    (∀ text value, decode limits r.scope text = .ok value →
      decode limits (r.afterAll calls).scope text = .ok value) ∧
    ∀ type text, encode limits r.scope type = .ok text →
      decode limits (r.afterAll calls).scope text = .ok type.normalize ∧
      ∀ newer, encode limits (r.afterAll calls).scope type = .ok newer →
        decode limits (r.afterAll calls).scope newer = .ok type.normalize := by
  have hgrown : (r.afterAll calls).Reached := hr.afterAll calls
  have hkept : ∀ text value, decode limits r.scope text = .ok value →
      decode limits (r.afterAll calls).scope text = .ok value :=
    fun text value h => decode_extend (r.extends_afterAll calls) hgrown.isName h
  refine ⟨hkept, ?_⟩
  intro type text h
  have hissued : decode limits r.scope text = .ok type.normalize :=
    decode_of_encode hr.resolve_of_nameOf hr.isName h
  refine ⟨hkept text type.normalize hissued, ?_⟩
  intro newer hnewer
  exact decode_of_encode hgrown.resolve_of_nameOf hgrown.isName hnewer

/-- A registry that knows cells, before rows of them have a name. -/
def cells : Registry := (Registry.new "tables").afterAll [.registerNamed "db.Cell"]

def nameRows : Registry.Call := .register "db.Row" (.list (.named "db.Cell"))

/-- Rows are written under their new name, and the reference issued before still denotes them. -/
theorem decode_afterAll_cells :
    cells.Reached ∧
      encode ⟨100, 2⟩ cells.scope (.list (.named "db.Cell")) = .ok "List[db.Cell]" ∧
      encode ⟨100, 2⟩ (cells.afterAll [nameRows]).scope (.list (.named "db.Cell")) =
        .ok "db.Row" ∧
      decode ⟨100, 2⟩ (cells.afterAll [nameRows]).scope "List[db.Cell]" =
        .ok (.list (.named "db.Cell")) ∧
      decode ⟨100, 2⟩ (cells.afterAll [nameRows]).scope "db.Row" =
        .ok (.list (.named "db.Cell")) := by
  have hr : cells.Reached := ⟨_, _, rfl⟩
  have hissued : encode ⟨100, 2⟩ cells.scope (.list (.named "db.Cell")) =
      .ok "List[db.Cell]" := by
    decide +kernel
  have hnewer : encode ⟨100, 2⟩ (cells.afterAll [nameRows]).scope (.list (.named "db.Cell")) =
      .ok "db.Row" := by
    decide +kernel
  obtain ⟨hkept, hnew⟩ := (decode_afterAll cells hr ⟨100, 2⟩ [nameRows]).2 _ _ hissued
  exact ⟨hr, hissued, hnewer, hkept, hnew _ hnewer⟩

end Reference
end Callable
