import Callable.Config.Load
import Callable.Proofs.Config.Growth
import Callable.Proofs.Reference.Provenance
import Callable.Proofs.Wire.Tidiness

/-!
What a configuration means. The names of its registry are the named types and the aliases, each with the
type that the configuration gives it. As aliases are in the order of their names, an alias uses no alias
after it, and a type is written under the least of its aliases.
-/
namespace Callable

open Reference (decode lexemes isKnown_of_decode)

section Order

open Reference (exists_of_bind_eq_ok)

theorem Wire.isSorted_of_referenceSettings {origin : Origin} {draft : Json.Draft}
    {s : ReferenceSettings} (h : referenceSettings origin draft = .ok s) : s.aliases.IsSorted := by
  obtain ⟨fields, -, h⟩ := exists_of_bind_eq_ok h
  obtain ⟨context, -, h⟩ := exists_of_bind_eq_ok h
  obtain ⟨maxBytes, -, h⟩ := exists_of_bind_eq_ok h
  obtain ⟨maxDepth, -, h⟩ := exists_of_bind_eq_ok h
  obtain ⟨namedTypes, -, h⟩ := exists_of_bind_eq_ok h
  obtain ⟨aliases, haliases, h⟩ := exists_of_bind_eq_ok h
  cases h
  exact isSorted_of_getD haliases

theorem Wire.isSorted_of_config {origin : Origin} {draft : Json.Draft} {c : Config}
    (h : config origin draft = .ok c) : c.references.aliases.IsSorted := by
  obtain ⟨fields, -, h⟩ := exists_of_bind_eq_ok h
  obtain ⟨references, hreferences, h⟩ := exists_of_bind_eq_ok h
  obtain ⟨docstrings, -, h⟩ := exists_of_bind_eq_ok h
  cases h
  rcases getD_cases hreferences with rfl | ⟨draft, hdraft⟩
  · exact Table.isSorted_nil
  · exact isSorted_of_referenceSettings hdraft

theorem Config.eq_of_accept {outcome : Wire.Result Config} {c : Config}
    (h : accept outcome = .ok c) : outcome = .ok c := by
  unfold accept at h
  split at h
  · cases h
  · split at h
    · cases h
    · cases h
      rfl

/-- A configuration has its aliases in order, whichever text it was read from. -/
theorem Config.isSorted_of_read {c : Config}
    (h : (∃ value, ofJson value = .ok c) ∨ ∃ text, ofToml text = .ok c) :
    c.references.aliases.IsSorted := by
  rcases h with ⟨value, h⟩ | ⟨text, h⟩
  · exact Wire.isSorted_of_config (eq_of_accept h)
  · unfold ofToml at h
    split at h
    · cases h
    · exact Wire.isSorted_of_config (eq_of_accept h)

end Order

/-- The word is a name in the reference, outside quotes. -/
def Reference.Mentions (text word : String) : Prop :=
  ∃ found start, lexemes text = .ok found ∧ ⟨.name word, start⟩ ∈ found

namespace Registry

theorem mem_names_iff (r : Registry) (name : String) :
    name ∈ r.names ↔ ∃ type, r.resolve name = some type := by
  constructor
  · intro hname
    cases hresolve : r.resolve name with
    | some type => exact ⟨type, rfl⟩
    | none =>
      obtain ⟨entry, hentry, rfl⟩ := List.mem_map.mp hname
      have hother : (entry.1 != entry.1) = true :=
        List.lookup_eq_none_iff.mp hresolve entry hentry
      exact absurd rfl (bne_iff_ne.mp hother)
  · rintro ⟨type, hresolve⟩
    exact List.mem_map_of_mem (mem_of_lookup hresolve)

namespace History

theorem firstName_cons (entry : String × TypeExpr) (h : History) (type : TypeExpr) :
    firstName (entry :: h) type = if entry.2 = type then some entry.1 else h.firstName type := by
  by_cases heq : entry.2 = type
  · simp [firstName, heq]
  · simp [firstName, heq]

/-- In a history by increasing names the first name of a type is the least one. -/
theorem firstName_le {h : History} (hsorted : Table.IsSorted h) {name : String} {type : TypeExpr}
    (hfirst : h.firstName type = some name) {other : String} (hother : (other, type) ∈ h) :
    name ≤ other := by
  induction h with
  | nil => cases hother
  | cons entry rest ih =>
    obtain ⟨hleast, hrest⟩ := List.pairwise_cons.mp hsorted
    rw [firstName_cons] at hfirst
    rcases List.mem_cons.mp hother with rfl | hother
    · rw [if_pos rfl] at hfirst
      exact (Option.some.inj hfirst) ▸ String.le_refl _
    · by_cases heq : entry.2 = type
      · rw [if_pos heq] at hfirst
        exact (Option.some.inj hfirst) ▸ Std.le_of_lt (hleast _ hother)
      · rw [if_neg heq] at hfirst
        exact ih hrest hfirst hother

theorem firstName_ownNames (paths : List String) {type : TypeExpr}
    (hcomposite : ∀ path, type ≠ .named path) : firstName (ownNames paths) type = none := by
  cases hfirst : firstName (ownNames paths) type with
  | none => rfl
  | some name =>
    have hmem := (mem_ownNames_iff paths name type).mp (mem_of_firstName hfirst)
    exact absurd hmem.2 (hcomposite name)

end History

section Aliases

variable {limits : Reference.Limits} {scope : Scope} {aliases : Table String} {added : History}

theorem map_fst_of_records (h : List.Forall₂ (Records limits scope) aliases added) :
    added.map Prod.fst = aliases.map Prod.fst := by
  induction h with
  | nil => rfl
  | cons hrecord _ ih => rw [List.map_cons, List.map_cons, hrecord.name, ih]

theorem exists_record (h : List.Forall₂ (Records limits scope) aliases added)
    {name target : String} (hmem : (name, target) ∈ aliases) :
    ∃ type, decode limits scope target = .ok type ∧ (name, type) ∈ added := by
  induction h with
  | nil => cases hmem
  | @cons entry record rest more hrecord _ ih =>
    rcases List.mem_cons.mp hmem with rfl | hmem
    · obtain ⟨name', type⟩ := record
      obtain rfl : name' = name := hrecord.name
      exact ⟨type, hrecord.type, List.mem_cons_self⟩
    · obtain ⟨type, hdecode, hadded⟩ := ih hmem
      exact ⟨type, hdecode, List.mem_cons_of_mem _ hadded⟩

theorem isSorted_of_records (h : List.Forall₂ (Records limits scope) aliases added)
    (hsorted : aliases.IsSorted) : Table.IsSorted added := by
  have hnames : (aliases.map Prod.fst).Pairwise (· < ·) := List.pairwise_map.mpr hsorted
  rw [← map_fst_of_records h] at hnames
  exact List.pairwise_map.mp hnames

end Aliases
end Registry

namespace Config

open Registry

def aliasNames (c : Config) : List String := c.references.aliases.map Prod.fst

variable {c : Config} {r : Registry}

theorem resolve_cases (h : c.registry = .ok r) {name : String} {type : TypeExpr}
    (hresolve : r.resolve name = some type) :
    name ∈ c.references.namedTypes ∨ name ∈ c.aliasNames := by
  obtain ⟨added, ht, hrecords⟩ := exists_history h
  rcases List.mem_append.mp ((ht.resolve_iff name type).mp hresolve) with hown | hadded
  · exact Or.inl ((mem_ownNames_iff _ name type).mp hown).1
  · have hname : name ∈ added.map Prod.fst := List.mem_map_of_mem hadded
    rw [map_fst_of_records hrecords] at hname
    exact Or.inr hname

theorem resolve_namedType (h : c.registry = .ok r) {path : String}
    (hpath : path ∈ c.references.namedTypes) : r.resolve path = some (.named path) := by
  obtain ⟨added, ht, -⟩ := exists_history h
  have hown : (path, .named path) ∈ ownNames c.references.namedTypes :=
    (mem_ownNames_iff _ _ _).mpr ⟨hpath, rfl⟩
  exact (ht.resolve_iff _ _).mpr (List.mem_append_left added hown)

theorem resolve_alias (h : c.registry = .ok r) {name target : String}
    (halias : (name, target) ∈ c.references.aliases) :
    ∃ type, decode c.limits r.scope target = .ok type ∧ r.resolve name = some type := by
  obtain ⟨added, ht, hrecords⟩ := exists_history h
  obtain ⟨type, hdecode, hadded⟩ := exists_record hrecords halias
  exact ⟨type, hdecode, (ht.resolve_iff name type).mpr (List.mem_append_right _ hadded)⟩

/-- An alias uses named types and the aliases before it, nothing else that has to be registered. -/
theorem mentions_cases (hsorted : c.references.aliases.IsSorted) (h : c.registry = .ok r)
    {name target word : String} (halias : (name, target) ∈ c.references.aliases)
    (hword : Reference.Mentions target word) (hfree : isReserved word = false) :
    word ∈ c.references.namedTypes ∨ word ∈ c.aliasNames ∧ word < name := by
  obtain ⟨before, after, hsplit⟩ := List.append_of_mem halias
  obtain ⟨middle, type, hmiddle, hdecode⟩ := exists_registry_before h hsplit
  obtain ⟨found, hfound, hknown⟩ := isKnown_of_decode (reached_registry hmiddle).isName hdecode
  obtain ⟨found', start, hfound', hmem⟩ := hword
  obtain rfl : found = found' := Except.ok.inj (hfound.symm.trans hfound')
  rcases hknown _ hmem with hreserved | ⟨source, hresolve⟩
  · exact absurd (hfree.symm.trans hreserved) Bool.false_ne_true
  · rcases resolve_cases hmiddle hresolve with hnamed | hearlier
    · exact Or.inl hnamed
    · -- the aliases of the smaller configuration are those in front of this one
      obtain ⟨entry, hentry, rfl⟩ := List.mem_map.mp hearlier
      have hmem : entry ∈ c.references.aliases := hsplit ▸ List.mem_append_left _ hentry
      have hbefore : entry.1 < name := by
        rw [hsplit] at hsorted
        exact (List.pairwise_append.mp hsorted).2.2 entry hentry _ List.mem_cons_self
      exact Or.inr ⟨List.mem_map_of_mem hmem, hbefore⟩

/-- A composite type with a name has an alias, and is written under the least one. -/
theorem exists_least_alias (hsorted : c.references.aliases.IsSorted) (h : c.registry = .ok r)
    {name : String} {type : TypeExpr} (hresolve : r.resolve name = some type)
    (hself : type.isSelfNamed = false) (hcomposite : ∀ path, type ≠ .named path) :
    ∃ least ∈ c.aliasNames, r.nameOf type = some least ∧ r.resolve least = some type ∧
      ∀ other ∈ c.aliasNames, r.resolve other = some type → least ≤ other := by
  obtain ⟨added, ht, hrecords⟩ := exists_history h
  have hadded : ∀ other, r.resolve other = some type → (other, type) ∈ added := by
    intro other hother
    rcases List.mem_append.mp ((ht.resolve_iff other type).mp hother) with hown | hadded
    · exact absurd ((mem_ownNames_iff _ _ _).mp hown).2 (hcomposite other)
    · exact hadded
  obtain ⟨least, hleast⟩ := History.exists_firstName (hadded name hresolve)
  have hname : r.nameOf type = some least := by
    rw [ht.nameOf_iff, History.firstName_append, History.firstName_ownNames _ hcomposite]
    exact ⟨hself, hleast⟩
  have hmem : least ∈ added.map Prod.fst :=
    List.mem_map_of_mem (History.mem_of_firstName hleast)
  rw [map_fst_of_records hrecords] at hmem
  refine ⟨least, hmem, hname, ht.resolve_of_nameOf hname, ?_⟩
  intro other _ hother
  exact History.firstName_le (isSorted_of_records hrecords hsorted) hleast (hadded other hother)

/-- The registry of a configuration knows the named types and the aliases and nothing else. A named type
denotes itself, an alias what its target denotes in the finished registry. Targets use named types and
earlier aliases only, so no alias depends on itself. Of several aliases for one composite type the least
is the name under which it is written. -/
theorem registry_meaning (c : Config) (hsorted : c.references.aliases.IsSorted) (r : Registry)
    (h : c.registry = .ok r) :
    (∀ name, name ∈ r.names ↔ name ∈ c.references.namedTypes ∨ name ∈ c.aliasNames) ∧
    (∀ path ∈ c.references.namedTypes, r.resolve path = some (.named path)) ∧
    (∀ name target, (name, target) ∈ c.references.aliases →
      (∃ type, decode c.limits r.scope target = .ok type ∧ r.resolve name = some type) ∧
      ∀ word, Reference.Mentions target word → isReserved word = false →
        word ∈ c.references.namedTypes ∨ word ∈ c.aliasNames ∧ word < name) ∧
    ∀ name type, name ∈ c.aliasNames → r.resolve name = some type → type.isSelfNamed = false →
      (∀ path, type ≠ .named path) →
        ∃ least ∈ c.aliasNames, r.nameOf type = some least ∧ r.resolve least = some type ∧
          ∀ other ∈ c.aliasNames, r.resolve other = some type → least ≤ other := by
  refine ⟨?_, fun path hpath => resolve_namedType h hpath, ?_, ?_⟩
  · intro name
    rw [mem_names_iff]
    constructor
    · rintro ⟨type, hresolve⟩
      exact resolve_cases h hresolve
    · rintro (hnamed | halias)
      · exact ⟨_, resolve_namedType h hnamed⟩
      · obtain ⟨entry, hentry, rfl⟩ := List.mem_map.mp halias
        obtain ⟨type, -, hresolve⟩ := resolve_alias h hentry
        exact ⟨type, hresolve⟩
  · intro name target halias
    exact ⟨resolve_alias h halias, fun word => mentions_cases hsorted h halias⟩
  · intro name type _ hresolve hself hcomposite
    exact exists_least_alias hsorted h hresolve hself hcomposite

/-- Rows have two names, and cells are an alias of themselves. -/
def tables : Config :=
  { references :=
      { context := "tables"
        namedTypes := ["db.Cell"]
        aliases := [("Row", "List[db.Cell]"), ("Table", "Set[Row]"), ("db.Cell", "db.Cell"),
          ("db.Row", "list[db.Cell]")] } }

def rowType : TypeExpr := .list (.named "db.Cell")

def tablesRegistry : Registry :=
  { id := "tables"
    entries := [("Row", rowType), ("Table", .set rowType), ("db.Cell", .named "db.Cell"),
      ("db.Row", rowType)]
    spellings := [(.set rowType, "Table"), (rowType, "Row"), (.named "db.Cell", "db.Cell")] }

theorem registry_meaning_tables :
    tables.references.aliases.IsSorted ∧ tables.registry = .ok tablesRegistry ∧
      tablesRegistry.resolve "db.Cell" = some (.named "db.Cell") ∧
      (∃ type, decode tables.limits tablesRegistry.scope "Set[Row]" = .ok type ∧
        tablesRegistry.resolve "Table" = some type) ∧
      ("Row" ∈ tables.references.namedTypes ∨ "Row" ∈ tables.aliasNames ∧ "Row" < "Table") ∧
      tablesRegistry.nameOf rowType = some "Row" ∧
      ∀ other ∈ tables.aliasNames, tablesRegistry.resolve other = some rowType →
        "Row" ≤ other := by
  have hsorted : tables.references.aliases.IsSorted := by
    unfold Table.IsSorted
    decide +kernel
  have hbuilt : tables.registry = .ok tablesRegistry := by decide +kernel
  obtain ⟨-, hnamed, haliases, hwritten⟩ :=
    registry_meaning tables hsorted tablesRegistry hbuilt
  obtain ⟨htable, hmentions⟩ := haliases "Table" "Set[Row]" (by decide)
  have hlexemes : lexemes "Set[Row]" = .ok [⟨.name "Set", 0⟩, ⟨.openBracket, 3⟩,
      ⟨.name "Row", 4⟩, ⟨.closeBracket, 7⟩] := by
    decide +kernel
  have hrow : tablesRegistry.nameOf rowType = some "Row" := by decide
  obtain ⟨least, -, hleast, -, hle⟩ :=
    hwritten "Row" rowType (by decide) (by decide) rfl nofun
  obtain rfl : least = "Row" := Option.some.inj (hleast.symm.trans hrow)
  exact ⟨hsorted, hbuilt, hnamed "db.Cell" (by decide), htable,
    hmentions "Row" ⟨_, 4, hlexemes, by decide⟩ (by decide), hrow, hle⟩

end Config
end Callable
