/-!
Tables: lists of named entries by increasing name, each name once.
-/
namespace Callable

abbrev Table (α : Type) := List (String × α)

theorem lookup_cons_eq_ite {κ α : Type} [DecidableEq κ] (key other : κ) (value : α)
    (rest : List (κ × α)) :
    List.lookup other ((key, value) :: rest) =
      if other = key then some value else List.lookup other rest := by
  by_cases h : other = key
  · subst h
    rw [List.lookup_cons_self, if_pos rfl]
  · rw [List.lookup_cons, beq_false_of_ne h, if_neg h]

namespace Table

variable {α : Type}

/-- The table with an entry put in its place; an entry of the same name is replaced. -/
def put (name : String) (value : α) : Table α → Table α
  | [] => [(name, value)]
  | (n, v) :: rest =>
    if name < n then (name, value) :: (n, v) :: rest
    else if name = n then (name, value) :: rest
    else (n, v) :: put name value rest

def get? (table : Table α) (name : String) : Option α := List.lookup name table

theorem get?_put (name : String) (value : α) (table : Table α) (other : String) :
    (table.put name value).get? other = if other = name then some value else table.get? other := by
  unfold get?
  induction table with
  | nil => rw [put, lookup_cons_eq_ite]
  | cons entry rest ih =>
    obtain ⟨n, v⟩ := entry
    unfold put
    split
    · rw [lookup_cons_eq_ite]
    · split
      · rename_i heq
        subst heq
        rw [lookup_cons_eq_ite, lookup_cons_eq_ite]
        by_cases ho : other = name <;> simp only [ho, if_true, if_false]
      · rename_i hne
        rw [lookup_cons_eq_ite, lookup_cons_eq_ite, ih]
        by_cases ho : other = n
        · subst ho
          rw [if_pos rfl, if_neg (Ne.symm hne), if_pos rfl]
        · rw [if_neg ho, if_neg ho]

/-- The table of some entries, the last entry of a name winning. -/
def ofList (entries : List (String × α)) : Table α :=
  entries.foldl (fun table entry => table.put entry.1 entry.2) []

def mapValues {β : Type} (f : α → β) (table : Table α) : Table β :=
  List.map (fun (name, value) => (name, f value)) table

end Table
end Callable
