import Callable.Decimal.Layout
import Callable.Table
/-!
JSON values. An object lists its members; a tidy object lists them by increasing key, each key once,
and `Json.tidy` brings a value to that form, the last member of a key winning. Integers are kept
apart from floating-point numbers: `1` and `1.0` are different values.
-/
namespace Callable

inductive Json where
  | null
  | bool (b : Bool)
  | int (n : Int)
  | float (x : Decimal.Binary)
  | str (s : String)
  | arr (items : List Json)
  | obj (members : List (String × Json))
  deriving Repr, Inhabited

namespace Json

mutual

/-- Structural equality, decided. -/
def beq : Json → Json → Bool
  | .null, .null => true
  | .bool a, .bool b => a == b
  | .int a, .int b => a == b
  | .float a, .float b => a == b
  | .str a, .str b => a == b
  | .arr a, .arr b => beqItems a b
  | .obj a, .obj b => beqMembers a b
  | _, _ => false

def beqItems : List Json → List Json → Bool
  | [], [] => true
  | a :: as, b :: bs => beq a b && beqItems as bs
  | _, _ => false

def beqMembers : List (String × Json) → List (String × Json) → Bool
  | [], [] => true
  | (k, a) :: as, (l, b) :: bs => k == l && (beq a b && beqMembers as bs)
  | _, _ => false

end

mutual

theorem eq_of_beq {a b : Json} (h : beq a b = true) : a = b := by
  cases a <;> cases b <;> simp [beq] at h ⊢
  all_goals first
    | exact h
    | exact eq_of_beqItems h
    | exact eq_of_beqMembers h

theorem eq_of_beqItems {as bs : List Json} (h : beqItems as bs = true) : as = bs := by
  cases as <;> cases bs <;> simp [beqItems] at h ⊢
  exact ⟨eq_of_beq h.1, eq_of_beqItems h.2⟩

theorem eq_of_beqMembers {as bs : List (String × Json)} (h : beqMembers as bs = true) :
    as = bs := by
  match as, bs with
  | [], [] => rfl
  | [], _ :: _ => simp [beqMembers] at h
  | _ :: _, [] => simp [beqMembers] at h
  | (k, a) :: as, (l, b) :: bs =>
    simp [beqMembers] at h
    obtain ⟨hk, ha, hs⟩ := h
    rw [hk, eq_of_beq ha, eq_of_beqMembers hs]

end

mutual

theorem beq_refl (a : Json) : beq a a = true := by
  cases a <;> simp [beq]
  · exact beqItems_refl _
  · exact beqMembers_refl _

theorem beqItems_refl (as : List Json) : beqItems as as = true := by
  cases as <;> simp [beqItems]
  exact ⟨beq_refl _, beqItems_refl _⟩

theorem beqMembers_refl (as : List (String × Json)) : beqMembers as as = true := by
  match as with
  | [] => rfl
  | (k, a) :: as =>
    simp [beqMembers]
    exact ⟨beq_refl a, beqMembers_refl as⟩

end

instance : DecidableEq Json := fun a b =>
  decidable_of_iff (beq a b = true) ⟨eq_of_beq, fun h => h ▸ beq_refl a⟩

mutual

/-- Every object with its members by increasing key, the last member of a key winning. -/
def tidy : Json → Json
  | .arr items => .arr (tidyItems items)
  | .obj members => .obj (tidyMembers members [])
  | other => other

def tidyItems : List Json → List Json
  | [] => []
  | item :: rest => tidy item :: tidyItems rest

def tidyMembers : List (String × Json) → Table Json → Table Json
  | [], done => done
  | (key, value) :: rest, done => tidyMembers rest (Table.put key (tidy value) done)

end

/-- The first member of an object with the given key. -/
def member? (key : String) : Json → Option Json
  | .obj members => members.lookup key
  | _ => none

end Json
end Callable
