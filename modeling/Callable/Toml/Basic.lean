import Callable.Json.Draft
import Callable.Table
import Callable.Toml.Moment
import Callable.Word
/-!
TOML documents: strings, numbers, booleans, dates and times, arrays and tables. A table remembers
how it came to be, because that decides who may still add to it: a header does not open a table
twice, dotted keys add only to tables that dotted keys began, and nothing is added to a table in
braces.
-/
namespace Callable

namespace Toml

inductive TableOrigin where
  /-- By a header of its own. -/
  | header
  /-- On the way to a table that has a header. -/
  | passage
  /-- By dotted keys. -/
  | dots
  /-- Written in braces. -/
  | braces
  deriving DecidableEq, Repr

end Toml

inductive Toml where
  | string (s : String)
  | integer (n : Int)
  /-- A number that is no integer, as it is written. -/
  | float (text : String)
  | boolean (b : Bool)
  | moment (moment : Toml.Moment)
  | array (items : List Toml)
  | table (origin : Toml.TableOrigin) (entries : List (String × Toml))
  /-- An array of tables with a header each, the later ones first. The last is still open. -/
  | tables (earlier : List Toml) (last : List (String × Toml))
  deriving Inhabited

namespace Toml

/-- Puts a value under a dotted key that is not in use. A dotted key may lead through tables that
headers only passed, but the value itself goes to a table that dotted keys began. -/
def insert (value : Toml) : List String → Table Toml → Option (Table Toml)
  | [], _ => none
  | [name], entries => if (entries.get? name).isSome then none else some (entries.put name value)
  | name :: next :: path, entries => do
    let inner := insert value (next :: path)
    let extended ← match entries.get? name with
      | none => (inner []).map (.table .dots)
      | some (.table .dots below) => (inner below).map (.table .dots)
      | some (.table .passage below) =>
        if path.isEmpty then none else (inner below).map (.table .passage)
      | some (.tables earlier last) =>
        if path.isEmpty then none else (inner last).map (.tables earlier)
      | some _ => none
    return entries.put name extended

/-- Opens the table that a header names and fills it. A header in double brackets opens one table
more of an array. -/
def openTable (double : Bool) (fill : Table Toml → Option (Table Toml)) :
    List String → Table Toml → Option (Table Toml)
  | [], _ => none
  | [name], entries => do
    let opened ← match double, entries.get? name with
      | false, none => (fill []).map (.table .header)
      | false, some (.table .passage inner) => (fill inner).map (.table .header)
      | true, none => (fill []).map (.tables [])
      | true, some (.tables earlier last) =>
        (fill []).map (.tables (.table .header last :: earlier))
      | _, _ => none
    return entries.put name opened
  | name :: path, entries => do
    let passed ← match entries.get? name with
      | none => (openTable double fill path []).map (.table .passage)
      | some (.table .braces _) => none
      | some (.table origin inner) => (openTable double fill path inner).map (.table origin)
      | some (.tables earlier last) => (openTable double fill path last).map (.tables earlier)
      | some _ => none
    return entries.put name passed

/-- The name of the entry that a date or time stands under where a table is asked for. -/
def momentKey : String := "$__toml_private_datetime"

mutual

/-- The document as a draft for a typed reader. An integer of more than 64 bits and a number that is
no integer are nothing that it could read; a date or time is a table with one entry for its text. -/
def draft : Toml → Json.Draft
  | .string s => .str s
  | .integer n => if Word.fits n then .int n else .unreadable
  | .float _ => .unreadable
  | .boolean b => .bool b
  | .moment m => .obj [(some momentKey, .str m.text)] .closed
  | .array items => .arr (draftItems items) .closed
  | .table _ entries => .obj (draftEntries entries) .closed
  | .tables earlier last =>
    .arr (.obj (draftEntries last) .closed :: draftItems earlier).reverse .closed

def draftItems : List Toml → List Json.Draft
  | [] => []
  | item :: rest => draft item :: draftItems rest

def draftEntries : List (String × Toml) → List (Option String × Json.Draft)
  | [] => []
  | (name, value) :: rest => (some name, draft value) :: draftEntries rest

end

end Toml
end Callable
