import Callable.Descriptor.Basic
import Callable.Json.Draft
/-!
Reading typed values from JSON. A record is an object, its members read in the order met, or an
array of its fields in the order declared. The first member that fails decides the error; fields
that are missing are noticed after all members were read. Members of other names are passed over
unless the record is closed.
-/
namespace Callable.Wire

/-- Where a draft comes from. A JSON text may be malformed where a value is merely of a wrong type. A
TOML document has no `null`, and parts of an array beyond the fields of a record are passed over. -/
inductive Origin where
  | text
  | value
  | toml
  deriving DecidableEq, Repr

inductive WireError where
  | flaw (flaw : Json.Flaw)
  | mismatch
  | missing (field : String)
  | unknown (field : String)
  | invalid (error : ParamError)
  deriving DecidableEq, Repr

abbrev Result (α : Type) := Except WireError α

/-- The error for a draft that is not of the form asked for: its flaw if it has one. -/
def refuse {α : Type} : Json.Draft → Result α
  | .unreadable => .error (.flaw .malformed)
  | .broken _ what => .error (.flaw what.wanted)
  | _ => .error .mismatch

def string : Json.Draft → Result String
  | .str s => .ok s
  | other => refuse other

def boolean : Json.Draft → Result Bool
  | .bool b => .ok b
  | other => refuse other

def natural : Json.Draft → Result Nat
  | .int n => if 0 ≤ n then .ok n.toNat else .error .mismatch
  | other => refuse other

def nullable {α : Type} (item : Json.Draft → Result α) : Json.Draft → Result (Option α)
  | .null => .ok none
  | other => (item other).map some

def anything (draft : Json.Draft) : Result Json :=
  match draft.toJson with
  | .ok value => .ok value.tidy
  | .error flaw => .error (.flaw flaw)

/-- A present value, `null` being one too. -/
def present (draft : Json.Draft) : Result (Option Json) := (anything draft).map some

def ended {α : Type} (ending : Json.Ending) (value : α) : Result α :=
  match ending.wanted? with
  | none => .ok value
  | some flaw => .error (.flaw flaw)

def readAll {α : Type} (item : Json.Draft → Result α) : List Json.Draft → Result (List α)
  | [] => .ok []
  | draft :: rest => do
    let a ← item draft
    return a :: (← readAll item rest)

def list {α : Type} (item : Json.Draft → Result α) : Json.Draft → Result (List α)
  | .arr items ending => do ended ending (← readAll item items)
  | other => refuse other

def readEntries {α : Type} (item : Json.Draft → Result α) (done : Table α) :
    List (Option String × Json.Draft) → Result (Table α)
  | [] => .ok done
  | (none, _) :: _ => .error (.flaw .malformed)
  | (some name, draft) :: rest => do readEntries item (done.put name (← item draft)) rest

/-- A table as an object; the last entry of a name wins. -/
def table {α : Type} (item : Json.Draft → Result α) : Json.Draft → Result (Table α)
  | .obj members ending => do ended ending (← readEntries item [] members)
  | other => refuse other

/-- What says nothing more about a word: `null`, or an empty array or table where there is none. -/
def isVoid (origin : Origin) : Json.Draft → Bool
  | .null => true
  | .arr [] .closed => origin = .toml
  | .obj [] .closed => origin = .toml
  | _ => false

/-- The error for what does not fit at all: in a text it counts as a flaw of the text. -/
def misplaced {α : Type} (origin : Origin) : Result α :=
  .error (if origin = .text then .flaw .malformed else .mismatch)

/-- One of several words; an object with the word as its only key and nothing under it will do. -/
def choice {α : Type} (origin : Origin) (words : List (String × α)) : Json.Draft → Result α
  | .str s =>
    match words.lookup s with
    | some a => .ok a
    | none => .error .mismatch
  | .obj ((some key, value) :: more) ending =>
    match words.lookup key with
    | none => .error .mismatch
    | some a =>
      if isVoid origin value then
        match more, ending with
        | [], .closed => .ok a
        | [], .broken what => .error (.flaw what.wanted)
        | _, _ => misplaced origin
      else refuse value
  | .obj [] (.broken what) => .error (.flaw what.wanted)
  | .unreadable => .error (.flaw .malformed)
  | .broken .nothing what | .broken .string what => .error (.flaw what.wanted)
  | _ => misplaced origin

structure Fields where
  found : List (String × Json.Draft)
  /-- Found by their places in an array, not by their names. -/
  byPlace : Bool

/-- A field of a record: its name and the test that its value can be read. -/
structure Field where
  name : String
  check : Json.Draft → Result Unit

def Field.of {α : Type} (name : String) (item : Json.Draft → Result α) : Field :=
  ⟨name, fun draft => (item draft).map fun _ => ()⟩

/-- Reads members by name; a name may not come twice. -/
def readMembers (fields : List Field) (closed : Bool) (found : List (String × Json.Draft)) :
    List (Option String × Json.Draft) → Result (List (String × Json.Draft))
  | [] => .ok found
  | (none, _) :: _ => .error (.flaw .malformed)
  | (some name, draft) :: rest =>
    match fields.find? (·.name = name) with
    | some field =>
      if (found.lookup name).isSome then .error .mismatch
      else do
        field.check draft
        readMembers fields closed ((name, draft) :: found) rest
    | none =>
      if closed then .error (.unknown name)
      else
        match draft.skip with
        | .error flaw => .error (.flaw flaw)
        | .ok () => readMembers fields closed found rest

/-- Reads the parts of an array as the fields of a record in the order declared. -/
def readPlaces (origin : Origin) (ending : Json.Ending) :
    List Field → List Json.Draft → Result (List (String × Json.Draft))
  | _, [] => ended ending []
  | [], _ :: _ =>
    match origin with
    | .text => .error (.flaw .malformed)
    | .value => .error .mismatch
    | .toml => ended ending []
  | field :: fields, draft :: rest => do
    field.check draft
    return (field.name, draft) :: (← readPlaces origin ending fields rest)

def record (origin : Origin) (fields : List Field) (closed : Bool) : Json.Draft → Result Fields
  | .obj members ending => do
    let found ← readMembers fields closed [] members
    ended ending ⟨found, false⟩
  | .arr items ending => do return ⟨← readPlaces origin ending fields items, true⟩
  | other => refuse other

namespace Fields

variable {α : Type}

def need (fields : Fields) (name : String) (item : Json.Draft → Result α) : Result α :=
  match fields.found.lookup name with
  | some draft => item draft
  | none => .error (if fields.byPlace then .mismatch else .missing name)

def getD (fields : Fields) (name : String) (item : Json.Draft → Result α) (absent : α) :
    Result α :=
  match fields.found.lookup name with
  | some draft => item draft
  | none => .ok absent

end Fields
end Callable.Wire
