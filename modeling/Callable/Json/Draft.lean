import Callable.Json.Basic
/-!
A JSON document as a reader meets it. A draft keeps what stands before the first flaw of a text, the
place of the flaw, and members in the order written with repeated keys, so that a typed reader can
report whichever comes first: a value of the wrong type or the flaw. A draft of a value has no flaw.
-/
namespace Callable.Json

/-- Why a text is no JSON text: a wrong character, or the end of the text too early. -/
inductive Flaw where
  | malformed
  | unfinished
  deriving DecidableEq, Repr

/-- A flaw as it shows to those who want the value that was due and to those who pass over it. The
two differ where the text ends inside a number, which is malformed to those who pass over it, and
where it ends inside a string with half a surrogate pair, beyond which nobody reads who wants it. -/
structure Break where
  wanted : Flaw
  passed : Flaw
  deriving DecidableEq, Repr

def Break.of (flaw : Flaw) : Break := ⟨flaw, flaw⟩

/-- How an array or object ends: with its bracket, or with a flaw where a comma or the bracket was
due, or with a flaw after a comma, where a key was due. -/
inductive Ending where
  | closed
  | broken (what : Break)
  | dangling (what : Break)
  deriving DecidableEq, Repr

namespace Ending

def wanted? : Ending → Option Flaw
  | closed => none
  | broken what | dangling what => some what.wanted

def passed? : Ending → Option Flaw
  | closed => none
  | broken what | dangling what => some what.passed

end Ending

/-- What a text breaks off in, where a value was due. -/
inductive Begun where
  | nothing
  | string
  /-- A word or a number. -/
  | atom
  deriving DecidableEq, Repr

/-- Where a text stops being readable, `broken` stands for the value that was due there, and the
`ending` of an array or object for a comma or bracket. A value that is well delimited but cannot be
kept (half a surrogate pair, a number out of range) is `unreadable`: it is an error only if somebody
wants it. So is an array or object that is nested too deeply, but for the flaw `inside` it, which is
met even by those who pass over it. A key that cannot be kept is `none`. -/
inductive Draft where
  | null
  | bool (b : Bool)
  | int (n : Int)
  | float (x : Decimal.Binary)
  | str (s : String)
  | arr (items : List Draft) (ending : Ending)
  | obj (members : List (Option String × Draft)) (ending : Ending)
  | unreadable
  | tooDeep (inside : Option Flaw)
  | broken (begun : Begun) (what : Break)
  deriving Inhabited

namespace Draft

mutual

def ofJson : Json → Draft
  | .null => .null
  | .bool b => .bool b
  | .int n => .int n
  | .float x => .float x
  | .str s => .str s
  | .arr items => .arr (ofItems items) .closed
  | .obj members => .obj (ofMembers members) .closed

def ofItems : List Json → List Draft
  | [] => []
  | item :: rest => ofJson item :: ofItems rest

def ofMembers : List (String × Json) → List (Option String × Draft)
  | [] => []
  | (key, value) :: rest => (some key, ofJson value) :: ofMembers rest

end

/-- A value, or the flaw that was met at its end. -/
def endWith {α : Type} (ending : Option Flaw) (value : α) : Except Flaw α :=
  match ending with
  | none => .ok value
  | some flaw => .error flaw

mutual

/-- The value of a draft, or its first flaw. -/
def toJson : Draft → Except Flaw Json
  | .null => .ok .null
  | .bool b => .ok (.bool b)
  | .int n => .ok (.int n)
  | .float x => .ok (.float x)
  | .str s => .ok (.str s)
  | .arr items ending => do endWith ending.wanted? (.arr (← toItems items))
  | .obj members ending => do endWith ending.wanted? (.obj (← toMembers members))
  | .unreadable | .tooDeep _ => .error .malformed
  | .broken _ what => .error what.wanted

def toItems : List Draft → Except Flaw (List Json)
  | [] => .ok []
  | item :: rest => do
    let value ← toJson item
    return value :: (← toItems rest)

def toMembers : List (Option String × Draft) → Except Flaw (List (String × Json))
  | [] => .ok []
  | (none, _) :: _ => .error .malformed
  | (some key, value) :: rest => do
    let value ← toJson value
    return (key, value) :: (← toMembers rest)

end

mutual

/-- The first flaw of a draft whose value nobody wants: what is merely unreadable is passed over. -/
def skip : Draft → Except Flaw Unit
  | .arr items ending => do skipItems items; endWith ending.passed? ()
  | .obj members ending => do skipMembers members; endWith ending.passed? ()
  | .tooDeep inside => endWith inside ()
  | .broken _ what => .error what.passed
  | _ => .ok ()

def skipItems : List Draft → Except Flaw Unit
  | [] => .ok ()
  | item :: rest => do skip item; skipItems rest

def skipMembers : List (Option String × Draft) → Except Flaw Unit
  | [] => .ok ()
  | (_, value) :: rest => do skip value; skipMembers rest

end

end Draft
end Callable.Json
