import Callable.Json.Writer
/-!
Canonical JSON text, one text for each value: compact, the members of an object ordered by their
keys as written, quotes included, whole numbers without a point and zero without a sign.
-/
namespace Callable.Json

/-- Members by the written form of their keys. -/
def sortWritten (members : List (String × String)) : List (String × String) :=
  members.mergeSort fun a b => a.1 ≤ b.1

mutual

def canonical : Json → String
  | .float x => Decimal.Layout.canonical.write Decimal.Format.double x
  | .arr items => "[" ++ ",".intercalate (canonicalItems items) ++ "]"
  | .obj members =>
    let written := (sortWritten (canonicalMembers members)).map fun (key, value) => key ++ ":" ++ value
    "\x7b" ++ ",".intercalate written ++ "\x7d"
  | other => other.write

def canonicalItems : List Json → List String
  | [] => []
  | item :: rest => canonical item :: canonicalItems rest

/-- The written keys and values of members. -/
def canonicalMembers : List (String × Json) → List (String × String)
  | [] => []
  | (key, value) :: rest => (quoted key, canonical value) :: canonicalMembers rest

end

end Callable.Json
