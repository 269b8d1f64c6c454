import Callable.Text.Split
/-!
Files as a program sees them from the directory it works in. Paths are bytes, their segments
separated by slashes. Of the directories above the working directory only those that files were
written to are known.
-/
namespace Callable

abbrev Bytes := List UInt8

/-- A place relative to the working directory: `above` directories up, and from there down by the
names, of which the innermost stands first. -/
structure Place where
  above : Nat
  names : List Bytes
  deriving DecidableEq, Repr

namespace Place

def home : Place := ⟨0, []⟩

def child (place : Place) (name : Bytes) : Place := { place with names := name :: place.names }

def parent : Place → Place
  | ⟨above, []⟩ => ⟨above + 1, []⟩
  | ⟨above, _ :: names⟩ => ⟨above, names⟩

end Place

inductive FileEntry where
  | directory
  | file (content : ByteArray)

/-- The known entries, the latest of a place first. The working directory and those above it are
directories without being listed. -/
abbrev Files := List (Place × FileEntry)

namespace Files

def slash : UInt8 := 47

def dot : UInt8 := 46

/-- Paths of this many bytes or more cannot be opened. -/
def pathLimit : Nat := 4096

def entry? (files : Files) (place : Place) : Option FileEntry :=
  if place.names = [] then some .directory else files.lookup place

/-- The place to which the segments of a path lead. All that stands on the way is a directory, and
so is what an empty segment or a single dot stands for. -/
def locate (files : Files) (place : Place) : List Bytes → Option Place
  | [] => some place
  | segment :: rest =>
    match files.entry? place with
    | some .directory =>
      if segment = [] ∨ segment = [dot] then files.locate place rest
      else if segment = [dot, dot] then files.locate place.parent rest
      else files.locate (place.child segment) rest
    | _ => none

/-- The content of the file that a path names. Paths from the root are not known. -/
def read? (files : Files) (path : Bytes) : Option ByteArray := do
  if pathLimit ≤ path.length ∨ path.head? = some slash then none
  let place ← files.locate .home (Text.splitAt slash path)
  match ← files.entry? place with
  | .file content => some content
  | .directory => none

/-- Makes the directories on the way to the last of some segments; that segment and its place. -/
def makeWay (files : Files) (place : Place) : List Bytes → Files × Place
  | [] => (files, place)
  | [name] => (files, place.child name)
  | segment :: rest =>
    if segment = [] ∨ segment = [dot] then files.makeWay place rest
    else if segment = [dot, dot] then files.makeWay place.parent rest
    else
      let inner := place.child segment
      let files := if (files.entry? inner).isSome then files else (inner, .directory) :: files
      files.makeWay inner rest

def write (files : Files) (path : Bytes) (content : ByteArray) : Files :=
  let (files, place) := files.makeWay .home (Text.splitAt slash path)
  (place, .file content) :: files

end Files
end Callable
