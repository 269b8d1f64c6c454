import Callable.Descriptor.Basic
import Callable.Trace
/-!
Collecting exposed items by the names of their functions. Items without a descriptor are passed
over; of two items of one name the first is kept.
-/
namespace Callable.Exposure

def duplicateEvent (name : String) : Event :=
  ⟨.debug, "duplicate exposed name ignored", [("function", .text name)]⟩

def collectInto {ε α : Type} (descriptor? : α → Option Descriptor) (found : Table α) :
    List α → Logged ε (Table α)
  | [] => .ok found
  | item :: rest =>
    match descriptor? item with
    | none => collectInto descriptor? found rest
    | some d =>
      match found.get? d.name with
      | none => collectInto descriptor? (found.put d.name item) rest
      | some _ => do
        .note (duplicateEvent d.name)
        collectInto descriptor? found rest

/-- The exposed items by name. -/
def collect {ε α : Type} (descriptor? : α → Option Descriptor) (items : List α) :
    Logged ε (Table α) :=
  collectInto descriptor? [] items

end Callable.Exposure
