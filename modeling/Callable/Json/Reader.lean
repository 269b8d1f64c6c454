import Callable.Json.Token
/-!
Reading JSON text. The reader goes over the tokens once and keeps the arrays and objects that are
still open on a stack; at the first token that does not fit it closes them around the flaw.
-/
namespace Callable.Json

/-- An array or object that is still open, its parts in reverse. A `member` waits for the value of
the key that was read last. -/
inductive Frame where
  | array (items : List Draft)
  | object (members : List (Option String × Draft))
  | member (members : List (Option String × Draft)) (key : Option String)

inductive Due where
  | value
  /-- Just after an opening bracket. -/
  | firstItem
  /-- Just after an opening brace. -/
  | firstKey
  | key
  | colon (key : Option String)
  /-- A comma or the end of the array or object. -/
  | more

structure Document where
  value : Draft
  /-- Something follows the value. -/
  trailing : Bool

/-- How many arrays and objects may be open at once. -/
def nestingLimit : Nat := 127

/-- An array or object that is complete; nested too deeply, it cannot be kept. -/
def complete (depth : Nat) (draft : Draft) : Draft :=
  if depth < nestingLimit then draft
  else
    match draft.skip with
    | .ok () => .tooDeep none
    | .error flaw => .tooDeep (some flaw)

/-- Closes what is open around a value after which nothing can be read. -/
def abandon : List Frame → Draft → Draft
  | [], value => value
  | .array items :: rest, value =>
    abandon rest (complete rest.length (.arr (value :: items).reverse .closed))
  | .member members key :: rest, value =>
    abandon rest (complete rest.length (.obj ((key, value) :: members).reverse .closed))
  | .object members :: rest, _ =>
    abandon rest (complete rest.length (.obj members.reverse .closed))

def stop (stack : List Frame) (due : Due) (begun : Begun) (what : Break) : Draft :=
  match due, stack with
  | .value, stack => abandon stack (.broken begun what)
  | .colon key, .object members :: rest =>
    abandon (.member members key :: rest) (.broken begun what)
  | .key, .object members :: rest =>
    abandon rest (complete rest.length (.obj members.reverse (.dangling what)))
  | _, .array items :: rest =>
    abandon rest (complete rest.length (.arr items.reverse (.broken what)))
  | _, .object members :: rest =>
    abandon rest (complete rest.length (.obj members.reverse (.broken what)))
  | _, stack => abandon stack (.broken begun what)

def misfit (stack : List Frame) (due : Due) : Document :=
  ⟨stop stack due .nothing (.of .malformed), false⟩

/-- Puts a complete value where it belongs: the stack after it, or the document's value. -/
def place (stack : List Frame) (value : Draft) : Except Draft (List Frame) :=
  match stack with
  | [] => .error value
  | .array items :: outer => .ok (.array (value :: items) :: outer)
  | .member members key :: outer => .ok (.object ((key, value) :: members) :: outer)
  | .object members :: outer => .ok (.object members :: outer)

def read (stack : List Frame) (due : Due) : List Token → Document
  | [] => ⟨stop stack due .nothing (.of .unfinished), false⟩
  | token :: rest =>
    let after (outer : List Frame) (value : Draft) : Document :=
      match place outer value with
      | .ok stack => read stack .more rest
      | .error value => ⟨value, !rest.isEmpty⟩
    match due, token with
    | .firstItem, .closeArray | .more, .closeArray =>
      match stack with
      | .array items :: outer => after outer (complete outer.length (.arr items.reverse .closed))
      | stack => misfit stack due
    | .firstKey, .closeObject | .more, .closeObject =>
      match stack with
      | .object members :: outer => after outer (complete outer.length (.obj members.reverse .closed))
      | stack => misfit stack due
    | .more, .comma =>
      match stack with
      | .array _ :: _ => read stack .value rest
      | _ => read stack .key rest
    | .firstKey, .str content | .key, .str content => read stack (.colon content) rest
    | .firstKey, .brokenString what | .key, .brokenString what => ⟨stop stack due .string what, false⟩
    | .colon key, .colon =>
      match stack with
      | .object members :: outer => read (.member members key :: outer) .value rest
      | stack => misfit stack due
    | .value, .openArray | .firstItem, .openArray => read (.array [] :: stack) .firstItem rest
    | .value, .openObject | .firstItem, .openObject => read (.object [] :: stack) .firstKey rest
    | .value, .str content | .firstItem, .str content =>
      after stack ((content.map Draft.str).getD .unreadable)
    | .value, .atom value | .firstItem, .atom value => after stack value
    | .value, .brokenString what | .firstItem, .brokenString what =>
      ⟨stop stack .value .string what, false⟩
    | .value, .brokenAtom what | .firstItem, .brokenAtom what =>
      ⟨stop stack .value .atom what, false⟩
    | due, _ => misfit stack due

def ofText (text : String) : Document := read [] .value (tokens text.toList)

def parse (text : String) : Except Flaw Json := do
  let document := ofText text
  let value ← document.value.toJson
  if document.trailing then .error .malformed else return value

end Callable.Json
