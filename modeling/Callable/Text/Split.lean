import Callable.Text.Blank
/-!
Cutting texts: into lines, at a separator, at the first place of a pattern, into words. Nothing but
the separators is lost.
-/
namespace Callable.Text

/-- The lines of a text. A line ends at a line feed, with a carriage return before it or not; a text
that ends there has no further line. -/
def lines : List Char → List (List Char)
  | [] => []
  | '\n' :: rest => [] :: lines rest
  | '\r' :: '\n' :: rest => [] :: lines rest
  | c :: rest =>
    match lines rest with
    | [] => [[c]]
    | first :: others => (c :: first) :: others

/-- The pieces between the separators, always one more than there are separators. -/
def splitAt {α : Type} [DecidableEq α] (separator : α) : List α → List (List α)
  | [] => [[]]
  | c :: rest =>
    if c = separator then [] :: splitAt separator rest
    else
      match splitAt separator rest with
      | [] => [[c]]
      | first :: others => (c :: first) :: others

/-- What stands before the first place of a pattern and what stands after it. -/
def cut? (pattern : List Char) : List Char → Option (List Char × List Char)
  | [] => if pattern = [] then some ([], []) else none
  | c :: rest =>
    if pattern.isPrefixOf (c :: rest) then some ([], (c :: rest).drop pattern.length)
    else (cut? pattern rest).map fun (before, after) => (c :: before, after)

def dropPrefix? (pattern text : List Char) : Option (List Char) :=
  if pattern.isPrefixOf text then some (text.drop pattern.length) else none

def dropSuffix? (pattern text : List Char) : Option (List Char) :=
  if pattern.isSuffixOf text then some (text.take (text.length - pattern.length)) else none

/-- The maximal runs of characters that are not blank; `open?` says whether a run is under way. -/
def wordsFrom (open? : Bool) : List Char → List (List Char)
  | [] => if open? then [[]] else []
  | c :: rest =>
    if isBlank c then
      if open? then [] :: wordsFrom false rest else wordsFrom false rest
    else
      match wordsFrom true rest with
      | [] => [[c]]
      | first :: others => (c :: first) :: others

def words (text : List Char) : List (List Char) := wordsFrom false text

def byteLength : List Char → Nat
  | [] => 0
  | c :: rest => c.utf8Size + byteLength rest

def joinLines (lines : List (List Char)) : List Char := [' '].intercalate lines

end Callable.Text
