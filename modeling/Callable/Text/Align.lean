/-!
Aligning a text in a column: blanks fill it up to a width counted in characters, a text that is
wider stays as it is.
-/
namespace Callable.Text

inductive Alignment where
  | left
  | right
  /-- Of an odd number of blanks the last stands on the right. -/
  | center

def align (side : Alignment) (width : Nat) (text : String) : String :=
  let room := width - text.length
  let before := match side with
    | .left => 0
    | .right => room
    | .center => room / 2
  let blanks := fun n => String.ofList (List.replicate n ' ')
  blanks before ++ text ++ blanks (room - before)

end Callable.Text
