/-!
Reading bytes as UTF-8 when some of them are not. Bytes that do not go on to form a character are
replaced by U+FFFD, one for each longest run of bytes that begins a character but does not end it.
-/
namespace Callable.Text

def replacement : Char := Char.ofNat 0xFFFD

/-- A character of which some bytes are still due. The next byte lies between `low` and `high`, the
ones after it anywhere among the continuation bytes. -/
structure Unfinished where
  value : Nat
  due : Nat
  low : Nat := 0x80
  high : Nat := 0xBF

/-- What a byte begins: a character of its own, or one of several bytes. The bounds on the second
byte keep out surrogates, numbers above U+10FFFF and longer forms than needed. -/
def leading (byte : Nat) : Char ⊕ Unfinished :=
  if byte < 0x80 then .inl (Char.ofNat byte)
  else if 0xC2 ≤ byte ∧ byte ≤ 0xDF then .inr { value := byte - 0xC0, due := 1 }
  else if byte = 0xE0 then .inr { value := 0, due := 2, low := 0xA0 }
  else if byte = 0xED then .inr { value := 0xD, due := 2, high := 0x9F }
  else if 0xE1 ≤ byte ∧ byte ≤ 0xEF then .inr { value := byte - 0xE0, due := 2 }
  else if byte = 0xF0 then .inr { value := 0, due := 3, low := 0x90 }
  else if 0xF1 ≤ byte ∧ byte ≤ 0xF3 then .inr { value := byte - 0xF0, due := 3 }
  else if byte = 0xF4 then .inr { value := 4, due := 3, high := 0x8F }
  else .inl replacement

/-- The characters of some bytes that follow those of an unfinished character, if there is one. -/
def lossyFrom (open? : Option Unfinished) : List UInt8 → List Char
  | [] => if open?.isSome then [replacement] else []
  | byte :: rest =>
    let byte := byte.toNat
    let start (_ : Unit) : List Char :=
      match leading byte with
      | .inl c => c :: lossyFrom none rest
      | .inr begun => lossyFrom (some begun) rest
    match open? with
    | none => start ()
    | some begun =>
      if begun.low ≤ byte ∧ byte ≤ begun.high then
        let value := begun.value * 64 + (byte - 0x80)
        if begun.due = 1 then Char.ofNat value :: lossyFrom none rest
        else lossyFrom (some { value, due := begun.due - 1 }) rest
      else replacement :: start ()

def lossy (bytes : List UInt8) : List Char := lossyFrom none bytes

end Callable.Text
