import Callable.Json.Basic
import Callable.Word
/-!
Values of a host program that are captured as JSON. Not every value has a JSON form: map keys must
be strings or integers, and integers must fit 64 bits. What is no finite number is captured as null.
-/
namespace Callable

inductive HostValue where
  | unit
  | bool (b : Bool)
  | int (n : Int)
  | double (x : Decimal.Binary)
  /-- A number of the 32-bit format. -/
  | single (x : Decimal.Binary)
  | notFinite
  | str (s : String)
  | list (items : List HostValue)
  | map (entries : List (HostValue × HostValue))

inductive CaptureError where
  | keyNotString
  | numberRange
  deriving DecidableEq, Repr

def CaptureError.message : CaptureError → String
  | keyNotString => "key must be a string"
  | numberRange => "number out of range"

namespace HostValue

/-- The name that a map key becomes. -/
def keyName : HostValue → Except CaptureError String
  | str s => .ok s
  | int n => .ok (toString n)
  | _ => .error .keyNotString

/-- The double that is written with the shortest digits of a single. -/
def widen (x : Decimal.Binary) : Decimal.Binary :=
  let (d, k) := Decimal.Format.single.shortest x.mantissa x.exponent
  let (m, e) := (Decimal.Format.double.ofDecimal? (if x.mantissa = 0 then 0 else d) k).getD (0, 0)
  ⟨x.negative, m, e⟩

mutual

/-- The JSON form of a value. -/
def capture : HostValue → Except CaptureError Json
  | unit => .ok .null
  | bool b => .ok (.bool b)
  | int n => if Word.fits n then .ok (.int n) else .error .numberRange
  | double x => .ok (.float x)
  | single x => .ok (.float (widen x))
  | notFinite => .ok .null
  | str s => .ok (.str s)
  | list items => do return .arr (← captureAll items)
  | map entries => do return .obj (← captureEntries [] entries)

def captureAll : List HostValue → Except CaptureError (List Json)
  | [] => .ok []
  | item :: rest => do
    let value ← capture item
    return value :: (← captureAll rest)

def captureEntries (done : Table Json) :
    List (HostValue × HostValue) → Except CaptureError (Table Json)
  | [] => .ok done
  | (key, value) :: rest => do
    let name ← keyName key
    let value ← capture value
    captureEntries (done.put name value) rest

end

end HostValue
end Callable
