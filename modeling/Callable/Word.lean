/-!
Integers of sixty-four bits, with a sign or without.
-/
namespace Callable.Word

/-- An integer taken for a word with a sign; one that does not fit wraps around. -/
instance intToWord : Coe Int Int64 := ⟨Int64.ofInt⟩

def minSigned : Int := -9223372036854775808

def maxSigned : Int := 9223372036854775807

def maxUnsigned : Int := 18446744073709551615

/-- Whether an integer fits a word with a sign. -/
def fitsSigned (n : Int) : Bool := minSigned ≤ n && n ≤ maxSigned

theorem fitsSigned_iff (n : Int) :
    fitsSigned n = true ↔ -9223372036854775808 ≤ n ∧ n ≤ 9223372036854775807 := by
  rw [fitsSigned, Bool.and_eq_true, decide_eq_true_iff, decide_eq_true_iff]
  rfl

theorem toInt_ofInt_of_fitsSigned {n : Int} (h : fitsSigned n = true) :
    (Int64.ofInt n).toInt = n := by
  obtain ⟨hlow, hhigh⟩ := (fitsSigned_iff n).mp h
  exact Int64.toInt_ofInt_of_le hlow (by omega)

theorem fitsSigned_toInt (n : Int64) : fitsSigned n.toInt = true := by
  have hlow := n.le_toInt
  have hhigh := n.toInt_lt
  rw [fitsSigned_iff]
  omega

/-- Whether an integer fits a word of either kind. -/
def fits (n : Int) : Bool := minSigned ≤ n && n ≤ maxUnsigned

end Callable.Word
