/-!
Decimal numerals: an optional sign and at least one of the digits 0 to 9. A
numeral has an integer value of any size; `word64?` admits only those values
that a signed 64-bit word holds.
-/
namespace Lisplet.Text.Numeral

def magnitude? (cs : List Char) : Option Nat :=
  if cs ≠ [] ∧ cs.all Char.isDigit then some (Nat.ofDigitChars 10 cs 0) else none

def value? : List Char → Option Int
  | '+' :: cs => (magnitude? cs).map Int.ofNat
  | '-' :: cs => (magnitude? cs).map fun n => -Int.ofNat n
  | cs => (magnitude? cs).map Int.ofNat

def isNumeral (cs : List Char) : Bool := (value? cs).isSome

def fitsWord (n : Int) : Bool := -0x8000000000000000 ≤ n && n < 0x8000000000000000

def word64? (cs : List Char) : Option Int64 :=
  match value? cs with
  | some n => if fitsWord n then some (Int64.ofInt n) else none
  | none => none

/-- The decimal digits of a count, without leading zeros. -/
def digits (n : Nat) : List Char := Nat.toDigits 10 n

/-- The shortest numeral of a value: no plus sign and no leading zero. -/
def write : Int → List Char
  | .ofNat n => digits n
  | .negSucc n => '-' :: digits (n + 1)

example : word64? "-9223372036854775808".toList = some Int64.minValue := by decide
example : word64? "9223372036854775808".toList = none := by decide
example : word64? "+007".toList = some 7 := by decide
example : value? "1-2".toList = none ∧ value? "+".toList = none := by decide

end Lisplet.Text.Numeral
