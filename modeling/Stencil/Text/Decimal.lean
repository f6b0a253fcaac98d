/-! # Unsigned 64-bit numbers in decimal -/
namespace Stencil.Text

/-- The number of 64-bit numbers, two to the power of 64. -/
def limit64 : Nat := 18446744073709551616

def digitValue (c : Char) : Option Nat :=
  if '0' ≤ c ∧ c ≤ '9' then some (c.toNat - '0'.toNat) else none

/-- The value of a run of decimal digits, read on from `acc`. -/
def digitsValue (acc : Nat) : List Char → Option Nat
  | [] => some acc
  | c :: cs => (digitValue c).bind fun d => digitsValue (10 * acc + d) cs

/-- Reads digits, after a plus sign or none; the value has to fit into 64 bits. -/
def readNat64 (cs : List Char) : Option Nat :=
  let digits := if cs.head? = some '+' then cs.tail else cs
  if digits.isEmpty then none
  else (digitsValue 0 digits).filter fun n => decide (n < limit64)

end Stencil.Text
