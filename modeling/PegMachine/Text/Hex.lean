/-!
# Hexadecimal numbers

Code points and program addresses are written in lower-case hexadecimal: code points with as many
digits as they need, addresses padded with zeros to a common width.
-/

set_option autoImplicit false

namespace PegMachine.Text

/-- The digits of `n` to the base sixteen, without leading zeros. -/
def hex (n : Nat) : String := String.ofList (Nat.toDigits 16 n)

/-- `hex n`, filled up with zeros on the left to `width` digits. -/
def hexPadded (width n : Nat) : String :=
  let digits := Nat.toDigits 16 n
  String.ofList (List.replicate (width - digits.length) '0' ++ digits)

end PegMachine.Text
