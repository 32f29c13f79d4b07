import PegMachine.CharSet.Basic
import PegMachine.Text.Hex

/-!
# The text of a set of code points

A set is written as the list of its runs in brackets, in hexadecimal: `[61-63, 78]`.
-/

set_option autoImplicit false

namespace PegMachine.CharSet

open Text

/-- One run: a single code point stands alone, a longer run is written with both ends. -/
def runText (r : Nat × Nat) : String :=
  if r.1 = r.2 then hex r.1 else hex r.1 ++ "-" ++ hex r.2

/-- All runs of the set, in ascending order. -/
def text (s : CharSet) : String :=
  "[" ++ ", ".intercalate (s.ranges.map runText) ++ "]"

end PegMachine.CharSet
