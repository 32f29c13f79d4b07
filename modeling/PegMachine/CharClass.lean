import PegMachine.CharSet.Basic
import PegMachine.Text.Hex

/-!
# Compiled character classes

A program tests characters against classes described by single characters, ranges and small sorted
tables, which is the form its text shows.  A class is also a value in its own right: its code
points may be any numbers and its ranges may be the wrong way round, and `contains` says what it
means then.

* `CharClass.ofSet` — the class of a set.  Every run of two or more code points becomes a range,
  and the isolated code points between two ranges are gathered in one table.
* `CharClass.contains` — membership; a table is searched by bisection.
* `CharClass.text` — the class as programs and trees show it, `(24)(5f)(61-7a)`.
-/

set_option autoImplicit false

namespace PegMachine

/-- A description of a set of code points that is cheap to test. -/
inductive CharClass where
  /-- No code point. -/
  | nothing
  /-- Every code point. -/
  | everything
  /-- One code point. -/
  | single (c : Nat)
  /-- The code points from `lo` to `hi`, both included. -/
  | range (lo hi : Nat)
  /-- The code points of an ascending table. -/
  | table (cs : List Nat)
  /-- The code points of any of the parts. -/
  | union (parts : List CharClass)

namespace CharClass

instance : Inhabited CharClass := ⟨nothing⟩

/-! ## From a set to its class -/

/-- Isolated code points: one stands alone, more make a table. -/
def isolated : List Nat → List CharClass
  | [] => []
  | [c] => [single c]
  | cs => [table cs]

/-- The parts for a list of runs, where `seen` are the isolated code points met since the last
range. -/
def parts (seen : List Nat) : List (Nat × Nat) → List CharClass
  | [] => isolated seen
  | (lo, hi) :: rest =>
    if lo < hi then isolated seen ++ range lo hi :: parts [] rest
    else parts (seen ++ [lo]) rest

/-- The class of a set. -/
def ofSet (s : CharSet) : CharClass :=
  if s.isEmpty then nothing
  else if s.isFull then everything
  else
    match parts [] s.ranges with
    | [part] => part
    | ps => union ps

/-! ## Membership -/

/-- Bisects `size` entries of the table from `base` on.  The upper half is kept unless it starts
above `c`, so one entry is left in the end. -/
def bisect (cs : Array Nat) (c : Nat) (base size : Nat) : Bool :=
  if _h : 1 < size then
    let half := size / 2
    let middle := base + half
    bisect cs c (if c < cs.getD middle 0 then base else middle) (size - half)
  else cs[base]? == some c
termination_by size
decreasing_by omega

/-- Membership in a table: the two ends are tried first, and the rest is searched only for what
lies between them. -/
def tableContains (cs : List Nat) (c : Nat) : Bool :=
  match cs.head?, cs.getLast? with
  | some lo, some hi =>
    c == lo || c == hi || (decide (lo < c ∧ c < hi) && bisect cs.toArray c 0 cs.length)
  | _, _ => false

mutual

/-- Whether `c` belongs to the class. -/
def contains : CharClass → Nat → Bool
  | nothing, _ => false
  | everything, _ => true
  | single x, c => c == x
  | range lo hi, c => decide (lo ≤ c ∧ c ≤ hi)
  | table cs, c => tableContains cs c
  | union ps, c => anyContains ps c

/-- Whether `c` belongs to any of the classes. -/
def anyContains : List CharClass → Nat → Bool
  | [], _ => false
  | p :: ps, c => contains p c || anyContains ps c

end

/-! ## Text -/

mutual

/-- The class in hexadecimal, each of its parts in parentheses. -/
def text : CharClass → String
  | nothing => "()"
  | everything => "(0-" ++ Text.hex maxCodePoint ++ ")"
  | single c => "(" ++ Text.hex c ++ ")"
  | range lo hi => "(" ++ Text.hex lo ++ "-" ++ Text.hex hi ++ ")"
  | table cs => String.join (cs.map fun c => "(" ++ Text.hex c ++ ")")
  | union ps => joinText ps

/-- The texts of the classes, one after the other. -/
def joinText : List CharClass → String
  | [] => ""
  | p :: ps => text p ++ joinText ps

end

end CharClass
end PegMachine
