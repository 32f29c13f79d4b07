import PegMachine.CharClass
import PegMachine.Text.Blank

/-!
# Instructions

The instructions of the matching machine, over the type `α` of the actions that a program can run.
A program is a list of instructions, and an instruction that transfers control holds the address of
its target, the place of the target in the list.

Tests look at the next character without consuming it, go on if it is right and jump if it is not.
While code is being laid out, a test holds its set as such, so that it can be compared with other
sets; `TestClass.finish` turns the set into a class.  An instruction that would look again for the
very character or set that a test has just established becomes `tested`.
-/

set_option autoImplicit false

namespace PegMachine

/-- What a test compares the next character with. -/
inductive TestClass where
  /-- A set, while the program is being made. -/
  | pending (s : CharSet)
  /-- A class, once it is finished. -/
  | ready (c : CharClass)

namespace TestClass

/-- Whether the code point `c` passes the test. -/
def contains : TestClass → Nat → Bool
  | pending s, c => s.contains c
  | ready k, c => k.contains c

/-- The finished form. -/
def finish : TestClass → TestClass
  | pending s => ready (CharClass.ofSet s)
  | ready k => ready k

/-- The class that is tested. -/
def text : TestClass → String
  | pending s => (CharClass.ofSet s).text
  | ready k => k.text

end TestClass

/-- What a test has established about the next character. -/
inductive Guard where
  /-- It is the given one. -/
  | char (c : Char)
  /-- It is in the set. -/
  | set (s : CharSet)
deriving DecidableEq

namespace Guard

/-- What a passed test for a set establishes, as far as code can make use of it. -/
def ofSet (s : CharSet) : Option Guard :=
  match s.extent with
  | .one c => some (char c)
  | .several => some (set s)
  | .none | .all => none

/-- Whether a character is as established. -/
def admits : Guard → Char → Bool
  | char c, d => d == c
  | set s, d => s.contains d.toNat

end Guard

/-- The instructions of the machine. -/
inductive Instr (α : Type) where
  /-- Consumes any character. -/
  | any
  /-- Consumes the next character, which was tested before and is known to be as `g` says.  It is
  not looked at again, so in a listing this is the same as `any`. -/
  | tested (g : Guard)
  /-- Consumes the given character. -/
  | char (c : Char)
  /-- Consumes a character of the class. -/
  | set (k : CharClass)
  /-- Jumps unless a character follows. -/
  | testAny (target : Nat)
  /-- Jumps unless the given character follows. -/
  | testChar (c : Char) (target : Nat)
  /-- Jumps unless a character of the class follows. -/
  | testSet (k : TestClass) (target : Nat)
  /-- Consumes all characters of the class that follow. -/
  | span (k : CharClass)
  /-- Moves back by `n` characters, but not to before the start of the match. -/
  | behind (n : Nat)
  /-- Returns from a rule. -/
  | ret
  /-- The match has succeeded. -/
  | halt
  /-- Pushes a frame that resumes at the target, from the current position. -/
  | choice (target : Nat)
  /-- Jumps. -/
  | jump (target : Nat)
  /-- Calls the rule at the target. -/
  | call (target : Nat)
  /-- Stands for a call until the address of the rule is known. -/
  | openCall (rule : Nat)
  /-- Drops the top frame and jumps. -/
  | commit (target : Nat)
  /-- Makes the top frame resume from the current position, and jumps. -/
  | partialCommit (target : Nat)
  /-- Drops the top frame, returns to its position, and jumps. -/
  | backCommit (target : Nat)
  /-- Drops the top frame, then fails. -/
  | failTwice
  /-- Fails. -/
  | fail
  /-- The match has failed. -/
  | giveUp
  /-- Starts an action. -/
  | openAction (a : α)
  /-- Ends the action started last, and runs it. -/
  | closeAction

namespace Instr

variable {α : Type}

/-- Where the instruction may transfer control to. -/
def target? : Instr α → Option Nat
  | testAny t => some t
  | testChar _ t => some t
  | testSet _ t => some t
  | choice t => some t
  | jump t => some t
  | call t => some t
  | commit t => some t
  | partialCommit t => some t
  | backCommit t => some t
  | _ => none

/-- The instruction with another target, if it has one. -/
def withTarget (instr : Instr α) (t : Nat) : Instr α :=
  match instr with
  | testAny _ => testAny t
  | testChar c _ => testChar c t
  | testSet k _ => testSet k t
  | choice _ => choice t
  | jump _ => jump t
  | call _ => call t
  | commit _ => commit t
  | partialCommit _ => partialCommit t
  | backCommit _ => backCommit t
  | other => other

/-! ## Text -/

/-- A character as listings show it: by itself in quotes, or by its code point if it leaves no
mark. -/
def charText (c : Char) : String :=
  if Text.isBlank c || Text.isControl c then "(" ++ Text.hex c.toNat ++ ")"
  else "'" ++ c.toString ++ "'"

/-- An address as listings show it. -/
def addressText (t : Nat) : String := Text.hexPadded 5 t

/-- The instruction as listings show it: its name, then its operands. -/
def text : Instr α → String
  | any => "ANY"
  | tested _ => "ANY"
  | char c => "CHAR " ++ charText c
  | set k => "SET " ++ k.text
  | testAny t => "TEST_ANY " ++ addressText t
  | testChar c t => "TEST_CHAR " ++ charText c ++ " " ++ addressText t
  | testSet k t => "TEST_SET " ++ k.text ++ " " ++ addressText t
  | span k => "SPAN " ++ k.text
  | behind n => "BEHIND " ++ toString n
  | ret => "RET"
  | halt => "END"
  | choice t => "CHOICE " ++ addressText t
  | jump t => "JMP " ++ addressText t
  | call t => "CALL " ++ addressText t
  | openCall rule => "OPEN_CALL " ++ toString rule
  | commit t => "COMMIT " ++ addressText t
  | partialCommit t => "PARTIAL_COMMIT " ++ addressText t
  | backCommit t => "BACK_COMMIT " ++ addressText t
  | failTwice => "FAIL_TWICE"
  | fail => "FAIL"
  | giveUp => "GIVE_UP"
  | openAction _ => "OPEN_ACTION"
  | closeAction => "CLOSE_ACTION"

end Instr
end PegMachine
