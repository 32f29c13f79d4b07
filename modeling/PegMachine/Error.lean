/-!
# What can be wrong with a pattern

Building, resolving and compiling a pattern can fail, and so can the request to match at an offset
that the subject does not have.  Each cause is a constructor that carries what its message names.
A subject that a pattern does not match is no error.
-/

set_option autoImplicit false

namespace PegMachine

/-- The largest number of rules of a grammar. -/
def maxRules : Nat := 200

/-- The causes of refusal. -/
inductive Error where
  /-- A range is not written with exactly two characters. -/
  | invalidRange (range : String)
  /-- A rule, or a reference to one, has no name. -/
  | emptyRuleName
  /-- A grammar has no rules. -/
  | emptyGrammar
  /-- What is to be repeated may match the empty string. -/
  | nullableLoopBody
  /-- The length of a lookbehind varies, or is zero. -/
  | variableLengthLookbehind
  /-- An action occurs in a lookbehind. -/
  | lookbehindWithActions
  /-- A referenced name is not that of a rule of the enclosing grammar. -/
  | undefinedRule (name : String)
  /-- Two rules of a grammar have one name. -/
  | duplicateRule (name : String)
  /-- A rule may call itself without having consumed anything. -/
  | leftRecursiveRule (name : String)
  /-- A rule repeats what may match the empty string. -/
  | emptyLoopInRule (name : String)
  /-- A grammar has more than `maxRules` rules. -/
  | tooManyRules
  /-- An exact repetition has a count below one. -/
  | invalidRepetitionCount (count : Int)
  /-- Matching is to start past the end of the subject. -/
  | invalidOffset (offset length : Nat)
  /-- The program would have more instructions than allowed. -/
  | tooLarge
deriving DecidableEq, Repr

namespace Error

/-- A name in backticks, as messages show it. -/
def ticked (name : String) : String := "`" ++ name ++ "`"

/-- The message shown for an error. -/
def message : Error → String
  | invalidRange range => "a range must have exactly two characters: " ++ ticked range
  | emptyRuleName => "rule names must not be empty"
  | emptyGrammar => "a grammar must have at least one rule"
  | nullableLoopBody => "loop body may accept the empty string"
  | variableLengthLookbehind => "lookbehind pattern must have a fixed length"
  | lookbehindWithActions => "lookbehind pattern can not contain actions"
  | undefinedRule name => "rule " ++ ticked name ++ " is undefined"
  | duplicateRule name => "rule " ++ ticked name ++ " is defined more than once"
  | leftRecursiveRule name => "rule " ++ ticked name ++ " may be left recursive"
  | emptyLoopInRule name => "empty loop in rule " ++ ticked name
  | tooManyRules => "too many rules in grammar (max: " ++ toString maxRules ++ ")"
  | invalidRepetitionCount count =>
    "repetition count must be greater than zero, got " ++ toString count
  | invalidOffset offset length =>
    "offset " ++ toString offset ++ " is out of bounds (subject length: " ++ toString length ++ ")"
  | tooLarge => "pattern too large"

end Error
end PegMachine
