import PegMachine.Expr.Text
import PegMachine.Grammar

/-!
# Patterns

A pattern is an expression together with the names of the rules that its open calls refer to.
Patterns are put together from smaller ones by the operations below, most of which simplify as they
go: classes are merged, and an operand that can have no effect is left out.

When two patterns meet, their lists of names are put one after the other and the open calls of the
second are renumbered; a list that is empty, or equal to the first, adds nothing.

* `choice`, `diff`, `seq`, `choiceAll`, `seqAll` — the ways to combine patterns.
* `repeated`, `times`, `test`, `testNot`, `behind`, `action` — the ways to change one.
* `ref`, `grammar` — references to rules, and the grammars that give them a meaning.
-/

set_option autoImplicit false

namespace PegMachine

/-- An expression and the names that its open calls refer to. -/
structure Pattern (α : Type) where
  /-- What is matched. -/
  root : Expr α
  /-- The names of the rules referred to; open call `i` refers to the name at place `i`. -/
  refs : List String := []

namespace Pattern

variable {α : Type}

instance : Inhabited (Pattern α) := ⟨⟨.empty, []⟩⟩

/-! ## Single patterns -/

/-- Matches the empty string, and never fails. -/
def succeed : Pattern α := ⟨.empty, []⟩

/-- Never matches. -/
def fail : Pattern α := ⟨.fail, []⟩

/-- Matches one given character. -/
def char (c : Char) : Pattern α := ⟨.char c, []⟩

/-- Characters one after the other. -/
def spelled : List Char → Expr α
  | [] => .empty
  | [c] => .char c
  | c :: cs => .seq (.char c) (spelled cs)

/-- Matches a text literally. -/
def literal (text : String) : Pattern α := ⟨spelled text.toList, []⟩

/-- Matches any `n` characters, if `n` is positive.  For a negative `n` it matches where fewer than
`-n` characters are left, and consumes nothing. -/
def anyChars (n : Int) : Pattern α :=
  let run := Expr.seqTimes .any (n.natAbs - 1) .any
  if n = 0 then succeed else if 0 < n then ⟨run, []⟩ else ⟨.not run, []⟩

/-- Matches any character of a set. -/
def ofSet (s : CharSet) : Pattern α := ⟨.ofSet s, []⟩

/-- Matches any character of a text. -/
def oneOf (chars : String) : Pattern α := ofSet (.ofString chars)

/-- Adds to a set the range written with its first and its last character, in this order. -/
def addRange (s : CharSet) (range : String) : Except Error CharSet :=
  match range.toList with
  | [first, last] => .ok (s.union (.ofCharRange first last))
  | _ => .error (.invalidRange range)

/-- Matches any character of the given ranges, each written with its first and its last character.
A range that is written the wrong way round is empty. -/
def ranges (rs : List String) : Except Error (Pattern α) :=
  return ofSet (← rs.foldlM addRange .empty)

/-! ## Lookaround -/

/-- Matches where the pattern does, and consumes nothing. -/
def test (p : Pattern α) : Pattern α := { p with root := .and p.root }

/-- Matches where the pattern fails, and consumes nothing. -/
def testNot (p : Pattern α) : Pattern α := { p with root := .not p.root }

/-- Matches where the pattern matches the characters just before, which takes a pattern that is
always of one length, not zero, and without actions. -/
def behind (p : Pattern α) : Except Error (Pattern α) :=
  match p.root.fixedLengthIn [] with
  | some (width + 1) =>
    if p.root.hasActionsIn [] then .error .lookbehindWithActions
    else .ok { p with root := .behind (width + 1) p.root }
  | _ => .error .variableLengthLookbehind

/-! ## Combining patterns -/

/-- The names of two patterns in one list, and what has to be added to the indices of the open calls
of the second. -/
def mergeRefs (first second : List String) : List String × Nat :=
  if first = [] then (second, 0)
  else if second = [] ∨ first = second then (first, 0)
  else (first ++ second, first.length)

/-- Joins the expressions of two patterns, once their open calls are numbered in one list. -/
def join (node : Expr α → Expr α → Expr α) (p q : Pattern α) : Pattern α :=
  let (refs, n) := mergeRefs p.refs q.refs
  ⟨node p.root (q.root.shift n), refs⟩

/-- The pattern for what two classes become under an operation on sets, if both patterns are
classes. -/
def classOf? (op : CharSet → CharSet → CharSet) (p q : Pattern α) : Option (Pattern α) :=
  match p.root.class?, q.root.class? with
  | some s, some t => some (ofSet (op s t))
  | _, _ => none

/-- Matches the first pattern, or the second where the first fails.  Two classes become their union.
The second pattern is left out if the first never fails or the second never matches, and the first
if it never matches. -/
def choice (p q : Pattern α) : Pattern α :=
  match classOf? .union p q with
  | some r => r
  | none =>
    if p.root.noFailIn [] then p
    else
      match p.root, q.root with
      | _, .fail => p
      | .fail, _ => q
      | _, _ => join .choice p q

/-- Matches the first pattern where the second does not match.  Two classes become their
difference. -/
def diff (p q : Pattern α) : Pattern α :=
  match classOf? .diff p q with
  | some r => r
  | none => join (fun first second => .seq (.not second) first) p q

/-- Matches the first pattern and then the second.  The second is left out if the first never
matches, and either is left out if it is the empty string. -/
def seq (p q : Pattern α) : Pattern α :=
  match p.root, q.root with
  | .fail, _ => p
  | _, .empty => p
  | .empty, _ => q
  | _, _ => join .seq p q

/-- Matches the first of the patterns that does not fail; without patterns, nothing. -/
def choiceAll : List (Pattern α) → Pattern α
  | [] => fail
  | p :: ps => ps.foldl choice p

/-- Matches the patterns one after the other; without patterns, the empty string. -/
def seqAll : List (Pattern α) → Pattern α
  | [] => succeed
  | p :: ps => ps.foldl seq p

/-! ## Repetition -/

/-- As many copies of `body` as match one after the other, but at most `n`. -/
def atMost (body : Expr α) : Nat → Expr α
  | 0 => .empty
  | 1 => .choice body .empty
  | n + 2 => .choice (.seq body (atMost body (n + 1))) .empty

/-- Matches the pattern as often as possible.  For `n` from zero on it has to match at least `n`
times and must not match the empty string; for a negative `n` it may match at most `-n` times. -/
def repeated (p : Pattern α) (n : Int) : Except Error (Pattern α) :=
  if 0 ≤ n then
    if p.root.nullableIn [] then .error .nullableLoopBody
    else .ok { p with root := Expr.seqTimes p.root n.toNat (.star p.root) }
  else .ok { p with root := atMost p.root n.natAbs }

/-- Refers to the rule that has the given name in the grammar that the pattern becomes part of. -/
def ref (name : String) : Except Error (Pattern α) :=
  if name = "" then .error .emptyRuleName else .ok ⟨.openCall 0, [name]⟩

/-- The grammar of the given named rules, of which the first is matched. -/
def grammar (rules : List (String × Pattern α)) : Except Error (Pattern α) :=
  return ⟨← Expr.ofRules (rules.map fun (name, p) => (name, p.refs, p.root)), []⟩

/-- A grammar whose first rule calls the second one, which is the pattern, `n` times. -/
def timesByRule (p : Pattern α) (n : Nat) : Except Error (Pattern α) := do
  let call ← ref "p"
  grammar [("c", seqAll (List.replicate n call)), ("p", p)]

/-- Matches the pattern exactly `n` times: copied that often, or as a rule that is called that
often, if `asRule` is set. -/
def times (p : Pattern α) (n : Int) (asRule : Bool) : Except Error (Pattern α) :=
  if n ≤ 0 then .error (.invalidRepetitionCount n)
  else if n = 1 then .ok p
  else if asRule then p.timesByRule n.toNat
  else if p.root.nullableIn [] then .error .nullableLoopBody
  else .ok { p with root := Expr.seqTimes p.root (n.toNat - 1) p.root }

/-- Invokes the action whenever the pattern matches. -/
def action (a : α) (p : Pattern α) : Pattern α := { p with root := .action a p.root }

/-! ## Queries and text -/

/-- Whether the pattern can match without consuming anything. -/
def nullable (p : Pattern α) : Bool := p.root.nullableIn []

/-- Whether the pattern matches every subject. -/
def noFail (p : Pattern α) : Bool := p.root.noFailIn []

/-- Whether a look at the next character decides if the pattern fails. -/
def headFail (p : Pattern α) : Bool := p.root.headFailIn []

/-- The number of characters that every match consumes, if there is such a number. -/
def fixedLength (p : Pattern α) : Option Nat := p.root.fixedLengthIn []

/-- The tree of the pattern, one node a line. -/
def treeText (p : Pattern α) : String := (p.root.tree [] p.refs).text

/-- The pattern as one line of nested terms. -/
def text (p : Pattern α) : String :=
  "Pattern \x7b root: " ++ p.root.text ++ ", refs: ["
    ++ ", ".intercalate (p.refs.map Text.quoted) ++ "] \x7d"

end Pattern
end PegMachine
