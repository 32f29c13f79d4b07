import PegMachine.CharClass
import PegMachine.CharSet.Text
import PegMachine.Expr.Basic
import PegMachine.Text.Quoted
import PegMachine.Text.Tree

/-!
# Expressions as text

An expression is shown in two ways: as a tree with one node a line, which names the rules that are
called, and as one line of nested terms, which shows calls by their index.
-/

set_option autoImplicit false

namespace PegMachine.Expr

open Text

variable {α : Type}

/-- The name at a place of a list of names, or a question mark if there is none. -/
def nameAt (names : List String) (i : Nat) : String := (names[i]?).getD "?"

/-! ## Trees -/

mutual

/-- The tree of an expression.  Rule calls are named from `rules`, the names of the rules of the
enclosing grammar, and open calls from `refs`, those that the pattern refers to. -/
def tree : Expr α → List String → List String → Tree
  | char c, _, _ => .leaf ("char " ++ quotedChar c)
  | set s, _, _ => .leaf ("set " ++ (CharClass.ofSet s).text)
  | any, _, _ => .leaf "any"
  | empty, _, _ => .leaf "true"
  | fail, _, _ => .leaf "false"
  | seq first second, rules, refs => .node "seq" [tree first rules refs, tree second rules refs]
  | choice first second, rules, refs =>
    .node "choice" [tree first rules refs, tree second rules refs]
  | star body, rules, refs => .node "repeat" [tree body rules refs]
  | not body, rules, refs => .node "not" [tree body rules refs]
  | and body, rules, refs => .node "and" [tree body rules refs]
  | behind width body, rules, refs =>
    .node ("behind " ++ toString width) [tree body rules refs]
  | action _ body, rules, refs => .node "action" [tree body rules refs]
  | openCall i, _, refs => .leaf ("call `" ++ nameAt refs i ++ "` (open)")
  | ruleCall i, rules, _ =>
    .leaf ("call `" ++ nameAt rules i ++ "` (rule " ++ toString i ++ ")")
  | grammar rs, _, _ =>
    .node ("grammar (" ++ toString rs.length ++ " rules)")
      (ruleTrees rs (rs.map Rule.name) 0)

/-- The trees of the rules of a grammar with the given names, numbered from `i` on. -/
def ruleTrees : List (Rule α) → List String → Nat → List Tree
  | [], _, _ => []
  | ⟨name, body⟩ :: rest, names, i =>
    .node ("rule " ++ toString i ++ " `" ++ name ++ "`") [tree body names []]
      :: ruleTrees rest names (i + 1)

end

/-! ## Terms -/

/-- A term with arguments. -/
def term (head : String) (args : List String) : String :=
  head ++ "(" ++ ", ".intercalate args ++ ")"

mutual

/-- The expression as a nested term. -/
def text : Expr α → String
  | char c => term "Char" [quotedChar c]
  | set s => term "Set" [s.text]
  | any => "Any"
  | empty => "True"
  | fail => "False"
  | seq first second => term "Seq" [text first, text second]
  | choice first second => term "Choice" [text first, text second]
  | star body => term "Repeat" [text body]
  | not body => term "Not" [text body]
  | and body => term "And" [text body]
  | behind width body => term "Behind" [toString width, text body]
  | action _ body => term "Action" [text body]
  | openCall i => term "Open" [toString i]
  | ruleCall i => term "Rule" [toString i]
  | grammar rs => term "Grammar" ["[" ++ ", ".intercalate (ruleTexts rs 0) ++ "]"]

/-- The rules of a grammar as terms, numbered from `i` on. -/
def ruleTexts : List (Rule α) → Nat → List String
  | [], _ => []
  | ⟨name, body⟩ :: rest, i =>
    ("RuleDef \x7b index: " ++ toString i ++ ", name: " ++ quoted name ++ ", body: " ++ text body
      ++ " \x7d") :: ruleTexts rest (i + 1)

end

end PegMachine.Expr
