import PegMachine.Expr.Basic

/-!
# What can be told about an expression without matching it

The questions asked here decide which patterns are accepted and how they are compiled: may the
expression match the empty string, can it fail, is its failure decided by the next character alone,
does it always consume the same number of characters, and can it run an action.

Every question is answered by recursion on the expression, from the answers for the rules that it
calls.  A rule may call itself, so those answers are unfolded to a bounded depth only (`unfold`).
For rules that do not go round in circles the bound is never reached, and where it is, the answer is
the careful one: such an expression may be empty, may fail, is not decided by the next character
and has no fixed length.  So a definite answer is right for every grammar.

* `nullableIn`, `noFailIn`, `headFailIn` — the three yes-or-no questions, among given rules.
* `fixedLengthIn` — the fixed length; at most `maxCallDepth` nested calls are followed.
* `hasActionsIn` — whether an action occurs in the expression or in a rule that calls lead to.
-/

set_option autoImplicit false

namespace PegMachine

/-- The largest number of nested calls that is followed to find a fixed length. -/
def maxCallDepth : Nat := 200

/-- The answer for a rule, where `bodies` tell the answer for each rule from those for the rules it
calls.  Calls are followed `depth` deep; below that the answer is `careful`, and it is `missing` for
a rule that does not exist. -/
def unfold {β : Type} (careful missing : β) (bodies : List ((Nat → β) → β)) : Nat → Nat → β
  | 0, _ => careful
  | depth + 1, i =>
    match bodies[i]? with
    | none => missing
    | some body => body (unfold careful missing bodies depth)

/-- The length of what a rule matches, if it is fixed.  A call costs one unit of the budget, also
for the calls made by grammars inside the rule. -/
def unfoldLength (bodies : List (Nat → (Nat → Option Nat) → Option Nat)) : Nat → Nat → Option Nat
  | 0, _ => none
  | budget + 1, i =>
    match bodies[i]? with
    | none => none
    | some body => body budget (unfoldLength bodies budget)

namespace Expr

variable {α : Type}

/-! ## Matching the empty string -/

mutual

/-- Whether the expression may match without consuming anything, from the answers for its calls. -/
def nullable : Expr α → (Nat → Bool) → Bool
  | char _, _ => false
  | set _, _ => false
  | any, _ => false
  | fail, _ => false
  | empty, _ => true
  | star _, _ => true
  | not _, _ => true
  | and _, _ => true
  | behind _ _, _ => true
  | seq first second, call => nullable first call && nullable second call
  | choice first second, call => nullable second call || nullable first call
  | action _ body, call => nullable body call
  | openCall _, _ => false
  | ruleCall i, call => call i
  | grammar rules, _ => unfold true false (nullableRules rules) (rules.length + 1) 0

/-- `nullable` for the body of each rule. -/
def nullableRules : List (Rule α) → List ((Nat → Bool) → Bool)
  | [] => []
  | ⟨_, body⟩ :: rest => nullable body :: nullableRules rest

end

/-- Whether the expression may match without consuming anything, among the given rules. -/
def nullableIn (rules : List (Rule α)) (e : Expr α) : Bool :=
  e.nullable (unfold true false (nullableRules rules) rules.length)

/-! ## Never failing -/

mutual

/-- Whether the expression matches everywhere, from the answers for its calls. -/
def noFail : Expr α → (Nat → Bool) → Bool
  | char _, _ => false
  | set _, _ => false
  | any, _ => false
  | fail, _ => false
  | not _, _ => false
  | behind _ _, _ => false
  | action _ _, _ => false
  | empty, _ => true
  | star _, _ => true
  | seq first second, call => noFail first call && noFail second call
  | choice first second, call => noFail second call || noFail first call
  | and body, call => noFail body call
  | openCall _, _ => false
  | ruleCall i, call => call i
  | grammar rules, _ => unfold false false (noFailRules rules) (rules.length + 1) 0

/-- `noFail` for the body of each rule. -/
def noFailRules : List (Rule α) → List ((Nat → Bool) → Bool)
  | [] => []
  | ⟨_, body⟩ :: rest => noFail body :: noFailRules rest

end

/-- The answers of `noFail` for the rules of a grammar. -/
def noFailCall (rules : List (Rule α)) : Nat → Bool :=
  unfold false false (noFailRules rules) rules.length

/-- Whether the expression matches everywhere, among the given rules. -/
def noFailIn (rules : List (Rule α)) (e : Expr α) : Bool := e.noFail (noFailCall rules)

/-! ## Failing at the first character or not at all -/

mutual

/-- Whether a look at the next character decides if the expression fails, from the answers for its
calls: whether they never fail, and whether the next character decides. -/
def headFail : Expr α → (Nat → Bool) → (Nat → Bool) → Bool
  | char _, _, _ => true
  | set _, _, _ => true
  | any, _, _ => true
  | fail, _, _ => true
  | empty, _, _ => false
  | star _, _, _ => false
  | not _, _, _ => false
  | behind _ _, _, _ => false
  | action _ _, _, _ => false
  | seq first second, never, call => noFail second never && headFail first never call
  | choice first second, never, call => headFail first never call && headFail second never call
  | and body, never, call => headFail body never call
  | openCall _, _, _ => false
  | ruleCall i, _, call => call i
  | grammar rules, _, _ =>
    unfold false false (headFailRules rules (noFailCall rules)) (rules.length + 1) 0

/-- `headFail` for the body of each rule. -/
def headFailRules : List (Rule α) → (Nat → Bool) → List ((Nat → Bool) → Bool)
  | [], _ => []
  | ⟨_, body⟩ :: rest, never => headFail body never :: headFailRules rest never

end

/-- Whether a look at the next character decides if the expression fails, among the given rules. -/
def headFailIn (rules : List (Rule α)) (e : Expr α) : Bool :=
  e.headFail (noFailCall rules)
    (unfold false false (headFailRules rules (noFailCall rules)) rules.length)

/-! ## Fixed length -/

mutual

/-- The number of characters consumed by every match, if there is such a number, from the budget of
calls that is left and the lengths of the rules called. -/
def fixedLength : Expr α → Nat → (Nat → Option Nat) → Option Nat
  | char _, _, _ => some 1
  | set _, _, _ => some 1
  | any, _, _ => some 1
  | empty, _, _ => some 0
  | fail, _, _ => some 0
  | and _, _, _ => some 0
  | not _, _, _ => some 0
  | behind _ _, _, _ => some 0
  | star _, _, _ => none
  | action _ _, _, _ => none
  | seq first second, budget, call =>
    match fixedLength first budget call with
    | none => none
    | some m => (fixedLength second budget call).map (m + ·)
  | choice first second, budget, call =>
    match fixedLength first budget call with
    | none => none
    | some m => if fixedLength second budget call = some m then some m else none
  | openCall _, _, _ => none
  | ruleCall i, _, call => call i
  | grammar rules, budget, _ =>
    match fixedLengthRules rules with
    | [] => none
    | entry :: rest => entry budget (unfoldLength (entry :: rest) budget)

/-- `fixedLength` for the body of each rule. -/
def fixedLengthRules : List (Rule α) → List (Nat → (Nat → Option Nat) → Option Nat)
  | [] => []
  | ⟨_, body⟩ :: rest => fixedLength body :: fixedLengthRules rest

end

/-- The number of characters consumed by every match, if there is such a number, among the given
rules. -/
def fixedLengthIn (rules : List (Rule α)) (e : Expr α) : Option Nat :=
  e.fixedLength maxCallDepth (unfoldLength (fixedLengthRules rules) maxCallDepth)

/-! ## Actions -/

mutual

/-- Whether an action is written in the expression, the rules of grammars in it included. -/
def writesAction : Expr α → Bool
  | action _ _ => true
  | seq first second => writesAction first || writesAction second
  | choice first second => writesAction first || writesAction second
  | star body => writesAction body
  | not body => writesAction body
  | and body => writesAction body
  | behind _ body => writesAction body
  | grammar rules => writesActionRules rules
  | char _ => false
  | set _ => false
  | any => false
  | empty => false
  | fail => false
  | openCall _ => false
  | ruleCall _ => false

/-- Whether an action is written in one of the rules. -/
def writesActionRules : List (Rule α) → Bool
  | [] => false
  | ⟨_, body⟩ :: rest => writesAction body || writesActionRules rest

end

/-- The rules that the expression calls, without those called inside the grammars in it. -/
def calls : Expr α → List Nat
  | seq first second => calls first ++ calls second
  | choice first second => calls first ++ calls second
  | star body => calls body
  | not body => calls body
  | and body => calls body
  | behind _ body => calls body
  | action _ body => calls body
  | ruleCall i => [i]
  | grammar _ => []
  | char _ => []
  | set _ => []
  | any => []
  | empty => []
  | fail => []
  | openCall _ => []

/-- Whether an action is written in a rule that can be reached from those still `due`, given the
rules `seen` before.  The answer is yes when the steps run out, which `hasActionsIn` rules out. -/
def actionReached (rules : List (Rule α)) : Nat → List Nat → List Nat → Bool
  | _, [], _ => false
  | 0, _ :: _, _ => true
  | steps + 1, i :: due, seen =>
    if i ∈ seen then actionReached rules steps due seen
    else
      match rules[i]? with
      | none => actionReached rules steps due seen
      | some r =>
        writesAction r.body || actionReached rules steps (calls r.body ++ due) (i :: seen)

/-- Whether an action occurs in the expression or in a rule that its calls lead to.  Every rule puts
its calls on the list of those due at most once, which bounds the steps. -/
def hasActionsIn (rules : List (Rule α)) (e : Expr α) : Bool :=
  writesAction e ||
    actionReached rules (e.calls ++ rules.flatMap fun r => r.body.calls).length e.calls []

-- the equations are made here once, and not anew in every proof that unfolds by them
attribute [grind =] nullable noFail headFail fixedLength writesAction calls

end Expr
end PegMachine
