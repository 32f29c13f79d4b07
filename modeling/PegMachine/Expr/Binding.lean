import PegMachine.Error
import PegMachine.Expr.Basic

/-!
# Names, calls and the resolved form

An open call names a rule through the list of names of its pattern.  This file has the operations
that keep that connection right and, in the end, use it up:

* `shift` — renumbers open calls, for the time when two lists of names are put one after the other.
* `bindCalls` — turns each open call into a call of the rule with its name, or reports the first
  name, from left to right, that is no rule.
* `rightNest` — regroups sequences and choices so that no sequence starts with a sequence and no
  choice with a choice; this is the form that compilation starts from.
* `resolve` — both, one after the other.

None of them looks into a grammar inside the expression, whose calls are bound already.
-/

set_option autoImplicit false

namespace PegMachine.Expr

variable {α : Type}

/-- Adds `n` to the index of every open call. -/
def shift (n : Nat) : Expr α → Expr α
  | seq first second => seq (shift n first) (shift n second)
  | choice first second => choice (shift n first) (shift n second)
  | star body => star (shift n body)
  | not body => not (shift n body)
  | and body => and (shift n body)
  | behind width body => behind width (shift n body)
  | action a body => action a (shift n body)
  | openCall i => openCall (i + n)
  | char c => char c
  | set s => set s
  | any => any
  | empty => empty
  | fail => fail
  | ruleCall i => ruleCall i
  | grammar rules => grammar rules

/-! ## Binding -/

/-- The place among `names` of the rule that open call `i` stands for, when `refs` are the names
that the pattern refers to. -/
def ruleOf (refs names : List String) (i : Nat) : Except Error Nat :=
  let name := (refs[i]?).getD ""
  match names.idxOf? name with
  | some rule => .ok rule
  | none => .error (.undefinedRule name)

/-- Binds every open call to the rule of its name. -/
def bindCalls (refs names : List String) : Expr α → Except Error (Expr α)
  | seq first second => do
    let first ← bindCalls refs names first
    let second ← bindCalls refs names second
    return seq first second
  | choice first second => do
    let first ← bindCalls refs names first
    let second ← bindCalls refs names second
    return choice first second
  | star body => return star (← bindCalls refs names body)
  | not body => return not (← bindCalls refs names body)
  | and body => return and (← bindCalls refs names body)
  | behind width body => return behind width (← bindCalls refs names body)
  | action a body => return action a (← bindCalls refs names body)
  | openCall i => return ruleCall (← ruleOf refs names i)
  | char c => return char c
  | set s => return set s
  | any => return any
  | empty => return empty
  | fail => return fail
  | ruleCall i => return ruleCall i
  | grammar rules => return grammar rules

/-! ## Nesting to the right -/

/-- What stands to the right of an expression in the chain that is being built. -/
inductive Rest (α : Type) where
  /-- Nothing: the expression is not part of a chain. -/
  | alone
  /-- The remaining operands of a sequence. -/
  | ofSeq (rest : Expr α)
  /-- The remaining operands of a choice. -/
  | ofChoice (rest : Expr α)

/-- Puts one operand in front of the rest of its chain. -/
def Rest.chain : Rest α → Expr α → Expr α
  | alone, e => e
  | ofSeq rest, e => seq e rest
  | ofChoice rest, e => choice e rest

/-- The operands of an expression, nested to the right in front of the rest of their chain.  A chain
goes on through operands of its own kind and starts anew at all others. -/
def nestOnto : Expr α → Rest α → Expr α
  | seq first second, .ofSeq rest => nestOnto first (.ofSeq (nestOnto second (.ofSeq rest)))
  | seq first second, r => r.chain (nestOnto first (.ofSeq (nestOnto second .alone)))
  | choice first second, .ofChoice rest =>
    nestOnto first (.ofChoice (nestOnto second (.ofChoice rest)))
  | choice first second, r => r.chain (nestOnto first (.ofChoice (nestOnto second .alone)))
  | star body, r => r.chain (star (nestOnto body .alone))
  | not body, r => r.chain (not (nestOnto body .alone))
  | and body, r => r.chain (and (nestOnto body .alone))
  | behind width body, r => r.chain (behind width (nestOnto body .alone))
  | action a body, r => r.chain (action a (nestOnto body .alone))
  | char c, r => r.chain (char c)
  | set s, r => r.chain (set s)
  | any, r => r.chain any
  | empty, r => r.chain empty
  | fail, r => r.chain fail
  | openCall i, r => r.chain (openCall i)
  | ruleCall i, r => r.chain (ruleCall i)
  | grammar rules, r => r.chain (grammar rules)

/-- The expression with its sequences and choices nested to the right. -/
def rightNest (e : Expr α) : Expr α := e.nestOnto .alone

/-- The form in which an expression becomes part of a grammar or is compiled: every open call bound
to a rule of the enclosing grammar, whose rules are named `names`, and nested to the right. -/
def resolve (refs names : List String) (e : Expr α) : Except Error (Expr α) :=
  return (← bindCalls refs names e).rightNest

end PegMachine.Expr
