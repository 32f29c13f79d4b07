import PegMachine.Expr.Binding
import PegMachine.Expr.Queries

/-!
# Grammars

A grammar is made from named rules whose bodies refer to each other by name.  Making it binds the
references, and then refuses the two ways in which rules could keep a match from ending: a rule that
can reach itself before anything is consumed, and a repetition of something that may be empty.

* `leftWalk` — goes through everything in a rule that can be reached without consuming anything,
  from rule to rule, and objects when it comes to a rule it is already in.
* `hasEmptyLoop` — finds repetitions whose body may be empty.
* `Expr.ofRules` — makes the grammar, or says why there is none.

A grammar inside a rule was checked when it was made, and the walk does not enter it.
-/

set_option autoImplicit false

namespace PegMachine

variable {α : Type}

namespace Expr

/-! ## Left recursion -/

/-- Walks through the parts of an expression that can be reached without consuming anything, inside
the rules `path`.  `idle` tells whether all that was matched before may have been empty; the answer
tells the same for what comes next.  Calls are followed by `call`. -/
def leftWalk (call : Nat → List Nat → Bool → Except Error Bool) :
    Expr α → List Nat → Bool → Except Error Bool
  | char _, _, idle => .ok idle
  | set _, _, idle => .ok idle
  | any, _, idle => .ok idle
  | fail, _, idle => .ok idle
  | openCall _, _, idle => .ok idle
  | empty, _, _ => .ok true
  | behind _ _, _, _ => .ok true
  | grammar rules, _, _ => .ok (nullableIn [] (grammar rules))
  | action _ body, path, idle => leftWalk call body path idle
  | ruleCall i, path, idle => call i path idle
  | not body, path, _ => leftWalk call body path true
  | and body, path, _ => leftWalk call body path true
  | star body, path, _ => leftWalk call body path true
  | seq first second, path, idle => do
    if ← leftWalk call first path false then leftWalk call second path idle
    else return idle
  | choice first second, path, idle => do
    let idle ← leftWalk call first path idle
    leftWalk call second path idle

/-- Walks into a rule, unless the walk is inside it already.  A walk that is in `depth` rules fewer
than there are has that many left to enter, so it never gets to the last line with a rule that it is
not in. -/
def leftCall (rules : List (Rule α)) : Nat → Nat → List Nat → Bool → Except Error Bool
  | depth, i, path, idle =>
    match rules[i]? with
    | none => .ok idle
    | some rule =>
      if i ∈ path then .error (.leftRecursiveRule rule.name)
      else
        match depth with
        | depth + 1 => leftWalk (leftCall rules depth) rule.body (i :: path) idle
        | 0 => .error (.leftRecursiveRule rule.name)

/-! ## Empty loops -/

/-- Whether the expression repeats something that may be empty, from the answers of `nullable` for
its calls. -/
def hasEmptyLoop (call : Nat → Bool) : Expr α → Bool
  | star body => body.nullable call || hasEmptyLoop call body
  | not body => hasEmptyLoop call body
  | and body => hasEmptyLoop call body
  | behind _ body => hasEmptyLoop call body
  | action _ body => hasEmptyLoop call body
  | seq first second => hasEmptyLoop call first || hasEmptyLoop call second
  | choice first second => hasEmptyLoop call first || hasEmptyLoop call second
  | char _ => false
  | set _ => false
  | any => false
  | empty => false
  | fail => false
  | openCall _ => false
  | ruleCall _ => false
  | grammar _ => false

/-! ## Making a grammar -/

/-- Refuses a list of rule names that has an empty name, or one that occurred before; `seen` are the
names that stand in front of the list. -/
def checkNames (seen : List String) : List String → Except Error Unit
  | [] => .ok ()
  | name :: rest =>
    if name = "" then .error .emptyRuleName
    else if name ∈ seen then .error (.duplicateRule name)
    else checkNames (name :: seen) rest

/-- Refuses rules of which one, in the order given, may call itself before it consumes anything. -/
def checkLeftRecursion (rules : List (Rule α)) : Except Error Unit :=
  (List.range rules.length).forM fun i => do
    match rules[i]? with
    | none => return
    | some rule => discard <| leftWalk (leftCall rules rules.length) rule.body [i] false

/-- Refuses rules of which one repeats something that may be empty. -/
def checkEmptyLoops (rules : List (Rule α)) : Except Error Unit :=
  let call := unfold true false (nullableRules rules) rules.length
  match rules.find? fun rule => rule.body.hasEmptyLoop call with
  | some rule => .error (.emptyLoopInRule rule.name)
  | none => .ok ()

/-- Resolves the body of each rule against the names of all of them. -/
def resolveRules (names : List String) :
    List (String × List String × Expr α) → Except Error (List (Rule α))
  | [] => return []
  | (name, refs, body) :: rest => do
    let body ← body.resolve refs names
    let rest ← resolveRules names rest
    return ⟨name, body⟩ :: rest

/-- The grammar of the given rules, each with its name, the names that it refers to, and its body.
The first rule is where a match of the grammar starts. -/
def ofRules (rules : List (String × List String × Expr α)) : Except Error (Expr α) := do
  if rules = [] then throw .emptyGrammar
  if maxRules < rules.length then throw .tooManyRules
  let names := rules.map (·.1)
  checkNames [] names
  let bound ← resolveRules names rules
  checkLeftRecursion bound
  checkEmptyLoops bound
  return grammar bound

end Expr
end PegMachine
