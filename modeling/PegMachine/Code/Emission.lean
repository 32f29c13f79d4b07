import PegMachine.Code.Jumps
import PegMachine.Expr.HeadSet

/-!
# Code for expressions

The code of an expression is laid out from a given address on, with absolute targets.  Laid out
plainly, a choice pushes a frame, tries its first alternative and drops the frame when that
succeeds. Most of the work here goes into doing without: where the next character tells which
alternative to take, because the first can fail there and then only, or because the second cannot
start with it, the code is a test and a jump.  Repetitions and lookaheads profit in the same way.

`emit` takes, beside the expression and the address,

* the rules of the enclosing grammar;
* `reuse` — the expression ends the body of something whose frame is on top of the stack, and may
  move that frame up instead of pushing one of its own;
* `guard` — the character or set that the next character has just been tested for;
* `follow` — the characters that can come after the expression.

How the open calls of a grammar become calls of its rules, once their addresses are known, is left
to the function `link`; compilation uses `Segment.resolveCalls`.
-/

set_option autoImplicit false

namespace PegMachine

namespace Instr

variable {α : Type}

/-- Consumes a given character, which need not be looked at again if it has been tested for. -/
def forChar (c : Char) (guard : Option Guard) : Instr α :=
  if guard = some (.char c) then tested (.char c) else char c

/-- Consumes a character of a set. -/
def forSet (s : CharSet) (guard : Option Guard) : Instr α :=
  match s.extent with
  | .none => fail
  | .all => any
  | .one c => forChar c guard
  | .several => if guard = some (.set s) then tested (.set s) else set (CharClass.ofSet s)

/-- Jumps unless a character of the set follows. -/
def forTest (s : CharSet) (target : Nat) : Instr α :=
  match s.extent with
  | .none => jump target
  | .all => testAny target
  | .one c => testChar c target
  | .several => testSet (.pending s) target

/-- The test for a head, if matching needs a next character from it at all. -/
def headTest (h : Head) (target : Nat) : List (Instr α) :=
  if h.needsChar then [forTest h.chars target] else []

/-- The lengths added up: the addresses of pieces of code laid out one after the other. -/
def starts (base : Nat) : List (List (Instr α)) → List Nat
  | [] => []
  | code :: rest => base :: starts (base + code.length) rest

end Instr

namespace Head

/-- What `Instr.headTest` establishes. -/
def guard (h : Head) : Option Guard := if h.needsChar then Guard.ofSet h.chars else none

/-- The number of instructions of `Instr.headTest`. -/
def testLength (h : Head) : Nat := if h.needsChar then 1 else 0

end Head

namespace Expr

variable {α : Type}

/-- Whether this is the empty string. -/
def isEmpty : Expr α → Bool
  | empty => true
  | _ => false

mutual

/-- The code of an expression. -/
def emit (link : List Nat → Segment α → Segment α) :
    Expr α → List (Rule α) → Bool → Option Guard → CharSet → Nat → List (Instr α)
  | char c, _, _, guard, _, _ => [.forChar c guard]
  | set s, _, _, guard, _, _ => [.forSet s guard]
  | any, _, _, _, _, _ => [.any]
  | empty, _, _, _, _, _ => []
  | fail, _, _, _, _, _ => [.fail]
  | openCall _, _, _, _, _, _ => []
  | ruleCall i, _, _, _, _, _ => [.openCall i]
  | seq first second, rules, reuse, guard, follow, base =>
    let next := if first.usesFollow then (second.headIn rules follow).chars else .full
    let code₁ := emit link first rules false guard next base
    let guard₂ := if first.fixedLengthIn rules = some 0 then guard else none
    code₁ ++ emit link second rules reuse guard₂ follow (base + code₁.length)
  | choice first second, rules, reuse, _, follow, base =>
    let h := first.headIn rules .full
    if first.toldByNext rules (second.headIn rules follow).chars then
      let code₁ := emit link first rules false (Guard.ofSet h.chars) follow (base + 1)
      let other := base + 1 + code₁.length + if second.isEmpty then 0 else 1
      let code₂ := emit link second rules reuse none follow other
      let skip := if second.isEmpty then [] else [.jump (other + code₂.length)]
      .forTest h.chars other :: code₁ ++ skip ++ code₂
    else if reuse && second.isEmpty then
      .partialCommit (base + 1) :: emit link first rules true none .full (base + 1)
    else
      let code₁ := emit link first rules second.isEmpty h.guard .full (base + h.testLength + 1)
      let other := base + h.testLength + 1 + code₁.length + 1
      let code₂ := emit link second rules reuse none follow other
      Instr.headTest h other ++ .choice other :: code₁ ++
        .commit (other + code₂.length) :: code₂
  | star body, rules, reuse, _, follow, base =>
    match body.class? with
    | some s => [.span (.ofSet s)]
    | none =>
      let h := body.headIn rules .full
      if body.toldByNext rules follow then
        let code := emit link body rules reuse (Guard.ofSet h.chars) .full (base + 1)
        .forTest h.chars (base + 1 + code.length + 1) :: code ++ [.jump base]
      else
        let first := base + h.testLength + 1
        let code := emit link body rules false none .full first
        let past := first + code.length + 1
        Instr.headTest h past ++ (if reuse then .partialCommit first else .choice past) ::
          code ++ [.partialCommit first]
  | behind width body, rules, _, _, _, base =>
    if width = 0 then emit link body rules false none .full base
    else .behind width :: emit link body rules false none .full (base + 1)
  | not body, rules, _, _, _, base =>
    let h := body.headIn rules .full
    if body.headFailIn rules then
      Instr.headTest h (base + h.testLength + 1) ++ [.fail]
    else
      let code := emit link body rules false none .full (base + h.testLength + 1)
      let past := base + h.testLength + 1 + code.length + 1
      Instr.headTest h past ++ .choice past :: code ++ [.failTwice]
  | and body, rules, _, guard, _, base =>
    match body.fixedLengthIn rules, body.hasActionsIn rules with
    | some length, false =>
      emit link body rules false guard .full base ++ if length = 0 then [] else [.behind length]
    | _, _ =>
      let code := emit link body rules false guard .full (base + 1)
      let failed := base + 1 + code.length + 1
      .choice failed :: code ++ [.backCommit (failed + 1), .fail]
  | action a body, rules, _, guard, _, base =>
    .openAction a :: emit link body rules false guard .full (base + 1) ++ [.closeAction]
  | grammar rules, _, _, _, _, base =>
    let codes := emitRules link rules rules (base + 2)
    let body : Segment α := ⟨base + 2, codes.flatten.toArray⟩
    .call (base + 2) :: .jump (base + 2 + body.code.size) ::
      (link (Instr.starts (base + 2) codes) body).code.toList

/-- The code of each rule of a grammar, with open calls, laid out one after the other. -/
def emitRules (link : List Nat → Segment α → Segment α) :
    List (Rule α) → List (Rule α) → Nat → List (List (Instr α))
  | [], _, _ => []
  | ⟨_, body⟩ :: rest, rules, base =>
    let code := emit link body rules false none .full base ++ [.ret]
    code :: emitRules link rest rules (base + code.length)

end

attribute [grind =] emit emitRules

end Expr
end PegMachine
