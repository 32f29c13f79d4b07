import PegMachine.Expr.Queries

/-!
# Head sets

The head of an expression is the set of characters that can come next when the expression is about
to match: a next character outside of it means that the expression fails.  If the expression can
match without consuming anything, what comes next is up to what follows the expression, so the head
is computed from the *follow set*, the characters that can come after it.

Beside the set, the head tells whether the expression may match without consuming anything, and
whether it may run an action in doing so; if neither, it needs a next character that is in the set.
Compilation uses heads to put a look at the next character in the place of backtracking.
-/

set_option autoImplicit false

namespace PegMachine

/-- What can come next when an expression is about to match. -/
structure Head where
  /-- The characters that can come next. -/
  chars : CharSet
  /-- Whether the expression may match without consuming anything. -/
  mayBeEmpty : Bool
  /-- Whether it may do so and run an action. -/
  mayAct : Bool

namespace Head

/-- The head of an expression that needs one of the given characters. -/
def needs (chars : CharSet) : Head := ⟨chars, false, false⟩

/-- The head of an expression that may be empty, running no action. -/
def emptyOr (chars : CharSet) : Head := ⟨chars, true, false⟩

/-- The head that says nothing: any character may come next, or none. -/
def unknown : Head := ⟨.full, true, true⟩

/-- Whether a next character is needed, and it must be in the set. -/
def needsChar (h : Head) : Bool := !h.mayBeEmpty && !h.mayAct

end Head

namespace Expr

variable {α : Type}

mutual

/-- The head of an expression before the follow set, from the answers of `nullable` for its calls
and the heads of the rules called. -/
def head : Expr α → (Nat → Bool) → (Nat → CharSet → Head) → CharSet → Head
  | char c, _, _, _ => .needs (.ofChar c)
  | set s, _, _, _ => .needs s
  | any, _, _, _ => .needs .full
  | fail, _, _, _ => .needs .empty
  | empty, _, _, follow => .emptyOr follow
  | action _ body, null, call, _ =>
    let h := head body null call .full
    ⟨h.chars, false, h.mayBeEmpty || h.mayAct⟩
  | openCall _, _, _, _ => .emptyOr .full
  | ruleCall i, _, call, follow => call i follow
  | choice first second, null, call, follow =>
    let h₁ := head first null call follow
    let h₂ := head second null call follow
    ⟨h₁.chars.union h₂.chars, h₁.mayBeEmpty || h₂.mayBeEmpty, h₁.mayAct || h₂.mayAct⟩
  | seq first second, null, call, follow =>
    if nullable first null then
      let h₂ := head second null call follow
      let h₁ := head first null call h₂.chars
      if h₁.needsChar then .needs h₁.chars
      else if h₁.mayAct || h₂.mayAct then ⟨h₁.chars, false, true⟩
      else { h₂ with chars := h₁.chars }
    else head first null call .full
  | star body, null, call, follow => .emptyOr ((head body null call follow).chars.union follow)
  | and body, null, call, follow =>
    let h := head body null call follow
    { h with chars := h.chars.inter follow }
  | not body, null, call, follow =>
    match body.class? with
    | some s => .emptyOr s.complement
    | none => { head body null call follow with chars := follow, mayBeEmpty := true }
  | behind _ body, null, call, follow =>
    { head body null call follow with chars := follow, mayBeEmpty := true }
  | grammar rules, _, _, follow =>
    unfold (fun _ => Head.unknown) (fun _ => Head.emptyOr .full)
      (headRules rules (unfold true false (nullableRules rules) rules.length))
      (rules.length + 1) 0 follow

/-- The head of the body of each rule. -/
def headRules : List (Rule α) → (Nat → Bool) → List ((Nat → CharSet → Head) → CharSet → Head)
  | [], _ => []
  | ⟨_, body⟩ :: rest, null => head body null :: headRules rest null

end

attribute [grind =] head

/-- The head of an expression before the follow set, among the given rules. -/
def headIn (rules : List (Rule α)) (e : Expr α) (follow : CharSet) : Head :=
  let null := unfold true false (nullableRules rules) rules.length
  e.head null
    (unfold (fun _ => Head.unknown) (fun _ => Head.emptyOr .full) (headRules rules null)
      rules.length)
    follow

/-- Whether a look at the next character tells if there is any use in trying the expression, where
`others` are the characters that can come next if it is left out. -/
def toldByNext (rules : List (Rule α)) (e : Expr α) (others : CharSet) : Bool :=
  let h := e.headIn rules .full
  e.headFailIn rules || (h.needsChar && !h.chars.intersects others)

/-- Whether the code for the expression depends on what follows it: it ends in a choice or a
repetition. -/
def usesFollow : Expr α → Bool
  | choice _ _ => true
  | star _ => true
  | seq _ second => usesFollow second
  | _ => false

end Expr
end PegMachine
