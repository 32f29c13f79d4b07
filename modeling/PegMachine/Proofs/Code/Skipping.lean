import PegMachine.Code.Emission
import PegMachine.Proofs.Expr.Asking

/-!
# Tests that skip no questions

A test of the next character saves trying an expression: an alternative of a choice, the rounds of a
repetition, or what is looked ahead for.  Also, where the next character has told which alternative
to take, the other one is left out when the first fails, and where it has told what to do at the end
of a part of a sequence, what follows is left out.  What is left out in these ways would not have
matched.  But unless its head is candid, it might have asked an action.

* `asksKept` — no code that is laid out for the expression leaves out a question.  The recursion is
  that of `emit`.
-/

set_option autoImplicit false

namespace PegMachine.Expr

variable {α : Type}

/-- Whether a test for the head that is made before the expression is tried skips no questions. -/
def testCandid (rules : List (Rule α)) (e : Expr α) : Bool :=
  !(e.headIn rules .full).needsChar || e.candidIn rules

mutual

/-- Whether the code of the expression leaves out no questions to actions. -/
def asksKept : Expr α → List (Rule α) → CharSet → Bool
  | seq first second, rules, follow =>
    let next := if first.usesFollow then (second.headIn rules follow).chars else .full
    (!first.usesFollow || second.candidIn rules)
      && asksKept first rules next && asksKept second rules follow
  | choice first second, rules, follow =>
    first.testCandid rules &&
      if first.toldByNext rules (second.headIn rules follow).chars then
        (first.headFailIn rules || second.candidIn rules)
          && asksKept first rules follow && asksKept second rules follow
      else asksKept first rules .full && asksKept second rules follow
  | star body, rules, _ => body.testCandid rules && asksKept body rules .full
  | not body, rules, _ =>
    if body.headFailIn rules then !body.hasActionsIn rules
    else body.testCandid rules && asksKept body rules .full
  | and body, rules, _ => asksKept body rules .full
  | behind _ body, rules, _ => asksKept body rules .full
  | action _ body, rules, _ => asksKept body rules .full
  | grammar rules, _, _ => asksKeptRules rules rules
  | char _, _, _ => true
  | set _, _, _ => true
  | any, _, _ => true
  | empty, _, _ => true
  | fail, _, _ => true
  | openCall _, _, _ => true
  | ruleCall _, _, _ => true

/-- `asksKept` for the body of each rule. -/
def asksKeptRules : List (Rule α) → List (Rule α) → Bool
  | [], _ => true
  | ⟨_, body⟩ :: rest, rules => asksKept body rules .full && asksKeptRules rest rules

end

attribute [grind =] asksKept

theorem asksKeptRules_iff {rules all : List (Rule α)} :
    asksKeptRules rules all = true ↔ ∀ r ∈ rules, r.body.asksKept all .full = true := by
  induction rules with
  | nil => simp [asksKeptRules]
  | cons r rest ih =>
    obtain ⟨name, body⟩ := r
    simp [asksKeptRules, ih]

theorem candidIn_of_testCandid {rules : List (Rule α)} {e : Expr α}
    (h : e.testCandid rules = true) (hn : (e.headIn rules .full).needsChar = true) :
    e.candidIn rules = true := by
  rwa [testCandid, hn, Bool.not_true, Bool.false_or] at h

end PegMachine.Expr
