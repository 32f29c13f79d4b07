import PegMachine.Proofs.Expr.Resolution

/-!
# Lookbehinds are as wide as what they match

A lookbehind moves back by its width and matches its body from there on, and what comes out is right
only if the body ends where the lookbehind started.  `Expr.fitted` says that every lookbehind of an
expression, and of the grammars in it, has the fixed length of its body for its width.

The length is asked for without any rules, so that calls have none.  It therefore does not depend on
the numbers of open calls, on what they are bound to, or on how sequences are nested, and neither
does `fitted`: renumbering, binding and nesting to the right keep it (`fitted_substCalls`,
`chains_fitted`, and `fitted_of_resolve` for the last two at once).

A lookbehind that does not move back at all has no instruction of its own in the code of an
expression, and is refused when a pattern is put together.  `Expr.movesBack` says that there are
none in an expression, and is kept in the same way.
-/

set_option autoImplicit false

namespace PegMachine

theorem unfoldLength_nil (d : Nat) : unfoldLength [] d = fun _ => none := by
  funext i
  cases d <;> rfl

theorem unfoldLength_zero (bodies : List (Nat → (Nat → Option Nat) → Option Nat)) :
    unfoldLength bodies 0 = fun _ => none := by
  funext i
  rfl

namespace Expr

variable {α : Type}

/-- The length of an expression by itself, in which calls have no fixed length. -/
def ownLength (e : Expr α) : Option Nat := e.fixedLength maxCallDepth fun _ => none

theorem fixedLengthIn_nil (e : Expr α) : e.fixedLengthIn [] = e.ownLength := by
  rw [fixedLengthIn, fixedLengthRules, unfoldLength_nil, ownLength]

mutual

/-- Whether every lookbehind is as wide as its body is long. -/
def fitted : Expr α → Prop
  | behind width body => body.ownLength = some width ∧ fitted body
  | seq first second => fitted first ∧ fitted second
  | choice first second => fitted first ∧ fitted second
  | star body => fitted body
  | not body => fitted body
  | and body => fitted body
  | action _ body => fitted body
  | grammar rules => fittedRules rules
  | char _ => True
  | set _ => True
  | any => True
  | empty => True
  | fail => True
  | openCall _ => True
  | ruleCall _ => True

/-- `fitted` for the body of each rule. -/
def fittedRules : List (Rule α) → Prop
  | [] => True
  | ⟨_, body⟩ :: rest => fitted body ∧ fittedRules rest

end

theorem fittedRules_iff {rules : List (Rule α)} :
    fittedRules rules ↔ ∀ r ∈ rules, fitted r.body := by
  induction rules with
  | nil => simp [fittedRules]
  | cons r rest ih =>
    obtain ⟨name, body⟩ := r
    simp [fittedRules, ih]

theorem fittedRules.body {rules : List (Rule α)} (h : fittedRules rules) {i : Nat} {r : Rule α}
    (hr : rules[i]? = some r) : fitted r.body :=
  fittedRules_iff.1 h r (List.mem_of_getElem? hr)

/-! ## What stands for open calls -/

/-- Lookbehinds still fit when something that has no length of its own is put in the place of open
calls. -/
theorem fitted_substCalls {f : Nat → Expr α} (hf : ∀ i, (f i).fitted)
    (hlength : ∀ i, (f i).ownLength = none) {e : Expr α} (h : fitted e) :
    fitted (e.substCalls f) := by
  induction e with
  | seq first second ih₁ ih₂ | choice first second ih₁ ih₂ => exact ⟨ih₁ h.1, ih₂ h.2⟩
  | star body ih | not body ih | and body ih | action a body ih =>
    have hbody : fitted (body.substCalls f) := ih h
    exact hbody
  | behind width body ih => exact ⟨(fixedLength_substCalls hlength body).trans h.1, ih h.2⟩
  | openCall i => exact hf i
  | _ => exact h

/-! ## Nesting to the right -/

theorem fixedLength_seq (b : Nat) (call : Nat → Option Nat) (first second : Expr α) :
    (seq first second).fixedLength b call
      = (first.fixedLength b call).bind fun m => (second.fixedLength b call).map (m + ·) := by
  rw [fixedLength]
  cases first.fixedLength b call <;> rfl

theorem fixedLength_choice (b : Nat) (call : Nat → Option Nat) (first second : Expr α) :
    (choice first second).fixedLength b call = (first.fixedLength b call).bind fun m =>
      if second.fixedLength b call = some m then some m else none := by
  rw [fixedLength]
  cases first.fixedLength b call <;> rfl

theorem chains_fixedLength (b : Nat) (call : Nat → Option Nat) :
    Chains (fun e : Expr α => e.fixedLength b call) (fun a b => a.bind fun m => b.map (m + ·))
      fun a b => a.bind fun m => if b = some m then some m else none where
  seq := fixedLength_seq b call
  choice := fixedLength_choice b call
  seq_assoc a b c := by
    cases a <;> cases b <;> cases c <;> simp [Nat.add_assoc]
  choice_assoc a b c := by
    cases a <;> cases b <;> cases c <;> simp
    grind
  star _ _ := rfl
  not _ _ := rfl
  and _ _ := rfl
  behind _ _ _ := rfl
  action _ _ _ := rfl

/-- Nesting to the right keeps the length of an expression by itself. -/
theorem ownLength_rightNest (e : Expr α) : e.rightNest.ownLength = e.ownLength :=
  (chains_fixedLength maxCallDepth fun _ => none).rightNest e

theorem chains_fitted : Chains (fitted (α := α)) And And where
  seq _ _ := rfl
  choice _ _ := rfl
  seq_assoc _ _ _ := propext and_assoc
  choice_assoc _ _ _ := propext and_assoc
  star _ h := h
  not _ h := h
  and _ h := h
  behind width e h := by rw [fitted, fitted, ownLength_rightNest, h]
  action _ _ h := h

/-- Lookbehinds still fit after an expression is bound to names and nested to the right. -/
theorem fitted_of_resolve {refs names : List String} {e e' : Expr α}
    (hr : e.resolve refs names = .ok e') (h : fitted e) : fitted e' := by
  obtain ⟨-, rfl⟩ := of_resolve hr
  exact (chains_fitted.rightNest _).mpr
    (fitted_substCalls (fun _ => by rw [fitted]; trivial) (fun _ => rfl) h)

/-! ## Moving back by something -/

mutual

/-- No lookbehind is of width zero. -/
def movesBack : Expr α → Prop
  | behind width body => width ≠ 0 ∧ movesBack body
  | seq first second => movesBack first ∧ movesBack second
  | choice first second => movesBack first ∧ movesBack second
  | star body => movesBack body
  | not body => movesBack body
  | and body => movesBack body
  | action _ body => movesBack body
  | grammar rules => movesBackRules rules
  | char _ => True
  | set _ => True
  | any => True
  | empty => True
  | fail => True
  | openCall _ => True
  | ruleCall _ => True

/-- `movesBack` for the body of each rule. -/
def movesBackRules : List (Rule α) → Prop
  | [] => True
  | ⟨_, body⟩ :: rest => movesBack body ∧ movesBackRules rest

end

theorem movesBackRules_iff {rules : List (Rule α)} :
    movesBackRules rules ↔ ∀ r ∈ rules, movesBack r.body := by
  induction rules with
  | nil => simp [movesBackRules]
  | cons r rest ih =>
    obtain ⟨name, body⟩ := r
    simp [movesBackRules, ih]

theorem movesBack_substCalls {f : Nat → Expr α} (hf : ∀ i, (f i).movesBack) {e : Expr α}
    (h : movesBack e) : movesBack (e.substCalls f) := by
  induction e with
  | seq first second ih₁ ih₂ | choice first second ih₁ ih₂ => exact ⟨ih₁ h.1, ih₂ h.2⟩
  | star body ih | not body ih | and body ih | action a body ih =>
    have hbody : movesBack (body.substCalls f) := ih h
    exact hbody
  | behind width body ih => exact ⟨h.1, ih h.2⟩
  | openCall i => exact hf i
  | _ => exact h

theorem chains_movesBack : Chains (movesBack (α := α)) And And where
  seq _ _ := rfl
  choice _ _ := rfl
  seq_assoc _ _ _ := propext and_assoc
  choice_assoc _ _ _ := propext and_assoc
  star _ h := h
  not _ h := h
  and _ h := h
  behind _ _ h := by rw [movesBack, movesBack, h]
  action _ _ h := h

theorem movesBack_of_resolve {refs names : List String} {e e' : Expr α}
    (hr : e.resolve refs names = .ok e') (h : movesBack e) : movesBack e' := by
  obtain ⟨-, rfl⟩ := of_resolve hr
  exact (chains_movesBack.rightNest _).mpr
    (movesBack_substCalls (fun _ => by rw [movesBack]; trivial) h)

end Expr
end PegMachine
