import PegMachine.Proofs.Expr.Lookbehind

/-!
# The parts of an expression

What an expression is made of: the expressions in it, and in the rules of the grammars in it, at any
depth.  What a part means depends on the rules that its calls lead to, so each part comes with the
rules of the nearest grammar around it.

* `Part` — an expression with its rules is part of another one.
* `Part.fitted` — the lookbehinds in a part are as wide as what they match.
* `Part.inScope` — the calls in a part lead to its rules.
-/

set_option autoImplicit false

namespace PegMachine.Expr

variable {α : Type}

/-- `Part rules e rules' part`: the second expression stands somewhere in the first one, or in a
rule of a grammar there.  Calls in the first expression lead to the first rules, those in the part
to the second. -/
inductive Part : List (Rule α) → Expr α → List (Rule α) → Expr α → Prop
  | refl {rules e} : Part rules e rules e
  | seq_first {rules e₁ e₂ rules' part} : Part rules e₁ rules' part →
      Part rules (.seq e₁ e₂) rules' part
  | seq_second {rules e₁ e₂ rules' part} : Part rules e₂ rules' part →
      Part rules (.seq e₁ e₂) rules' part
  | choice_first {rules e₁ e₂ rules' part} : Part rules e₁ rules' part →
      Part rules (.choice e₁ e₂) rules' part
  | choice_second {rules e₁ e₂ rules' part} : Part rules e₂ rules' part →
      Part rules (.choice e₁ e₂) rules' part
  | star {rules body rules' part} : Part rules body rules' part →
      Part rules (.star body) rules' part
  | not {rules body rules' part} : Part rules body rules' part →
      Part rules (.not body) rules' part
  | and {rules body rules' part} : Part rules body rules' part →
      Part rules (.and body) rules' part
  | behind {rules width body rules' part} : Part rules body rules' part →
      Part rules (.behind width body) rules' part
  | action {rules a body rules' part} : Part rules body rules' part →
      Part rules (.action a body) rules' part
  | rule {rules inner r rules' part} : r ∈ inner → Part inner r.body rules' part →
      Part rules (.grammar inner) rules' part

variable {rules rules' : List (Rule α)} {e part : Expr α}

/-- **The lookbehinds of a part fit**, and those in its rules, if those of the whole do. -/
theorem Part.fitted (h : Part rules e rules' part) (hr : fittedRules rules) (he : e.fitted) :
    fittedRules rules' ∧ part.fitted := by
  induction h with
  | refl => exact ⟨hr, he⟩
  | seq_first _ ih | choice_first _ ih => exact ih hr he.1
  | seq_second _ ih | choice_second _ ih => exact ih hr he.2
  | star _ ih | not _ ih | and _ ih | action _ ih => exact ih hr he
  | behind _ ih => exact ih hr he.2
  | rule hmem _ ih =>
    have hinner : fittedRules _ := he
    exact ih hinner (fittedRules_iff.1 hinner _ hmem)

theorem Part.movesBack (h : Part rules e rules' part) (he : e.movesBack) : part.movesBack := by
  induction h with
  | refl => exact he
  | seq_first _ ih | choice_first _ ih => exact ih he.1
  | seq_second _ ih | choice_second _ ih => exact ih he.2
  | star _ ih | not _ ih | and _ ih | action _ ih => exact ih he
  | behind _ ih => exact ih he.2
  | rule hmem _ ih =>
    have hinner : movesBackRules _ := he
    exact ih (movesBackRules_iff.1 hinner _ hmem)

/-- **The calls in a part lead to its rules**, and those in its rules, if those of the whole do. -/
theorem Part.inScope (h : Part rules e rules' part) (hr : inScopeRules rules.length rules)
    (he : e.inScope False rules.length) :
    inScopeRules rules'.length rules' ∧ part.inScope False rules'.length := by
  induction h with
  | refl => exact ⟨hr, he⟩
  | seq_first _ ih | choice_first _ ih => exact ih hr he.1
  | seq_second _ ih | choice_second _ ih => exact ih hr he.2
  | star _ ih | not _ ih | and _ ih | behind _ ih | action _ ih => exact ih hr he
  | rule hmem _ ih =>
    obtain ⟨-, hinner⟩ := he
    exact ih hinner (inScopeRules_iff.1 hinner _ hmem)

end PegMachine.Expr
